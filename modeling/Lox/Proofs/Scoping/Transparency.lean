/-
A block that declares nothing itself might as well not be one
(`Machine.block_transparent`). Its frame stays empty: a walk outward from the
blocks inside it meets that frame, finds nothing there and goes on to what it
would have found without it.

The run with the block and the run without it are tied by
`Machine.Sidesteps`. The one has a frame more than the other, which binds
nothing; later frames have numbers that are off by one; and but for that frame,
the walks from where the two stand are the same. Every step keeps the two tied
(`Stmt.follows_exec`), but for a declaration in the empty frame itself.
-/
import Lox.Proofs.Machine.Refinement

namespace Lox

/-! ## One frame more -/

namespace Scopes

/-- The number of a frame where one more frame, numbered `k`, is put in. -/
def shifted (k i : Nat) : Nat := if i < k then i else i + 1

theorem shifted_of_lt {k i : Nat} (h : i < k) : shifted k i = i := if_pos h

theorem shifted_of_le {k i : Nat} (h : k ≤ i) : shifted k i = i + 1 := if_neg (Nat.not_lt.mpr h)

theorem le_shifted (k i : Nat) : i ≤ shifted k i := by
  unfold shifted
  split <;> omega

theorem shifted_lt {k i length : Nat} (h : i < length) : shifted k i < length + 1 := by
  unfold shifted
  split <;> omega

theorem shifted_ne (k i : Nat) : shifted k i ≠ k := by
  unfold shifted
  split <;> omega

theorem shifted_inj {k i j : Nat} (h : shifted k i = shifted k j) : i = j := by
  unfold shifted at h
  split at h <;> split at h <;> omega

/-- A walk from an older frame does not meet the one put in. -/
theorem filter_chain_of_lt {s : Scopes} {k frame : Nat} (h : frame < k) :
    (s.chain frame).filter (· ≠ k) = (s.chain frame).map (shifted k) := by
  have hlt : ∀ i ∈ s.chain frame, i < k := fun i hi => Nat.lt_of_le_of_lt (le_of_mem_chain hi) h
  have hfilter : (s.chain frame).filter (· ≠ k) = s.chain frame :=
    List.filter_eq_self.mpr fun i hi => by simpa using Nat.ne_of_lt (hlt i hi)
  have hmap : (s.chain frame).map (shifted k) = (s.chain frame).map id :=
    List.map_congr_left fun i hi => shifted_of_lt (hlt i hi)
  rw [hfilter, hmap, List.map_id]

end Scopes

open Scopes

section

variable {W : Type}

namespace Machine

/-- `n` has one frame more than `m`, with the number `k`, which binds nothing.
The other frames bind the same, and the walks outward meet the same of them. -/
structure Sidesteps (k : Nat) (m n : Machine W) : Prop where
  grounded : m.Grounded
  there : n.Grounded
  frames : n.scopes.frames.length = m.scopes.frames.length + 1
  le : k ≤ m.scopes.frames.length
  empty : ∀ x, n.scopes.local? x k = none
  bindings : ∀ x i, n.scopes.local? x (shifted k i) = m.scopes.local? x i
  walk : (n.scopes.chain n.current).filter (· ≠ k) = (m.scopes.chain m.current).map (shifted k)
  sink : n.sink = m.sink

/-- In a block, the walk begins with its frame and goes on as around it. -/
theorem Grounded.chain_entering {m : Machine W} (h : m.Grounded) (count : Nat) :
    (m.entering count).scopes.chain (m.entering count).current =
      m.scopes.frames.length :: m.scopes.chain m.current := by
  rw [h.current_entering]
  exact chain_nest h

namespace Sidesteps

variable {k : Nat} {m n : Machine W} (h : m.Sidesteps k n)

include h

/-- A walk that looks for a name passes the empty frame by. -/
theorem binder? (x : String) :
    n.scopes.binder? n.current x = (m.scopes.binder? m.current x).map (shifted k) := by
  have hskip : n.scopes.binder? n.current x = ((n.scopes.chain n.current).filter (· ≠ k)).find?
      fun i => (n.scopes.local? x i).isSome := by
    rw [List.find?_filter, Scopes.binder?]
    congr 1
    funext i
    by_cases hi : i = k
    · simp [hi, h.empty]
    · simp [hi]
  have hbound : ((fun i => (n.scopes.local? x i).isSome) ∘ shifted k) =
      fun i => (m.scopes.local? x i).isSome := by
    funext i
    simp only [Function.comp_apply, h.bindings]
  rw [hskip, h.walk, List.find?_map, hbound, Scopes.binder?]

theorem binder?_eq_none {x : String} (hx : m.scopes.binder? m.current x = none) :
    n.scopes.binder? n.current x = none := by
  rw [h.binder?, hx, Option.map_none]

theorem get? (x : String) : n.scopes.get? n.current x = m.scopes.get? m.current x := by
  rw [Scopes.get?_eq, Scopes.get?_eq, h.binder? x]
  cases m.scopes.binder? m.current x with
  | none => rfl
  | some i => exact h.bindings x i

/-- Outside of the empty frame the two stand in the same frame. -/
theorem current_eq (hk : n.current ≠ k) : n.current = shifted k m.current := by
  have hhead := congrArg List.head? h.walk
  obtain ⟨rest, hrest⟩ := n.scopes.chain_eq_cons n.current
  rw [hrest, List.filter_cons_of_pos (by simpa using hk), List.head?_map, head?_chain] at hhead
  simpa using hhead

theorem define {i : Nat} (hi : i < m.scopes.frames.length) (x : String) (v : Value) :
    Sidesteps k { m with scopes := m.scopes.define i x v }
      { n with scopes := n.scopes.define (shifted k i) x v } where
  grounded := by
    have hlength := length_define m.scopes i x v
    exact Nat.lt_of_lt_of_eq h.grounded hlength.symm
  there := by
    have hlength := length_define n.scopes (shifted k i) x v
    exact Nat.lt_of_lt_of_eq h.there hlength.symm
  frames := by
    rw [length_define, length_define]
    exact h.frames
  le := by
    rw [length_define]
    exact h.le
  empty := by
    intro y
    rw [local?_define_of_ne fun hsame => shifted_ne k i hsame.1.symm]
    exact h.empty y
  bindings := by
    intro y j
    by_cases hsame : j = i ∧ y = x
    · obtain ⟨rfl, rfl⟩ := hsame
      have hj : shifted k j < n.scopes.frames.length := by
        rw [h.frames]
        exact shifted_lt hi
      rw [local?_define_self hj, local?_define_self hi]
    · rw [local?_define_of_ne hsame, local?_define_of_ne, h.bindings]
      rintro ⟨hj, hy⟩
      exact hsame ⟨shifted_inj hj, hy⟩
  walk := by
    rw [chain_define, chain_define]
    exact h.walk
  sink := h.sink

theorem entering (count : Nat) :
    (m.entering count).Sidesteps k (n.entering count) ∧ (n.entering count).current ≠ k := by
  have hframes := h.frames
  have hle := h.le
  have hne : n.scopes.frames.length ≠ k := by omega
  refine ⟨⟨h.grounded.entering count, h.there.entering count, ?_, ?_, ?_, ?_, ?_, h.sink⟩, ?_⟩
  · rw [length_entering, length_entering, hframes]
  · rw [length_entering]
    omega
  · intro x
    exact (local?_nest h.there x k).trans (h.empty x)
  · intro x i
    exact (local?_nest h.there x _).trans ((h.bindings x i).trans (local?_nest h.grounded x i).symm)
  · rw [h.there.chain_entering, h.grounded.chain_entering,
      List.filter_cons_of_pos (by simpa using hne), h.walk, List.map_cons, shifted_of_le hle,
      hframes]
  · rw [h.there.current_entering]
    exact hne

theorem leaving {m₁ n₁ : Machine W} {count : Nat} (hm : (m.entering count).Stays m₁)
    (hn : (n.entering count).Stays n₁) (h₁ : m₁.Sidesteps k n₁) :
    Sidesteps k { m₁ with current := m.current } { n₁ with current := n.current } := by
  have hm' := hm.leaving
  have hn' := hn.leaving
  refine ⟨h.grounded.stays hm', h.there.stays hn', h₁.frames, h₁.le, h₁.empty, h₁.bindings, ?_,
    h₁.sink⟩
  have hwalk : m₁.scopes.chain m.current = m.scopes.chain m.current := hm'.grows.chain h.grounded
  have hwalk' : n₁.scopes.chain n.current = n.scopes.chain n.current := hn'.grows.chain h.there
  rw [hwalk, hwalk']
  exact h.walk

end Sidesteps

end Machine

/-! ## Runs -/

namespace Run

variable {α β : Type} {k : Nat} {m n : Machine W}

/-- However the run ends from `m`, it ends so from `n`, and the two machines it
leaves are tied as well. -/
def Follows (k : Nat) (x : Run W α) (m n : Machine W) : Prop :=
  ∀ r m', x.Ends m r m' → ∃ n', x.Ends n r n' ∧ m'.Sidesteps k n'

/-- Between its two parts a sequence stands in the frame it began in. -/
theorem Follows.bind {x : Run W α} {f : α → Run W β} (hx : x.Follows k m n)
    (hstays : x.Moves Machine.Stays)
    (hf : ∀ a m₁ n₁, m₁.Sidesteps k n₁ → n₁.current = n.current → (f a).Follows k m₁ n₁) :
    (x >>= f).Follows k m n := by
  intro r m' hends
  rcases hends.bind_cases with ⟨a, m₁, ha, hends⟩ | ⟨e, hfault, rfl⟩
  · obtain ⟨n₁, hn₁, h₁⟩ := hx _ _ ha
    obtain ⟨n', hn', h'⟩ := hf a m₁ n₁ h₁ (hstays.of_ends hn₁).current _ _ hends
    exact ⟨n', hn₁.bind hn', h'⟩
  · obtain ⟨n', hn', h'⟩ := hx _ _ hfault
    exact ⟨n', hn'.fault, h'⟩

section

variable (h : m.Sidesteps k n)

include h

theorem follows_pure (a : α) : (pure a : Run W α).Follows k m n := by
  intro r m' hends
  obtain ⟨rfl, rfl⟩ := ends_pure.mp hends
  exact ⟨n, ends_pure.mpr ⟨rfl, rfl⟩, h⟩

theorem follows_ofExcept (x : Except RuntimeError α) : (ofExcept x).Follows k m n := by
  intro r m' hends
  obtain ⟨rfl, rfl⟩ := ends_ofExcept.mp hends
  exact ⟨n, ends_ofExcept.mpr ⟨rfl, rfl⟩, h⟩

theorem follows_lookup (name : Token) : (lookup name).Follows k m n := by
  intro r m' hends
  cases r with
  | ok v =>
    obtain ⟨hv, rfl⟩ := lookup_eq_ok.mp hends
    exact ⟨n, lookup_eq_ok.mpr ⟨(h.get? _).trans hv, rfl⟩, h⟩
  | error e =>
    obtain ⟨hnone, rfl, rfl⟩ := lookup_eq_error.mp hends
    exact ⟨n, lookup_eq_error.mpr ⟨h.binder?_eq_none hnone, rfl, rfl⟩, h⟩

theorem follows_assign (name : Token) (v : Value) : (assign name v).Follows k m n := by
  intro r m' hends
  cases r with
  | ok =>
    obtain ⟨i, hi, rfl⟩ := assign_eq_ok.mp hends
    have hi' : n.scopes.binder? n.current name.lexeme = some (shifted k i) := by
      rw [h.binder?, hi, Option.map_some]
    refine ⟨_, assign_eq_ok.mpr ⟨shifted k i, hi', rfl⟩, ?_⟩
    exact h.define (lt_of_isSome_local? (isSome_local?_of_binder? hi)) name.lexeme v
  | error e =>
    obtain ⟨hnone, rfl, rfl⟩ := assign_eq_error.mp hends
    exact ⟨n, assign_eq_error.mpr ⟨h.binder?_eq_none hnone, rfl, rfl⟩, h⟩

theorem follows_define (hk : n.current ≠ k) (name : Token) (v : Value) :
    (define name v).Follows k m n := by
  intro r m' hends
  obtain ⟨rfl, rfl⟩ := ends_define.mp hends
  have hdefine := h.define h.grounded name.lexeme v
  rw [← h.current_eq hk] at hdefine
  exact ⟨_, ends_define.mpr ⟨rfl, rfl⟩, hdefine⟩

theorem follows_onSink (operation : W → Option String × W) :
    (onSink operation).Follows k m n := by
  intro r m' hends
  have hsink : ∀ sink : W, Machine.Sidesteps k { m with sink } { n with sink } := by
    intro sink
    exact ⟨h.grounded, h.there, h.frames, h.le, h.empty, h.bindings, h.walk, rfl⟩
  rcases ends_onSink.mp hends with ⟨sink, htaken, rfl, rfl⟩ | ⟨cause, sink, hrefused, rfl, rfl⟩
  · exact ⟨_, ends_onSink.mpr (.inl ⟨sink, by rw [h.sink, htaken], rfl, rfl⟩), hsink sink⟩
  · exact ⟨_, ends_onSink.mpr (.inr ⟨cause, sink, by rw [h.sink, hrefused], rfl, rfl⟩), hsink sink⟩

theorem follows_inBlock {body : Run W Unit} {count : Nat}
    (hbody : body.Follows k (m.entering count) (n.entering count))
    (hstays : body.Moves Machine.Stays) : (inBlock count body).Follows k m n := by
  intro r m' hends
  obtain ⟨m₁, hm₁, rfl⟩ := ends_inBlock.mp hends
  obtain ⟨n₁, hn₁, h₁⟩ := hbody _ _ hm₁
  exact ⟨_, ends_inBlock.mpr ⟨n₁, hn₁, rfl⟩,
    h.leaving (hstays.of_ends hm₁) (hstays.of_ends hn₁) h₁⟩

end

/-- A run that does not see the empty frame. -/
structure Sidestepping (k : Nat) (x : Run W α) : Prop where
  stays : x.Moves Machine.Stays
  follows : ∀ {m n : Machine W}, m.Sidesteps k n → x.Follows k m n

/-- No evaluation sees it. -/
theorem sidestepping_evalClosed [Writer W] :
    EvalClosed fun _ (x : Run W _) => x.Sidestepping k where
  pure a := ⟨stays_closed.pure a, fun h => follows_pure h a⟩
  bind hx hf := ⟨stays_closed.bind hx.stays fun a => (hf a).stays,
    fun h => (hx.follows h).bind hx.stays fun a _ _ h₁ _ => (hf a).follows h₁⟩
  ofExcept x := ⟨stays_closed.ofExcept x, fun h => follows_ofExcept h x⟩
  lookup name := ⟨stays_closed.lookup name, fun h => follows_lookup h name⟩
  assign name v := ⟨stays_closed.assign name v, fun h => follows_assign h name v⟩

end Run

open Run

/-! ## Statements -/

/-- Whether the statement may declare a name in the frame it is executed in.
What is declared inside a block is declared in the frame of that block. -/
def Stmt.declaresHere : Stmt → Bool
  | .expression _ | .print _ | .block _ => false
  | .varDecl _ _ => true
  | .ifThen _ thenBranch => thenBranch.declaresHere
  | .ifElse _ thenBranch elseBranch => thenBranch.declaresHere || elseBranch.declaresHere

/-- After an expression the machines are tied as before it. -/
theorem Expr.follows_eval_bind [Writer W] {β : Type} {k : Nat} {m n : Machine W}
    {f : Value → Run W β} (e : Expr) (h : m.Sidesteps k n)
    (hf : ∀ v m₁ n₁, m₁.Sidesteps k n₁ → n₁.current = n.current → (f v).Follows k m₁ n₁) :
    (e.eval >>= f).Follows k m n := by
  have he : (e.eval (W := W)).Sidestepping k := e.eval_of_closed sidestepping_evalClosed
  exact (he.follows h).bind he.stays hf

namespace Stmt

variable [Writer W]

mutual

/-- A statement does not see the empty frame, unless it declares a name in
it. -/
theorem follows_exec : ∀ {s : Stmt} {k : Nat} {m n : Machine W}, m.Sidesteps k n →
    (n.current = k → s.declaresHere = false) → s.exec.Follows k m n
  | .expression e, k, m, n, h, _ => by
    rw [exec]
    exact e.follows_eval_bind h fun v _ _ h₁ _ => follows_pure h₁ ()
  | .print e, k, m, n, h, _ => by
    rw [exec]
    exact e.follows_eval_bind h fun v _ _ h₁ _ => follows_onSink h₁ _
  | .varDecl name none, k, m, n, h, hdeclares => by
    have hk : n.current ≠ k := fun hk => Bool.noConfusion (hdeclares hk)
    rw [exec]
    exact follows_define h hk name .nil
  | .varDecl name (some e), k, m, n, h, hdeclares => by
    have hk : n.current ≠ k := fun hk => Bool.noConfusion (hdeclares hk)
    rw [exec]
    exact e.follows_eval_bind h fun v _ _ h₁ hcurrent =>
      follows_define h₁ (hcurrent.trans_ne hk) name v
  | .block body, k, m, n, h, _ => by
    rw [exec]
    -- In here, declarations are made in the new frame and not in the empty one.
    obtain ⟨hinside, hne⟩ := h.entering body.length
    exact follows_inBlock h (follows_execAll hinside fun hk => absurd hk hne)
      (execAll_of_closed stays_closed body)
  | .ifThen c s, k, m, n, h, hdeclares => by
    rw [exec]
    refine c.follows_eval_bind h fun v m₁ n₁ h₁ hcurrent => ?_
    split
    · exact follows_exec h₁ fun hk => hdeclares (hcurrent.symm.trans hk)
    · exact follows_pure h₁ ()
  | .ifElse c s s', k, m, n, h, hdeclares => by
    rw [exec]
    simp only [declaresHere, Bool.or_eq_false_iff] at hdeclares
    refine c.follows_eval_bind h fun v m₁ n₁ h₁ hcurrent => ?_
    split
    · exact follows_exec h₁ fun hk => (hdeclares (hcurrent.symm.trans hk)).1
    · exact follows_exec h₁ fun hk => (hdeclares (hcurrent.symm.trans hk)).2

theorem follows_execAll : ∀ {ss : List Stmt} {k : Nat} {m n : Machine W}, m.Sidesteps k n →
    (n.current = k → ∀ s ∈ ss, s.declaresHere = false) → (execAll ss).Follows k m n
  | [], k, m, n, h, _ => by
    rw [execAll]
    exact follows_pure h ()
  | s :: ss, k, m, n, h, hdeclares => by
    simp only [List.forall_mem_cons] at hdeclares
    have hs : s.exec.Follows k m n := follows_exec h fun hk => (hdeclares hk).1
    rw [execAll]
    refine hs.bind (s.exec_of_closed stays_closed) fun _ m₁ n₁ h₁ hcurrent => ?_
    exact follows_execAll h₁ fun hk => (hdeclares (hcurrent.symm.trans hk)).2

end

end Stmt

/-! ## A block and its statements -/

namespace Machine

/-- Where a block begins, its own frame is the empty one. -/
theorem Grounded.sidesteps_entering {m : Machine W} (hm : m.Grounded) (count : Nat) :
    m.Sidesteps m.scopes.frames.length (m.entering count) where
  grounded := hm
  there := hm.entering count
  frames := m.length_entering count
  le := Nat.le_refl _
  empty := by
    intro x
    exact (local?_nest hm x _).trans (local?_of_length_le (Nat.le_refl _) x)
  bindings := by
    intro x i
    refine (local?_nest hm x _).trans ?_
    by_cases hi : i < m.scopes.frames.length
    · rw [shifted_of_lt hi]
    · have hle := Nat.not_lt.mp hi
      rw [local?_of_length_le (Nat.le_trans hle (le_shifted _ i)), local?_of_length_le hle]
  walk := by
    rw [hm.chain_entering, List.filter_cons_of_neg (by simp), filter_chain_of_lt hm]
  sink := rfl

/-- Where it has ended, no walk from here meets that frame. -/
theorem Sidesteps.behind {m m₁ n₁ : Machine W} {count : Nat} (hm : m.Grounded) (hm₁ : m.Stays m₁)
    (hn₁ : (m.entering count).Stays n₁) (h : m₁.Sidesteps m.scopes.frames.length n₁) :
    m₁.Sidesteps m.scopes.frames.length { n₁ with current := m.current } := by
  have hn := hn₁.leaving
  refine ⟨h.grounded, hm.stays hn, h.frames, h.le, h.empty, h.bindings, ?_, h.sink⟩
  have hwalk : m₁.scopes.chain m.current = m.scopes.chain m.current := hm₁.grows.chain hm
  have hwalk' : n₁.scopes.chain m.current = m.scopes.chain m.current := hn.grows.chain hm
  rw [hm₁.current, hwalk, hwalk']
  exact filter_chain_of_lt hm

/-- The two machines have printed the same and stand in the same frame, and
each of the oldest `count` frames binds the same names to the same values in
both and is enclosed by the same frame. -/
structure SameBelow (count : Nat) (m n : Machine W) : Prop where
  sink : n.sink = m.sink
  current : n.current = m.current
  bindings : ∀ i, i < count → n.scopes.scope i = m.scopes.scope i
  links : ∀ i, i < count → n.scopes.enclosing? i = m.scopes.enclosing? i

theorem Sidesteps.sameBelow {m m₁ m₂ : Machine W} (h : m₁.Sidesteps m.scopes.frames.length m₂)
    (h₁ : m.Stays m₁) (h₂ : m.Stays m₂) : m₁.SameBelow m.scopes.frames.length m₂ where
  sink := h.sink
  current := h₂.current.trans h₁.current.symm
  bindings := by
    intro i hi
    refine Finmap.ext_lookup fun x => ?_
    have hx := h.bindings x i
    rw [shifted_of_lt hi] at hx
    rw [lookup_scope, lookup_scope, hx]
  links := by
    intro i hi
    rw [h₁.grows.links i hi, h₂.grows.links i hi]

variable [Writer W]

/-- A block that declares nothing itself ends as its statements do. -/
theorem exec_block_of_execAll {m m₁ : Machine W} {ss : List Stmt} {r : Except RuntimeError Unit}
    (hm : m.Grounded) (hss : ∀ s ∈ ss, s.declaresHere = false)
    (h : (Stmt.execAll ss).Ends m r m₁) :
    ∃ m₂, (Stmt.block ss).exec.Ends m r m₂ ∧ m₁.Sidesteps m.scopes.frames.length m₂ := by
  have hfollows := Stmt.follows_execAll (hm.sidesteps_entering ss.length) fun _ => hss
  obtain ⟨n₁, hn₁, h₁⟩ := hfollows r m₁ h
  rw [Stmt.exec]
  exact ⟨_, ends_inBlock.mpr ⟨n₁, hn₁, rfl⟩,
    h₁.behind hm (Stmt.execAll_stays h) (Stmt.execAll_stays hn₁)⟩

/-- What comes after it does not tell the two apart. -/
theorem interpret_block_of_append {m m' : Machine W} {ss ts : List Stmt}
    {r : Except RuntimeError Unit} (hm : m.Grounded) (hss : ∀ s ∈ ss, s.declaresHere = false)
    (h : (Stmt.interpret (ss ++ ts)).Ends m r m') :
    ∃ n', (Stmt.interpret (.block ss :: ts)).Ends m r n' ∧
      m'.Sidesteps m.scopes.frames.length n' := by
  rw [Stmt.interpret_append] at h
  rw [Stmt.interpret_cons]
  rcases h.bind_cases with ⟨_, m₁, hm₁, h⟩ | ⟨e, hfault, rfl⟩
  · obtain ⟨m₂, hm₂, h₂⟩ := exec_block_of_execAll hm hss hm₁
    have hstays : m.Stays m₂ := ((Stmt.block ss).exec_of_closed stays_closed).of_ends hm₂
    have hne : m₂.current ≠ m.scopes.frames.length := by
      rw [hstays.current]
      exact Nat.ne_of_lt hm
    have hts : (Stmt.interpret ts).Follows m.scopes.frames.length m₁ m₂ := by
      rw [Stmt.interpret]
      exact (Stmt.follows_execAll h₂ fun hk => absurd hk hne).bind
        (Stmt.execAll_of_closed stays_closed ts) fun _ _ _ h₃ _ => follows_onSink h₃ _
    obtain ⟨n', hn', h'⟩ := hts r m' h
    exact ⟨n', hm₂.bind hn', h'⟩
  · obtain ⟨m₂, hm₂, h₂⟩ := exec_block_of_execAll hm hss hfault
    exact ⟨m₂, hm₂.fault, h₂⟩

/-- **A block that declares nothing itself is transparent.** Let no statement
of `ss` be a declaration or have one for a branch of an `if`; inside blocks
there may be any. From every machine whose current frame is there, whatever it
prints to, executing the block of `ss` and executing `ss` end the same way, well
or with the same fault, and leave the same output, the same current frame and
the same bindings in every frame that was there before. Nor can any statements
that come after tell which of the two it was. -/
theorem block_transparent {m : Machine W} (hm : m.Grounded) {ss : List Stmt}
    (hss : ∀ s ∈ ss, s.declaresHere = false) :
    (∃ r m₁ m₂, (Stmt.execAll ss).Ends m r m₁ ∧ (Stmt.block ss).exec.Ends m r m₂ ∧
      m₁.SameBelow m.scopes.frames.length m₂) ∧
    ∀ ts, (m.interpret (.block ss :: ts)).1 = (m.interpret (ss ++ ts)).1 ∧
      (m.interpret (ss ++ ts)).2.SameBelow m.scopes.frames.length
        (m.interpret (.block ss :: ts)).2 := by
  constructor
  · obtain ⟨r, m₁, hm₁⟩ := exists_ends (Stmt.execAll ss) m
    obtain ⟨m₂, hm₂, h⟩ := exec_block_of_execAll hm hss hm₁
    have hstays : m.Stays m₂ := ((Stmt.block ss).exec_of_closed stays_closed).of_ends hm₂
    exact ⟨r, m₁, m₂, hm₁, hm₂, h.sameBelow (Stmt.execAll_stays hm₁) hstays⟩
  · intro ts
    have hends := m.interpret_ends (ss ++ ts)
    have hends' := m.interpret_ends (.block ss :: ts)
    obtain ⟨n', hn', h⟩ := interpret_block_of_append hm hss hends
    obtain ⟨hresult, rfl⟩ := hends'.unique hn'
    exact ⟨hresult, h.sameBelow ((Stmt.interpret_moves stays_steady _).of_ends hends)
      ((Stmt.interpret_moves stays_steady _).of_ends hends')⟩

end Machine

end

namespace Machine

/-- In an `if`, a block with a declaration of `a` that hides the one outside;
then an assignment to `b`, from a block in a block, and a name that is not
bound. -/
def undeclaring : List Stmt :=
  let a : Token := ⟨.identifier, "a", none, 1⟩
  let b : Token := ⟨.identifier, "b", none, 2⟩
  let c : Token := ⟨.identifier, "c", none, 3⟩
  [.ifThen (.literal (.bool true)) (.block [.varDecl a none, .print (.var a)]),
    .block [.block [.expression (.assign b (.var a))]], .print (.var c)]

/-- A machine in a block, with `b` bound around the block and `a` in it. -/
def nested : Machine Sink :=
  let a : Token := ⟨.identifier, "a", none, 1⟩
  let b : Token := ⟨.identifier, "b", none, 1⟩
  let outer := ((initial Sink.unlimited).interpret [.varDecl b none]).2
  ((outer.entering 1).interpret [.varDecl a (some (.literal (.bool true)))]).2

/-- In one more block, the statements print and fail as they do without it, and
leave `b` as assigned. -/
theorem block_transparent_of_undeclaring :
    nested.Grounded ∧ (∀ s ∈ undeclaring, s.declaresHere = false) ∧
      (nested.interpret [.block undeclaring]).1 = .error (.undefinedVariable "c" 3) ∧
      (nested.interpret [.block undeclaring]).2.sink.stored = utf8 "nil\n" ∧
      (nested.interpret [.block undeclaring]).2.current = 1 ∧
      (nested.interpret [.block undeclaring]).2.scopes.scope 0 =
        Finmap.singleton "b" (.bool true) ∧
      (nested.interpret [.block undeclaring]).2.scopes.scope 1 =
        Finmap.singleton "a" (.bool true) := by
  have hm : nested.Grounded := by
    unfold Grounded
    decide +kernel
  have hss : ∀ s ∈ undeclaring, s.declaresHere = false := by decide
  obtain ⟨hresult, hsame⟩ := (block_transparent hm hss).2 []
  rw [hresult, hsame.sink, hsame.current, hsame.bindings 0 (by decide +kernel),
    hsame.bindings 1 (by decide +kernel)]
  exact ⟨hm, hss, by decide +kernel⟩

end Machine

end Lox

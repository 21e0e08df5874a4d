/-
The invariant between the text and a run. `Agrees m scopes frames` says that
the walk outward from the current frame meets the frames of the blocks
around, and that each of them binds exactly the names its block has declared
so far.

Every step keeps it: evaluation changes no frame's names, a declaration adds
its name on both sides, a block adds an empty frame to both and takes it off
again. So a name is found in the frame the text gives
(`Agrees.found_eq_expected`), at every lookup a run reaches
(`Stmt.BodyReaches.agrees`).

A declaration directly under an `if` would bind in the block around it, or
not, as the condition turns out; the grammar has none
(`DerivesBody.declaresInBlocks`).
-/
import Lox.Proofs.Grammar.Derivation
import Lox.Proofs.Scoping.Static

namespace Lox

/-! ## Declarations stand in blocks -/

namespace Stmt

/-- Whether the statement declares a name. -/
def isDeclaration : Stmt → Bool
  | .varDecl _ _ => true
  | _ => false

mutual

/-- Whether no declaration in the statement stands directly under an `if`. -/
def declaresInBlocks : Stmt → Bool
  | .expression _ | .print _ | .varDecl _ _ => true
  | .block body => bodyDeclaresInBlocks body
  | .ifThen _ thenBranch => !thenBranch.isDeclaration && thenBranch.declaresInBlocks
  | .ifElse _ thenBranch elseBranch =>
    !thenBranch.isDeclaration && thenBranch.declaresInBlocks &&
      (!elseBranch.isDeclaration && elseBranch.declaresInBlocks)

/-- The same of statements one after another. -/
def bodyDeclaresInBlocks : List Stmt → Bool
  | [] => true
  | s :: ss => s.declaresInBlocks && bodyDeclaresInBlocks ss

end

end Stmt

theorem Static.after_of_not_isDeclaration {s : Stmt} (h : s.isDeclaration = false)
    (scopes : Static) : scopes.after s = scopes := by
  cases s with
  | varDecl => cases h
  | _ => rfl

/-- Only the innermost scope changes. -/
theorem Static.after_cons (names : List String) (outer : Static) (s : Stmt) :
    ∃ names', Static.after (names :: outer) s = names' :: outer := by
  cases s with
  | varDecl name => exact ⟨name.lexeme :: names, rfl⟩
  | _ => exact ⟨names, rfl⟩

namespace Grammar

theorem DerivesStatement.not_isDeclaration {ts : List Token} {s : Stmt}
    (h : DerivesStatement ts s) : s.isDeclaration = false := by
  cases h <;> rfl

mutual

theorem DerivesStatement.declaresInBlocks : ∀ {ts : List Token} {s : Stmt},
    DerivesStatement ts s → s.declaresInBlocks = true
  | _, _, .ifThen _ _ _ _ hs => by
    simp [Stmt.declaresInBlocks, hs.not_isDeclaration, hs.declaresInBlocks]
  | _, _, .ifElse _ _ _ _ hs _ hs' => by
    simp [Stmt.declaresInBlocks, hs.not_isDeclaration, hs.declaresInBlocks,
      hs'.not_isDeclaration, hs'.declaresInBlocks]
  | _, _, .block _ hbody _ => by
    rw [Stmt.declaresInBlocks]
    exact hbody.declaresInBlocks
  | _, _, .print _ _ _ | _, _, .expression _ _ => by rw [Stmt.declaresInBlocks]

theorem DerivesDeclaration.declaresInBlocks : ∀ {ts : List Token} {s : Stmt},
    DerivesDeclaration ts s → s.declaresInBlocks = true
  | _, _, .bare _ _ _ | _, _, .initialized _ _ _ _ _ => by rw [Stmt.declaresInBlocks]
  | _, _, .statement hs => hs.declaresInBlocks

/-- The grammar puts declarations into blocks only, and at the top. -/
theorem DerivesBody.declaresInBlocks : ∀ {ts : List Token} {ss : List Stmt},
    DerivesBody ts ss → Stmt.bodyDeclaresInBlocks ss = true
  | _, _, .nil => by rw [Stmt.bodyDeclaresInBlocks]
  | _, _, .cons hd hbody => by
    rw [Stmt.bodyDeclaresInBlocks, hd.declaresInBlocks, hbody.declaresInBlocks, Bool.and_self]

end

end Grammar

/-! ## Frames that bind what the text declares -/

/-- Each frame binds exactly the names of the scope beside it. -/
def Scopes.Shows (s : Scopes) : List Nat → Static → Prop
  | [], [] => True
  | frame :: frames, names :: outer =>
    (∀ x, (s.local? x frame).isSome = true ↔ x ∈ names) ∧ s.Shows frames outer
  | _, _ => False

namespace Scopes

theorem Shows.congr {s s' : Scopes} : ∀ {frames : List Nat} {scopes : Static},
    s.Shows frames scopes →
    (∀ i ∈ frames, ∀ x, (s'.local? x i).isSome = true ↔ (s.local? x i).isSome = true) →
    s'.Shows frames scopes
  | [], [], _, _ => trivial
  | [], _ :: _, h, _ => h.elim
  | _ :: _, [], h, _ => h.elim
  | frame :: frames, names :: outer, ⟨hhead, htail⟩, hsame => by
    refine ⟨fun x => ?_, htail.congr fun i hi => hsame i (List.mem_cons_of_mem _ hi)⟩
    rw [hsame frame List.mem_cons_self x, hhead x]

/-- The first frame that binds a name is the first whose scope has it. -/
theorem Shows.find?_eq_frame? {s : Scopes} (x : String) : ∀ {frames : List Nat} {scopes : Static},
    s.Shows frames scopes →
    frames.find? (fun i => (s.local? x i).isSome) = scopes.frame? frames x
  | [], [], _ => rfl
  | [], _ :: _, h => h.elim
  | _ :: _, [], h => h.elim
  | frame :: frames, names :: outer, ⟨hhead, htail⟩ => by
    rw [Static.frame?, List.find?_cons]
    by_cases hx : x ∈ names
    · rw [(hhead x).mpr hx, if_pos hx]
    · have hnone : (s.local? x frame).isSome = false :=
        Bool.eq_false_iff.mpr fun h => hx ((hhead x).mp h)
      rw [hnone, if_neg hx]
      exact htail.find?_eq_frame? x

/-- There is such a frame exactly if the text binds the name. -/
theorem Shows.frame?_eq_none {s : Scopes} (x : String) : ∀ {frames : List Nat} {scopes : Static},
    s.Shows frames scopes → (scopes.frame? frames x = none ↔ ¬ scopes.Binds x)
  | [], [], _ => by simp [Static.frame?, Static.Binds]
  | [], _ :: _, h => h.elim
  | _ :: _, [], h => h.elim
  | frame :: frames, names :: outer, ⟨_, htail⟩ => by
    have ih := htail.frame?_eq_none x
    rw [Static.frame?]
    by_cases hx : x ∈ names
    · simp [Static.Binds, hx]
    · rw [if_neg hx, ih]
      simp [Static.Binds, hx]

theorem le_of_mem_chain {s : Scopes} {frame i : Nat} (h : i ∈ s.chain frame) : i ≤ frame := by
  induction frame using Nat.strongRecOn with
  | ind frame ih =>
    cases he : s.enclosing? frame with
    | none =>
      rw [chain_of_none he, List.mem_singleton] at h
      exact Nat.le_of_eq h
    | some e =>
      have hlt := enclosing?_lt he
      rw [chain_of_some he, List.mem_cons] at h
      rcases h with h | h
      · exact Nat.le_of_eq h
      · exact Nat.le_trans (ih e hlt h) (Nat.le_of_lt hlt)

/-- A walk never comes back to the frame it is from. -/
theorem ne_of_mem_tail_chain {s : Scopes} {frame i : Nat} {rest : List Nat}
    (h : s.chain frame = frame :: rest) (hi : i ∈ rest) : i ≠ frame := by
  cases he : s.enclosing? frame with
  | none =>
    rw [chain_of_none he, List.cons.injEq] at h
    rw [← h.2] at hi
    cases hi
  | some e =>
    rw [chain_of_some he, List.cons.injEq] at h
    rw [← h.2] at hi
    exact Nat.ne_of_lt (Nat.lt_of_le_of_lt (le_of_mem_chain hi) (enclosing?_lt he))

/-- Where the walk goes on after a frame, the frame's link leads. -/
theorem chain_eq_of_cons {s : Scopes} {frame e : Nat} {rest : List Nat}
    (h : s.chain frame = frame :: rest) (he : rest.head? = some e) : s.chain e = rest := by
  cases hlink : s.enclosing? frame with
  | none =>
    rw [chain_of_none hlink, List.cons.injEq] at h
    rw [← h.2] at he
    cases he
  | some e' =>
    rw [chain_of_some hlink, List.cons.injEq] at h
    rw [← h.2, head?_chain, Option.some.injEq] at he
    rw [← he, h.2]

end Scopes

section

variable {W : Type}

/-- The walk from the current frame meets these frames, and they bind the
names of these scopes. -/
structure Agrees (m : Machine W) (scopes : Static) (frames : List Nat) : Prop where
  walk : m.scopes.chain m.current = frames
  current : m.current < m.scopes.frames.length
  names : m.scopes.Shows frames scopes

namespace Agrees

variable {m m' : Machine W} {scopes : Static} {frames : List Nat}

/-- Where the two agree, a name is found in the frame the text gives. -/
theorem found_eq_expected {l : Lookup W} (h : Agrees l.machine l.scopes l.frames) :
    l.found = l.expected := by
  rw [Lookup.found, Scopes.binder?, h.walk]
  exact h.names.find?_eq_frame? l.name.lexeme

theorem expected_eq_none {l : Lookup W} (h : Agrees l.machine l.scopes l.frames) :
    l.expected = none ↔ ¬ l.scopes.Binds l.name.lexeme :=
  h.names.frame?_eq_none l.name.lexeme

theorem head?_frames (h : Agrees m scopes frames) : frames.head? = some m.current := by
  rw [← h.walk, Scopes.head?_chain]

theorem lt_length (h : Agrees m scopes frames) {i : Nat} (hi : i ∈ frames) :
    i < m.scopes.frames.length := by
  rw [← h.walk] at hi
  exact Nat.lt_of_le_of_lt (Scopes.le_of_mem_chain hi) h.current

/-! ## What each step keeps -/

/-- Neither the log nor the sink matters. -/
theorem of_scopes (h : Agrees m scopes frames) (hscopes : m'.scopes = m.scopes)
    (hcurrent : m'.current = m.current) : Agrees m' scopes frames := by
  obtain ⟨walk, current, names⟩ := h
  rw [← hscopes, ← hcurrent] at walk current
  exact ⟨walk, current, hscopes ▸ names⟩

/-- An assignment rebinds a name where it is bound. -/
theorem assign (h : Agrees m scopes frames) {name : Token} {value : Value}
    (hm : Run.assign name value m = .ok () m') : Agrees m' scopes frames := by
  obtain ⟨i, hi, rfl⟩ := Run.assign_eq_ok.mp hm
  refine ⟨?_, ?_, h.names.congr fun j _ x => ?_⟩
  · exact (Scopes.chain_define _ _ _ _ _).trans h.walk
  · exact (Scopes.length_define _ _ _ _).symm ▸ h.current
  · exact Scopes.isSome_local?_rebind (Scopes.isSome_local?_of_binder? hi) value x j

/-- A declaration adds its name to the innermost scope and frame. -/
theorem define (h : Agrees m scopes frames) {name : Token} {value : Value}
    (hm : Run.define name value m = .ok () m') :
    Agrees m' (scopes.declare name.lexeme) frames := by
  rw [Run.define_eq_ok] at hm
  subst hm
  have hhead := h.head?_frames
  obtain ⟨walk, current, names⟩ := h
  refine ⟨(Scopes.chain_define _ _ _ _ _).trans walk,
    (Scopes.length_define _ _ _ _).symm ▸ current, ?_⟩
  match frames, scopes, names with
  | frame :: rest, declared :: outer, ⟨hdeclared, houter⟩ =>
    rw [List.head?_cons, Option.some.injEq] at hhead
    subst hhead
    refine ⟨fun x => ?_, houter.congr fun i hi x => ?_⟩
    · rw [Scopes.isSome_local?_define current, hdeclared x, List.mem_cons]
      simp
    · have hne := Scopes.ne_of_mem_tail_chain walk hi
      rw [Scopes.isSome_local?_define current]
      simp [hne]

/-- A block begins in a frame that binds nothing, around it what was there. -/
theorem entering (h : Agrees m scopes frames) (count : Nat) :
    Agrees (m.entering count) ([] :: scopes) ((m.entering count).current :: frames) := by
  have hnew : (m.entering count).current = m.scopes.frames.length :=
    (Scopes.frames_nest h.current).2
  have hlength : (m.entering count).scopes.frames.length = m.scopes.frames.length + 1 :=
    Scopes.length_nest m.scopes m.current
  rw [hnew]
  refine ⟨?_, by omega, fun x => ?_, h.names.congr fun i hi x => ?_⟩
  · rw [hnew, ← h.walk]
    exact Scopes.chain_nest h.current
  · rw [show (m.entering count).scopes.local? x m.scopes.frames.length = none from
      Scopes.local?_nest_new h.current x]
    simp
  · rw [show (m.entering count).scopes.local? x i = m.scopes.local? x i from
      Scopes.local?_nest_old h.current (h.lt_length hi) x]

/-- After a block the scope and the frame it added are taken off. -/
theorem leaving (h : Agrees m scopes frames) {names : List String} {frame : Nat}
    (hbody : Agrees m' (names :: scopes) (frame :: frames))
    (hlength : m.scopes.frames.length ≤ m'.scopes.frames.length) :
    Agrees { m' with current := m.current } scopes frames := by
  have hwalk := hbody.walk
  have hframe : m'.current = frame := by
    have hhead := hbody.head?_frames
    rw [List.head?_cons, Option.some.injEq] at hhead
    exact hhead.symm
  rw [hframe] at hwalk
  exact ⟨Scopes.chain_eq_of_cons hwalk h.head?_frames, Nat.lt_of_lt_of_le h.current hlength,
    hbody.names.2⟩

end Agrees

open Run

/-! ## What a run keeps -/

/-- An evaluation that ends with a value changes no frame's names. -/
theorem Expr.eval_agrees {scopes : Static} {frames : List Nat} {e : Expr} {m m' : Machine W}
    {v : Value} (h : Agrees m scopes frames) (hm : e.eval m = .ok v m') :
    Agrees m' scopes frames := by
  have hclosed : EvalClosed fun _ (x : Run W _) => ∀ m a m', x m = .ok a m' →
      Agrees m scopes frames → Agrees m' scopes frames := by
    refine ⟨fun a m _ m' hm h => ?_, fun hx hf m b m' hm h => ?_, fun x m a m' hm h => ?_,
      fun name m v m' hm h => ?_, fun name value m _ m' hm h => h.assign hm⟩
    · exact (pure_eq_ok.mp hm).2 ▸ h
    · obtain ⟨a, m₁, hx₁, hf₁⟩ := bind_eq_ok.mp hm
      exact hf a m₁ b m' hf₁ (hx m a m₁ hx₁ h)
    · exact (ofExcept_eq_ok.mp hm).2 ▸ h
    · exact (lookup_eq_ok.mp hm).2 ▸ h
  exact e.eval_of_closed hclosed m v m' hm h

theorem Expr.Reaches.agrees {scopes : Static} {frames : List Nat} {e : Expr} {m m' : Machine W}
    {name : Token} (hreach : e.Reaches m name m') (h : Agrees m scopes frames) :
    Agrees m' scopes frames := by
  induction hreach with
  | grouping _ ih | unary _ ih | binaryLeft _ ih | logicalLeft _ ih | value _ ih => exact ih h
  | binaryRight hleft _ ih | logicalRight hleft _ _ ih => exact ih (Expr.eval_agrees h hleft)
  | var => exact h
  | target hvalue => exact Expr.eval_agrees h hvalue

variable [Writer W]

namespace Stmt

mutual

/-- A statement that ends well keeps the two in agreement, its own
declaration counted. -/
theorem exec_agrees : ∀ {s : Stmt} {scopes : Static} {frames : List Nat} {m m' : Machine W},
    s.declaresInBlocks = true → Agrees m scopes frames → s.exec m = .ok () m' →
    Agrees m' (scopes.after s) frames
  | .expression e, scopes, frames, m, m', _, h, hm => by
    rw [exec] at hm
    obtain ⟨v, m₁, he, hm⟩ := bind_eq_ok.mp hm
    exact (pure_eq_ok.mp hm).2 ▸ Expr.eval_agrees h he
  | .print e, scopes, frames, m, m', _, h, hm => by
    rw [exec] at hm
    obtain ⟨v, m₁, he, hm⟩ := bind_eq_ok.mp hm
    rw [(onSink_eq_ok.mp hm).2]
    exact (Expr.eval_agrees h he).of_scopes rfl rfl
  | .varDecl name none, scopes, frames, m, m', _, h, hm => by
    rw [exec] at hm
    exact h.define hm
  | .varDecl name (some e), scopes, frames, m, m', _, h, hm => by
    rw [exec] at hm
    obtain ⟨v, m₁, he, hm⟩ := bind_eq_ok.mp hm
    exact (Expr.eval_agrees h he).define hm
  | .block body, scopes, frames, m, m', hbody, h, hm => by
    rw [exec] at hm
    rw [declaresInBlocks] at hbody
    obtain ⟨m₁, hm₁, rfl⟩ := inBlock_eq_ok.mp hm
    -- The body adds names to its own scope only, which goes with its frame.
    obtain ⟨names, hinner⟩ := execAll_agrees hbody (h.entering body.length) hm₁
    have hevolves := (execAll_of_closed evolving_closed body (m.entering body.length)).1 () m₁ hm₁
    have hlength : (m.entering body.length).scopes.frames.length = m.scopes.frames.length + 1 :=
      Scopes.length_nest m.scopes m.current
    exact h.leaving hinner (Nat.le_trans (by omega) hevolves.frames)
  | .ifThen c s, scopes, frames, m, m', hs, h, hm => by
    rw [exec] at hm
    simp only [declaresInBlocks, Bool.and_eq_true, Bool.not_eq_true'] at hs
    obtain ⟨v, m₁, hc, hm⟩ := bind_eq_ok.mp hm
    have h₁ := Expr.eval_agrees h hc
    split at hm
    · have hbranch := exec_agrees hs.2 h₁ hm
      rw [Static.after_of_not_isDeclaration hs.1] at hbranch
      exact hbranch
    · exact (pure_eq_ok.mp hm).2 ▸ h₁
  | .ifElse c s s', scopes, frames, m, m', hs, h, hm => by
    rw [exec] at hm
    simp only [declaresInBlocks, Bool.and_eq_true, Bool.not_eq_true'] at hs
    obtain ⟨⟨hs, hsBlocks⟩, hs', hsBlocks'⟩ := hs
    obtain ⟨v, m₁, hc, hm⟩ := bind_eq_ok.mp hm
    have h₁ := Expr.eval_agrees h hc
    split at hm
    · have hbranch := exec_agrees hsBlocks h₁ hm
      rw [Static.after_of_not_isDeclaration hs] at hbranch
      exact hbranch
    · have hbranch := exec_agrees hsBlocks' h₁ hm
      rw [Static.after_of_not_isDeclaration hs'] at hbranch
      exact hbranch

/-- So do statements that follow each other; only the innermost scope has
new names after them. -/
theorem execAll_agrees : ∀ {ss : List Stmt} {names : List String} {outer : Static}
    {frames : List Nat} {m m' : Machine W}, bodyDeclaresInBlocks ss = true →
    Agrees m (names :: outer) frames → execAll ss m = .ok () m' →
    ∃ names', Agrees m' (names' :: outer) frames
  | [], names, outer, frames, m, m', _, h, hm => by
    rw [execAll] at hm
    exact ⟨names, (pure_eq_ok.mp hm).2 ▸ h⟩
  | s :: ss, names, outer, frames, m, m', hss, h, hm => by
    rw [execAll] at hm
    simp only [bodyDeclaresInBlocks, Bool.and_eq_true] at hss
    obtain ⟨_, m₁, hs, hm⟩ := bind_eq_ok.mp hm
    have h₁ := exec_agrees hss.1 h hs
    obtain ⟨names₁, hafter⟩ := Static.after_cons names outer s
    rw [hafter] at h₁
    exact execAll_agrees hss.2 h₁ hm

end

mutual

theorem Reaches.agrees : ∀ {scopes : Static} {frames : List Nat} {s : Stmt} {m : Machine W}
    {l : Lookup W}, s.Reaches scopes frames m l → s.declaresInBlocks = true →
    Agrees m scopes frames → Agrees l.machine l.scopes l.frames
  | _, _, _, _, _, .expression he, _, h | _, _, _, _, _, .print he, _, h
  | _, _, _, _, _, .initializer he, _, h | _, _, _, _, _, .ifThenCondition he, _, h
  | _, _, _, _, _, .ifElseCondition he, _, h => he.agrees h
  | _, _, _, _, _, .block hbody, hblocks, h => by
    rw [declaresInBlocks] at hblocks
    exact hbody.agrees hblocks (h.entering _)
  | _, _, _, _, _, .ifThenBranch hc _ hs, hblocks, h => by
    simp only [declaresInBlocks, Bool.and_eq_true] at hblocks
    exact hs.agrees hblocks.2 (Expr.eval_agrees h hc)
  | _, _, _, _, _, .thenBranch hc _ hs, hblocks, h => by
    simp only [declaresInBlocks, Bool.and_eq_true] at hblocks
    exact hs.agrees hblocks.1.2 (Expr.eval_agrees h hc)
  | _, _, _, _, _, .elseBranch hc _ hs, hblocks, h => by
    simp only [declaresInBlocks, Bool.and_eq_true] at hblocks
    exact hs.agrees hblocks.2.2 (Expr.eval_agrees h hc)

/-- At every lookup that is reached, text and run agree. -/
theorem BodyReaches.agrees : ∀ {scopes : Static} {frames : List Nat} {ss : List Stmt}
    {m : Machine W} {l : Lookup W}, BodyReaches scopes frames ss m l →
    bodyDeclaresInBlocks ss = true → Agrees m scopes frames →
    Agrees l.machine l.scopes l.frames
  | _, _, _, _, _, .head hs, hblocks, h => by
    simp only [bodyDeclaresInBlocks, Bool.and_eq_true] at hblocks
    exact hs.agrees hblocks.1 h
  | _, _, _, _, _, .tail hs hss, hblocks, h => by
    simp only [bodyDeclaresInBlocks, Bool.and_eq_true] at hblocks
    exact hss.agrees hblocks.2 (exec_agrees hblocks.1 h hs)

end

end Stmt

end

end Lox

/-
Scopes are as they were when statements have ended, well or by a fault at any
depth (`Machine.interpret_restores`): the same frame is current, the links of
the frames are the same, and no frame binds another name than before, but for
the current one. That one binds besides what `Stmt.BodyCompletes` lists, the
names whose declarations were completed outside of blocks.

Assigning to a name never adds it to a frame, for it rebinds a name that is
bound; and a block declares in a frame that was not there before it.
-/
import Lox.Proofs.Machine.Refinement

namespace Lox

/-! ## The names a frame binds -/

namespace Scopes

/-- The names a frame binds. -/
def names (s : Scopes) (i : Nat) : Finset String := (s.scope i).keys

theorem mem_names {s : Scopes} {i : Nat} {x : String} :
    x ∈ s.names i ↔ (s.local? x i).isSome = true := by
  rw [names, Finmap.mem_keys, mem_scope]

theorem mem_names_define {s : Scopes} {frame : Nat} (h : frame < s.frames.length) (name : String)
    (value : Value) {x : String} {i : Nat} :
    x ∈ (s.define frame name value).names i ↔ (i = frame ∧ x = name) ∨ x ∈ s.names i := by
  rw [mem_names, mem_names, isSome_local?_define h]

/-- Assigning adds no name to any frame. -/
theorem names_rebind {s : Scopes} {frame i : Nat} {name : String}
    (h : s.binder? frame name = some i) (value : Value) (j : Nat) :
    (s.define i name value).names j = s.names j := by
  ext x
  rw [mem_names, mem_names, isSome_local?_rebind (isSome_local?_of_binder? h)]

theorem names_nest {s : Scopes} {e i : Nat} (h : e < s.frames.length) (hi : i < s.frames.length) :
    (s.nest e).1.names i = s.names i := by
  rw [names, names, scope_nest_old h hi]

end Scopes

section

variable {W : Type}

/-! ## Declarations that are completed -/

namespace Stmt

/-- `s.Completes m x`: executing `s` from `m` completes a declaration of `x`
that stands in no block inside `s`. -/
inductive Completes : Stmt → Machine W → String → Prop
  | bare {x m} : Completes (.varDecl x none) m x.lexeme
  /-- A declaration is completed if its initializer has a value. -/
  | initialized {x e m v m₁} : e.eval m = .ok v m₁ → Completes (.varDecl x (some e)) m x.lexeme
  | ifThen {c s m v m₁ x} : c.eval m = .ok v m₁ → v.isTruthy = true → Completes s m₁ x →
      Completes (.ifThen c s) m x
  | thenBranch {c s s' m v m₁ x} : c.eval m = .ok v m₁ → v.isTruthy = true → Completes s m₁ x →
      Completes (.ifElse c s s') m x
  | elseBranch {c s s' m v m₁ x} : c.eval m = .ok v m₁ → v.isTruthy = false →
      Completes s' m₁ x → Completes (.ifElse c s s') m x

/-- The same of statements that follow each other, up to the first that
fails. -/
inductive BodyCompletes [Writer W] : List Stmt → Machine W → String → Prop
  | head {s ss m x} : s.Completes m x → BodyCompletes (s :: ss) m x
  | tail {s ss m m₁ x} : s.exec m = .ok () m₁ → BodyCompletes ss m₁ x →
      BodyCompletes (s :: ss) m x

theorem completes_initialized {name : Token} {e : Expr} {m : Machine W} {x : String} :
    (varDecl name (some e)).Completes m x ↔ x = name.lexeme ∧ ∃ v m₁, e.eval m = .ok v m₁ := by
  constructor
  · rintro (_ | hv)
    exact ⟨rfl, _, _, hv⟩
  · rintro ⟨rfl, v, m₁, hv⟩
    exact .initialized hv

theorem completes_ifThen {c : Expr} {s : Stmt} {m : Machine W} {x : String} :
    (ifThen c s).Completes m x ↔
      ∃ v m₁, c.eval m = .ok v m₁ ∧ v.isTruthy = true ∧ s.Completes m₁ x := by
  constructor
  · intro h
    cases h with
    | ifThen hv htruthy hs => exact ⟨_, _, hv, htruthy, hs⟩
  · rintro ⟨v, m₁, hv, htruthy, hs⟩
    exact .ifThen hv htruthy hs

theorem completes_ifElse {c : Expr} {s s' : Stmt} {m : Machine W} {x : String} :
    (ifElse c s s').Completes m x ↔
      ∃ v m₁, c.eval m = .ok v m₁ ∧ if v.isTruthy then s.Completes m₁ x else s'.Completes m₁ x := by
  constructor
  · intro h
    cases h with
    | thenBranch hv htruthy hs => exact ⟨_, _, hv, by rwa [if_pos htruthy]⟩
    | elseBranch hv hfalsy hs => exact ⟨_, _, hv, by rwa [if_neg (by simp [hfalsy])]⟩
  · rintro ⟨v, m₁, hv, hs⟩
    split at hs
    · next htruthy => exact .thenBranch hv htruthy hs
    · next hfalsy => exact .elseBranch hv (Bool.eq_false_iff.mpr hfalsy) hs

theorem bodyCompletes_cons [Writer W] {s : Stmt} {ss : List Stmt} {m : Machine W} {x : String} :
    BodyCompletes (s :: ss) m x ↔
      s.Completes m x ∨ ∃ m₁, s.exec m = .ok () m₁ ∧ BodyCompletes ss m₁ x := by
  constructor
  · intro h
    cases h with
    | head hs => exact .inl hs
    | tail hs hss => exact .inr ⟨_, hs, hss⟩
  · rintro (hs | ⟨m₁, hs, hss⟩)
    · exact .head hs
    · exact .tail hs hss

end Stmt

/-! ## What a run does to the frames it found -/

namespace Machine

/-- From `m` to `m'` the same frame is current, links are the same, and the
frames of `m` bind the names they bound; the current one binds those in
`added` too. -/
structure Extends (added : String → Prop) (m m' : Machine W) : Prop where
  stays : m.Stays m'
  others : ∀ i, i < m.scopes.frames.length → i ≠ m.current → m'.scopes.names i = m.scopes.names i
  own : ∀ x, x ∈ m'.scopes.names m.current ↔ x ∈ m.scopes.names m.current ∨ added x

namespace Extends

theorem congr {added added' : String → Prop} {m m' : Machine W} (h : m.Extends added m')
    (hadded : ∀ x, added x ↔ added' x) : m.Extends added' m' := by
  refine ⟨h.stays, h.others, fun x => ?_⟩
  rw [h.own, hadded]

theorem trans {added added' : String → Prop} {m m₁ m' : Machine W} (h : m.Extends added m₁)
    (h' : m₁.Extends added' m') : m.Extends (fun x => added x ∨ added' x) m' := by
  have hown' := h'.own
  have hothers' := h'.others
  rw [h.stays.current] at hown' hothers'
  refine ⟨h.stays.trans h'.stays, fun i hi hne => ?_, fun x => ?_⟩
  · rw [hothers' i (Nat.lt_of_lt_of_le hi h.stays.grows.frames) hne, h.others i hi hne]
  · rw [hown', h.own, or_assoc]

/-- Where no name is added, no frame of before binds another. -/
theorem of_names {m m' : Machine W} (hstays : m.Stays m')
    (hnames : ∀ i, m'.scopes.names i = m.scopes.names i) : m.Extends (fun _ => False) m' :=
  ⟨hstays, fun i _ _ => hnames i, fun x => by rw [hnames, or_false]⟩

theorem refl (m : Machine W) : m.Extends (fun _ => False) m :=
  of_names (.refl m) fun _ => rfl

theorem define {m : Machine W} (h : m.Grounded) (x : String) (v : Value) :
    m.Extends (· = x) { m with scopes := m.scopes.define m.current x v } := by
  refine ⟨.define m m.current x v, fun i _ hne => ?_, fun y => ?_⟩
  · ext y
    simp [Scopes.mem_names_define h, hne]
  · simp [Scopes.mem_names_define h, or_comm]

/-- A block adds no name to a frame that was there when it was entered, not
even to the one it was entered from. -/
theorem leaving {added : String → Prop} {m m₁ : Machine W} {count : Nat} (h : m.Grounded)
    (hbody : (m.entering count).Extends added m₁) :
    m.Extends (fun _ => False) { m₁ with current := m.current } := by
  have hnew : (m.entering count).current = m.scopes.frames.length := (Scopes.frames_nest h).2
  have hold : ∀ i, i < m.scopes.frames.length → m₁.scopes.names i = m.scopes.names i := by
    intro i hi
    have hlength := m.length_entering count
    rw [hbody.others i (by omega) (by omega)]
    exact Scopes.names_nest h hi
  refine ⟨hbody.stays.leaving, fun i hi _ => hold i hi, fun x => ?_⟩
  rw [or_false]
  exact (hold m.current h) ▸ Iff.rfl

end Extends

end Machine

open Run

/-! ## Expressions -/

namespace Run

/-- The run adds no name to a frame. -/
def AddsNothing {α : Type} (x : Run W α) : Prop :=
  ∀ m r m', x.Ends m r m' → m.Extends (fun _ => False) m'

theorem AddsNothing.bind {α β : Type} {x : Run W α} {f : α → Run W β} (hx : x.AddsNothing)
    (hf : ∀ a, (f a).AddsNothing) : (x >>= f).AddsNothing := by
  intro m r m' h
  rcases h.bind_cases with ⟨a, m₁, hx₁, h⟩ | ⟨e, hfault, -⟩
  · exact ((hx _ _ _ hx₁).trans (hf a _ _ _ h)).congr fun _ => or_self_iff
  · exact hx _ _ _ hfault

theorem addsNothing_pure {α : Type} (a : α) : (pure a : Run W α).AddsNothing := by
  intro m r m' h
  rw [(ends_pure.mp h).2]
  exact .refl m

theorem addsNothing_ofExcept {α : Type} (x : Except RuntimeError α) :
    (ofExcept (W := W) x).AddsNothing := by
  intro m r m' h
  rw [(ends_ofExcept.mp h).2]
  exact .refl m

theorem addsNothing_lookup (name : Token) : (lookup (W := W) name).AddsNothing := by
  intro m r m' h
  rw [(ends_lookup.mp h).1]
  exact .refl m

theorem addsNothing_assign (name : Token) (value : Value) :
    (assign (W := W) name value).AddsNothing := by
  intro m r m' h
  cases r with
  | ok =>
    obtain ⟨i, hi, rfl⟩ := assign_eq_ok.mp h
    exact .of_names (.define m i name.lexeme value)
      (Scopes.names_rebind hi value)
  | error e =>
    rw [(assign_eq_error.mp h).2.2]
    exact .refl m

theorem addsNothing_onSink (operation : W → Option String × W) :
    (onSink operation).AddsNothing := by
  intro m r m' h
  rcases ends_onSink.mp h with ⟨sink, -, -, rfl⟩ | ⟨cause, sink, -, -, rfl⟩
  · exact .of_names (.onSink m sink) fun _ => rfl
  · exact .of_names (.onSink m sink) fun _ => rfl

theorem addsNothing_print [Writer W] (value : Value) : (print (W := W) value).AddsNothing :=
  addsNothing_onSink _

/-- No evaluation adds a name. -/
theorem addsNothing_evalClosed : EvalClosed fun _ (x : Run W _) => x.AddsNothing where
  pure := addsNothing_pure
  bind := AddsNothing.bind
  ofExcept := addsNothing_ofExcept
  lookup := addsNothing_lookup
  assign := addsNothing_assign

end Run

theorem Expr.eval_addsNothing (e : Expr) : (e.eval (W := W)).AddsNothing :=
  e.eval_of_closed addsNothing_evalClosed

/-! ## Statements -/

namespace Stmt

open Machine

/-- After an expression that has a value, what follows it adds the names. -/
theorem extends_of_eval {e : Expr} {m m₁ m' : Machine W} {v : Value} {added : String → Prop}
    (he : e.eval.Ends m (.ok v) m₁) (h : m₁.Extends added m') : m.Extends added m' :=
  ((e.eval_addsNothing _ _ _ he).trans h).congr fun x => by rw [false_or]

variable [Writer W]

mutual

/-- A statement adds the names of the declarations it completes. -/
theorem exec_extends : ∀ {s : Stmt} {m m' : Machine W} {r : Except RuntimeError Unit},
    m.Grounded → s.exec.Ends m r m' → m.Extends (s.Completes m) m'
  | .expression e, m, m', r, _, h => by
    rw [exec] at h
    have hadds := (e.eval_addsNothing (W := W)).bind fun _ => addsNothing_pure ()
    exact (hadds _ _ _ h).congr fun x => ⟨nofun, nofun⟩
  | .print e, m, m', r, _, h => by
    rw [exec] at h
    have hadds := (e.eval_addsNothing (W := W)).bind addsNothing_print
    exact (hadds _ _ _ h).congr fun x => ⟨nofun, nofun⟩
  | .varDecl name none, m, m', r, hm, h => by
    rw [exec] at h
    obtain ⟨-, rfl⟩ := ends_define.mp h
    refine (Extends.define hm name.lexeme .nil).congr fun x => ⟨?_, ?_⟩
    · rintro rfl
      exact .bare
    · rintro ⟨⟩
      rfl
  | .varDecl name (some e), m, m', r, hm, h => by
    rw [exec] at h
    rcases h.bind_cases with ⟨v, m₁, hv, h⟩ | ⟨fault, hfault, -⟩
    · obtain ⟨-, rfl⟩ := ends_define.mp h
      have hvalue : e.eval m = .ok v m₁ := hv
      have hdefine := Extends.define (Expr.eval_grounded hm hv) name.lexeme v
      refine (extends_of_eval hv hdefine).congr fun x => ?_
      simp [completes_initialized, hvalue]
    · -- An initializer that fails leaves its declaration incomplete.
      have hvalue : e.eval m = .error fault m' := hfault
      refine (e.eval_addsNothing _ _ _ hfault).congr fun x => ?_
      simp [completes_initialized, hvalue]
  | .block body, m, m', r, hm, h => by
    rw [exec] at h
    obtain ⟨m₁, hbody, rfl⟩ := ends_inBlock.mp h
    have hextends := execAll_extends (hm.entering body.length) hbody
    exact (Extends.leaving hm hextends).congr fun x => ⟨nofun, nofun⟩
  | .ifThen c s, m, m', r, hm, h => by
    rw [exec] at h
    rcases h.bind_cases with ⟨v, m₁, hv, h⟩ | ⟨fault, hfault, -⟩
    · have hcondition : c.eval m = .ok v m₁ := hv
      split at h
      · next htruthy =>
        have hbranch := exec_extends (Expr.eval_grounded hm hv) h
        refine (extends_of_eval hv hbranch).congr fun x => ?_
        simp [completes_ifThen, hcondition, htruthy]
      · next hfalsy =>
        refine (extends_of_eval hv (addsNothing_pure () _ _ _ h)).congr fun x => ?_
        simp [completes_ifThen, hcondition, hfalsy]
    · have hcondition : c.eval m = .error fault m' := hfault
      refine (c.eval_addsNothing _ _ _ hfault).congr fun x => ?_
      simp [completes_ifThen, hcondition]
  | .ifElse c s s', m, m', r, hm, h => by
    rw [exec] at h
    rcases h.bind_cases with ⟨v, m₁, hv, h⟩ | ⟨fault, hfault, -⟩
    · have hcondition : c.eval m = .ok v m₁ := hv
      split at h
      · next htruthy =>
        have hbranch := exec_extends (Expr.eval_grounded hm hv) h
        refine (extends_of_eval hv hbranch).congr fun x => ?_
        simp [completes_ifElse, hcondition, htruthy]
      · next hfalsy =>
        have hbranch := exec_extends (Expr.eval_grounded hm hv) h
        refine (extends_of_eval hv hbranch).congr fun x => ?_
        simp [completes_ifElse, hcondition, hfalsy]
    · have hcondition : c.eval m = .error fault m' := hfault
      refine (c.eval_addsNothing _ _ _ hfault).congr fun x => ?_
      simp [completes_ifElse, hcondition]

theorem execAll_extends : ∀ {ss : List Stmt} {m m' : Machine W} {r : Except RuntimeError Unit},
    m.Grounded → (execAll ss).Ends m r m' → m.Extends (BodyCompletes ss m) m'
  | [], m, m', r, _, h => by
    rw [execAll] at h
    exact (addsNothing_pure () _ _ _ h).congr fun x => ⟨nofun, nofun⟩
  | s :: ss, m, m', r, hm, h => by
    rw [execAll] at h
    rcases h.bind_cases with ⟨_, m₁, hs, h⟩ | ⟨fault, hfault, -⟩
    · have hstatement : s.exec m = .ok () m₁ := hs
      have hrest := execAll_extends (exec_grounded hm hs) h
      refine ((exec_extends hm hs).trans hrest).congr fun x => ?_
      simp [bodyCompletes_cons, hstatement]
    · have hstatement : s.exec m = .error fault m' := hfault
      refine (exec_extends hm hfault).congr fun x => ?_
      simp [bodyCompletes_cons, hstatement]

end

/-- Flushing adds nothing. -/
theorem interpret_extends {ss : List Stmt} {m m' : Machine W} {r : Except RuntimeError Unit}
    (hm : m.Grounded) (h : (interpret ss).Ends m r m') : m.Extends (BodyCompletes ss m) m' := by
  rw [interpret] at h
  rcases h.bind_cases with ⟨_, m₁, hss, h⟩ | ⟨fault, hfault, -⟩
  · have hflush := addsNothing_onSink _ _ _ _ h
    exact ((execAll_extends hm hss).trans hflush).congr fun x => by rw [or_false]
  · exact execAll_extends hm hfault

end Stmt

/-! ## Programs -/

namespace Machine

variable [Writer W]

/-- **Scopes are restored and nothing leaks.** Whatever statements are
executed from a machine whose current frame is there, and whether they end
well, with a fault at any depth or with a refusal of the sink: afterwards the
same frame is current; every frame of before is there, enclosed by the same
frame; every one but the current one binds the same names; and the current
one binds its names of before and those whose declarations were completed
outside of blocks, and no others. -/
theorem interpret_restores {m : Machine W} (hm : m.Grounded) (ss : List Stmt) :
    (m.interpret ss).2.current = m.current ∧
      (∀ i, i < m.scopes.frames.length → i < (m.interpret ss).2.scopes.frames.length ∧
        (m.interpret ss).2.scopes.enclosing? i = m.scopes.enclosing? i) ∧
      (∀ i, i < m.scopes.frames.length → i ≠ m.current →
        (m.interpret ss).2.scopes.names i = m.scopes.names i) ∧
      ∀ x, x ∈ (m.interpret ss).2.scopes.names m.current ↔
        x ∈ m.scopes.names m.current ∨ Stmt.BodyCompletes ss m x := by
  have hextends := Stmt.interpret_extends hm (m.interpret_ends ss)
  have hgrows := hextends.stays.grows
  refine ⟨hextends.stays.current, fun i hi => ⟨?_, hgrows.links i hi⟩, hextends.others,
    hextends.own⟩
  exact Nat.lt_of_lt_of_le hi hgrows.frames

end Machine

end

namespace Machine

/-- A declaration of `a` as the branch of an `if`, and a block that declares
`b`, assigns to `a` and fails two blocks deep. -/
def failingDeep : List Stmt :=
  let a : Token := ⟨.identifier, "a", none, 1⟩
  let b : Token := ⟨.identifier, "b", none, 2⟩
  let c : Token := ⟨.identifier, "c", none, 3⟩
  [.ifThen (.literal (.bool true)) (.varDecl a (some (.literal .nil))),
    .block [.varDecl b none, .expression (.assign a (.literal (.bool true))),
      .block [.block [.expression (.var c)]]]]

/-- Run in a block, it leaves `a` in the frame of that block and nothing
else. -/
theorem interpret_restores_of_failingDeep :
    let m := (initial Sink.unlimited).entering 1
    m.Grounded ∧ (m.interpret failingDeep).1 = .error (.undefinedVariable "c" 3) ∧
      (m.interpret failingDeep).2.current = 1 ∧
      (m.interpret failingDeep).2.scopes.enclosing? 1 = some 0 ∧
      (m.interpret failingDeep).2.scopes.names 0 = ∅ ∧
      ∀ x, x ∈ (m.interpret failingDeep).2.scopes.names 1 ↔ x = "a" := by
  intro m
  have hm : m.Grounded := (grounded_initial Sink.unlimited).entering 1
  obtain ⟨hcurrent, hlinks, hothers, hown⟩ := interpret_restores hm failingDeep
  refine ⟨hm, by decide +kernel, hcurrent, (hlinks 1 (by decide)).2,
    hothers 0 (by decide) (by decide), fun x => (hown x).trans ⟨?_, ?_⟩⟩
  · rintro (hx | hx)
    · cases hx
    · rcases Stmt.bodyCompletes_cons.mp hx with hx | ⟨_, _, hx⟩
      · obtain ⟨_, _, _, _, hx⟩ := Stmt.completes_ifThen.mp hx
        exact (Stmt.completes_initialized.mp hx).1
      · rcases Stmt.bodyCompletes_cons.mp hx with hx | ⟨_, _, hx⟩ <;> cases hx
  · rintro rfl
    exact .inr (.head (.ifThen rfl rfl (.initialized rfl)))

end Machine

end Lox

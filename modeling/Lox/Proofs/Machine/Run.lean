/-
Runs opened one step at a time: a bind ends with a value exactly if both of
its parts do, and with a fault exactly if one of them does (`bind_eq_ok`,
`bind_eq_error`).

A property that the operations have and that sequences and blocks pass on
holds of every execution (`Stmt.exec_of_closed`). One such: a relation that
every step keeps to, from the machine before it to the machine after it, is
kept to by every run (`Run.Moves`). So, whatever a run executes and however
it ends, the frame it started in is current again and no frame is lost
(`Run.Evolving`); and the statements do no more to the sink than write to it
(`Machine.execAll_moves_wrote`).

All this holds whatever is printed to.
-/
import Lox.Machine.Exec
import Lox.Proofs.Scoping.Frames
import Mathlib.Logic.Relation

namespace Lox

namespace Run

variable {W α β : Type}

theorem bind_eq_ok {x : Run W α} {f : α → Run W β} {m m' : Machine W} {b : β} :
    (x >>= f) m = .ok b m' ↔ ∃ a m₁, x m = .ok a m₁ ∧ f a m₁ = .ok b m' := by
  change EStateM.bind x f m = _ ↔ _
  unfold EStateM.bind
  cases x m <;> simp [and_assoc]

theorem bind_eq_error {x : Run W α} {f : α → Run W β} {m m' : Machine W} {e : RuntimeError} :
    (x >>= f) m = .error e m' ↔
      x m = .error e m' ∨ ∃ a m₁, x m = .ok a m₁ ∧ f a m₁ = .error e m' := by
  change EStateM.bind x f m = _ ↔ _
  unfold EStateM.bind
  cases x m <;> simp [and_assoc]

theorem bind_of_ok {x : Run W α} {m m₁ : Machine W} {a : α} (h : x m = .ok a m₁) (f : α → Run W β) :
    (x >>= f) m = f a m₁ := by
  change EStateM.bind x f m = _
  unfold EStateM.bind
  rw [h]

theorem pure_eq_ok {a b : α} {m m' : Machine W} :
    (pure a : Run W α) m = .ok b m' ↔ a = b ∧ m = m' := by
  change EStateM.Result.ok a m = _ ↔ _
  simp

theorem pure_ne_error {a : α} {m m' : Machine W} {e : RuntimeError} :
    (pure a : Run W α) m ≠ .error e m' := by
  change EStateM.Result.ok a m ≠ _
  simp

theorem ofExcept_eq_ok {x : Except RuntimeError α} {a : α} {m m' : Machine W} :
    ofExcept x m = .ok a m' ↔ x = .ok a ∧ m' = m := by
  cases x with
  | ok b =>
    rw [ofExcept, pure_eq_ok, Except.ok.injEq, eq_comm (a := m)]
  | error e =>
    change EStateM.Result.error e m = _ ↔ _
    simp

theorem ofExcept_eq_error {x : Except RuntimeError α} {e : RuntimeError} {m m' : Machine W} :
    ofExcept x m = .error e m' ↔ x = .error e ∧ m' = m := by
  cases x with
  | ok b => simp [ofExcept, pure_ne_error]
  | error e' =>
    change EStateM.Result.error e' m = _ ↔ _
    simp [eq_comm]

theorem lookup_eq_ok {name : Token} {value : Value} {m m' : Machine W} :
    lookup name m = .ok value m' ↔ m.scopes.get? m.current name.lexeme = some value ∧ m' = m := by
  rw [← Scopes.get_eq_ok name.line, lookup]
  cases m.scopes.get m.current name.lexeme name.line <;> simp [eq_comm]

theorem lookup_eq_error {name : Token} {m m' : Machine W} {e : RuntimeError} :
    lookup name m = .error e m' ↔ m.scopes.binder? m.current name.lexeme = none ∧
      e = .undefinedVariable name.lexeme name.line ∧ m' = m := by
  rw [← and_assoc, ← Scopes.get_eq_error, lookup]
  cases m.scopes.get m.current name.lexeme name.line <;> simp [eq_comm]

theorem assign_eq_ok {name : Token} {value : Value} {m m' : Machine W} :
    assign name value m = .ok () m' ↔ ∃ i, m.scopes.binder? m.current name.lexeme = some i ∧
      m' = { m with scopes := m.scopes.define i name.lexeme value } := by
  unfold assign
  cases h : m.scopes.assign m.current name.lexeme name.line value with
  | ok s =>
    obtain ⟨i, hi, rfl⟩ := Scopes.assign_eq_ok.mp h
    simp [hi, eq_comm]
  | error e => simp [(Scopes.assign_eq_error.mp h).1]

theorem assign_eq_error {name : Token} {value : Value} {m m' : Machine W} {e : RuntimeError} :
    assign name value m = .error e m' ↔ m.scopes.binder? m.current name.lexeme = none ∧
      e = .undefinedVariable name.lexeme name.line ∧ m' = m := by
  rw [← and_assoc, ← Scopes.assign_eq_error, assign]
  cases m.scopes.assign m.current name.lexeme name.line value <;> simp [eq_comm]

theorem define_eq_ok {name : Token} {value : Value} {m m' : Machine W} :
    define name value m = .ok () m' ↔
      m' = { m with scopes := m.scopes.define m.current name.lexeme value } := by
  simp [define, eq_comm]

theorem define_ne_error {name : Token} {value : Value} {m m' : Machine W} {e : RuntimeError} :
    define name value m ≠ .error e m' := by
  simp [define]

theorem onSink_eq_ok {operation : W → Option String × W} {m m' : Machine W} :
    onSink operation m = .ok () m' ↔
      (operation m.sink).1 = none ∧ m' = { m with sink := (operation m.sink).2 } := by
  unfold onSink
  split <;> simp_all [eq_comm]

theorem onSink_eq_error {operation : W → Option String × W} {m m' : Machine W}
    {e : RuntimeError} :
    onSink operation m = .error e m' ↔
      ∃ cause, (operation m.sink).1 = some cause ∧ e = .output cause ∧
        m' = { m with sink := (operation m.sink).2 } := by
  unfold onSink
  split <;> simp_all [eq_comm]

end Run

section

variable {W : Type}

/-- The machine in which the statements of a block begin. -/
def Machine.entering (m : Machine W) (count : Nat) : Machine W :=
  { m with
    scopes := (m.scopes.nest m.current).1
    current := (m.scopes.nest m.current).2
    log := m.log ++ [.enteringBlock count] }

theorem Machine.length_entering (m : Machine W) (count : Nat) :
    (m.entering count).scopes.frames.length = m.scopes.frames.length + 1 :=
  Scopes.length_nest m.scopes m.current

namespace Run

theorem inBlock_apply (count : Nat) (body : Run W Unit) (m : Machine W) :
    inBlock count body m = match body (m.entering count) with
      | .ok () m' => .ok () { m' with current := m.current }
      | .error e m' => .error e { m' with current := m.current } := rfl

theorem inBlock_eq_ok {count : Nat} {body : Run W Unit} {m m' : Machine W} :
    inBlock count body m = .ok () m' ↔
      ∃ m₁, body (m.entering count) = .ok () m₁ ∧ m' = { m₁ with current := m.current } := by
  rw [inBlock_apply]
  cases body (m.entering count) <;> simp [eq_comm]

theorem inBlock_eq_error {count : Nat} {body : Run W Unit} {m m' : Machine W} {e : RuntimeError} :
    inBlock count body m = .error e m' ↔
      ∃ m₁, body (m.entering count) = .error e m₁ ∧ m' = { m₁ with current := m.current } := by
  rw [inBlock_apply]
  cases body (m.entering count) <;> simp [eq_comm, and_assoc]

end Run

/-! ## What holds of every run -/

namespace Run

/-- A property of runs that holds of each step of an evaluation and passes
from runs to their sequence. -/
structure EvalClosed (P : (α : Type) → Run W α → Prop) : Prop where
  pure : ∀ {α : Type} (a : α), P α (pure a)
  bind : ∀ {α β : Type} {x : Run W α} {f : α → Run W β}, P α x → (∀ a, P β (f a)) → P β (x >>= f)
  ofExcept : ∀ {α : Type} (x : Except RuntimeError α), P α (ofExcept x)
  lookup : ∀ name, P Value (lookup name)
  assign : ∀ name value, P Unit (assign name value)

/-- One that holds of each step of an execution too, and passes from the body
of a block to the block. -/
structure Closed [Writer W] (P : (α : Type) → Run W α → Prop) : Prop extends EvalClosed P where
  define : ∀ name value, P Unit (define name value)
  print : ∀ value, P Unit (print value)
  inBlock : ∀ {body : Run W Unit}, P Unit body → ∀ count, P Unit (inBlock count body)

end Run

section Closed

open Run

variable {P : (α : Type) → Run W α → Prop}

/-- Such a property holds of every evaluation. -/
theorem Expr.eval_of_closed (h : EvalClosed P) (e : Expr) : P Value e.eval := by
  induction e with
  | literal value =>
    rw [eval]
    exact h.pure value
  | grouping inner ih =>
    rw [eval]
    exact ih
  | unary operator operand ih =>
    rw [eval]
    exact h.bind ih fun v => h.ofExcept _
  | binary left operator right ihleft ihright =>
    rw [eval]
    exact h.bind ihleft fun a => h.bind ihright fun b => h.ofExcept _
  | logical left operator right ihleft ihright =>
    rw [eval]
    refine h.bind ihleft fun a => ?_
    split
    · exact h.pure a
    · exact ihright
  | var name =>
    rw [eval]
    exact h.lookup name
  | assign name value ih =>
    rw [eval]
    exact h.bind ih fun v => h.bind (h.assign name v) fun _ => h.pure v

variable [Writer W] (h : Closed P)

include h

mutual

/-- And of every execution. -/
theorem Stmt.exec_of_closed : ∀ s : Stmt, P Unit s.exec
  | .expression e => by
    rw [exec]
    exact h.bind (e.eval_of_closed h.toEvalClosed) fun _ => h.pure ()
  | .print e => by
    rw [exec]
    exact h.bind (e.eval_of_closed h.toEvalClosed) h.print
  | .varDecl name none => by
    rw [exec]
    exact h.define name .nil
  | .varDecl name (some e) => by
    rw [exec]
    exact h.bind (e.eval_of_closed h.toEvalClosed) (h.define name)
  | .block body => by
    rw [exec]
    exact h.inBlock (Stmt.execAll_of_closed body) body.length
  | .ifThen condition thenBranch => by
    rw [exec]
    refine h.bind (condition.eval_of_closed h.toEvalClosed) fun v => ?_
    split
    · exact thenBranch.exec_of_closed
    · exact h.pure ()
  | .ifElse condition thenBranch elseBranch => by
    rw [exec]
    refine h.bind (condition.eval_of_closed h.toEvalClosed) fun v => ?_
    split
    · exact thenBranch.exec_of_closed
    · exact elseBranch.exec_of_closed

theorem Stmt.execAll_of_closed : ∀ ss : List Stmt, P Unit (Stmt.execAll ss)
  | [] => by
    rw [execAll]
    exact h.pure ()
  | s :: ss => by
    rw [execAll]
    exact h.bind s.exec_of_closed fun _ => Stmt.execAll_of_closed ss

end

end Closed

/-! ## What every run keeps -/

/-- A relation between machines that every step of an execution keeps to, and
every block whose body does. -/
structure Machine.ExecSteady [Writer W] (R : Machine W → Machine W → Prop) : Prop where
  refl : ∀ m, R m m
  trans : ∀ {m m₁ m' : Machine W}, R m m₁ → R m₁ m' → R m m'
  define : ∀ (m : Machine W) (i : Nat) (name : String) (value : Value),
    R m { m with scopes := m.scopes.define i name value }
  write : ∀ (m : Machine W) (bytes : List UInt8),
    R m { m with sink := (Writer.write m.sink bytes).2 }
  leaving : ∀ {m m₁ : Machine W} {count : Nat}, R (m.entering count) m₁ →
    R m { m₁ with current := m.current }

/-- One that the flush at the end keeps to as well. -/
structure Machine.Steady [Writer W] (R : Machine W → Machine W → Prop) : Prop
    extends ExecSteady R where
  flush : ∀ m : Machine W, R m { m with sink := (Writer.flush m.sink).2 }

namespace Run

variable {α β : Type} {R : Machine W → Machine W → Prop}

/-- Whether a run, ended with a value or with a fault, leads to a machine in
the relation. -/
def Moves (R : Machine W → Machine W → Prop) (x : Run W α) : Prop :=
  ∀ m, (∀ a m', x m = .ok a m' → R m m') ∧ ∀ e m', x m = .error e m' → R m m'

namespace Moves

theorem onSink {operation : W → Option String × W}
    (hoperation : ∀ m : Machine W, R m { m with sink := (operation m.sink).2 }) :
    (onSink operation).Moves R := by
  intro m
  constructor
  · intro _ m' hm
    rw [(onSink_eq_ok.mp hm).2]
    exact hoperation m
  · intro e m' hm
    obtain ⟨cause, -, -, rfl⟩ := onSink_eq_error.mp hm
    exact hoperation m

variable [Writer W] (h : Machine.ExecSteady R)

include h

theorem bind {x : Run W α} {f : α → Run W β} (hx : x.Moves R) (hf : ∀ a, (f a).Moves R) :
    (x >>= f).Moves R := by
  intro m
  constructor
  · intro b m' hm
    obtain ⟨a, m₁, h₁, h₂⟩ := bind_eq_ok.mp hm
    exact h.trans ((hx m).1 a m₁ h₁) ((hf a m₁).1 b m' h₂)
  · intro e m' hm
    rcases bind_eq_error.mp hm with hm | ⟨a, m₁, h₁, h₂⟩
    · exact (hx m).2 e m' hm
    · exact h.trans ((hx m).1 a m₁ h₁) ((hf a m₁).2 e m' h₂)

theorem pure (a : α) : (pure a : Run W α).Moves R := by
  intro m
  constructor
  · intro b m' hm
    exact (pure_eq_ok.mp hm).2 ▸ h.refl m
  · intro e m' hm
    exact absurd hm pure_ne_error

theorem ofExcept (x : Except RuntimeError α) : (ofExcept x).Moves R := by
  intro m
  constructor
  · intro a m' hm
    exact (ofExcept_eq_ok.mp hm).2 ▸ h.refl m
  · intro e m' hm
    exact (ofExcept_eq_error.mp hm).2 ▸ h.refl m

theorem lookup (name : Token) : (lookup name).Moves R := by
  intro m
  constructor
  · intro v m' hm
    exact (lookup_eq_ok.mp hm).2 ▸ h.refl m
  · intro e m' hm
    exact (lookup_eq_error.mp hm).2.2 ▸ h.refl m

theorem assign (name : Token) (value : Value) : (assign name value).Moves R := by
  intro m
  constructor
  · intro _ m' hm
    obtain ⟨i, -, rfl⟩ := assign_eq_ok.mp hm
    exact h.define m i name.lexeme value
  · intro e m' hm
    exact (assign_eq_error.mp hm).2.2 ▸ h.refl m

theorem define (name : Token) (value : Value) : (define name value).Moves R := by
  intro m
  constructor
  · intro _ m' hm
    rw [define_eq_ok.mp hm]
    exact h.define m m.current name.lexeme value
  · intro e m' hm
    exact absurd hm define_ne_error

theorem inBlock {body : Run W Unit} (hbody : body.Moves R) (count : Nat) :
    (inBlock count body).Moves R := by
  intro m
  constructor
  · intro _ m' hm
    obtain ⟨m₁, hm₁, rfl⟩ := inBlock_eq_ok.mp hm
    exact h.leaving ((hbody _).1 _ m₁ hm₁)
  · intro e m' hm
    obtain ⟨m₁, hm₁, rfl⟩ := inBlock_eq_error.mp hm
    exact h.leaving ((hbody _).2 e m₁ hm₁)

/-- Whatever is executed keeps to the relation. -/
theorem closed : Closed fun _ x => x.Moves R where
  pure := pure h
  bind := bind h
  ofExcept := ofExcept h
  lookup := lookup h
  assign := assign h
  define := define h
  print := fun value => onSink fun m => h.write m (utf8 (value.display ++ "\n"))
  inBlock := inBlock h

end Moves

end Run

variable [Writer W]

theorem Stmt.interpret_moves {R : Machine W → Machine W → Prop} (h : Machine.Steady R)
    (ss : List Stmt) : (Stmt.interpret ss).Moves R := by
  have hss : (execAll ss).Moves R := execAll_of_closed (Run.Moves.closed h.toExecSteady) ss
  rw [interpret]
  exact hss.bind h.toExecSteady fun _ => Run.Moves.onSink h.flush

/-- What a run does to a machine whatever it executes. -/
structure Machine.Evolves (m m' : Machine W) : Prop where
  current : m'.current = m.current
  frames : m.scopes.frames.length ≤ m'.scopes.frames.length

theorem Machine.evolves_steady : Machine.Steady (Machine.Evolves (W := W)) where
  refl m := ⟨rfl, Nat.le_refl _⟩
  trans h h' := ⟨h'.current.trans h.current, Nat.le_trans h.frames h'.frames⟩
  define m i name value := ⟨rfl, Nat.le_of_eq (Scopes.length_define _ _ _ _).symm⟩
  write m bytes := ⟨rfl, Nat.le_refl _⟩
  flush m := ⟨rfl, Nat.le_refl _⟩
  leaving := by
    -- A block comes back to the frame it was entered from.
    intro m m₁ count h
    have hlength := m.length_entering count
    have hframes := h.frames
    have hgrown : m.scopes.frames.length ≤ m₁.scopes.frames.length := by omega
    exact ⟨rfl, hgrown⟩

/-- Whether a run, ended with a value or with a fault, has only evolved the
machine. -/
def Run.Evolving {α : Type} (x : Run W α) : Prop :=
  ∀ m, (∀ a m', x m = .ok a m' → m.Evolves m') ∧ ∀ e m', x m = .error e m' → m.Evolves m'

/-- Whatever is executed only evolves the machine. -/
theorem Run.evolving_closed : Closed fun _ (x : Run W _) => x.Evolving :=
  Run.Moves.closed Machine.evolves_steady.toExecSteady

theorem Stmt.interpret_evolving (ss : List Stmt) : (Stmt.interpret (W := W) ss).Evolving :=
  interpret_moves Machine.evolves_steady ss

/-- The second sink comes of the first by writes alone. -/
def Writer.Wrote : W → W → Prop :=
  Relation.ReflTransGen fun a b => ∃ bytes, b = (write a bytes).2

/-- What no write changes about a sink, writes do not change. -/
theorem Writer.Wrote.map_eq {β : Type} {f : W → β}
    (hf : ∀ sink bytes, f (write sink bytes).2 = f sink) {a b : W} (h : Wrote a b) :
    f b = f a := by
  induction h with
  | refl => rfl
  | tail _ hstep ih =>
    obtain ⟨bytes, rfl⟩ := hstep
    exact (hf _ bytes).trans ih

theorem Machine.wrote_steady :
    ExecSteady fun m m' : Machine W => Writer.Wrote m.sink m'.sink where
  refl _ := .refl
  trans h h' := h.trans h'
  define _ _ _ _ := .refl
  write _ bytes := .single ⟨bytes, rfl⟩
  leaving h := h

/-- Executing statements writes, and does not flush. -/
theorem Machine.execAll_moves_wrote (ss : List Stmt) :
    (Stmt.execAll ss).Moves fun m m' : Machine W => Writer.Wrote m.sink m'.sink :=
  Stmt.execAll_of_closed (Run.Moves.closed wrote_steady) ss

/-! ## Programs -/

theorem Stmt.execAll_append (ss ts : List Stmt) :
    execAll (W := W) (ss ++ ts) = execAll ss >>= fun _ => execAll ts := by
  induction ss with
  | nil =>
    rw [List.nil_append, execAll]
    rfl
  | cons s ss ih =>
    rw [List.cons_append, execAll, execAll, ih]
    exact (bind_assoc _ _ _).symm

theorem Stmt.interpret_cons (s : Stmt) (ss : List Stmt) :
    interpret (W := W) (s :: ss) = s.exec >>= fun _ => interpret ss := by
  rw [interpret, execAll]
  exact bind_assoc _ _ _

theorem Stmt.interpret_append (ss ts : List Stmt) :
    interpret (W := W) (ss ++ ts) = execAll ss >>= fun _ => interpret ts := by
  rw [interpret, execAll_append]
  exact bind_assoc _ _ _

theorem Machine.interpret_eq_ok {m m' : Machine W} {ss : List Stmt} :
    m.interpret ss = (.ok (), m') ↔ Stmt.interpret ss m = .ok () m' := by
  unfold interpret
  cases Stmt.interpret ss m <;> simp

theorem Machine.interpret_eq_error {m m' : Machine W} {ss : List Stmt} {e : RuntimeError} :
    m.interpret ss = (.error e, m') ↔ Stmt.interpret ss m = .error e m' := by
  unfold interpret
  cases Stmt.interpret ss m <;> simp

/-- A fault of a statement ends the run before the flush. -/
theorem Machine.interpret_of_execAll_error {m m' : Machine W} {ss : List Stmt} {e : RuntimeError}
    (h : Stmt.execAll ss m = .error e m') : m.interpret ss = (.error e, m') :=
  interpret_eq_error.mpr (Run.bind_eq_error.mpr (.inl h))

/-- Statements that all end well are followed by a flush, and the run ends as
that does. -/
theorem Machine.interpret_of_execAll_ok {m m' : Machine W} {ss : List Stmt}
    (h : Stmt.execAll ss m = .ok () m') :
    m.interpret ss = ((Writer.flush m'.sink).1.elim (.ok ()) (.error <| .output ·),
      { m' with sink := (Writer.flush m'.sink).2 }) := by
  have hflush : Stmt.interpret ss m = Run.flush m' := Run.bind_of_ok h _
  rw [interpret, hflush, Run.flush, Run.onSink]
  rcases Writer.flush m'.sink with ⟨_ | cause, sink⟩
  · rfl
  · rfl

end

/-- Whether flushing a sink fails was settled before all statements. -/
theorem Machine.interpret_of_execAll_ok_sink {m m' : Machine Sink} {ss : List Stmt}
    (h : Stmt.execAll ss m = .ok () m') :
    m.interpret ss = (if m.sink.failsFlush then .error (.output "flush failed") else .ok (),
      { m' with sink := m'.sink.flush.2 }) := by
  have hsame : m'.sink.failsFlush = m.sink.failsFlush :=
    ((execAll_moves_wrote ss m).1 _ _ h).map_eq (f := Sink.failsFlush) fun _ _ => rfl
  rw [interpret_of_execAll_ok h, Sink.writer_flush, Sink.flush, hsame]
  cases m.sink.failsFlush with
  | false => rfl
  | true => rfl

end Lox

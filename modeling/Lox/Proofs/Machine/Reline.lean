/-
Execution carries line numbers through and never looks at them: relined
statements do what the statements do, and a fault they end with is relined
(`Machine.interpret_reline`).
-/
import Lox.Proofs.Machine.Run
import Lox.Proofs.Tree.Reline

namespace Lox

/-! ## Operators -/

namespace Operator

theorem unary_reline (f : Nat → Nat) (operator : Token) (v : Value) :
    unary (operator.reline f) v = (unary operator v).mapError (RuntimeError.reline f) := by
  unfold unary
  rw [Token.reline_kind]
  split <;> rfl

theorem orFault_reline (f : Nat → Nat) (fault : RuntimeError) (v? : Option Value) :
    orFault (fault.reline f) v? = (orFault fault v?).mapError (RuntimeError.reline f) := by
  cases v? <;> rfl

theorem binary_reline (f : Nat → Nat) (a : Value) (operator : Token) (b : Value) :
    binary a (operator.reline f) b = (binary a operator b).mapError (RuntimeError.reline f) := by
  unfold binary
  rw [Token.reline_kind]
  split <;> first
    | rfl
    | exact orFault_reline f (.operandsMustBeNumbers operator.line) _
    | exact orFault_reline f (.operandsMustBeNumbersOrStrings operator.line) _

end Operator

/-! ## Runs -/

section

variable {W : Type}

namespace Run

variable {α β : Type} (f : Nat → Nat)

/-- A run, its fault relined. -/
def reline (x : Run W α) : Run W α := fun m =>
  match x m with
  | .ok a m' => .ok a m'
  | .error e m' => .error (e.reline f) m'

theorem reline_pure (a : α) : reline (W := W) f (pure a) = pure a := rfl

theorem reline_bind (x : Run W α) (g : α → Run W β) :
    reline f (x >>= g) = reline f x >>= fun a => reline f (g a) := by
  funext m
  change reline f (EStateM.bind x g) m = EStateM.bind (reline f x) (fun a => reline f (g a)) m
  simp only [reline, EStateM.bind]
  cases x m <;> rfl

theorem reline_ite (c : Prop) [Decidable c] (x y : Run W α) :
    reline f (if c then x else y) = if c then reline f x else reline f y := by
  split <;> rfl

theorem reline_ofExcept (x : Except RuntimeError α) :
    reline (W := W) f (ofExcept x) = ofExcept (x.mapError (RuntimeError.reline f)) := by
  cases x <;> rfl

theorem lookup_reline (name : Token) :
    lookup (W := W) (name.reline f) = reline f (lookup name) := by
  funext m
  simp only [reline, lookup, Scopes.get, Token.reline]
  cases m.scopes.get? m.current name.lexeme <;> rfl

theorem assign_reline (name : Token) (value : Value) :
    assign (W := W) (name.reline f) value = reline f (assign name value) := by
  funext m
  simp only [reline, assign, Scopes.assign, Token.reline]
  cases m.scopes.assign? m.current name.lexeme value <;> rfl

theorem define_reline (name : Token) (value : Value) :
    define (W := W) (name.reline f) value = reline f (define name value) := rfl

theorem reline_onSink (operation : W → Option String × W) :
    reline f (onSink operation) = onSink operation := by
  funext m
  simp only [reline, onSink]
  rcases operation m.sink with ⟨_ | cause, sink⟩ <;> rfl

theorem reline_inBlock (count : Nat) (body : Run W Unit) :
    reline f (inBlock count body) = inBlock count (reline f body) := by
  funext m
  simp only [reline, inBlock_apply]
  cases body (m.entering count) <;> rfl

end Run

open Run

/-! ## Trees -/

theorem Expr.eval_reline (f : Nat → Nat) (e : Expr) :
    (e.reline f).eval (W := W) = Run.reline f e.eval := by
  induction e with
  | literal value =>
    simp only [Expr.reline, eval]
    rfl
  | grouping inner ih =>
    simp only [Expr.reline, eval]
    exact ih
  | unary operator operand ih =>
    simp only [Expr.reline, eval, reline_bind, reline_ofExcept, ih, Operator.unary_reline]
  | binary left operator right ihleft ihright =>
    simp only [Expr.reline, eval, reline_bind, reline_ofExcept, ihleft, ihright,
      Operator.binary_reline]
  | logical left operator right ihleft ihright =>
    simp only [Expr.reline, eval, reline_bind, reline_ite, reline_pure, ihleft, ihright]
    rfl
  | var name =>
    simp only [Expr.reline, eval]
    exact lookup_reline f name
  | assign name value ih =>
    simp only [Expr.reline, eval, reline_bind, reline_pure, ih, assign_reline]

variable [Writer W]

mutual

theorem Stmt.exec_reline (f : Nat → Nat) : ∀ s : Stmt,
    (s.reline f).exec (W := W) = Run.reline f s.exec
  | .expression e => by
    simp only [Stmt.reline, exec, reline_bind, reline_pure, Expr.eval_reline]
  | .print e => by
    simp only [Stmt.reline, exec, reline_bind, Run.print, reline_onSink, Expr.eval_reline]
  | .varDecl name none => by
    simp only [Stmt.reline, Option.map_none, exec]
    exact define_reline f name .nil
  | .varDecl name (some e) => by
    simp only [Stmt.reline, Option.map_some, exec, reline_bind, Expr.eval_reline]
    rfl
  | .block body => by
    simp only [Stmt.reline, exec, reline_inBlock, length_relineBody]
    rw [Stmt.execAll_reline f body]
  | .ifThen condition thenBranch => by
    simp only [Stmt.reline, exec, reline_bind, reline_ite, reline_pure, Expr.eval_reline]
    rw [Stmt.exec_reline f thenBranch]
  | .ifElse condition thenBranch elseBranch => by
    simp only [Stmt.reline, exec, reline_bind, reline_ite, Expr.eval_reline]
    rw [Stmt.exec_reline f thenBranch, Stmt.exec_reline f elseBranch]

/-- Relined statements do what the statements do, their fault relined. -/
theorem Stmt.execAll_reline (f : Nat → Nat) : ∀ ss : List Stmt,
    Stmt.execAll (W := W) (Stmt.relineBody f ss) = Run.reline f (Stmt.execAll ss)
  | [] => by
    simp only [Stmt.relineBody, execAll, reline_pure]
  | s :: ss => by
    simp only [Stmt.relineBody, execAll, reline_bind]
    rw [Stmt.exec_reline f s, Stmt.execAll_reline f ss]

end

/-- The machine ends as it does, with the fault relined. -/
theorem Machine.interpret_reline (f : Nat → Nat) (m : Machine W) (ss : List Stmt) :
    m.interpret (Stmt.relineBody f ss) =
      ((m.interpret ss).1.mapError (RuntimeError.reline f), (m.interpret ss).2) := by
  have hinterpret : Stmt.interpret (W := W) (Stmt.relineBody f ss) =
      Run.reline f (Stmt.interpret ss) := by
    simp only [Stmt.interpret, reline_bind, Run.flush, reline_onSink, Stmt.execAll_reline]
  unfold interpret
  rw [hinterpret]
  simp only [Run.reline]
  cases Stmt.interpret ss m <;> rfl

end

end Lox

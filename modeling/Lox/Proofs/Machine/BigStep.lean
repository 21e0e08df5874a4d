/-
What statements do, by rules over a plain block structure.

A store is the scopes around a statement, the innermost first, each a finite
map from names to values. A block runs with an empty scope in front, which
is dropped when it ends, by a fault or not; a declaration binds in the
innermost scope; reading and assigning act on the innermost scope that has
the name. Each rule says what an expression or a statement comes to in a
state and which state it leaves. A fault ends whatever it occurs in, and
what was done before it stays done.

There are no frames here that could be shared, and nothing to come back to:
that the machine does the same is proved of it
(`Machine.interpret_iff_interprets`).
-/
import Lox.Machine.Operator
import Lox.Machine.Sink
import Lox.Tree.Stmt
import Mathlib.Data.Finmap

namespace Lox.BigStep

/-! ## Stores -/

/-- The names bound in one block, with their values. -/
abbrev Scope := Finmap fun _ : String => Value

/-- The scopes around a statement, the innermost first. -/
abbrev Store := List Scope

namespace Store

/-- The value of a name in the innermost scope that has it. -/
def value? (x : String) : Store → Option Value
  | [] => none
  | scope :: outer => if x ∈ scope then scope.lookup x else value? x outer

/-- Gives a name another value in the innermost scope that has it. -/
def rebind? (x : String) (v : Value) : Store → Option Store
  | [] => none
  | scope :: outer =>
    if x ∈ scope then some (scope.insert x v :: outer)
    else (rebind? x v outer).map (scope :: ·)

/-- Binds a name in the innermost scope. -/
def bind (x : String) (v : Value) : Store → Store
  | [] => []
  | scope :: outer => scope.insert x v :: outer

end Store

/-- What the rules act on. -/
structure State (W : Type) where
  /-- The scopes around the statement. -/
  store : Store
  /-- What is printed to, which may be any writer. -/
  sink : W
deriving DecidableEq

variable {W : Type}

/-! ## Rules -/

/-- `Evaluates e σ r σ'`: in the state `σ` the expression comes to `r`, a
value or a fault, and leaves the state `σ'`. -/
inductive Evaluates : Expr → State W → Except RuntimeError Value → State W → Prop
  | literal {v : Value} {σ : State W} : Evaluates (.literal v) σ (.ok v) σ
  | grouping {e : Expr} {σ σ' : State W} {r : Except RuntimeError Value} :
      Evaluates e σ r σ' → Evaluates (.grouping e) σ r σ'
  | unary {t : Token} {e : Expr} {v : Value} {σ σ' : State W} :
      Evaluates e σ (.ok v) σ' → Evaluates (.unary t e) σ (Operator.unary t v) σ'
  | unaryFault {t : Token} {e : Expr} {fault : RuntimeError} {σ σ' : State W} :
      Evaluates e σ (.error fault) σ' → Evaluates (.unary t e) σ (.error fault) σ'
  /-- The left operand is evaluated first. -/
  | binary {t : Token} {left right : Expr} {a b : Value} {σ σ₁ σ' : State W} :
      Evaluates left σ (.ok a) σ₁ → Evaluates right σ₁ (.ok b) σ' →
      Evaluates (.binary left t right) σ (Operator.binary a t b) σ'
  | binaryLeftFault {t : Token} {left right : Expr} {fault : RuntimeError} {σ σ' : State W} :
      Evaluates left σ (.error fault) σ' → Evaluates (.binary left t right) σ (.error fault) σ'
  | binaryRightFault {t : Token} {left right : Expr} {a : Value} {fault : RuntimeError}
      {σ σ₁ σ' : State W} : Evaluates left σ (.ok a) σ₁ → Evaluates right σ₁ (.error fault) σ' →
      Evaluates (.binary left t right) σ (.error fault) σ'
  /-- A truthy left operand decides an `or`; the right one is not evaluated. -/
  | orDecided {t : Token} {left right : Expr} {a : Value} {σ σ' : State W} : t.kind = .kwOr →
      Evaluates left σ (.ok a) σ' → a.isTruthy = true →
      Evaluates (.logical left t right) σ (.ok a) σ'
  | orUndecided {t : Token} {left right : Expr} {a : Value} {r : Except RuntimeError Value}
      {σ σ₁ σ' : State W} : t.kind = .kwOr → Evaluates left σ (.ok a) σ₁ → a.isTruthy = false →
      Evaluates right σ₁ r σ' → Evaluates (.logical left t right) σ r σ'
  /-- A falsy one decides an `and`, as which every other operator counts. -/
  | andDecided {t : Token} {left right : Expr} {a : Value} {σ σ' : State W} : t.kind ≠ .kwOr →
      Evaluates left σ (.ok a) σ' → a.isTruthy = false →
      Evaluates (.logical left t right) σ (.ok a) σ'
  | andUndecided {t : Token} {left right : Expr} {a : Value} {r : Except RuntimeError Value}
      {σ σ₁ σ' : State W} : t.kind ≠ .kwOr → Evaluates left σ (.ok a) σ₁ → a.isTruthy = true →
      Evaluates right σ₁ r σ' → Evaluates (.logical left t right) σ r σ'
  | logicalFault {t : Token} {left right : Expr} {fault : RuntimeError} {σ σ' : State W} :
      Evaluates left σ (.error fault) σ' → Evaluates (.logical left t right) σ (.error fault) σ'
  | var {x : Token} {v : Value} {σ : State W} : σ.store.value? x.lexeme = some v →
      Evaluates (.var x) σ (.ok v) σ
  | varUnbound {x : Token} {σ : State W} : σ.store.value? x.lexeme = none →
      Evaluates (.var x) σ (.error (.undefinedVariable x.lexeme x.line)) σ
  | assign {x : Token} {e : Expr} {v : Value} {σ σ₁ : State W} {store : Store} :
      Evaluates e σ (.ok v) σ₁ → σ₁.store.rebind? x.lexeme v = some store →
      Evaluates (.assign x e) σ (.ok v) { σ₁ with store }
  | assignUnbound {x : Token} {e : Expr} {v : Value} {σ σ₁ : State W} :
      Evaluates e σ (.ok v) σ₁ → σ₁.store.rebind? x.lexeme v = none →
      Evaluates (.assign x e) σ (.error (.undefinedVariable x.lexeme x.line)) σ₁
  | assignFault {x : Token} {e : Expr} {fault : RuntimeError} {σ σ' : State W} :
      Evaluates e σ (.error fault) σ' → Evaluates (.assign x e) σ (.error fault) σ'

variable [Writer W]

mutual

/-- `Executes s σ r σ'`: in the state `σ` the statement ends well or by a
fault, and leaves the state `σ'`. -/
inductive Executes : Stmt → State W → Except RuntimeError Unit → State W → Prop
  | expression {e : Expr} {v : Value} {σ σ' : State W} :
      Evaluates e σ (.ok v) σ' → Executes (.expression e) σ (.ok ()) σ'
  | expressionFault {e : Expr} {fault : RuntimeError} {σ σ' : State W} :
      Evaluates e σ (.error fault) σ' → Executes (.expression e) σ (.error fault) σ'
  | print {e : Expr} {v : Value} {σ σ₁ : State W} {sink : W} : Evaluates e σ (.ok v) σ₁ →
      Writer.write σ₁.sink (utf8 (v.display ++ "\n")) = (none, sink) →
      Executes (.print e) σ (.ok ()) { σ₁ with sink }
  /-- What the sink took of a refused line stays in it. -/
  | printRefused {e : Expr} {v : Value} {cause : String} {σ σ₁ : State W} {sink : W} :
      Evaluates e σ (.ok v) σ₁ →
      Writer.write σ₁.sink (utf8 (v.display ++ "\n")) = (some cause, sink) →
      Executes (.print e) σ (.error (.output cause)) { σ₁ with sink }
  | printFault {e : Expr} {fault : RuntimeError} {σ σ' : State W} :
      Evaluates e σ (.error fault) σ' → Executes (.print e) σ (.error fault) σ'
  | bare {x : Token} {σ : State W} :
      Executes (.varDecl x none) σ (.ok ()) { σ with store := σ.store.bind x.lexeme .nil }
  | initialized {x : Token} {e : Expr} {v : Value} {σ σ₁ : State W} : Evaluates e σ (.ok v) σ₁ →
      Executes (.varDecl x (some e)) σ (.ok ()) { σ₁ with store := σ₁.store.bind x.lexeme v }
  | initializerFault {x : Token} {e : Expr} {fault : RuntimeError} {σ σ' : State W} :
      Evaluates e σ (.error fault) σ' → Executes (.varDecl x (some e)) σ (.error fault) σ'
  /-- A block ends as its body does, and its scope with it. -/
  | block {body : List Stmt} {r : Except RuntimeError Unit} {σ σ₁ : State W} :
      ExecutesAll body { σ with store := ∅ :: σ.store } r σ₁ →
      Executes (.block body) σ r { σ₁ with store := σ₁.store.tail }
  | ifThen {c : Expr} {s : Stmt} {v : Value} {r : Except RuntimeError Unit} {σ σ₁ σ' : State W} :
      Evaluates c σ (.ok v) σ₁ → v.isTruthy = true → Executes s σ₁ r σ' →
      Executes (.ifThen c s) σ r σ'
  | ifThenSkipped {c : Expr} {s : Stmt} {v : Value} {σ σ' : State W} :
      Evaluates c σ (.ok v) σ' → v.isTruthy = false → Executes (.ifThen c s) σ (.ok ()) σ'
  | ifThenFault {c : Expr} {s : Stmt} {fault : RuntimeError} {σ σ' : State W} :
      Evaluates c σ (.error fault) σ' → Executes (.ifThen c s) σ (.error fault) σ'
  | thenBranch {c : Expr} {s s' : Stmt} {v : Value} {r : Except RuntimeError Unit}
      {σ σ₁ σ' : State W} : Evaluates c σ (.ok v) σ₁ → v.isTruthy = true → Executes s σ₁ r σ' →
      Executes (.ifElse c s s') σ r σ'
  | elseBranch {c : Expr} {s s' : Stmt} {v : Value} {r : Except RuntimeError Unit}
      {σ σ₁ σ' : State W} : Evaluates c σ (.ok v) σ₁ → v.isTruthy = false → Executes s' σ₁ r σ' →
      Executes (.ifElse c s s') σ r σ'
  | ifElseFault {c : Expr} {s s' : Stmt} {fault : RuntimeError} {σ σ' : State W} :
      Evaluates c σ (.error fault) σ' → Executes (.ifElse c s s') σ (.error fault) σ'

/-- The same of statements one after another. -/
inductive ExecutesAll : List Stmt → State W → Except RuntimeError Unit → State W → Prop
  | nil {σ : State W} : ExecutesAll [] σ (.ok ()) σ
  | cons {s : Stmt} {ss : List Stmt} {r : Except RuntimeError Unit} {σ σ₁ σ' : State W} :
      Executes s σ (.ok ()) σ₁ → ExecutesAll ss σ₁ r σ' → ExecutesAll (s :: ss) σ r σ'
  | fault {s : Stmt} {ss : List Stmt} {fault : RuntimeError} {σ σ' : State W} :
      Executes s σ (.error fault) σ' → ExecutesAll (s :: ss) σ (.error fault) σ'

end

/-- The same of a program: after statements that all ended well, the sink is
flushed. -/
inductive Interprets : List Stmt → State W → Except RuntimeError Unit → State W → Prop
  | flushed {ss : List Stmt} {σ σ₁ : State W} {sink : W} : ExecutesAll ss σ (.ok ()) σ₁ →
      Writer.flush σ₁.sink = (none, sink) → Interprets ss σ (.ok ()) { σ₁ with sink }
  | refused {ss : List Stmt} {cause : String} {σ σ₁ : State W} {sink : W} :
      ExecutesAll ss σ (.ok ()) σ₁ → Writer.flush σ₁.sink = (some cause, sink) →
      Interprets ss σ (.error (.output cause)) { σ₁ with sink }
  | fault {ss : List Stmt} {fault : RuntimeError} {σ σ' : State W} :
      ExecutesAll ss σ (.error fault) σ' → Interprets ss σ (.error fault) σ'

end Lox.BigStep

/-
The grammar of expressions:

  expression → assignment
  assignment → IDENTIFIER "=" assignment | or
  or         → and ( "or" and )*
  and        → equality ( "and" equality )*
  equality   → comparison ( ( "!=" | "==" ) comparison )*
  comparison → term ( ( ">" | ">=" | "<" | "<=" ) term )*
  term       → factor ( ( "-" | "+" ) factor )*
  factor     → unary ( ( "/" | "*" ) unary )*
  unary      → ( "!" | "-" ) unary | primary
  primary    → NUMBER | STRING | "true" | "false" | "nil" | IDENTIFIER | "(" expression ")"

The six levels from `or` to `factor` are one rule (`chain`), which reads
operands of the tighter levels and joins them to the left. What stands
before `=` is read as an ordinary expression first; if it is no name, that
is reported and the expression stands for the whole.
-/
import Lox.Grammar.Reading
import Lox.Tree.Expr

namespace Lox

/-- The levels of operators that join two operands. -/
inductive Level where
  | or
  | and
  | equality
  | comparison
  | term
  | factor
deriving DecidableEq

namespace Level

/-- The levels from loosest to tightest. -/
def all : List Level := [.or, .and, .equality, .comparison, .term, .factor]

/-- The operators of a level. -/
def operators : Level → List Token.Kind
  | .or => [.kwOr]
  | .and => [.kwAnd]
  | .equality => [.bangEqual, .equalEqual]
  | .comparison => [.greater, .greaterEqual, .less, .lessEqual]
  | .term => [.minus, .plus]
  | .factor => [.slash, .star]

/-- Joins two operands of a level. -/
def join (level : Level) (left : Expr) (operator : Token) (right : Expr) : Expr :=
  match level with
  | .or | .and => .logical left operator right
  | _ => .binary left operator right

end Level

/-- The kinds a primary of one token has. -/
def Token.Kind.isAtom : Token.Kind → Bool
  | .kwFalse | .kwTrue | .kwNil | .number | .string | .identifier => true
  | _ => false

namespace Grammar

/-- The assignment to a target with what it reports: a target that is no
name is reported at the equals sign and stands unassigned. -/
def assignTo (target : Expr) (equals : Token) (value : Expr) : Expr × List Record :=
  match target with
  | .var name => (.assign name value, [])
  | _ => (target, [.reported (SyntaxFault.ofToken equals .invalidAssignmentTarget).diagnostic])

/-- Reads a primary of one token. A literal token without its literal is
consumed all the same. -/
def atom (t : Token) (more : List Token) : Reading Expr (t :: more) :=
  match Expr.ofToken? t with
  | some e => .done e more [] (.cons t more)
  | none =>
    .failed (.ofToken t .expectedExpression) more [.notAnExpression t] (List.suffix_cons t more)

mutual

/-- Reads an expression. -/
def assignment (endLine : Nat) (ts : List Token) : Reading Expr ts :=
  (chain endLine Level.all ts).bind fun target rest h =>
    match rest, h with
    | [], h => .done target [] [] h
    | equals :: more, h =>
      if equals.kind = .equal then
        ((assignment endLine more).within h.suffix_tail).bind fun value rest h =>
          let (e, log) := assignTo target equals value
          .done e rest log h
      else .done target (equals :: more) [] h
termination_by 16 * ts.length + 10
decreasing_by
  · simp [Level.all]
  · have := (After.tail h.suffix).length_lt
    omega

/-- Reads operands of the tighter levels, joined by the operators of the
first of `levels`. -/
def chain (endLine : Nat) (levels : List Level) (ts : List Token) : Reading Expr ts :=
  match levels with
  | [] => unary endLine ts
  | level :: tighter =>
    (chain endLine tighter ts).bind fun left rest h => chainRest endLine level tighter left rest h
termination_by 16 * ts.length + levels.length + 2
decreasing_by
  · simp
  · simp
  · have := h.length_lt
    simp only [List.length_cons]
    omega

/-- Reads on after a left operand for as long as operators of the level
follow. -/
def chainRest (endLine : Nat) (level : Level) (tighter : List Level) (left : Expr) {ts : List Token}
    (rest : List Token) (h : After rest ts) : Reading Expr ts :=
  match rest, h with
  | [], h => .done left [] [] h
  | operator :: operand, h =>
    if operator.kind ∈ level.operators then
      ((chain endLine tighter operand).bind fun right rest h =>
        chainRest endLine level tighter (level.join left operator right) rest h).within
          h.suffix_tail
    else .done left (operator :: operand) [] h
termination_by 16 * rest.length + tighter.length
decreasing_by
  · simp only [List.length_cons]
    omega
  · have := h.length_lt
    simp only [List.length_cons]
    omega

/-- Reads an operand with its signs. -/
def unary (endLine : Nat) (ts : List Token) : Reading Expr ts :=
  match ts with
  | [] => primary endLine []
  | t :: rest =>
    if t.kind = .bang ∨ t.kind = .minus then
      ((unary endLine rest).within (List.suffix_cons t rest)).bind fun operand rest h =>
        .done (.unary t operand) rest [] h
    else primary endLine (t :: rest)
termination_by 16 * ts.length + 1
decreasing_by
  all_goals
    simp only [List.length_cons, List.length_nil]
    omega

/-- Reads a literal, a name or an expression in parentheses. -/
def primary (endLine : Nat) (ts : List Token) : Reading Expr ts :=
  match ts with
  | [] => .failed (faultAt endLine [] .expectedExpression) [] [] (List.suffix_refl _)
  | t :: rest =>
    if t.kind.isAtom then atom t rest
    else if t.kind = .leftParen then
      ((assignment endLine rest).within (List.suffix_cons t rest)).bind fun inner rest h =>
        (expect endLine .rightParen "Expect ')' after expression." rest h.suffix).bind
          fun _ rest h => .done (.grouping inner) rest [] h
    else
      .failed (faultAt endLine (t :: rest) .expectedExpression) (t :: rest) []
        (List.suffix_refl _)
termination_by 16 * ts.length
decreasing_by
  simp only [List.length_cons]
  omega

end

end Grammar

end Lox

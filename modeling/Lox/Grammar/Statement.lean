/-
The grammar of statements:

  declaration → varDecl | statement
  varDecl     → "var" IDENTIFIER ( "=" expression )? ";"
  statement   → ifStmt | printStmt | block | exprStmt
  ifStmt      → "if" "(" expression ")" statement ( "else" statement )?
  printStmt   → "print" expression ";"
  block       → "{" declaration* "}"
  exprStmt    → expression ";"

A fault ends the declaration it is found in: the declaration yields no
statement, the fault is reported, and reading resumes at what looks like
the start of the next statement.
-/
import Lox.Grammar.Expression
import Lox.Tree.Stmt

namespace Lox

/-! ## Resuming after a fault -/

namespace Grammar

/-- Drops tokens up to one that starts a statement, or through a
semicolon. -/
def skipToBoundary : List Token → List Token
  | [] => []
  | t :: rest =>
    if t.kind.startsStatement then t :: rest
    else if t.kind = .semicolon then rest
    else skipToBoundary rest

/-- Drops one token whatever it is, then on to a boundary unless it was a
semicolon. -/
def skipPast : List Token → List Token
  | [] => []
  | t :: rest => if t.kind = .semicolon then rest else skipToBoundary rest

/-- Where reading resumes after a declaration of `ts` failed with `rest`
left. The failing token is kept if it may start the next statement, but not
if it stood where an operand was due, nor if nothing else was consumed. -/
def resume (ts : List Token) (cause : SyntaxCause) (rest : List Token) : List Token :=
  if cause = .expectedExpression ∨ rest.length = ts.length then skipPast rest
  else skipToBoundary rest

theorem skipToBoundary_suffix (ts : List Token) : skipToBoundary ts <:+ ts := by
  induction ts with
  | nil => exact List.suffix_refl _
  | cons t rest ih =>
    unfold skipToBoundary
    split
    · exact List.suffix_refl _
    split
    · exact List.suffix_cons t rest
    · exact ih.trans (List.suffix_cons t rest)

theorem skipPast_suffix_tail (ts : List Token) : skipPast ts <:+ ts.tail := by
  cases ts with
  | nil => exact List.suffix_refl _
  | cons t rest =>
    simp only [skipPast, List.tail_cons]
    split
    · exact List.suffix_refl _
    · exact skipToBoundary_suffix rest

/-- Reading always resumes further on. -/
theorem resume_after {ts rest : List Token} (cause : SyntaxCause) (h : rest <:+ ts)
    (nonempty : ts ≠ []) : After (resume ts cause rest) ts := by
  have pos := List.length_pos_iff.mpr nonempty
  have le := h.length_le
  unfold resume
  split
  · have suffix := skipPast_suffix_tail rest
    refine ⟨(suffix.trans (List.tail_suffix rest)).trans h, ?_⟩
    have := suffix.length_le
    rw [List.length_tail] at this
    omega
  · next stays =>
    have suffix := skipToBoundary_suffix rest
    refine ⟨suffix.trans h, ?_⟩
    have := suffix.length_le
    have : rest.length ≠ ts.length := fun same => stays (.inr same)
    omega

/-! ## Rules -/

/-- What one declaration came to. -/
structure Declared (ts : List Token) where
  statement? : Option Stmt
  rest : List Token
  log : List Record
  after : After rest ts

/-- What a run of declarations came to. -/
structure Body (ts : List Token) where
  statements : List Stmt
  rest : List Token
  log : List Record
  suffix : rest <:+ ts

/-- A declaration's reading: a fault is reported and left behind. -/
def Declared.ofReading {ts : List Token} (nonempty : ts ≠ []) : Reading Stmt ts → Declared ts
  | .done s rest log after => ⟨some s, rest, log, after⟩
  | .failed fault rest log suffix =>
    ⟨none, resume ts fault.cause rest, log ++ [.reported fault.diagnostic, .recovering fault],
      resume_after fault.cause suffix nonempty⟩

/-- Reads an expression and the semicolon after it. -/
def closed (endLine : Nat) (message : String) {ts : List Token} (rest : List Token)
    (h : rest <:+ ts) : Reading Expr ts :=
  ((assignment endLine rest).within h).bind fun e rest h =>
    (expect endLine .semicolon message rest h.suffix).bind fun _ rest h => .done e rest [] h

/-- Reads a variable declaration, its keyword already seen. -/
def variableDeclaration (endLine : Nat) {ts : List Token} (rest : List Token) (h : rest <:+ ts) :
    Reading Stmt ts :=
  (expect endLine .identifier "Expect variable name." rest h).bind fun name rest h =>
    match rest, h with
    | [], h =>
      (expect endLine .semicolon "Expect ';' after variable declaration." [] h.suffix).bind
        fun _ rest h => .done (.varDecl name none) rest [] h
    | t :: more, h =>
      if t.kind = .equal then
        (closed endLine "Expect ';' after variable declaration." more h.suffix_tail).bind
          fun e rest h => .done (.varDecl name (some e)) rest [] h
      else
        (expect endLine .semicolon "Expect ';' after variable declaration." (t :: more)
          h.suffix).bind fun _ rest h => .done (.varDecl name none) rest [] h

mutual

/-- Reads a statement. -/
def statement (endLine : Nat) (ts : List Token) : Reading Stmt ts :=
  match ts with
  | [] =>
    (closed endLine "Expect ';' after expression." [] (List.suffix_refl _)).bind
      fun e rest h => .done (.expression e) rest [] h
  | t :: more =>
    if t.kind = .kwIf then
      (expect endLine .leftParen "Expect '(' after 'if'." more (List.suffix_cons t more)).bind
        fun _ rest h =>
      ((assignment endLine rest).within h.suffix).bind fun condition rest h =>
      (expect endLine .rightParen "Expect ')' after if condition." rest h.suffix).bind
        fun _ rest h =>
      ((statement endLine rest).within h.suffix).bind fun thenBranch rest h =>
        match rest, h with
        | [], h => .done (.ifThen condition thenBranch) [] [] h
        | e :: more, h =>
          if e.kind = .kwElse then
            ((statement endLine more).within h.suffix_tail).bind
              fun elseBranch rest h => .done (.ifElse condition thenBranch elseBranch) rest [] h
          else .done (.ifThen condition thenBranch) (e :: more) [] h
    else if t.kind = .kwPrint then
      (closed endLine "Expect ';' after value." more (List.suffix_cons t more)).bind
        fun e rest h => .done (.print e) rest [] h
    else if t.kind = .leftBrace then
      let body := declarations endLine true more
      ((expect endLine .rightBrace "Expect '\x7d' after block." body.rest
        (body.suffix.trans (List.suffix_cons t more))).bind
          fun _ rest h => .done (.block body.statements) rest [] h).logged body.log
    else
      (closed endLine "Expect ';' after expression." (t :: more) (List.suffix_refl _)).bind
        fun e rest h => .done (.expression e) rest [] h
termination_by 3 * ts.length
decreasing_by
  · have := h.length_lt
    omega
  · have := (After.tail h.suffix).length_lt
    omega
  · simp only [List.length_cons]
    omega

/-- Reads a declaration, giving it up at a fault. -/
def declaration (endLine : Nat) (t : Token) (more : List Token) : Declared (t :: more) :=
  .ofReading (List.cons_ne_nil t more)
    (if t.kind = .kwVar then variableDeclaration endLine more (List.suffix_cons t more)
    else statement endLine (t :: more))
termination_by 3 * (t :: more).length + 1

/-- Reads declarations to the end, or up to a closing brace if in a block. -/
def declarations (endLine : Nat) (inBlock : Bool) (ts : List Token) : Body ts :=
  match ts with
  | [] => ⟨[], [], [], List.suffix_refl _⟩
  | t :: more =>
    if inBlock = true ∧ t.kind = .rightBrace then ⟨[], t :: more, [], List.suffix_refl _⟩
    else
      let first := declaration endLine t more
      let others := declarations endLine inBlock first.rest
      ⟨first.statement?.toList ++ others.statements, others.rest, first.log ++ others.log,
        others.suffix.trans first.after.suffix⟩
termination_by 3 * ts.length + 2
decreasing_by
  · omega
  · exact Nat.add_lt_add_right ((Nat.mul_lt_mul_left (by decide)).mpr first.after.length_lt) 2

end

end Grammar

end Lox

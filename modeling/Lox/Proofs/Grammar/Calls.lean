/-
The calls of the rule for declarations (`Grammar.Call`), which are listed by
following the rules: through the branches of an `if` and into blocks. They are
listed in the order in which they return, so a call stands behind those made
in it.
-/
import Lox.Proofs.Grammar.Outcome

namespace Lox

namespace Grammar

open Reading Outcome

/-- A call of the rule for declarations, by the tokens in front of it. -/
structure Call where
  first : Token
  more : List Token

/-- The statement that a call yields, if any. -/
def Call.statement? (endLine : Nat) (c : Call) : Option Stmt :=
  (declaration endLine c.first c.more).statement?

/-- The condition of an `if`, in its parentheses. -/
def conditionOutcome (endLine : Nat) (ts : List Token) : Outcome Expr :=
  (Outcome.expect endLine .leftParen "Expect '(' after 'if'." ts).bind fun _ rest =>
  (assignment endLine rest).outcome.bind fun condition rest =>
  (Outcome.expect endLine .rightParen "Expect ')' after if condition." rest).bind fun _ rest =>
    .done condition rest []

/-- Where the branch of an `if` is read; there is nothing to read if its
condition fails. -/
def afterCondition (endLine : Nat) (ts : List Token) : List Token :=
  match conditionOutcome endLine ts with
  | .done _ rest _ => rest
  | .failed _ _ _ => []

/-- Where a second branch is read; there is nothing to read if the first
one fails, or no `else` follows it. -/
def afterElse : Outcome Stmt → List Token
  | .done _ (e :: more) _ => if e.kind = .kwElse then more else []
  | _ => []

theorem length_afterCondition_le (endLine : Nat) (ts : List Token) :
    (afterCondition endLine ts).length ≤ ts.length := by
  rw [afterCondition]
  split
  · next condition rest log h =>
    obtain ⟨left, more, rfl, -, h⟩ := expect_bind_eq_done.1 h
    obtain ⟨c, mid, _, _, hread, h, -⟩ := bind_eq_done.1 h
    obtain ⟨right, later, rfl, -, h⟩ := expect_bind_eq_done.1 h
    obtain ⟨-, rfl, -⟩ := Outcome.done.inj h
    have hlt := (after_of_outcome hread).length_lt
    simp only [List.length_cons] at hlt ⊢
    omega
  · exact Nat.zero_le _

theorem length_afterElse_le (endLine : Nat) (ts : List Token) :
    (afterElse (statement endLine ts).outcome).length ≤ ts.length := by
  cases h : (statement endLine ts).outcome with
  | failed => exact Nat.zero_le _
  | done s rest log =>
    have hlt := (after_of_outcome h).length_lt
    cases rest with
    | nil => exact Nat.zero_le _
    | cons e more =>
      simp only [List.length_cons] at hlt
      simp only [afterElse]
      split
      · omega
      · exact Nat.zero_le _

mutual

/-- The calls made in reading a statement, in the order in which they
return. Of simple statements there are none. -/
def statementCalls (endLine : Nat) (ts : List Token) : List Call :=
  match ts with
  | [] => []
  | t :: more =>
    if t.kind = .kwIf then
      let branch := afterCondition endLine more
      statementCalls endLine branch ++
        statementCalls endLine (afterElse (statement endLine branch).outcome)
    else if t.kind = .leftBrace then declarationsCalls endLine true more
    else []
termination_by 3 * ts.length
decreasing_by
  · have := length_afterCondition_le endLine more
    simp only [List.length_cons]
    omega
  · have := length_afterCondition_le endLine more
    have := length_afterElse_le endLine (afterCondition endLine more)
    simp only [List.length_cons]
    omega
  · simp only [List.length_cons]
    omega

/-- A call with those made in it. -/
def declarationCalls (endLine : Nat) (t : Token) (more : List Token) : List Call :=
  (if t.kind = .kwVar then [] else statementCalls endLine (t :: more)) ++ [⟨t, more⟩]
termination_by 3 * (t :: more).length + 1

/-- The calls made in reading declarations. -/
def declarationsCalls (endLine : Nat) (inBlock : Bool) (ts : List Token) : List Call :=
  match ts with
  | [] => []
  | t :: more =>
    if inBlock = true ∧ t.kind = .rightBrace then []
    else
      declarationCalls endLine t more ++
        declarationsCalls endLine inBlock (declaration endLine t more).rest
termination_by 3 * ts.length + 2
decreasing_by
  · omega
  · have := (declaration endLine t more).after.length_lt
    omega

end

variable {n : Nat}

/-- An `if` is its condition and then its branches. -/
theorem statement_if_condition {t : Token} (more : List Token) (h : t.kind = .kwIf) :
    (statement n (t :: more)).outcome =
      (conditionOutcome n more).bind (branchesOutcome n) := by
  rw [statement_if_outcome n more h, conditionOutcome]
  simp only [bind_assoc, bind_done, logged_nil]

@[simp] theorem statementCalls_nil : statementCalls n [] = [] := by rw [statementCalls]

theorem afterElse_statement_nil : afterElse (statement n []).outcome = [] :=
  List.length_eq_zero_iff.1 (Nat.le_zero.1 (length_afterElse_le n []))

end Grammar

open Grammar in
/-- The calls of the rule for declarations in reading a program, at any
depth. -/
def Program.calls (tokens : List Token) : List Call :=
  declarationsCalls (endLine tokens) false (significant tokens)

end Lox

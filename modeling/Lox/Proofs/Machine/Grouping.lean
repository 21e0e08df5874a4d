/-
Execution looks neither at parentheses nor at lines. A grouping is evaluated
as what it holds, so without its groupings a tree is the same run
(`Stmt.execAll_ungroupedBody`); and lines pass from tokens to faults untouched
(`Machine.interpret_reline`). Both together are
`Machine.interpret_ungrouped_reline`.

A line on which no token stands can be moved without moving a token. No fault
can be on it, then, since moving it would move the fault
(`Machine.exists_token_of_error`).
-/
import Lox.Proofs.Machine.Reline
import Lox.Proofs.Tree.Tokens

namespace Lox

/-! ## Without groupings -/

/-- The expression with what each grouping holds in its place. -/
def Expr.ungrouped : Expr → Expr
  | .literal value => .literal value
  | .grouping inner => inner.ungrouped
  | .unary operator operand => .unary operator operand.ungrouped
  | .binary left operator right => .binary left.ungrouped operator right.ungrouped
  | .logical left operator right => .logical left.ungrouped operator right.ungrouped
  | .var name => .var name
  | .assign name value => .assign name value.ungrouped

namespace Stmt

mutual

/-- The statement with what each grouping holds in its place. -/
def ungrouped : Stmt → Stmt
  | .expression e => .expression e.ungrouped
  | .print e => .print e.ungrouped
  | .varDecl name initializer => .varDecl name (initializer.map Expr.ungrouped)
  | .block body => .block (ungroupedBody body)
  | .ifThen condition thenBranch => .ifThen condition.ungrouped thenBranch.ungrouped
  | .ifElse condition thenBranch elseBranch =>
    .ifElse condition.ungrouped thenBranch.ungrouped elseBranch.ungrouped

/-- The same of statements one after another. -/
def ungroupedBody : List Stmt → List Stmt
  | [] => []
  | s :: ss => s.ungrouped :: ungroupedBody ss

end

theorem length_ungroupedBody (ss : List Stmt) : (ungroupedBody ss).length = ss.length := by
  induction ss with
  | nil => rw [ungroupedBody]
  | cons s ss ih => rw [ungroupedBody, List.length_cons, List.length_cons, ih]

end Stmt

theorem Expr.eval_ungrouped {W : Type} (e : Expr) : e.ungrouped.eval (W := W) = e.eval := by
  induction e with
  | literal value => rw [ungrouped]
  | grouping inner ih => rw [ungrouped, eval, ih]
  | unary operator operand ih => rw [ungrouped, eval, eval, ih]
  | binary left operator right ihleft ihright => rw [ungrouped, eval, eval, ihleft, ihright]
  | logical left operator right ihleft ihright => rw [ungrouped, eval, eval, ihleft, ihright]
  | var name => rw [ungrouped]
  | assign name value ih => rw [ungrouped, eval, eval, ih]

namespace Stmt

variable {W : Type} [Writer W]

mutual

theorem exec_ungrouped : ∀ s : Stmt, s.ungrouped.exec (W := W) = s.exec
  | .expression e => by rw [ungrouped, exec, exec, e.eval_ungrouped]
  | .print e => by rw [ungrouped, exec, exec, e.eval_ungrouped]
  | .varDecl name none => by rw [ungrouped, Option.map_none]
  | .varDecl name (some e) => by rw [ungrouped, Option.map_some, exec, exec, e.eval_ungrouped]
  | .block body => by
    rw [ungrouped, exec, exec, length_ungroupedBody, execAll_ungroupedBody body]
  | .ifThen condition thenBranch => by
    rw [ungrouped, exec, exec, condition.eval_ungrouped, exec_ungrouped thenBranch]
  | .ifElse condition thenBranch elseBranch => by
    rw [ungrouped, exec, exec, condition.eval_ungrouped, exec_ungrouped thenBranch,
      exec_ungrouped elseBranch]

/-- Statements without their groupings are the same run. -/
theorem execAll_ungroupedBody : ∀ ss : List Stmt,
    execAll (W := W) (ungroupedBody ss) = execAll ss
  | [] => by rw [ungroupedBody]
  | s :: ss => by
    rw [ungroupedBody, execAll, execAll, exec_ungrouped s, execAll_ungroupedBody ss]

end

end Stmt

/-! ## Lines that no token is on -/

section

variable {f : Nat → Nat}

theorem Token.reline_eq_self {t : Token} (h : f t.line = t.line) : t.reline f = t := by
  rw [reline, h]

theorem Expr.reline_eq_self {e : Expr} (h : ∀ t ∈ e.tokens, f t.line = t.line) :
    e.reline f = e := by
  induction e with
  | literal value => rw [reline]
  | grouping inner ih => rw [reline, ih h]
  | unary operator operand ih =>
    obtain ⟨hoperator, hoperand⟩ := List.forall_mem_cons.mp h
    rw [reline, Token.reline_eq_self hoperator, ih hoperand]
  | binary left operator right ihleft ihright | logical left operator right ihleft ihright =>
    obtain ⟨hleft, hrest⟩ := List.forall_mem_append.mp h
    obtain ⟨hoperator, hright⟩ := List.forall_mem_cons.mp hrest
    rw [reline, ihleft hleft, Token.reline_eq_self hoperator, ihright hright]
  | var name => rw [reline, Token.reline_eq_self (h name (List.mem_singleton_self name))]
  | assign name value ih =>
    obtain ⟨hname, hvalue⟩ := List.forall_mem_cons.mp h
    rw [reline, Token.reline_eq_self hname, ih hvalue]

namespace Stmt

mutual

theorem reline_eq_self : ∀ {s : Stmt}, (∀ t ∈ s.tokens, f t.line = t.line) → s.reline f = s
  | .expression e, h | .print e, h => by
    rw [tokens] at h
    rw [reline, Expr.reline_eq_self h]
  | .varDecl name none, h => by
    rw [tokens, List.forall_mem_singleton] at h
    rw [reline, Token.reline_eq_self h, Option.map_none]
  | .varDecl name (some e), h => by
    rw [tokens, List.forall_mem_cons] at h
    rw [reline, Token.reline_eq_self h.1, Option.map_some, Expr.reline_eq_self h.2]
  | .block body, h => by
    rw [tokens] at h
    rw [reline, relineBody_eq_self h]
  | .ifThen condition thenBranch, h => by
    rw [tokens, List.forall_mem_append] at h
    rw [reline, Expr.reline_eq_self h.1, reline_eq_self h.2]
  | .ifElse condition thenBranch elseBranch, h => by
    rw [tokens, List.forall_mem_append, List.forall_mem_append] at h
    rw [reline, Expr.reline_eq_self h.1.1, reline_eq_self h.1.2, reline_eq_self h.2]

/-- Statements are relined only where their tokens are. -/
theorem relineBody_eq_self : ∀ {ss : List Stmt}, (∀ t ∈ bodyTokens ss, f t.line = t.line) →
    relineBody f ss = ss
  | [], _ => by rw [relineBody]
  | s :: ss, h => by
    rw [bodyTokens, List.forall_mem_append] at h
    rw [relineBody, reline_eq_self h.1, relineBody_eq_self h.2]

end

end Stmt

end

/-- The line a fault names, if it names one. -/
def RuntimeError.line? : RuntimeError → Option Nat
  | .undefinedVariable _ line | .operandMustBeNumber line | .operandsMustBeNumbers line
  | .operandsMustBeNumbersOrStrings line | .unsupportedOperator _ line => some line
  | .output _ => none

theorem RuntimeError.line?_reline (f : Nat → Nat) (e : RuntimeError) :
    (e.reline f).line? = e.line?.map f := by
  cases e <;> rfl

/-! ## Programs -/

namespace Machine

variable {W : Type} [Writer W]

/-- A fault is on the line of an operator or a name. -/
theorem exists_token_of_error {m : Machine W} {ss : List Stmt} {e : RuntimeError} {line : Nat}
    (h : (m.interpret ss).1 = .error e) (hline : e.line? = some line) :
    ∃ t ∈ Stmt.bodyTokens ss, t.line = line := by
  by_contra hnone
  -- Only this line is moved, and no token stands on it.
  let f : Nat → Nat := fun n => if n = line then line + 1 else n
  have hsame : Stmt.relineBody f ss = ss := by
    refine Stmt.relineBody_eq_self fun t ht => if_neg fun ht' => ?_
    exact hnone ⟨t, ht, ht'⟩
  have hfault : e.reline f = e := by
    have hrun := congrArg Prod.fst (interpret_reline f m ss)
    rw [hsame, h] at hrun
    exact (Except.error.inj hrun).symm
  have hmoved := e.line?_reline f
  rw [hfault, hline, Option.map_some, Option.some.injEq] at hmoved
  simp [f] at hmoved

/-- **Execution looks neither at parentheses nor at lines.** Take from some
statements every grouping, keeping what it holds, and put every token on the
line that `f` gives for its line. From any machine, whatever it prints to, they
do what the statements do: they end well or with the same fault, and leave the
same machine, with the same output and the same bindings. If the fault names a
line, `f` of that line is named now; and the line it named is that of an
operator or a name. -/
theorem interpret_ungrouped_reline (f : Nat → Nat) (m : Machine W) (ss : List Stmt) :
    m.interpret (Stmt.ungroupedBody (Stmt.relineBody f ss)) =
        ((m.interpret ss).1.mapError (RuntimeError.reline f), (m.interpret ss).2) ∧
      ∀ e line, (m.interpret ss).1 = .error e → e.line? = some line →
        (e.reline f).line? = some (f line) ∧ ∃ t ∈ Stmt.bodyTokens ss, t.line = line := by
  refine ⟨?_, fun e line he hline => ⟨?_, exists_token_of_error he hline⟩⟩
  · have hplain : Stmt.interpret (W := W) (Stmt.ungroupedBody (Stmt.relineBody f ss)) =
        Stmt.interpret (Stmt.relineBody f ss) := by
      rw [Stmt.interpret, Stmt.interpret, Stmt.execAll_ungroupedBody]
    rw [interpret, hplain, ← interpret, interpret_reline]
  · rw [e.line?_reline, hline, Option.map_some]

end Machine

end Lox

/-
What holds of every rule of the grammar. The rules call each other, and each
proof about all of them would follow the same calls. They are followed once
here: a property that each step of a reading has, and that passes from
readings to what is made of them, holds of every rule (`ExprClosed`,
`Closed`).

The line of the end mark is the only thing a reading is given besides its
tokens, and it is left open: a property is one of the outcomes on some tokens
as they depend on that line. So it may compare the outcomes for two lines.
-/
import Lox.Proofs.Grammar.Outcome

namespace Lox

namespace Outcome

variable {α β : Type}

/-- A bind fails if one of its parts does. -/
theorem bind_eq_failed {o : Outcome α} {next : α → List Token → Outcome β} {fault : SyntaxFault}
    {rest : List Token} {log : List Record} (h : o.bind next = .failed fault rest log) :
    o = .failed fault rest log ∨ ∃ a mid first later, o = .done a mid first ∧
      next a mid = .failed fault rest later := by
  cases o with
  | failed fault' rest' log' =>
    cases h
    exact .inl rfl
  | done a mid first =>
    rw [bind_done] at h
    cases hnext : next a mid with
    | done b rest' later =>
      rw [hnext] at h
      cases h
    | failed fault' rest' later =>
      rw [hnext] at h
      cases h
      exact .inr ⟨a, mid, first, later, rfl, hnext⟩

/-- The value it yields or the fault it ends with. -/
def result : Outcome α → Except SyntaxFault α
  | .done value _ _ => .ok value
  | .failed fault _ _ => .error fault

/-- What an outcome leaves. -/
def rest : Outcome α → List Token
  | .done _ rest _ => rest
  | .failed _ rest _ => rest

/-- What it logs. -/
def log : Outcome α → List Record
  | .done _ _ log => log
  | .failed _ _ log => log

/-- What it logs, with the report that its fault will come to. -/
def reported : Outcome α → List Record
  | .done _ _ log => log
  | .failed fault _ log => log ++ [.reported fault.diagnostic]

@[simp] theorem result_logged (o : Outcome α) (earlier : List Record) :
    (o.logged earlier).result = o.result := by cases o <;> rfl

@[simp] theorem rest_logged (o : Outcome α) (earlier : List Record) :
    (o.logged earlier).rest = o.rest := by cases o <;> rfl

@[simp] theorem log_logged (o : Outcome α) (earlier : List Record) :
    (o.logged earlier).log = earlier ++ o.log := by cases o <;> rfl

@[simp] theorem reported_logged (o : Outcome α) (earlier : List Record) :
    (o.logged earlier).reported = earlier ++ o.reported := by
  cases o <;> simp [logged, reported]

end Outcome

namespace Grammar

/-! ## Declarations as outcomes -/

/-- What a declaration comes to: it never fails. -/
def Declared.outcome {ts : List Token} (d : Declared ts) : Outcome (Option Stmt) :=
  .done d.statement? d.rest d.log

/-- What a run of declarations comes to. -/
def Body.outcome {ts : List Token} (b : Body ts) : Outcome (List Stmt) :=
  .done b.statements b.rest b.log

/-- What becomes of a declaration: its statement, or none once its fault is
reported and left behind. -/
def given (ts : List Token) : Outcome Stmt → Outcome (Option Stmt)
  | .done s rest log => .done (some s) rest log
  | .failed fault rest log =>
    .done none (resume ts fault.cause rest)
      (log ++ [.reported fault.diagnostic, .recovering fault])

theorem declaration_outcome (endLine : Nat) (t : Token) (more : List Token) :
    (declaration endLine t more).outcome =
      given (t :: more) (declarationOutcome endLine t more) := by
  have hparts := declaration_parts endLine t more
  rw [Declared.parts] at hparts
  rw [Declared.outcome]
  cases h : declarationOutcome endLine t more <;>
  · rw [h, settled, Prod.mk.injEq, Prod.mk.injEq] at hparts
    rw [given, hparts.1, hparts.2.1, hparts.2.2]

theorem statement_body_outcome (endLine : Nat) {t : Token} (more : List Token)
    (h : t.kind = .leftBrace) :
    (statement endLine (t :: more)).outcome =
      (declarations endLine true more).outcome.bind fun ss rest =>
        (Outcome.expect endLine .rightBrace "Expect '\x7d' after block." rest).bind
          fun _ rest => .done (.block ss) rest [] := by
  rw [statement_block_outcome endLine more h]
  rfl

theorem declarations_nil_outcome (endLine : Nat) (inBlock : Bool) :
    (declarations endLine inBlock []).outcome = .done [] [] [] := by
  rw [declarations]
  rfl

theorem declarations_rightBrace_outcome (endLine : Nat) {inBlock : Bool} {t : Token}
    (more : List Token) (h : inBlock = true ∧ t.kind = .rightBrace) :
    (declarations endLine inBlock (t :: more)).outcome = .done [] (t :: more) [] := by
  rw [declarations, if_pos h]
  rfl

theorem declarations_cons_outcome (endLine : Nat) {inBlock : Bool} {t : Token} (more : List Token)
    (h : ¬ (inBlock = true ∧ t.kind = .rightBrace)) :
    (declarations endLine inBlock (t :: more)).outcome =
      (declaration endLine t more).outcome.bind fun s? rest =>
        (declarations endLine inBlock rest).outcome.bind fun ss rest =>
          .done (s?.toList ++ ss) rest [] := by
  rw [declarations, if_neg h]
  simp [Declared.outcome, Body.outcome, Outcome.logged]

/-! ## Properties of outcomes -/

/-- Outcomes that are the same for each line have the same properties. -/
theorem of_outcome_eq {P : (α : Type) → List Token → (Nat → Outcome α) → Prop} {α : Type}
    {ts : List Token} {o o' : Nat → Outcome α} (heq : ∀ n, o n = o' n) (h : P α ts o') :
    P α ts o := by
  rw [funext heq]
  exact h

/-- A property that each step of reading an expression has, and that passes
from one reading to a reading that goes on where it ends. No semicolon is
read in an expression. -/
structure ExprClosed (P : (α : Type) → List Token → (Nat → Outcome α) → Prop) : Prop where
  /-- A value that no token is read for. -/
  keep : ∀ {α : Type} (a : α) (ts : List Token), P α ts fun _ => .done a ts []
  /-- A fault at the next token or at the end mark. -/
  fault : ∀ {α : Type} (ts : List Token) (cause : SyntaxCause),
    cause.message ≠ "Invalid assignment target." →
    P α ts fun n => .failed (faultAt n ts cause) ts []
  /-- A literal token that denotes nothing. -/
  undenoting : ∀ (t : Token) (more : List Token), t.kind ≠ .semicolon →
    P Expr (t :: more) fun _ => .failed (.ofToken t .expectedExpression) more [.notAnExpression t]
  /-- A token that is read first. -/
  passed : ∀ {α : Type} {t : Token} {more : List Token} {o : Nat → Outcome α},
    t.kind ≠ .semicolon → P α more o → P α (t :: more) o
  /-- The value of an assignment, behind its equals sign. -/
  assigned : ∀ (target : Expr) {equals : Token} {more : List Token} {o : Nat → Outcome Expr},
    equals.kind = .equal → P Expr more o → P Expr (equals :: more) fun n =>
      (o n).bind fun value rest =>
        .done (assignTo target equals value).1 rest (assignTo target equals value).2
  bind : ∀ {α β : Type} {ts : List Token} {o : Nat → Outcome α}
    {next : Nat → α → List Token → Outcome β}, P α ts o →
    (∀ n a rest log, o n = .done a rest log → P β rest fun n => next n a rest) →
    P β ts fun n => (o n).bind (next n)

/-- One that passes on to statements too, `D` being what holds of declarations
then: these settle the faults found in them, and a block is made of them. -/
structure Closed (P D : (α : Type) → List Token → (Nat → Outcome α) → Prop) : Prop
    extends ExprClosed P where
  /-- A token of any kind. -/
  token : ∀ (t : Token) (more : List Token), P Token (t :: more) fun _ => .done t more []
  block : ∀ {t : Token} {more : List Token} {o : Nat → Outcome (List Stmt)},
    D (List Stmt) more o → P (List Stmt) (t :: more) o
  given : ∀ {t : Token} {more : List Token} {o : Nat → Outcome Stmt}, P Stmt (t :: more) o →
    D (Option Stmt) (t :: more) fun n => given (t :: more) (o n)
  keepAll : ∀ {α : Type} (a : α) (ts : List Token), D α ts fun _ => .done a ts []
  bindAll : ∀ {α β : Type} {ts : List Token} {o : Nat → Outcome α}
    {next : Nat → α → List Token → Outcome β}, D α ts o →
    (∀ n a rest log, o n = .done a rest log → D β rest fun n => next n a rest) →
    D β ts fun n => (o n).bind (next n)

/-! ## Expressions -/

section Expr

open Reading Outcome

variable {P : (α : Type) → List Token → (Nat → Outcome α) → Prop} (h : ExprClosed P)

include h

theorem ExprClosed.map {α β : Type} {ts : List Token} {o : Nat → Outcome α} (f : α → β)
    (ho : P α ts o) : P β ts fun n => (o n).bind fun a rest => .done (f a) rest [] :=
  h.bind ho fun _ a rest _ _ => h.keep (f a) rest

theorem expect_of_exprClosed {kind : Token.Kind} {message : String}
    (hmessage : message ≠ "Invalid assignment target.") (hkind : kind ≠ .semicolon)
    (ts : List Token) : P Token ts fun n => Outcome.expect n kind message ts := by
  cases ts with
  | nil => exact h.fault [] (.expected message) hmessage
  | cons t more =>
    simp only [Outcome.expect]
    by_cases ht : t.kind = kind
    · simp only [ht, if_true]
      exact h.passed (ht ▸ hkind) (h.keep t more)
    · simp only [ht, if_false]
      exact h.fault (t :: more) (.expected message) hmessage

theorem atom_of_exprClosed {t : Token} (ht : t.kind.isAtom = true) (more : List Token) :
    P Expr (t :: more) fun _ => (atom t more).outcome := by
  have hkind : t.kind ≠ .semicolon := by
    intro hsemi
    rw [hsemi] at ht
    cases ht
  rw [atom]
  split
  · next e _ => exact h.passed hkind (h.keep e more)
  · exact h.undenoting t more hkind

mutual

theorem assignment_of_exprClosed (ts : List Token) :
    P Expr ts fun n => (assignment n ts).outcome := by
  refine of_outcome_eq (fun n => assignment_outcome n ts) ?_
  refine h.bind (chain_of_exprClosed Level.all ts) fun n target rest log hdone => ?_
  -- At least one token was read, as the measure requires.
  have hlt := (after_of_outcome hdone).length_lt
  cases rest with
  | nil => exact h.keep target []
  | cons equals more =>
    dsimp only
    split
    · next hequals => exact h.assigned target hequals (assignment_of_exprClosed more)
    · exact h.keep target (equals :: more)
termination_by 16 * ts.length + 10
decreasing_by
  · simp [Level.all]
  · simp only [List.length_cons] at hlt
    omega

theorem chain_of_exprClosed (levels : List Level) (ts : List Token) :
    P Expr ts fun n => (chain n levels ts).outcome := by
  cases levels with
  | nil =>
    refine of_outcome_eq (fun n => chain_nil_outcome n ts) ?_
    exact unary_of_exprClosed ts
  | cons level tighter =>
    refine of_outcome_eq (fun n => chain_cons_outcome n level tighter ts) ?_
    refine h.bind (chain_of_exprClosed tighter ts) fun n left rest log hdone => ?_
    have hlt := (after_of_outcome hdone).length_lt
    exact chainTail_of_exprClosed level tighter left rest
termination_by 16 * ts.length + levels.length + 2
decreasing_by
  · simp
  · simp
  · simp only [List.length_cons]
    omega

theorem chainTail_of_exprClosed (level : Level) (tighter : List Level) (left : Expr)
    (ts : List Token) : P Expr ts fun n => chainTail n level tighter left ts := by
  cases ts with
  | nil =>
    refine of_outcome_eq (fun n => chainTail_nil n level tighter left) ?_
    exact h.keep left []
  | cons operator operand =>
    refine of_outcome_eq (fun n => chainTail_cons n level tighter left operator operand) ?_
    by_cases hoperator : operator.kind ∈ level.operators
    · simp only [hoperator, if_true]
      have hkind : operator.kind ≠ .semicolon := by
        intro hsemi
        rw [hsemi] at hoperator
        cases level <;> simp [Level.operators] at hoperator
      refine h.passed hkind (h.bind (chain_of_exprClosed tighter operand)
        fun n right rest log hdone => ?_)
      have hlt := (after_of_outcome hdone).length_lt
      exact chainTail_of_exprClosed level tighter _ rest
    · simp only [hoperator, if_false]
      exact h.keep left (operator :: operand)
termination_by 16 * ts.length + tighter.length
decreasing_by
  · simp only [List.length_cons]
    omega
  · simp only [List.length_cons]
    omega

theorem unary_of_exprClosed (ts : List Token) : P Expr ts fun n => (unary n ts).outcome := by
  cases ts with
  | nil =>
    refine of_outcome_eq (fun n => unary_outcome n []) ?_
    exact primary_of_exprClosed []
  | cons t more =>
    refine of_outcome_eq (fun n => unary_outcome n (t :: more)) ?_
    by_cases hsign : t.kind = .bang ∨ t.kind = .minus
    · simp only [hsign, if_true]
      have hkind : t.kind ≠ .semicolon := by rcases hsign with ht | ht <;> simp [ht]
      exact h.passed hkind (h.map (Expr.unary t) (unary_of_exprClosed more))
    · simp only [hsign, if_false]
      exact primary_of_exprClosed (t :: more)
termination_by 16 * ts.length + 1
decreasing_by
  all_goals
    simp only [List.length_cons, List.length_nil]
    omega

theorem primary_of_exprClosed (ts : List Token) : P Expr ts fun n => (primary n ts).outcome := by
  cases ts with
  | nil =>
    refine of_outcome_eq (fun n => primary_outcome n []) ?_
    exact h.fault [] .expectedExpression (by decide)
  | cons t more =>
    refine of_outcome_eq (fun n => primary_outcome n (t :: more)) ?_
    by_cases hatom : t.kind.isAtom = true
    · simp only [hatom, if_true]
      exact atom_of_exprClosed h hatom more
    by_cases hleft : t.kind = .leftParen
    · simp only [if_neg hatom, if_pos hleft]
      refine h.passed (by simp [hleft]) (h.bind (assignment_of_exprClosed more)
        fun n inner rest _ _ => ?_)
      exact h.map (fun _ => Expr.grouping inner)
        (expect_of_exprClosed h (by decide) (by decide) rest)
    · simp only [if_neg hatom, if_neg hleft]
      exact h.fault (t :: more) .expectedExpression (by decide)
termination_by 16 * ts.length
decreasing_by
  simp only [List.length_cons]
  omega

end

end Expr

/-! ## Statements -/

section Stmt

open Reading Outcome

variable {P D : (α : Type) → List Token → (Nat → Outcome α) → Prop} (h : Closed P D)

include h

theorem expect_of_closed {kind : Token.Kind} {message : String}
    (hmessage : message ≠ "Invalid assignment target.") (ts : List Token) :
    P Token ts fun n => Outcome.expect n kind message ts := by
  cases ts with
  | nil => exact h.fault [] (.expected message) hmessage
  | cons t more =>
    simp only [Outcome.expect]
    by_cases ht : t.kind = kind
    · simp only [ht, if_true]
      exact h.token t more
    · simp only [ht, if_false]
      exact h.fault (t :: more) (.expected message) hmessage

theorem closedOutcome_of_closed {message : String}
    (hmessage : message ≠ "Invalid assignment target.") (ts : List Token) :
    P Expr ts fun n => closedOutcome n message ts :=
  h.bind (assignment_of_exprClosed h.toExprClosed ts) fun _ e rest _ _ =>
    h.map (fun _ => e) (expect_of_closed h hmessage rest)

theorem variableDeclaration_of_closed {ts : List Token} (rest : List Token) (hrest : rest <:+ ts) :
    P Stmt rest fun n => (variableDeclaration n rest hrest).outcome := by
  refine of_outcome_eq (fun n => variableDeclaration_outcome n rest hrest) ?_
  refine h.bind (expect_of_closed h (by decide) rest) fun n name rest _ _ => ?_
  cases rest with
  | nil => exact h.map (fun _ => Stmt.varDecl name none) (expect_of_closed h (by decide) [])
  | cons t more =>
    dsimp only
    split
    · next ht =>
      exact h.passed (by simp [ht])
        (h.map (fun e => Stmt.varDecl name (some e)) (closedOutcome_of_closed h (by decide) more))
    · exact h.map (fun _ => Stmt.varDecl name none) (expect_of_closed h (by decide) (t :: more))

mutual

theorem statement_of_closed (ts : List Token) : P Stmt ts fun n => (statement n ts).outcome := by
  cases ts with
  | nil =>
    refine of_outcome_eq (fun n => statement_expression_outcome n (by simp)) ?_
    exact h.map Stmt.expression (closedOutcome_of_closed h (by decide) [])
  | cons t more =>
    by_cases hif : t.kind = .kwIf
    · refine of_outcome_eq (fun n => statement_if_outcome n more hif) ?_
      refine h.passed (by simp [hif]) (h.bind (expect_of_closed h (by decide) more)
        fun n _ rest _ hleft => ?_)
      refine h.bind (assignment_of_exprClosed h.toExprClosed rest)
        fun n condition rest' _ hcondition => ?_
      refine h.bind (expect_of_closed h (by decide) rest') fun n _ branch _ hright => ?_
      -- The branches are read further on.
      have hmore := congrArg List.length (expect_eq_done.mp hleft).1
      have hlt := (after_of_outcome hcondition).length_lt
      have hbranch := congrArg List.length (expect_eq_done.mp hright).1
      simp only [branchesOutcome]
      refine h.bind (statement_of_closed branch) fun n thenBranch rest' _ hthen => ?_
      have hlt' := (after_of_outcome hthen).length_lt
      cases rest' with
      | nil => exact h.keep (Stmt.ifThen condition thenBranch) []
      | cons e more =>
        dsimp only
        split
        · next he =>
          exact h.passed (by simp [he])
            (h.map (Stmt.ifElse condition thenBranch) (statement_of_closed more))
        · exact h.keep (Stmt.ifThen condition thenBranch) (e :: more)
    by_cases hprint : t.kind = .kwPrint
    · refine of_outcome_eq (fun n => statement_print_outcome n more hprint) ?_
      exact h.passed (by simp [hprint])
        (h.map Stmt.print (closedOutcome_of_closed h (by decide) more))
    by_cases hbrace : t.kind = .leftBrace
    · refine of_outcome_eq (fun n => statement_body_outcome n more hbrace) ?_
      refine h.bind (h.block (declarations_of_closed true more)) fun n ss rest _ _ => ?_
      exact h.map (fun _ => Stmt.block ss) (expect_of_closed h (by decide) rest)
    · have hleads : ¬ leadsStatement t.kind := by simp [leadsStatement, hif, hprint, hbrace]
      refine of_outcome_eq (fun n => statement_expression_outcome n (by simpa using hleads)) ?_
      exact h.map Stmt.expression (closedOutcome_of_closed h (by decide) (t :: more))
termination_by 3 * ts.length
decreasing_by
  all_goals
    simp only [List.length_cons] at *
    omega

theorem declaration_of_closed (t : Token) (more : List Token) :
    D (Option Stmt) (t :: more) fun n => (declaration n t more).outcome := by
  refine of_outcome_eq (fun n => declaration_outcome n t more) ?_
  refine h.given ?_
  by_cases hvar : t.kind = .kwVar
  · simp only [declarationOutcome, hvar, if_true]
    exact h.passed (by simp [hvar]) (variableDeclaration_of_closed h more _)
  · simp only [declarationOutcome, hvar, if_false]
    exact statement_of_closed (t :: more)
termination_by 3 * (t :: more).length + 1

theorem declarations_of_closed (inBlock : Bool) (ts : List Token) :
    D (List Stmt) ts fun n => (declarations n inBlock ts).outcome := by
  cases ts with
  | nil =>
    refine of_outcome_eq (fun n => declarations_nil_outcome n inBlock) ?_
    exact h.keepAll [] []
  | cons t more =>
    by_cases hend : inBlock = true ∧ t.kind = .rightBrace
    · refine of_outcome_eq (fun n => declarations_rightBrace_outcome n more hend) ?_
      exact h.keepAll [] (t :: more)
    · refine of_outcome_eq (fun n => declarations_cons_outcome n more hend) ?_
      refine h.bindAll (declaration_of_closed t more) fun n s? rest log hfirst => ?_
      have hlt : rest.length < (t :: more).length := by
        rw [Declared.outcome, Outcome.done.injEq] at hfirst
        exact hfirst.2.1 ▸ (declaration n t more).after.length_lt
      exact h.bindAll (declarations_of_closed inBlock rest) fun _ ss rest _ _ =>
        h.keepAll (s?.toList ++ ss) rest
termination_by 3 * ts.length + 2
decreasing_by
  · simp only [List.length_cons]
    omega
  · omega

end

end Stmt

end Grammar

end Lox

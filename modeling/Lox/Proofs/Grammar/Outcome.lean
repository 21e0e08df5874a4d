/-
Readings without the proofs they carry: an outcome says what a rule yields,
what it leaves and what it logs. Each rule of the grammar is restated here
as an equation between outcomes (`assignment_outcome` and its siblings), and
what is proved of a rule elsewhere rests on its equation.
-/
import Lox.Grammar.Program

namespace Lox

/-- What a rule comes to: a value or a fault, with the tokens left and the log. -/
inductive Outcome (α : Type) where
  | done (value : α) (rest : List Token) (log : List Record)
  | failed (fault : SyntaxFault) (rest : List Token) (log : List Record)

namespace Outcome

variable {α β : Type}

/-- The outcome with earlier records put in front of its log. -/
def logged (earlier : List Record) : Outcome α → Outcome α
  | .done value rest log => .done value rest (earlier ++ log)
  | .failed fault rest log => .failed fault rest (earlier ++ log)

/-- Goes on after a value; a fault ends the whole. -/
def bind (o : Outcome α) (next : α → List Token → Outcome β) : Outcome β :=
  match o with
  | .done value rest log => (next value rest).logged log
  | .failed fault rest log => .failed fault rest log

@[simp] theorem logged_nil (o : Outcome α) : o.logged [] = o := by cases o <;> rfl

@[simp] theorem bind_done (a : α) (rest : List Token) (log : List Record)
    (next : α → List Token → Outcome β) :
    (done a rest log).bind next = (next a rest).logged log := rfl

@[simp] theorem bind_failed (fault : SyntaxFault) (rest : List Token) (log : List Record)
    (next : α → List Token → Outcome β) :
    (failed fault rest log).bind next = .failed fault rest log := rfl

theorem logged_logged (o : Outcome α) (earlier later : List Record) :
    (o.logged later).logged earlier = o.logged (earlier ++ later) := by
  cases o <;> simp only [logged, List.append_assoc]

theorem bind_assoc {γ : Type} (o : Outcome α) (next : α → List Token → Outcome β)
    (last : β → List Token → Outcome γ) :
    (o.bind next).bind last = o.bind fun a rest => (next a rest).bind last := by
  cases o with
  | failed => rfl
  | done a rest log =>
    rw [bind_done, bind_done]
    cases next a rest with
    | failed => rfl
    | done b rest' later => rw [bind_done, logged_logged, logged, bind_done]

theorem logged_eq_done {o : Outcome α} {earlier log : List Record} {a : α} {rest : List Token} :
    o.logged earlier = .done a rest log ↔ ∃ later, o = .done a rest later ∧ log = earlier ++ later := by
  cases o with
  | done b rest' later =>
    simp only [logged, done.injEq]
    constructor
    · rintro ⟨rfl, rfl, rfl⟩
      exact ⟨later, ⟨rfl, rfl, rfl⟩, rfl⟩
    · rintro ⟨_, ⟨rfl, rfl, rfl⟩, rfl⟩
      exact ⟨rfl, rfl, rfl⟩
  | failed => simp [logged]

/-- A bind yields a value exactly if both of its parts do. -/
theorem bind_eq_done {o : Outcome α} {next : α → List Token → Outcome β} {b : β}
    {rest : List Token} {log : List Record} :
    o.bind next = .done b rest log ↔
      ∃ a mid first later, o = .done a mid first ∧ next a mid = .done b rest later ∧
        log = first ++ later := by
  cases o with
  | done a mid first =>
    simp only [bind_done, logged_eq_done, done.injEq]
    constructor
    · rintro ⟨later, h, rfl⟩
      exact ⟨a, mid, first, later, ⟨rfl, rfl, rfl⟩, h, rfl⟩
    · rintro ⟨_, _, _, later, ⟨rfl, rfl, rfl⟩, h, rfl⟩
      exact ⟨later, h, rfl⟩
  | failed => simp [bind]

/-- One token of a kind, or a fault at what stands in its place. -/
def expect (endLine : Nat) (kind : Token.Kind) (message : String) : List Token → Outcome Token
  | [] => .failed (Grammar.faultAt endLine [] (.expected message)) [] []
  | t :: more =>
    if t.kind = kind then .done t more []
    else .failed (Grammar.faultAt endLine (t :: more) (.expected message)) (t :: more) []

theorem expect_eq_done {endLine : Nat} {kind : Token.Kind} {message : String} {ts rest : List Token}
    {t : Token} {log : List Record} :
    expect endLine kind message ts = .done t rest log ↔ ts = t :: rest ∧ t.kind = kind ∧ log = [] := by
  cases ts with
  | nil => simp [expect]
  | cons u more =>
    simp only [expect]
    split
    · next hu =>
      simp only [done.injEq, List.cons.injEq]
      constructor
      · rintro ⟨rfl, rfl, rfl⟩
        exact ⟨⟨rfl, rfl⟩, hu, rfl⟩
      · rintro ⟨⟨rfl, rfl⟩, -, rfl⟩
        exact ⟨rfl, rfl, rfl⟩
    · next hu =>
      simp only [List.cons.injEq, false_iff, reduceCtorEq]
      rintro ⟨⟨rfl, rfl⟩, hk, -⟩
      exact hu hk

theorem expect_bind_eq_done {endLine : Nat} {kind : Token.Kind} {message : String}
    {ts rest : List Token} {next : Token → List Token → Outcome β} {b : β} {log : List Record} :
    (expect endLine kind message ts).bind next = .done b rest log ↔
      ∃ t more, ts = t :: more ∧ t.kind = kind ∧ next t more = .done b rest log := by
  simp only [bind_eq_done, expect_eq_done]
  constructor
  · rintro ⟨t, more, _, later, ⟨rfl, hk, rfl⟩, h, rfl⟩
    exact ⟨t, more, rfl, hk, h⟩
  · rintro ⟨t, more, rfl, hk, h⟩
    exact ⟨t, more, [], log, ⟨rfl, hk, rfl⟩, h, rfl⟩

/-- The value of a rule put into a larger tree. -/
theorem bind_pure_eq_done {o : Outcome α} {f : α → β} {b : β} {rest : List Token}
    {log : List Record} :
    (o.bind fun a rest => .done (f a) rest []) = .done b rest log ↔
      ∃ a, o = .done a rest log ∧ b = f a := by
  simp only [bind_eq_done, done.injEq]
  constructor
  · rintro ⟨a, _, _, _, rfl, ⟨rfl, rfl, rfl⟩, rfl⟩
    exact ⟨a, by rw [List.append_nil], rfl⟩
  · rintro ⟨a, rfl, rfl⟩
    exact ⟨a, rest, log, [], rfl, ⟨rfl, rfl, rfl⟩, by rw [List.append_nil]⟩

@[simp] theorem expect_cons {endLine : Nat} {kind : Token.Kind} {message : String} {t : Token}
    (rest : List Token) (h : t.kind = kind) :
    expect endLine kind message (t :: rest) = .done t rest [] := by
  simp [expect, h]

end Outcome

namespace Reading

variable {α β : Type} {ts : List Token}

/-- What a reading comes to. -/
def outcome : Reading α ts → Outcome α
  | .done value rest log _ => .done value rest log
  | .failed fault rest log _ => .failed fault rest log

@[simp] theorem outcome_done (a : α) (rest : List Token) (log : List Record) (h : After rest ts) :
    (Reading.done a rest log h).outcome = .done a rest log := rfl

@[simp] theorem outcome_failed (fault : SyntaxFault) (rest : List Token) (log : List Record)
    (h : rest <:+ ts) :
    (Reading.failed (α := α) fault rest log h).outcome = .failed fault rest log := rfl

@[simp] theorem outcome_logged (earlier : List Record) (r : Reading α ts) :
    (r.logged earlier).outcome = r.outcome.logged earlier := by cases r <;> rfl

@[simp] theorem outcome_within {rest : List Token} (h : rest <:+ ts) (r : Reading α rest) :
    (r.within h).outcome = r.outcome := by cases r <;> rfl

/-- What follows a value may use how much is left, but what it comes to
does not depend on that. -/
theorem outcome_bind {r : Reading α ts}
    {next : α → (rest : List Token) → After rest ts → Reading β ts}
    {f : α → List Token → Outcome β}
    (hf : ∀ a rest h, (next a rest h).outcome = f a rest) :
    (r.bind next).outcome = r.outcome.bind f := by
  cases r with
  | done a rest log h => simp only [bind, outcome_logged, hf, outcome_done, Outcome.bind_done]
  | failed => rfl

/-- A value is read from at least one token. -/
theorem after_of_outcome {r : Reading α ts} {a : α} {rest : List Token} {log : List Record}
    (h : r.outcome = .done a rest log) : After rest ts := by
  cases r with
  | done a' rest' log' after =>
    simp only [outcome_done, Outcome.done.injEq] at h
    exact h.2.1 ▸ after
  | failed => simp [outcome] at h

end Reading

namespace Grammar

open Reading

theorem expect_outcome (endLine : Nat) (kind : Token.Kind) (message : String) {ts : List Token}
    (rest : List Token) (h : rest <:+ ts) :
    (expect endLine kind message rest h).outcome = Outcome.expect endLine kind message rest := by
  cases rest with
  | nil => rfl
  | cons t more =>
    simp only [expect, Outcome.expect]
    split <;> rfl

theorem assignment_outcome (endLine : Nat) (ts : List Token) :
    (assignment endLine ts).outcome =
      (chain endLine Level.all ts).outcome.bind fun target rest =>
        match rest with
        | [] => .done target [] []
        | equals :: more =>
          if equals.kind = .equal then
            (assignment endLine more).outcome.bind fun value rest =>
              .done (assignTo target equals value).1 rest (assignTo target equals value).2
          else .done target (equals :: more) [] := by
  rw [assignment]
  refine outcome_bind fun target rest h => ?_
  cases rest with
  | nil => rfl
  | cons equals more =>
    dsimp only
    split
    · rw [outcome_bind (f := fun value rest =>
        .done (assignTo target equals value).1 rest (assignTo target equals value).2), outcome_within]
      exact fun value rest h => rfl
    · rfl

theorem chain_nil_outcome (endLine : Nat) (ts : List Token) :
    (chain endLine [] ts).outcome = (unary endLine ts).outcome := by
  rw [chain]

/-- What reading on after a left operand comes to. -/
def chainTail (endLine : Nat) (level : Level) (tighter : List Level) (left : Expr)
    (rest : List Token) : Outcome Expr :=
  (chainRest endLine level tighter left rest (After.cons (.eof endLine) rest)).outcome

theorem chainRest_outcome (endLine : Nat) (level : Level) (tighter : List Level) (left : Expr)
    {ts : List Token} (rest : List Token) (h : After rest ts) :
    (chainRest endLine level tighter left rest h).outcome =
      chainTail endLine level tighter left rest := by
  rw [chainTail]
  cases rest with
  | nil =>
    rw [chainRest, chainRest]
    rfl
  | cons operator operand =>
    rw [chainRest, chainRest]
    split
    · rw [outcome_within, outcome_within]
    · rfl

theorem chain_cons_outcome (endLine : Nat) (level : Level) (tighter : List Level)
    (ts : List Token) :
    (chain endLine (level :: tighter) ts).outcome =
      (chain endLine tighter ts).outcome.bind (chainTail endLine level tighter) := by
  rw [chain]
  exact outcome_bind fun left rest h => chainRest_outcome endLine level tighter left rest h

theorem chainTail_nil (endLine : Nat) (level : Level) (tighter : List Level) (left : Expr) :
    chainTail endLine level tighter left [] = .done left [] [] := by
  rw [chainTail, chainRest]
  rfl

theorem chainTail_cons (endLine : Nat) (level : Level) (tighter : List Level) (left : Expr)
    (operator : Token) (operand : List Token) :
    chainTail endLine level tighter left (operator :: operand) =
      if operator.kind ∈ level.operators then
        (chain endLine tighter operand).outcome.bind fun right rest =>
          chainTail endLine level tighter (level.join left operator right) rest
      else .done left (operator :: operand) [] := by
  rw [chainTail, chainRest]
  split
  · rw [outcome_within]
    exact outcome_bind fun right rest h => chainRest_outcome _ _ _ _ _ _
  · rfl

theorem unary_outcome (endLine : Nat) (ts : List Token) :
    (unary endLine ts).outcome =
      match ts with
      | [] => (primary endLine []).outcome
      | t :: rest =>
        if t.kind = .bang ∨ t.kind = .minus then
          (unary endLine rest).outcome.bind fun operand rest => .done (.unary t operand) rest []
        else (primary endLine (t :: rest)).outcome := by
  cases ts with
  | nil => rw [unary]
  | cons t rest =>
    rw [unary]
    dsimp only
    split
    · rw [outcome_bind (f := fun operand rest => .done (.unary t operand) rest []), outcome_within]
      exact fun operand rest h => rfl
    · rfl

theorem primary_outcome (endLine : Nat) (ts : List Token) :
    (primary endLine ts).outcome =
      match ts with
      | [] => .failed (faultAt endLine [] .expectedExpression) [] []
      | t :: rest =>
        if t.kind.isAtom then (atom t rest).outcome
        else if t.kind = .leftParen then
          (assignment endLine rest).outcome.bind fun inner rest =>
            (Outcome.expect endLine .rightParen "Expect ')' after expression." rest).bind
              fun _ rest => .done (.grouping inner) rest []
        else .failed (faultAt endLine (t :: rest) .expectedExpression) (t :: rest) [] := by
  cases ts with
  | nil =>
    rw [primary]
    rfl
  | cons t rest =>
    rw [primary]
    dsimp only
    split
    · rfl
    split
    · rw [← outcome_within (List.suffix_cons t rest) (assignment endLine rest)]
      refine outcome_bind fun inner rest h => ?_
      rw [← expect_outcome endLine .rightParen "Expect ')' after expression." rest h.suffix]
      exact outcome_bind fun _ _ _ => rfl
    · rfl

/-- An expression and the semicolon after it. -/
def closedOutcome (endLine : Nat) (message : String) (ts : List Token) : Outcome Expr :=
  (assignment endLine ts).outcome.bind fun e rest =>
    (Outcome.expect endLine .semicolon message rest).bind fun _ rest => .done e rest []

theorem closed_outcome (endLine : Nat) (message : String) {ts : List Token} (rest : List Token)
    (h : rest <:+ ts) :
    (closed endLine message rest h).outcome = closedOutcome endLine message rest := by
  rw [closed, closedOutcome, ← outcome_within h (assignment endLine rest)]
  refine outcome_bind fun e rest h => ?_
  rw [← expect_outcome endLine .semicolon message rest h.suffix]
  exact outcome_bind fun _ _ _ => rfl

/-! ## Statements -/

theorem variableDeclaration_outcome (endLine : Nat) {ts : List Token} (rest : List Token)
    (h : rest <:+ ts) :
    (variableDeclaration endLine rest h).outcome =
      (Outcome.expect endLine .identifier "Expect variable name." rest).bind fun name rest =>
        match rest with
        | [] =>
          (Outcome.expect endLine .semicolon "Expect ';' after variable declaration." []).bind
            fun _ rest => .done (.varDecl name none) rest []
        | t :: more =>
          if t.kind = .equal then
            (closedOutcome endLine "Expect ';' after variable declaration." more).bind
              fun e rest => .done (.varDecl name (some e)) rest []
          else
            (Outcome.expect endLine .semicolon "Expect ';' after variable declaration."
              (t :: more)).bind fun _ rest => .done (.varDecl name none) rest [] := by
  rw [variableDeclaration, ← expect_outcome endLine .identifier "Expect variable name." rest h]
  refine outcome_bind fun name rest h => ?_
  cases rest with
  | nil =>
    dsimp only
    rw [← expect_outcome _ _ _ _ h.suffix]
    exact outcome_bind fun _ _ _ => rfl
  | cons t more =>
    dsimp only
    split
    · rw [← closed_outcome _ _ _ h.suffix_tail]
      exact outcome_bind fun _ _ _ => rfl
    · rw [← expect_outcome _ _ _ _ h.suffix]
      exact outcome_bind fun _ _ _ => rfl

/-- The branches of an if statement, its condition already read. -/
def branchesOutcome (endLine : Nat) (condition : Expr) (ts : List Token) : Outcome Stmt :=
  (statement endLine ts).outcome.bind fun thenBranch rest =>
    match rest with
    | [] => .done (.ifThen condition thenBranch) [] []
    | e :: more =>
      if e.kind = .kwElse then
        (statement endLine more).outcome.bind fun elseBranch rest =>
          .done (.ifElse condition thenBranch elseBranch) rest []
      else .done (.ifThen condition thenBranch) (e :: more) []

theorem statement_if_outcome (endLine : Nat) {t : Token} (more : List Token) (h : t.kind = .kwIf) :
    (statement endLine (t :: more)).outcome =
      (Outcome.expect endLine .leftParen "Expect '(' after 'if'." more).bind fun _ rest =>
      (assignment endLine rest).outcome.bind fun condition rest =>
      (Outcome.expect endLine .rightParen "Expect ')' after if condition." rest).bind fun _ rest =>
        branchesOutcome endLine condition rest := by
  rw [statement, if_pos h, ← expect_outcome _ _ _ _ (List.suffix_cons t more)]
  refine outcome_bind fun _ rest h => ?_
  rw [← outcome_within h.suffix (assignment endLine rest)]
  refine outcome_bind fun condition rest h => ?_
  rw [← expect_outcome _ _ _ _ h.suffix]
  refine outcome_bind fun _ rest h => ?_
  rw [branchesOutcome, ← outcome_within h.suffix (statement endLine rest)]
  refine outcome_bind fun thenBranch rest h => ?_
  cases rest with
  | nil => rfl
  | cons e more =>
    dsimp only
    split
    · rw [← outcome_within h.suffix_tail (statement endLine more)]
      exact outcome_bind fun _ _ _ => rfl
    · rfl

theorem statement_print_outcome (endLine : Nat) {t : Token} (more : List Token)
    (h : t.kind = .kwPrint) :
    (statement endLine (t :: more)).outcome =
      (closedOutcome endLine "Expect ';' after value." more).bind
        fun e rest => .done (.print e) rest [] := by
  rw [statement, if_neg (by simp [h]), if_pos h, ← closed_outcome _ _ _ (List.suffix_cons t more)]
  exact outcome_bind fun _ _ _ => rfl

theorem statement_block_outcome (endLine : Nat) {t : Token} (more : List Token)
    (h : t.kind = .leftBrace) :
    (statement endLine (t :: more)).outcome =
      ((Outcome.expect endLine .rightBrace "Expect '\x7d' after block."
        (declarations endLine true more).rest).bind fun _ rest =>
          .done (.block (declarations endLine true more).statements) rest []).logged
        (declarations endLine true more).log := by
  rw [statement, if_neg (by simp [h]), if_neg (by simp [h]), if_pos h, outcome_logged,
    ← expect_outcome _ _ _ _
      ((declarations endLine true more).suffix.trans (List.suffix_cons t more))]
  congr 1
  exact outcome_bind fun _ _ _ => rfl

/-- The kinds that begin a statement other than an expression. -/
def leadsStatement (kind : Token.Kind) : Prop :=
  kind = .kwIf ∨ kind = .kwPrint ∨ kind = .leftBrace

theorem statement_expression_outcome (endLine : Nat) {ts : List Token}
    (h : ∀ t ∈ ts.head?, ¬ leadsStatement t.kind) :
    (statement endLine ts).outcome =
      (closedOutcome endLine "Expect ';' after expression." ts).bind
        fun e rest => .done (.expression e) rest [] := by
  rw [← closed_outcome _ _ _ (List.suffix_refl ts)]
  cases ts with
  | nil =>
    rw [statement]
    exact outcome_bind fun _ _ _ => rfl
  | cons t more =>
    have ht := h t rfl
    simp only [leadsStatement, not_or] at ht
    rw [statement, if_neg ht.1, if_neg ht.2.1, if_neg ht.2.2]
    exact outcome_bind fun _ _ _ => rfl

/-! ## Declarations -/

/-- A declaration before its fault, if any, is settled. -/
def declarationOutcome (endLine : Nat) (t : Token) (more : List Token) : Outcome Stmt :=
  if t.kind = .kwVar then
    (variableDeclaration endLine more (List.suffix_cons t more)).outcome
  else (statement endLine (t :: more)).outcome

/-- The statement of a declaration, what it leaves and what it logs. -/
def Declared.parts {ts : List Token} (d : Declared ts) : Option Stmt × List Token × List Record :=
  (d.statement?, d.rest, d.log)

/-- The statements of a run of declarations, what it leaves and what it
logs. -/
def Body.parts {ts : List Token} (b : Body ts) : List Stmt × List Token × List Record :=
  (b.statements, b.rest, b.log)

/-- What becomes of an outcome once a fault is reported and left behind. -/
def settled (ts : List Token) : Outcome Stmt → Option Stmt × List Token × List Record
  | .done s rest log => (some s, rest, log)
  | .failed fault rest log =>
    (none, resume ts fault.cause rest, log ++ [.reported fault.diagnostic, .recovering fault])

theorem declaration_parts (endLine : Nat) (t : Token) (more : List Token) :
    (declaration endLine t more).parts = settled (t :: more) (declarationOutcome endLine t more) := by
  rw [declaration, declarationOutcome, ← apply_ite outcome]
  cases (if t.kind = .kwVar then variableDeclaration endLine more (List.suffix_cons t more)
    else statement endLine (t :: more)) <;> rfl

theorem declaration_of_done {endLine : Nat} {t : Token} {more rest : List Token} {s : Stmt}
    {log : List Record} (h : declarationOutcome endLine t more = .done s rest log) :
    (declaration endLine t more).statement? = some s ∧ (declaration endLine t more).rest = rest ∧
      (declaration endLine t more).log = log := by
  have hd := declaration_parts endLine t more
  rw [h, settled, Declared.parts, Prod.mk.injEq, Prod.mk.injEq] at hd
  exact hd

theorem declarations_nil_parts (endLine : Nat) (inBlock : Bool) :
    (declarations endLine inBlock []).parts = ([], [], []) := by
  rw [declarations]
  rfl

theorem declarations_rightBrace_parts (endLine : Nat) {t : Token} (more : List Token)
    (h : t.kind = .rightBrace) :
    (declarations endLine true (t :: more)).parts = ([], t :: more, []) := by
  rw [declarations, if_pos ⟨rfl, h⟩]
  rfl

theorem declarations_cons_parts (endLine : Nat) {inBlock : Bool} {t : Token} (more : List Token)
    (h : ¬ (inBlock = true ∧ t.kind = .rightBrace)) :
    (declarations endLine inBlock (t :: more)).parts =
      ((declaration endLine t more).statement?.toList ++
          (declarations endLine inBlock (declaration endLine t more).rest).statements,
        (declarations endLine inBlock (declaration endLine t more).rest).rest,
        (declaration endLine t more).log ++
          (declarations endLine inBlock (declaration endLine t more).rest).log) := by
  rw [declarations, if_neg h]
  rfl

/-- What declarations come to, with statements and records of others put in
front. -/
def preceded (ss : List Stmt) (log : List Record)
    (parts : List Stmt × List Token × List Record) : List Stmt × List Token × List Record :=
  (ss ++ parts.1, parts.2.1, log ++ parts.2.2)

@[simp] theorem preceded_preceded (ss ss' : List Stmt) (log log' : List Record)
    (parts : List Stmt × List Token × List Record) :
    preceded ss log (preceded ss' log' parts) = preceded (ss ++ ss') (log ++ log') parts := by
  simp only [preceded, List.append_assoc]

/-- A declaration that is read gives its statement, and reading goes on where
it ends. -/
theorem declarations_of_done {endLine : Nat} {inBlock : Bool} {t : Token} {more rest : List Token}
    {s : Stmt} {log : List Record} (hbrace : ¬ (inBlock = true ∧ t.kind = .rightBrace))
    (h : declarationOutcome endLine t more = .done s rest log) :
    (declarations endLine inBlock (t :: more)).parts =
      preceded [s] log (declarations endLine inBlock rest).parts := by
  obtain ⟨hstatement, hrest, hlog⟩ := declaration_of_done h
  rw [declarations_cons_parts _ _ hbrace, hstatement, hlog, hrest]
  rfl

/-- One that fails gives no statement; its fault is reported, and reading goes
on where it resumes. -/
theorem declarations_of_failed {endLine : Nat} {inBlock : Bool} {t : Token}
    {more rest : List Token} {fault : SyntaxFault} {log : List Record}
    (hbrace : ¬ (inBlock = true ∧ t.kind = .rightBrace))
    (h : declarationOutcome endLine t more = .failed fault rest log) :
    (declarations endLine inBlock (t :: more)).parts =
      preceded [] (log ++ [.reported fault.diagnostic, .recovering fault])
        (declarations endLine inBlock (resume (t :: more) fault.cause rest)).parts := by
  have hd := declaration_parts endLine t more
  rw [h, settled, Declared.parts, Prod.mk.injEq, Prod.mk.injEq] at hd
  rw [declarations_cons_parts _ _ hbrace, hd.1, hd.2.2, hd.2.1]
  rfl

end Grammar

end Lox

/-
What the log of a reading accounts for. A fault is found deep in an
expression and settled some rules further out, by the nearest declaration;
in between nothing is logged. So the log of any rule is made of reports of
targets and of settled faults, each of these a report with its recovery
right behind it (`Accounts`), and of nothing else that counts.

The recoveries are counted against the calls of the rule for declarations
(`Call`). A call that yields no statement has one recovery, its own, and they
come in the order in which the calls return (`declarations_accounts`).
-/
import Lox.Proofs.Grammar.Calls
import Lox.Proofs.Recovery.Segments

namespace Lox

/-- The fault that a record recovers from. -/
def Record.recovered? : Record → Option SyntaxFault
  | .recovering f => some f
  | _ => none

/-! ## Logs that account for their faults -/

/-- A log in which exactly the faults `faults` are settled, in order: each is
reported and recovered from at once. Besides it has reports of targets, and
records that are neither reports nor recoveries. -/
inductive Accounts : List Record → List SyntaxFault → Prop
  | nil : Accounts [] []
  | other {r : Record} {log : List Record} {faults : List SyntaxFault} : r.diagnostic? = none →
      r.recovered? = none → Accounts log faults → Accounts (r :: log) faults
  | target {d : Diagnostic} {log : List Record} {faults : List SyntaxFault} : d.ofTarget →
      Accounts log faults → Accounts (.reported d :: log) faults
  | settled {f : SyntaxFault} {log : List Record} {faults : List SyntaxFault} :
      ¬ f.diagnostic.ofTarget → Accounts log faults →
      Accounts (.reported f.diagnostic :: .recovering f :: log) (f :: faults)

namespace Accounts

variable {log log' : List Record} {faults faults' : List SyntaxFault}

theorem append (h : Accounts log faults) (h' : Accounts log' faults') :
    Accounts (log ++ log') (faults ++ faults') := by
  induction h with
  | nil => exact h'
  | other hreport hrecover _ ih => exact .other hreport hrecover ih
  | target hd _ ih => exact .target hd ih
  | settled hf _ ih => exact .settled hf ih

/-- The records of recoveries are those of the settled faults. -/
theorem filterMap_recovered? (h : Accounts log faults) :
    log.filterMap Record.recovered? = faults := by
  induction h with
  | nil => rfl
  | other _ hrecover _ ih => rw [List.filterMap_cons_none hrecover, ih]
  | target _ _ ih => exact ih
  | settled _ _ ih => exact congrArg (List.cons _) ih

/-- Nothing starts with a recovery. -/
theorem head_ne_recovering (h : Accounts log faults) (f : SyntaxFault) :
    log.head? ≠ some (.recovering f) := by
  cases h with
  | other _ hrecover =>
    intro hhead
    rw [Option.some.inj hhead] at hrecover
    cases hrecover
  | _ => simp

/-- Wherever something other than a target is reported, its recovery follows,
and no second one. -/
theorem recovering_of_reported (h : Accounts log faults) {before after : List Record}
    {d : Diagnostic} (hlog : log = before ++ .reported d :: after) (hd : ¬ d.ofTarget) :
    ∃ f later, after = .recovering f :: later ∧ f.diagnostic = d ∧
      ∀ g, later.head? ≠ some (.recovering g) := by
  induction h generalizing before with
  | nil => simp at hlog
  | other hreport _ _ ih =>
    cases before with
    | nil =>
      rw [(List.cons.inj hlog).1] at hreport
      cases hreport
    | cons r before => exact ih (List.cons.inj hlog).2
  | target hd' _ ih =>
    cases before with
    | nil =>
      obtain ⟨hhead, -⟩ := List.cons.inj hlog
      exact absurd (Record.reported.inj hhead ▸ hd') hd
    | cons r before => exact ih (List.cons.inj hlog).2
  | @settled f later faults _ hlater ih =>
    match before, hlog with
    | [], hlog =>
      obtain ⟨hhead, htail⟩ := List.cons.inj hlog
      exact ⟨f, later, htail.symm, Record.reported.inj hhead, hlater.head_ne_recovering⟩
    | [_], hlog => simp at hlog
    | _ :: _ :: before, hlog =>
      exact ih (List.cons.inj (List.cons.inj hlog).2).2

/-- Wherever there is a recovery, its fault was reported right before. -/
theorem reported_of_recovering (h : Accounts log faults) {before after : List Record}
    {f : SyntaxFault} (hlog : log = before ++ .recovering f :: after) :
    ∃ earlier, before = earlier ++ [.reported f.diagnostic] ∧ ¬ f.diagnostic.ofTarget := by
  induction h generalizing before with
  | nil => simp at hlog
  | other _ hrecover _ ih =>
    cases before with
    | nil =>
      rw [(List.cons.inj hlog).1] at hrecover
      cases hrecover
    | cons r before =>
      obtain ⟨earlier, rfl, hf⟩ := ih (List.cons.inj hlog).2
      exact ⟨r :: earlier, rfl, hf⟩
  | target _ _ ih =>
    cases before with
    | nil => simp at hlog
    | cons r before =>
      obtain ⟨earlier, rfl, hf⟩ := ih (List.cons.inj hlog).2
      exact ⟨r :: earlier, rfl, hf⟩
  | @settled g later faults hg _ ih =>
    match before, hlog with
    | [], hlog => simp at hlog
    | [r], hlog =>
      simp only [List.cons_append, List.nil_append, List.cons.injEq, Record.recovering.injEq]
        at hlog
      obtain ⟨rfl, rfl, -⟩ := hlog
      exact ⟨[], rfl, hg⟩
    | r :: r' :: before, hlog =>
      obtain ⟨earlier, rfl, hf⟩ := ih (List.cons.inj (List.cons.inj hlog).2).2
      exact ⟨r :: r' :: earlier, rfl, hf⟩

end Accounts

namespace Outcome

variable {α β : Type} {faults faults' : List SyntaxFault}

/-- The log accounts for `faults`; what the rule fails with is not among
them, and is no matter of a target. -/
inductive Accounted : Outcome α → List SyntaxFault → Prop
  | done {a : α} {rest : List Token} {log : List Record} {faults : List SyntaxFault} :
      Accounts log faults → Accounted (.done a rest log) faults
  | failed {fault : SyntaxFault} {rest : List Token} {log : List Record}
      {faults : List SyntaxFault} : Accounts log faults → ¬ fault.diagnostic.ofTarget →
      Accounted (.failed fault rest log) faults

namespace Accounted

theorem logged {o : Outcome α} {log : List Record} (hlog : Accounts log faults)
    (h : o.Accounted faults') : (o.logged log).Accounted (faults ++ faults') := by
  cases h with
  | done hlater => exact .done (hlog.append hlater)
  | failed hlater hfault => exact .failed (hlog.append hlater) hfault

/-- A rule after which no fault is settled any more. -/
theorem bind {o : Outcome α} {next : α → List Token → Outcome β} (h : o.Accounted faults)
    (hnext : ∀ a rest log, o = .done a rest log → (next a rest).Accounted []) :
    (o.bind next).Accounted faults := by
  cases h with
  | done hlog => simpa using (hnext _ _ _ rfl).logged hlog
  | failed hlog hfault => exact .failed hlog hfault

/-- A value put into a larger tree. -/
theorem map {o : Outcome α} {f : α → β} (h : o.Accounted faults) :
    (o.bind fun a rest => .done (f a) rest []).Accounted faults :=
  h.bind fun _ _ _ _ => .done .nil

end Accounted

end Outcome

namespace Grammar

open Reading Outcome

variable {n : Nat}

/-! ## Expressions settle nothing -/

theorem accounts_assignTo (target : Expr) (equals : Token) (value : Expr) :
    Accounts (assignTo target equals value).2 [] := by
  cases target with
  | var name => exact .nil
  | _ => exact .target rfl .nil

theorem expect_accounted {kind : Token.Kind} {message : String}
    (hmessage : message ≠ "Invalid assignment target.") (ts : List Token) :
    (Outcome.expect n kind message ts).Accounted [] := by
  cases ts with
  | nil => exact .failed .nil hmessage
  | cons t more =>
    rw [Outcome.expect]
    split
    · exact .done .nil
    · exact .failed .nil hmessage

theorem atom_accounted (t : Token) (more : List Token) : (atom t more).outcome.Accounted [] := by
  rw [atom]
  split
  · exact .done .nil
  · exact .failed (.other rfl rfl .nil) (not_ofTarget_expectedExpression t)

mutual

theorem assignment_accounted (ts : List Token) : (assignment n ts).outcome.Accounted [] := by
  rw [assignment_outcome]
  refine (chain_accounted Level.all ts).bind fun target rest log hdone => ?_
  -- At least one token was read, as the measure requires.
  have hlt := (after_of_outcome hdone).length_lt
  cases rest with
  | nil => exact .done .nil
  | cons equals more =>
    dsimp only
    split
    · refine (assignment_accounted more).bind fun value rest _ _ => ?_
      exact .done (accounts_assignTo target equals value)
    · exact .done .nil
termination_by 16 * ts.length + 10
decreasing_by
  · simp [Level.all]
  · simp only [List.length_cons] at hlt
    omega

theorem chain_accounted : ∀ (levels : List Level) (ts : List Token),
    (chain n levels ts).outcome.Accounted []
  | [], ts => by
    rw [chain_nil_outcome]
    exact unary_accounted ts
  | level :: tighter, ts => by
    rw [chain_cons_outcome]
    refine (chain_accounted tighter ts).bind fun left rest log hdone => ?_
    have hlt := (after_of_outcome hdone).length_lt
    exact chainTail_accounted level tighter left rest
termination_by levels ts => 16 * ts.length + levels.length + 2
decreasing_by
  · simp
  · simp
  · simp only [List.length_cons]
    omega

theorem chainTail_accounted (level : Level) (tighter : List Level) :
    ∀ (left : Expr) (ts : List Token), (chainTail n level tighter left ts).Accounted []
  | left, [] => by
    rw [chainTail_nil]
    exact .done .nil
  | left, operator :: operand => by
    rw [chainTail_cons]
    split
    · refine (chain_accounted tighter operand).bind fun right rest log hdone => ?_
      have hlt := (after_of_outcome hdone).length_lt
      exact chainTail_accounted level tighter _ rest
    · exact .done .nil
termination_by _ ts => 16 * ts.length + tighter.length
decreasing_by
  · simp only [List.length_cons]
    omega
  · simp only [List.length_cons]
    omega

theorem unary_accounted : ∀ ts : List Token, (unary n ts).outcome.Accounted []
  | [] => by
    rw [unary_outcome]
    exact primary_accounted []
  | t :: more => by
    rw [unary_outcome]
    dsimp only
    split
    · exact (unary_accounted more).map
    · exact primary_accounted (t :: more)
termination_by ts => 16 * ts.length + 1
decreasing_by
  all_goals
    simp only [List.length_cons, List.length_nil]
    omega

theorem primary_accounted : ∀ ts : List Token, (primary n ts).outcome.Accounted []
  | [] => by
    rw [primary_outcome]
    exact .failed .nil (not_ofTarget_expectedExpression _)
  | t :: more => by
    rw [primary_outcome]
    dsimp only
    split
    · exact atom_accounted t more
    split
    · refine (assignment_accounted more).bind fun inner rest _ _ => ?_
      exact (expect_accounted (by decide) rest).map
    · exact .failed .nil (not_ofTarget_expectedExpression t)
termination_by ts => 16 * ts.length
decreasing_by
  simp only [List.length_cons]
  omega

end

theorem closedOutcome_accounted {message : String}
    (hmessage : message ≠ "Invalid assignment target.") (ts : List Token) :
    (closedOutcome n message ts).Accounted [] := by
  rw [closedOutcome]
  exact (assignment_accounted ts).bind fun e rest _ _ => (expect_accounted hmessage rest).map

theorem variableDeclaration_accounted {ts : List Token} (rest : List Token) (h : rest <:+ ts) :
    (variableDeclaration n rest h).outcome.Accounted [] := by
  rw [variableDeclaration_outcome]
  refine (expect_accounted (by decide) rest).bind fun name rest _ _ => ?_
  cases rest with
  | nil => exact (expect_accounted (by decide) []).map
  | cons t more =>
    dsimp only
    split
    · exact (closedOutcome_accounted (by decide) more).map
    · exact (expect_accounted (by decide) (t :: more)).map

/-! ## The faults of calls -/

/-- The fault that a call settles, if any. -/
def Call.fault? (endLine : Nat) (c : Call) : Option SyntaxFault :=
  match declarationOutcome endLine c.first c.more with
  | .done _ _ _ => none
  | .failed fault _ _ => some fault

/-- The faults that calls settle. -/
def faults (endLine : Nat) (calls : List Call) : List SyntaxFault :=
  calls.filterMap (Call.fault? endLine)

@[simp] theorem faults_nil (endLine : Nat) : faults endLine [] = [] := rfl

@[simp] theorem faults_append (endLine : Nat) (calls calls' : List Call) :
    faults endLine (calls ++ calls') = faults endLine calls ++ faults endLine calls' :=
  List.filterMap_append

/-- A call yields a statement or settles a fault, and not both. -/
theorem Call.isNone_statement? (endLine : Nat) (c : Call) :
    (c.statement? endLine).isNone = (c.fault? endLine).isSome := by
  have hparts := declaration_parts endLine c.first c.more
  rw [Call.statement?, Call.fault?]
  cases h : declarationOutcome endLine c.first c.more <;>
  · rw [h, settled, Declared.parts, Prod.mk.injEq] at hparts
    rw [hparts.1]
    rfl

theorem length_faults (endLine : Nat) (calls : List Call) :
    (faults endLine calls).length =
      (calls.filter fun c => (c.statement? endLine).isNone).length := by
  induction calls with
  | nil => rfl
  | cons c calls ih =>
    have hnone := c.isNone_statement? endLine
    rw [faults] at ih ⊢
    cases hfault : c.fault? endLine with
    | none =>
      rw [hfault] at hnone
      rw [List.filterMap_cons_none hfault, List.filter_cons_of_neg (by simp [hnone]), ih]
    | some f =>
      rw [hfault] at hnone
      rw [List.filterMap_cons_some hfault, List.filter_cons_of_pos (by simp [hnone]),
        List.length_cons, List.length_cons, ih]

/-! ## Every call accounts for itself -/

theorem conditionOutcome_accounted (ts : List Token) : (conditionOutcome n ts).Accounted [] := by
  rw [conditionOutcome]
  refine (expect_accounted (by decide) ts).bind fun _ rest _ _ => ?_
  refine (assignment_accounted rest).bind fun condition rest _ _ => ?_
  exact (expect_accounted (by decide) rest).map

/-- The calls of a second branch are those made where it would be read,
whether or not there is one. -/
theorem branchesOutcome_accounted (condition : Expr) {ts : List Token}
    (hthen : (statement n ts).outcome.Accounted (faults n (statementCalls n ts)))
    (helse : (statement n (afterElse (statement n ts).outcome)).outcome.Accounted
      (faults n (statementCalls n (afterElse (statement n ts).outcome)))) :
    (branchesOutcome n condition ts).Accounted (faults n (statementCalls n ts) ++
      faults n (statementCalls n (afterElse (statement n ts).outcome))) := by
  rw [branchesOutcome]
  cases hread : (statement n ts).outcome with
  | failed fault rest log =>
    rw [hread] at hthen
    simpa [afterElse] using hthen
  | done s rest log =>
    rw [hread] at hthen helse
    rw [Outcome.bind_done]
    cases hthen with | done hlog =>
    refine Accounted.logged hlog ?_
    cases rest with
    | nil => simpa [afterElse] using Accounted.done .nil
    | cons e more =>
      simp only [afterElse] at helse ⊢
      split
      · next hkind =>
        rw [if_pos hkind] at helse
        exact helse.map
      · simpa using Accounted.done .nil

/-- If the condition fails, neither branch is read. -/
theorem statement_if_accounted {t : Token} {more : List Token} (ht : t.kind = .kwIf)
    (haccounted : ∀ ts, ts.length ≤ more.length →
      (statement n ts).outcome.Accounted (faults n (statementCalls n ts))) :
    (statement n (t :: more)).outcome.Accounted (faults n (statementCalls n (t :: more))) := by
  have hle := length_afterCondition_le n more
  have hle' := length_afterElse_le n (afterCondition n more)
  have hthen := haccounted (afterCondition n more) hle
  have helse := haccounted (afterElse (statement n (afterCondition n more)).outcome) (by omega)
  have hcondition := conditionOutcome_accounted (n := n) more
  rw [statement_if_condition more ht, statementCalls, if_pos ht, faults_append]
  cases hread : conditionOutcome n more with
  | failed fault rest log =>
    have hafter : afterCondition n more = [] := by rw [afterCondition, hread]
    rw [hread] at hcondition
    cases hcondition with | failed hlog hfault =>
    rw [hafter, afterElse_statement_nil, statementCalls_nil]
    exact .failed hlog hfault
  | done condition branch log =>
    have hafter : afterCondition n more = branch := by rw [afterCondition, hread]
    rw [hafter] at hthen helse ⊢
    rw [hread] at hcondition
    cases hcondition with | done hlog =>
    simpa using (branchesOutcome_accounted condition hthen helse).logged hlog

mutual

/-- The log of a statement accounts for the calls made in it, also if the
statement fails behind them. -/
theorem statement_accounted : ∀ ts : List Token,
    (statement n ts).outcome.Accounted (faults n (statementCalls n ts))
  | [] => by
    rw [statement_expression_outcome n (by simp), statementCalls]
    exact (closedOutcome_accounted (by decide) []).map
  | t :: more => by
    by_cases hif : t.kind = .kwIf
    · exact statement_if_accounted hif fun ts hlength => statement_accounted ts
    rw [statementCalls, if_neg hif]
    split
    · next hbrace =>
      rw [statement_block_outcome n more hbrace]
      have hclose : ((Outcome.expect n .rightBrace "Expect '\x7d' after block."
          (declarations n true more).rest).bind fun _ rest =>
            .done (Stmt.block (declarations n true more).statements) rest []).Accounted [] :=
        (expect_accounted (by decide) _).map
      simpa using hclose.logged (declarations_accounts true more)
    · next hbrace =>
      by_cases hprint : t.kind = .kwPrint
      · rw [statement_print_outcome n more hprint]
        exact (closedOutcome_accounted (by decide) more).map
      · rw [statement_expression_outcome n (by simp [leadsStatement, hif, hbrace, hprint])]
        exact (closedOutcome_accounted (by decide) (t :: more)).map
termination_by ts => 3 * ts.length
decreasing_by
  all_goals
    simp only [List.length_cons]
    omega

theorem declaration_accounts (t : Token) (more : List Token) :
    Accounts (declaration n t more).log (faults n (declarationCalls n t more)) := by
  have houtcome : (declarationOutcome n t more).Accounted
      (faults n (if t.kind = .kwVar then [] else statementCalls n (t :: more))) := by
    rw [declarationOutcome]
    split
    · exact variableDeclaration_accounted more _
    · exact statement_accounted (t :: more)
  have hparts := declaration_parts n t more
  rw [declarationCalls, faults_append]
  cases h : declarationOutcome n t more with
  | done s rest log =>
    rw [h] at houtcome
    cases houtcome with
    | done hlog =>
      rw [h, settled, Declared.parts, Prod.mk.injEq, Prod.mk.injEq] at hparts
      rw [hparts.2.2]
      simpa [faults, Call.fault?, h] using hlog
  | failed fault rest log =>
    rw [h, settled, Declared.parts, Prod.mk.injEq, Prod.mk.injEq] at hparts
    rw [h] at houtcome
    cases houtcome with
    | failed hlog hfault =>
      rw [hparts.2.2]
      have hcall : faults n [⟨t, more⟩] = [fault] := by simp [faults, Call.fault?, h]
      rw [hcall]
      exact hlog.append (.settled hfault .nil)
termination_by 3 * (t :: more).length + 1

theorem declarations_accounts (inBlock : Bool) : ∀ ts : List Token,
    Accounts (declarations n inBlock ts).log (faults n (declarationsCalls n inBlock ts))
  | [] => by
    rw [declarationsCalls, declarations]
    exact .nil
  | t :: more => by
    rw [declarationsCalls, declarations]
    split
    · exact .nil
    · rw [faults_append]
      exact (declaration_accounts t more).append (declarations_accounts inBlock _)
termination_by ts => 3 * ts.length + 2
decreasing_by
  · simp only [List.length_cons]
    omega
  · have := (declaration n t more).after.length_lt
    omega

end

end Grammar

/-- The warnings of a log are its reports. -/
theorem Record.warnings_eq (log : List Record) :
    (log.filter fun r => r.level = .warn).map Record.message =
      (diagnostics log).map Diagnostic.text := by
  induction log with
  | nil => rfl
  | cons r log ih =>
    cases r with
    | reported d => exact congrArg (List.cons d.text) ih
    | _ => exact ih

/-- A recovery tells the line and the message of its diagnostic. -/
theorem Record.message_recovering (f : SyntaxFault) :
    (Record.recovering f).message =
      "recovering from line " ++ toString f.diagnostic.line ++ ": " ++ f.diagnostic.message := by
  have hstart : "recovering from line " = "recovering from " ++ "line " := by simp
  have htext : ∀ line message : String, "recovering from " ++ ("line " ++ line ++ ": " ++ message) =
      "recovering from line " ++ line ++ ": " ++ message := by
    intro line message
    rw [hstart]
    simp only [String.append_assoc, -String.reduceAppend]
  exact htext (toString f.line) f.cause.message

namespace Program

open Grammar

theorem log_accounts (tokens : List Token) :
    Accounts (ofTokens tokens).log (faults (endLine tokens) (calls tokens)) := by
  have hbody := declarations_accounts (n := endLine tokens) false (significant tokens)
  have hlast : Accounts [.parsed (ofTokens tokens).statements.length] [] := .other rfl rfl .nil
  have hlog := hbody.append hlast
  rwa [List.append_nil] at hlog

/-- **Every dropped declaration is reported exactly once, and nothing else is
dropped.** In the log of any token sequence, the warnings are the diagnostics
in order. A diagnostic that is no matter of a target has its own recovery
right behind it, and no second one; a recovery has its own diagnostic right
before it. There are as many recoveries as calls of the rule for declarations
that yield no statement. The last record counts the statements. -/
theorem dropped_reported_once (tokens : List Token) :
    ((ofTokens tokens).log.filter fun r => r.level = .warn).map Record.message =
        (ofTokens tokens).diagnostics.map Diagnostic.text ∧
      (∀ before d after, (ofTokens tokens).log = before ++ .reported d :: after →
        ¬ d.ofTarget → ∃ f later, after = .recovering f :: later ∧
          (Record.recovering f).level = .debug ∧
          (Record.recovering f).message =
            "recovering from line " ++ toString d.line ++ ": " ++ d.message ∧
          ∀ g, later.head? ≠ some (.recovering g)) ∧
      (∀ before f after, (ofTokens tokens).log = before ++ .recovering f :: after →
        ∃ earlier, before = earlier ++ [.reported f.diagnostic] ∧ ¬ f.diagnostic.ofTarget) ∧
      ((ofTokens tokens).log.filterMap Record.recovered?).length =
        ((calls tokens).filter fun c => (c.statement? (endLine tokens)).isNone).length ∧
      (ofTokens tokens).log.getLast? = some (.parsed (ofTokens tokens).statements.length) := by
  have haccounts := log_accounts tokens
  refine ⟨Record.warnings_eq _, fun before d after hlog hd => ?_,
    fun before f after hlog => haccounts.reported_of_recovering hlog, ?_, ?_⟩
  · obtain ⟨f, later, rfl, rfl, hsecond⟩ := haccounts.recovering_of_reported hlog hd
    exact ⟨f, later, rfl, rfl, Record.message_recovering f, hsecond⟩
  · rw [haccounts.filterMap_recovered?, length_faults]
  · exact List.getLast?_concat

/-- Five calls: of the block, the two in it and the two after it. The second
in the block and the last yield nothing; the bad target costs no statement. -/
example :
    let tokens := (Scan.ofSource "\x7b 1 = a; print; \x7d a; var 2;").body
    (calls tokens).map (fun c => (c.first.lexeme, (c.statement? (endLine tokens)).isNone)) =
      [("1", false), ("print", true), ("\x7b", false), ("a", false), ("var", true)] := by
  decide +kernel

end Program

end Lox

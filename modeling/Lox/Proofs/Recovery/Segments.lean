/-
Simple statements are read one by one, well-formed or not. A segment is what
may be one: tokens up to a semicolon, with no other semicolon, brace or
`else`, and with a keyword that starts a statement at most in front.

Whatever rule fails in a segment, at whatever depth, gives up no later than
at its semicolon (`Local`), so recovery ends with the segment. Segments in a
row therefore come to what each comes to alone (`segments_independent`): a
statement, or one report that there is none. What is assigned to something
that is no name is reported besides, and costs no statement.
-/
import Lox.Proofs.Recovery.MissingSemicolon

namespace Lox

/-- A report that the target of an assignment is no name. -/
def Diagnostic.ofTarget (d : Diagnostic) : Prop := d.message = "Invalid assignment target."

/-- The kinds that a segment may have anywhere before its semicolon. -/
def Token.Kind.isPlain (kind : Token.Kind) : Bool :=
  kind.isInner && !([.leftBrace, .rightBrace, .kwElse, .eof].contains kind)

namespace Grammar

open Record Reading

/-! ## Tokens up to a semicolon -/

/-- A semicolon after plain tokens. -/
inductive UpToSemicolon : List Token → Prop
  | last {semi : Token} : semi.kind = .semicolon → UpToSemicolon [semi]
  | cons {t : Token} {ts : List Token} : t.kind.isPlain = true → UpToSemicolon ts →
      UpToSemicolon (t :: ts)

namespace UpToSemicolon

theorem exists_cons {ts : List Token} (h : UpToSemicolon ts) : ∃ t more, ts = t :: more := by
  cases h <;> exact ⟨_, _, rfl⟩

theorem tail {t : Token} {more : List Token} (h : UpToSemicolon (t :: more))
    (ht : t.kind ≠ .semicolon) : UpToSemicolon more := by
  cases h with
  | last hsemi => exact absurd hsemi ht
  | cons _ hmore => exact hmore

theorem eq_nil {t : Token} {more : List Token} (h : UpToSemicolon (t :: more))
    (ht : t.kind = .semicolon) : more = [] := by
  cases h with
  | last => rfl
  | cons hplain =>
    rw [ht] at hplain
    cases hplain

theorem head_ne {t : Token} {more : List Token} (h : UpToSemicolon (t :: more))
    {kind : Token.Kind} (hplain : kind.isPlain = false) (hsemi : kind ≠ .semicolon) :
    t.kind ≠ kind := by
  rintro rfl
  cases h with
  | last ht => exact hsemi ht
  | cons ht =>
    rw [hplain] at ht
    cases ht

theorem not_leadsStatement {t : Token} {more : List Token} (h : UpToSemicolon (t :: more)) :
    ¬ leadsStatement t.kind := by
  rintro (hk | hk | hk) <;> exact h.head_ne rfl (by decide) hk

theorem skipToBoundary_append {ts : List Token} (h : UpToSemicolon ts) (rest : List Token) :
    skipToBoundary (ts ++ rest) = rest := by
  induction h with
  | last hsemi => simp [skipToBoundary, hsemi, Token.Kind.startsStatement]
  | cons hplain _ ih =>
    simp only [Token.Kind.isPlain, Bool.and_eq_true] at hplain
    rw [List.cons_append, skipToBoundary_of_isInner hplain.1, ih]

/-- Wherever reading is given up before the semicolon, it resumes behind
it. -/
theorem resume_append {ts : List Token} (h : UpToSemicolon ts) (us rest : List Token)
    (cause : SyntaxCause) : resume us cause (ts ++ rest) = rest := by
  rw [resume]
  split
  · obtain ⟨t, more, rfl⟩ := h.exists_cons
    rw [List.cons_append, skipPast]
    split
    · next ht => rw [h.eq_nil ht, List.nil_append]
    · next ht => exact (h.tail ht).skipToBoundary_append rest
  · exact h.skipToBoundary_append rest

end UpToSemicolon

/-! ## Outcomes that do not depend on what follows -/

/-- Nothing is reported but targets that are no names. -/
def TargetsOnly (log : List Record) : Prop := ∀ d ∈ diagnostics log, d.ofTarget

theorem targetsOnly_nil : TargetsOnly [] := by simp [TargetsOnly, diagnostics]

theorem TargetsOnly.append {a b : List Record} (ha : TargetsOnly a) (hb : TargetsOnly b) :
    TargetsOnly (a ++ b) := by
  rw [TargetsOnly, diagnostics_append, List.forall_mem_append]
  exact ⟨ha, hb⟩

theorem targetsOnly_assignTo (target : Expr) (equals : Token) (value : Expr) :
    TargetsOnly (assignTo target equals value).2 := by
  cases target with
  | var name => exact targetsOnly_nil
  | _ => simp [TargetsOnly, assignTo, diagnostics, Record.diagnostic?, Diagnostic.ofTarget,
      SyntaxFault.diagnostic, SyntaxFault.ofToken, SyntaxCause.message]

theorem not_ofTarget_expectedExpression (t : Token) :
    ¬ (SyntaxFault.ofToken t .expectedExpression).diagnostic.ofTarget := by
  simp [Diagnostic.ofTarget, SyntaxFault.diagnostic, SyntaxFault.ofToken, SyntaxCause.message]

/-- Two outcomes of a rule, on tokens up to a semicolon and on the same
tokens with `rest` behind them: they differ in that `rest` is left. What
else is left after a value satisfies `left`; a fault leaves the semicolon at
least, and is no matter of a target. -/
inductive Local {α : Type} (left : List Token → Prop) (rest : List Token) :
    Outcome α → Outcome α → Prop
  | done {a : α} {vs : List Token} {log : List Record} : left vs → TargetsOnly log →
      Local left rest (.done a vs log) (.done a (vs ++ rest) log)
  | failed {fault : SyntaxFault} {vs : List Token} {log : List Record} : UpToSemicolon vs →
      TargetsOnly log → ¬ fault.diagnostic.ofTarget →
      Local left rest (.failed fault vs log) (.failed fault (vs ++ rest) log)

namespace Local

variable {α β : Type} {left left' : List Token → Prop} {rest : List Token}

theorem logged {o o' : Outcome α} (h : Local left rest o o') {log : List Record}
    (hlog : TargetsOnly log) : Local left rest (o.logged log) (o'.logged log) := by
  cases h with
  | done hvs hlater => exact .done hvs (hlog.append hlater)
  | failed hvs hlater hfault => exact .failed hvs (hlog.append hlater) hfault

/-- One rule after another. -/
theorem bind {o o' : Outcome α} {next next' : α → List Token → Outcome β}
    (h : Local left rest o o')
    (hnext : ∀ a vs log, o = .done a vs log → left vs →
      Local left' rest (next a vs) (next' a (vs ++ rest))) :
    Local left' rest (o.bind next) (o'.bind next') := by
  cases h with
  | done hvs hlog => exact (hnext _ _ _ rfl hvs).logged hlog
  | failed hvs hlog hfault => exact .failed hvs hlog hfault

theorem of_done {a : α} {vs : List Token} {log : List Record} {o : Outcome α}
    (h : Local left rest (.done a vs log) o) :
    left vs ∧ TargetsOnly log ∧ o = .done a (vs ++ rest) log := by
  cases h with
  | done hvs hlog => exact ⟨hvs, hlog, rfl⟩

theorem of_failed {fault : SyntaxFault} {vs : List Token} {log : List Record} {o : Outcome α}
    (h : Local left rest (.failed fault vs log) o) :
    UpToSemicolon vs ∧ TargetsOnly log ∧ ¬ fault.diagnostic.ofTarget ∧
      o = .failed fault (vs ++ rest) log := by
  cases h with
  | failed hvs hlog hfault => exact ⟨hvs, hlog, hfault, rfl⟩

/-- A value put into a larger tree. -/
theorem map {o o' : Outcome α} {f : α → β} (h : Local left rest o o') :
    Local left rest (o.bind fun a vs => .done (f a) vs []) (o'.bind fun a vs => .done (f a) vs []) :=
  h.bind fun _ _ _ _ hvs => .done hvs targetsOnly_nil

end Local

/-! ## Expressions -/

section Rules

-- The line of the end mark, which the two readings need not share, is never
-- asked for: before the semicolon there is always a token to report at.
variable {n m : Nat} {rest : List Token}

theorem expect_local {kind : Token.Kind} {message : String} {ts : List Token}
    (h : UpToSemicolon ts) (hkind : kind ≠ .semicolon)
    (hmessage : message ≠ "Invalid assignment target.") :
    Local UpToSemicolon rest (Outcome.expect n kind message ts)
      (Outcome.expect m kind message (ts ++ rest)) := by
  obtain ⟨t, more, rfl⟩ := h.exists_cons
  simp only [List.cons_append, Outcome.expect]
  split
  · next ht => exact .done (h.tail (ht ▸ hkind)) targetsOnly_nil
  · exact .failed h targetsOnly_nil hmessage

theorem expect_semicolon_local {message : String} {ts : List Token} (h : UpToSemicolon ts)
    (hmessage : message ≠ "Invalid assignment target.") :
    Local (· = []) rest (Outcome.expect n .semicolon message ts)
      (Outcome.expect m .semicolon message (ts ++ rest)) := by
  obtain ⟨t, more, rfl⟩ := h.exists_cons
  simp only [List.cons_append, Outcome.expect]
  split
  · next ht => exact .done (h.eq_nil ht) targetsOnly_nil
  · exact .failed h targetsOnly_nil hmessage

theorem atom_local {t : Token} {more : List Token} (h : UpToSemicolon more) :
    Local UpToSemicolon rest (atom t more).outcome (atom t (more ++ rest)).outcome := by
  simp only [atom]
  split
  · exact .done h targetsOnly_nil
  · exact .failed h (by simp [TargetsOnly, diagnostics, Record.diagnostic?])
      (not_ofTarget_expectedExpression t)

mutual

/-- No rule for expressions reads the semicolon, so none sees what follows. -/
theorem assignment_local {ts : List Token} (h : UpToSemicolon ts) :
    Local UpToSemicolon rest (assignment n ts).outcome (assignment m (ts ++ rest)).outcome := by
  rw [assignment_outcome, assignment_outcome]
  refine (chain_local Level.all h).bind fun target vs log hdone hvs => ?_
  obtain ⟨equals, more, rfl⟩ := hvs.exists_cons
  -- At least one token was read, as the measure requires.
  have hlt := (after_of_outcome hdone).length_lt
  simp only [List.cons_append]
  split
  · next hequals =>
    refine (assignment_local (hvs.tail (by simp [hequals]))).bind fun value ws _ _ hws => ?_
    exact .done hws (targetsOnly_assignTo target equals value)
  · exact .done hvs targetsOnly_nil
termination_by 16 * ts.length + 10
decreasing_by
  · simp [Level.all]
  · simp only [List.length_cons] at hlt
    omega

theorem chain_local : ∀ (levels : List Level) {ts : List Token}, UpToSemicolon ts →
    Local UpToSemicolon rest (chain n levels ts).outcome (chain m levels (ts ++ rest)).outcome
  | [], _, h => by
    rw [chain_nil_outcome, chain_nil_outcome]
    exact unary_local h
  | level :: tighter, _, h => by
    rw [chain_cons_outcome, chain_cons_outcome]
    refine (chain_local tighter h).bind fun left vs log hdone hvs => ?_
    have hlt := (after_of_outcome hdone).length_lt
    exact chainTail_local level tighter left hvs
termination_by levels ts => 16 * ts.length + levels.length + 2
decreasing_by
  · simp
  · simp
  · simp only [List.length_cons]
    omega

theorem chainTail_local (level : Level) (tighter : List Level) :
    ∀ (left : Expr) {ts : List Token}, UpToSemicolon ts →
    Local UpToSemicolon rest (chainTail n level tighter left ts)
      (chainTail m level tighter left (ts ++ rest))
  | _, operator :: operand, h => by
    rw [List.cons_append, chainTail_cons, chainTail_cons]
    split
    · next hoperator =>
      have hsemi : operator.kind ≠ .semicolon := by
        intro hsemi
        have := level.isInner_of_mem_operators _ hoperator
        rw [hsemi] at this
        cases this
      refine (chain_local tighter (h.tail hsemi)).bind fun right vs log hdone hvs => ?_
      have hlt := (after_of_outcome hdone).length_lt
      exact chainTail_local level tighter _ hvs
    · exact .done h targetsOnly_nil
termination_by _ ts => 16 * ts.length + tighter.length
decreasing_by
  · simp only [List.length_cons]
    omega
  · simp only [List.length_cons]
    omega

theorem unary_local : ∀ {ts : List Token}, UpToSemicolon ts →
    Local UpToSemicolon rest (unary n ts).outcome (unary m (ts ++ rest)).outcome
  | t :: more, h => by
    rw [unary_outcome, unary_outcome]
    simp only [List.cons_append]
    split
    · next hsign =>
      exact (unary_local (h.tail (by rcases hsign with ht | ht <;> simp [ht]))).map
    · exact primary_local h
termination_by ts => 16 * ts.length + 1
decreasing_by
  all_goals
    simp only [List.length_cons]
    omega

theorem primary_local : ∀ {ts : List Token}, UpToSemicolon ts →
    Local UpToSemicolon rest (primary n ts).outcome (primary m (ts ++ rest)).outcome
  | t :: more, h => by
    rw [primary_outcome, primary_outcome]
    simp only [List.cons_append]
    split
    · next hatom => exact atom_local (h.tail fun ht => by rw [ht] at hatom; cases hatom)
    split
    · next hleft =>
      refine (assignment_local (h.tail (by simp [hleft]))).bind fun inner vs _ _ hvs => ?_
      exact (expect_local hvs (by decide) (by decide)).map
    · exact .failed h targetsOnly_nil (not_ofTarget_expectedExpression t)
termination_by ts => 16 * ts.length
decreasing_by
  simp only [List.length_cons]
  omega

end

/-! ## Statements -/

theorem closedOutcome_local {message : String} {ts : List Token} (h : UpToSemicolon ts)
    (hmessage : message ≠ "Invalid assignment target.") :
    Local (· = []) rest (closedOutcome n message ts) (closedOutcome m message (ts ++ rest)) := by
  rw [closedOutcome, closedOutcome]
  exact (assignment_local h).bind fun e vs _ _ hvs => (expect_semicolon_local hvs hmessage).map

theorem variableDeclaration_local {t : Token} {ts : List Token} (h : UpToSemicolon ts) :
    Local (· = []) rest (variableDeclaration n ts (List.suffix_cons t ts)).outcome
      (variableDeclaration m (ts ++ rest) (List.suffix_cons t (ts ++ rest))).outcome := by
  rw [variableDeclaration_outcome, variableDeclaration_outcome]
  refine (expect_local h (by decide) (by decide)).bind fun name vs _ _ hvs => ?_
  obtain ⟨u, more, rfl⟩ := hvs.exists_cons
  simp only [List.cons_append]
  split
  · next hu => exact (closedOutcome_local (hvs.tail (by simp [hu])) (by decide)).map
  · exact (expect_semicolon_local hvs (by decide)).map

theorem statement_expression_local {ts : List Token} (h : UpToSemicolon ts) :
    Local (· = []) rest (statement n ts).outcome (statement m (ts ++ rest)).outcome := by
  obtain ⟨t, more, rfl⟩ := h.exists_cons
  have ht := h.not_leadsStatement
  rw [statement_expression_outcome n (by simpa using ht),
    statement_expression_outcome m (by simpa using ht)]
  exact (closedOutcome_local h (by decide)).map

/-- The only branch is an expression statement, and what follows it is not
taken for an `else`. -/
theorem statement_if_local {t : Token} {ts : List Token} (ht : t.kind = .kwIf)
    (h : UpToSemicolon ts) (hrest : NoElse rest) :
    Local (· = []) rest (statement n (t :: ts)).outcome (statement m (t :: (ts ++ rest))).outcome := by
  rw [statement_if_outcome n ts ht, statement_if_outcome m (ts ++ rest) ht]
  refine (expect_local h (by decide) (by decide)).bind fun _ vs _ _ hvs => ?_
  refine (assignment_local hvs).bind fun condition vs _ _ hvs => ?_
  refine (expect_local hvs (by decide) (by decide)).bind fun _ vs _ _ hvs => ?_
  rw [branchesOutcome, branchesOutcome]
  refine (statement_expression_local hvs).bind fun thenBranch vs _ _ hvs => ?_
  rw [hvs]
  cases rest with
  | nil => exact .done rfl targetsOnly_nil
  | cons e more =>
    simp only [List.nil_append, if_neg (hrest e rfl)]
    exact .done rfl targetsOnly_nil

theorem statement_print_local {t : Token} {ts : List Token} (ht : t.kind = .kwPrint)
    (h : UpToSemicolon ts) :
    Local (· = []) rest (statement n (t :: ts)).outcome (statement m (t :: (ts ++ rest))).outcome := by
  rw [statement_print_outcome n ts ht, statement_print_outcome m (ts ++ rest) ht]
  exact (closedOutcome_local h (by decide)).map

end Rules

/-! ## Declarations -/

theorem chain_of_unary_failed {n : Nat} {ts vs : List Token} {fault : SyntaxFault}
    {log : List Record} (h : (unary n ts).outcome = .failed fault vs log) :
    ∀ levels, (chain n levels ts).outcome = .failed fault vs log
  | [] => by rw [chain_nil_outcome, h]
  | level :: tighter => by
    rw [chain_cons_outcome, chain_of_unary_failed h tighter, Outcome.bind_failed]

/-- The keywords that start a statement of no known form. -/
def unknownForm (kind : Token.Kind) : Prop :=
  kind.startsStatement = true ∧ kind ≠ .kwVar ∧ kind ≠ .kwIf ∧ kind ≠ .kwPrint

/-- Such a keyword is taken for an operand that is none. -/
theorem declarationOutcome_of_unknownForm {t : Token} (h : unknownForm t.kind) (n : Nat)
    (more : List Token) :
    declarationOutcome n t more = .failed (.ofToken t .expectedExpression) (t :: more) [] := by
  obtain ⟨hstarts, hvar, hif, hprint⟩ := h
  have hne : ∀ kind : Token.Kind, kind.startsStatement = false → t.kind ≠ kind := by
    rintro _ hkind rfl
    rw [hstarts] at hkind
    cases hkind
  have hatom : t.kind.isAtom = false := by
    cases hk : t.kind <;> first | rfl | exact absurd hk (hne _ rfl)
  have hunary : (unary n (t :: more)).outcome =
      .failed (.ofToken t .expectedExpression) (t :: more) [] := by
    rw [unary_outcome]
    simp only [hne .bang rfl, hne .minus rfl, or_self, if_false]
    rw [primary_outcome]
    simp only [hatom, hne .leftParen rfl, if_false, Bool.false_eq_true]
    rfl
  have hleads : ¬ leadsStatement t.kind := by
    rintro (hk | hk | hk)
    · exact hif hk
    · exact hprint hk
    · exact hne .leftBrace rfl hk
  rw [declarationOutcome_of_statement _ hvar, statement_expression_outcome n (by simpa using hleads),
    closedOutcome, assignment_outcome, chain_of_unary_failed hunary]
  rfl

/-- What a segment comes to. -/
inductive Verdict : List Stmt → List Diagnostic → Prop
  /-- It is a statement; there may be targets in it that are no names. -/
  | read {s : Stmt} {ds : List Diagnostic} : (∀ d ∈ ds, d.ofTarget) → Verdict [s] ds
  /-- It is none; that is reported once, after such targets. -/
  | broken {ds : List Diagnostic} {d : Diagnostic} : (∀ d ∈ ds, d.ofTarget) → ¬ d.ofTarget →
      Verdict [] (ds ++ [d])

/-- Declarations that come to the same in front of any others: the
statements `ss` and the log `log`. -/
def ReadsAs (ts : List Token) (ss : List Stmt) (log : List Record) : Prop :=
  ∀ n rest, NoElse rest → (declarations n false (ts ++ rest)).parts =
    preceded ss log (declarations n false rest).parts

theorem readsAs_of_local {t : Token} {more : List Token}
    (h : ∀ m rest, NoElse rest →
      Local (· = []) rest (declarationOutcome 0 t more) (declarationOutcome m t (more ++ rest))) :
    ∃ ss log, ReadsAs (t :: more) ss log ∧ Verdict ss (diagnostics log) := by
  cases halone : declarationOutcome 0 t more with
  | done s vs log =>
    rw [halone] at h
    obtain ⟨rfl, hlog, -⟩ := (h 0 [] noElse_nil).of_done
    refine ⟨[s], log, fun n rest hrest => ?_, .read hlog⟩
    exact declarations_of_done (by simp) (h n rest hrest).of_done.2.2
  | failed fault vs log =>
    rw [halone] at h
    obtain ⟨hvs, hlog, hfault, -⟩ := (h 0 [] noElse_nil).of_failed
    refine ⟨[], log ++ [.reported fault.diagnostic, .recovering fault], fun n rest hrest => ?_, ?_⟩
    · rw [List.cons_append, declarations_of_failed (by simp) (h n rest hrest).of_failed.2.2.2,
        hvs.resume_append]
    · rw [diagnostics_append]
      exact .broken hlog hfault

theorem readsAs_of_unknownForm {t : Token} {more : List Token} (ht : unknownForm t.kind)
    (hmore : UpToSemicolon more) :
    ∃ ss log, ReadsAs (t :: more) ss log ∧ Verdict ss (diagnostics log) := by
  let fault : SyntaxFault := .ofToken t .expectedExpression
  refine ⟨[], [.reported fault.diagnostic, .recovering fault], fun n rest _ => ?_,
    @Verdict.broken [] fault.diagnostic (by simp) (not_ofTarget_expectedExpression t)⟩
  have hsemi : t.kind ≠ .semicolon := by
    intro hsemi
    rw [hsemi] at ht
    cases ht.1
  rw [List.cons_append, declarations_of_failed (by simp) (declarationOutcome_of_unknownForm ht n _),
    resume, if_pos (.inr rfl), skipPast, if_neg hsemi, hmore.skipToBoundary_append]
  rfl

theorem readsAs_of_keyword {t : Token} {more : List Token} (ht : t.kind.startsStatement = true)
    (hmore : UpToSemicolon more) :
    ∃ ss log, ReadsAs (t :: more) ss log ∧ Verdict ss (diagnostics log) := by
  by_cases hvar : t.kind = .kwVar
  · refine readsAs_of_local fun m rest _ => ?_
    simp only [declarationOutcome, if_pos hvar]
    exact variableDeclaration_local hmore
  by_cases hif : t.kind = .kwIf
  · refine readsAs_of_local fun m rest hrest => ?_
    simp only [declarationOutcome, if_neg hvar]
    exact statement_if_local hif hmore hrest
  by_cases hprint : t.kind = .kwPrint
  · refine readsAs_of_local fun m rest _ => ?_
    simp only [declarationOutcome, if_neg hvar]
    exact statement_print_local hprint hmore
  · exact readsAs_of_unknownForm ⟨ht, hvar, hif, hprint⟩ hmore

theorem readsAs_of_upToSemicolon {t : Token} {more : List Token} (h : UpToSemicolon (t :: more)) :
    ∃ ss log, ReadsAs (t :: more) ss log ∧ Verdict ss (diagnostics log) := by
  have hvar : t.kind ≠ .kwVar := h.head_ne rfl (by decide)
  refine readsAs_of_local fun m rest _ => ?_
  simp only [declarationOutcome, if_neg hvar]
  exact statement_expression_local h

end Grammar

namespace Program

open Grammar

/-! ## Segments -/

/-- Tokens that end in a semicolon and contain no other, no brace, no `else`
and no end mark, and a keyword that starts a statement at most as their
first. -/
structure IsSegment (ts : List Token) : Prop where
  closed : ts.getLast?.map Token.kind = some .semicolon
  simple : ∀ t ∈ ts.dropLast,
    t.kind ∉ [.semicolon, .leftBrace, .rightBrace, .kwElse, .eof]
  led : ∀ t ∈ ts.tail, t.kind.startsStatement = false

theorem upToSemicolon_of_last : ∀ {ts : List Token}, ts.getLast?.map Token.kind = some .semicolon →
    (∀ t ∈ ts.dropLast, t.kind.isPlain = true) → UpToSemicolon ts
  | [], hlast, _ => by simp at hlast
  | [t], hlast, _ => .last (by simpa using hlast)
  | t :: u :: more, hlast, hplain => by
    rw [List.dropLast_cons_cons, List.forall_mem_cons] at hplain
    rw [List.getLast?_cons_cons] at hlast
    exact .cons hplain.1 (upToSemicolon_of_last hlast hplain.2)

namespace IsSegment

variable {ts : List Token}

theorem isPlain (h : IsSegment ts) {t : Token} (ht : t ∈ ts.dropLast)
    (hstarts : t.kind.startsStatement = false) : t.kind.isPlain = true := by
  have hsimple := h.simple t ht
  simp only [List.mem_cons, List.not_mem_nil, or_false, not_or] at hsimple
  simp [Token.Kind.isPlain, Token.Kind.isInner, hstarts, hsimple]

/-- A segment is tokens up to a semicolon, or has a keyword before them. -/
theorem upToSemicolon (h : IsSegment ts) : ∃ t more, ts = t :: more ∧
    (UpToSemicolon (t :: more) ∨ t.kind.startsStatement = true ∧ UpToSemicolon more) := by
  cases ts with
  | nil => simpa using h.closed
  | cons t more =>
    refine ⟨t, more, rfl, ?_⟩
    cases more with
    | nil => exact .inl (.last (by simpa using h.closed))
    | cons u more =>
      have hclosed := h.closed
      rw [List.getLast?_cons_cons] at hclosed
      have hmore : UpToSemicolon (u :: more) := upToSemicolon_of_last hclosed fun v hv =>
        h.isPlain (by rw [List.dropLast_cons_cons]; exact List.mem_cons_of_mem t hv)
          (h.led v (List.dropLast_subset _ hv))
      cases hstarts : t.kind.startsStatement with
      | true => exact .inr ⟨rfl, hmore⟩
      | false => exact .inl (.cons (h.isPlain (by simp) hstarts) hmore)

theorem noElse_append (h : IsSegment ts) (rest : List Token) : NoElse (ts ++ rest) := by
  obtain ⟨t, more, rfl, hkind⟩ := h.upToSemicolon
  refine noElse_cons (fun helse => ?_) (more ++ rest)
  rcases hkind with hsegment | ⟨hstarts, -⟩
  · exact hsegment.head_ne rfl (by decide) helse
  · rw [helse] at hstarts
    cases hstarts

theorem unmarked (h : IsSegment ts) : ∀ t ∈ ts, t.kind ≠ .eof := by
  obtain ⟨semi, hlast, hsemi⟩ := Option.map_eq_some_iff.1 h.closed
  obtain ⟨us, rfl⟩ := List.getLast?_eq_some_iff.1 hlast
  rw [List.forall_mem_append, List.forall_mem_singleton]
  refine ⟨fun t ht heof => h.simple t ?_ ?_, by simp [hsemi]⟩
  · rwa [List.dropLast_concat]
  · simp [heof]

/-- A segment comes to the same in front of any declarations, and alone. -/
theorem readsAs (h : IsSegment ts) : ∃ log, ReadsAs ts (ofTokens ts).statements log ∧
    Record.diagnostics log = (ofTokens ts).diagnostics ∧
    Verdict (ofTokens ts).statements (ofTokens ts).diagnostics := by
  obtain ⟨ss, log, hreads, hverdict⟩ :
      ∃ ss log, ReadsAs ts ss log ∧ Verdict ss (Record.diagnostics log) := by
    obtain ⟨t, more, rfl, hsegment | ⟨hstarts, hmore⟩⟩ := h.upToSemicolon
    · exact readsAs_of_upToSemicolon hsegment
    · exact readsAs_of_keyword hstarts hmore
  have halone := ofTokens_append h.unmarked ending_nil
  have hread := hreads (endLine (ts ++ [])) [] noElse_nil
  rw [declarations_nil_parts, List.append_nil] at hread
  simp only [List.append_nil, hread, preceded] at halone
  rw [halone.1, halone.2]
  exact ⟨log, hreads, rfl, hverdict⟩

end IsSegment

/-- A row of segments is read segment by segment. -/
theorem declarations_segments (n : Nat) : ∀ {segments : List (List Token)},
    (∀ ts ∈ segments, IsSegment ts) →
    (declarations n false segments.flatten).parts.1 =
        segments.flatMap (fun ts => (ofTokens ts).statements) ∧
      Record.diagnostics (declarations n false segments.flatten).parts.2.2 =
        segments.flatMap (fun ts => (ofTokens ts).diagnostics)
  | [], _ => by
    rw [List.flatten_nil, declarations_nil_parts]
    exact ⟨rfl, rfl⟩
  | ts :: segments, h => by
    rw [List.forall_mem_cons] at h
    obtain ⟨hts, hsegments⟩ := h
    obtain ⟨log, hreads, hlog, -⟩ := hts.readsAs
    have hnext : NoElse segments.flatten := by
      cases segments with
      | nil => exact noElse_nil
      | cons us segments =>
        exact (hsegments us List.mem_cons_self).noElse_append segments.flatten
    obtain ⟨hstatements, hdiagnostics⟩ := declarations_segments n hsegments
    rw [List.flatten_cons, hreads n _ hnext, List.flatMap_cons, List.flatMap_cons, ← hstatements,
      ← hdiagnostics, ← hlog, ← Record.diagnostics_append]
    exact ⟨rfl, rfl⟩

/-- **Simple statements fail independently.** In a row of segments, each
well-formed or not, the statements are those of the segments one by one, and
so are the reports. Alone, a segment is one statement, with reports of
targets only; or none, with one other report besides. -/
theorem segments_independent {segments : List (List Token)} {ending : List Token}
    (h : ∀ ts ∈ segments, IsSegment ts) (hending : Ending ending) :
    (ofTokens (segments.flatten ++ ending)).statements =
        segments.flatMap (fun ts => (ofTokens ts).statements) ∧
      (ofTokens (segments.flatten ++ ending)).diagnostics =
        segments.flatMap (fun ts => (ofTokens ts).diagnostics) ∧
      ∀ ts ∈ segments, Verdict (ofTokens ts).statements (ofTokens ts).diagnostics := by
  have hunmarked : ∀ t ∈ segments.flatten, t.kind ≠ .eof := by
    intro t ht
    obtain ⟨ts, hts, ht⟩ := List.mem_flatten.1 ht
    exact (h ts hts).unmarked t ht
  obtain ⟨hstatements, hdiagnostics⟩ := ofTokens_append hunmarked hending
  obtain ⟨hss, hds⟩ := declarations_segments (endLine (segments.flatten ++ ending)) h
  refine ⟨hstatements.trans hss, hdiagnostics.trans hds, fun ts hts => ?_⟩
  obtain ⟨_, _, _, hverdict⟩ := (h ts hts).readsAs
  exact hverdict

/-- Five segments: a target that is no name, two operands without an
operator, such a target in parentheses that are not closed, a statement of no
known form, and a declaration as it should be. -/
theorem segments_independent_of_broken :
    let segments := ["1 = a;", "print a b;", "(nil = a;", "return a;", "var a;"].map
      fun text => (Scan.ofSource text).body
    (∀ ts ∈ segments, IsSegment ts) ∧
      (ofTokens (segments.flatten ++ [.eof 1])).statements =
        segments.flatMap (fun ts => (ofTokens ts).statements) ∧
      (ofTokens (segments.flatten ++ [.eof 1])).diagnostics =
        segments.flatMap (fun ts => (ofTokens ts).diagnostics) ∧
      ∀ ts ∈ segments, Verdict (ofTokens ts).statements (ofTokens ts).diagnostics := by
  intro segments
  have hsegments : ∀ ts ∈ segments, IsSegment ts := by
    simp only [segments, List.map_cons, List.map_nil, List.forall_mem_cons]
    refine ⟨?_, ?_, ?_, ?_, ?_, by simp⟩
    all_goals exact ⟨by decide +kernel, by decide +kernel, by decide +kernel⟩
  exact ⟨hsegments, segments_independent hsegments (ending_eof 1)⟩

end Program

end Lox

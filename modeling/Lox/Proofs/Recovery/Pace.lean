/-
Reports keep pace with the tokens. A report costs the reader something it
cannot spend twice: that a target is no name costs an equals sign, and any
other report, which gives a declaration up, costs the token the declaration
began with, since inner declarations begin further on and later ones where
this one ends. So there are no more reports than tokens
(`Program.reports_keep_pace`).

And reports go forward. A fault is found at the token where reading stops or
right before it, after all that was reported on the way, and reading resumes
no earlier; so where the lines of the tokens never decrease, neither do those
of such reports.
-/
import Lox.Proofs.Grammar.Closed
import Lox.Proofs.Recovery.Segments
import Lox.Proofs.Source.Lines

namespace Lox

instance : DecidablePred Diagnostic.ofTarget := fun d =>
  inferInstanceAs (Decidable (d.message = "Invalid assignment target."))

namespace Record

/-- The reports that a target is no name. -/
def targets (log : List Record) : List Diagnostic := (diagnostics log).filter fun d => d.ofTarget

/-- The other reports, each of which gives up a declaration. -/
def losses (log : List Record) : List Diagnostic := (diagnostics log).filter fun d => ¬ d.ofTarget

@[simp] theorem targets_append (log log' : List Record) :
    targets (log ++ log') = targets log ++ targets log' := by
  rw [targets, diagnostics_append, List.filter_append]
  rfl

@[simp] theorem losses_append (log log' : List Record) :
    losses (log ++ log') = losses log ++ losses log' := by
  rw [losses, diagnostics_append, List.filter_append]
  rfl

theorem losses_reported {d : Diagnostic} (h : ¬ d.ofTarget) : losses [.reported d] = [d] :=
  List.filter_cons_of_pos (by simpa using h)

theorem targets_reported {d : Diagnostic} (h : ¬ d.ofTarget) : targets [.reported d] = [] :=
  List.filter_cons_of_neg (by simpa using h)

end Record

/-! ## Lines that never decrease -/

/-- Diagnostics on lines that never decrease, from `low` on and up to
`high`. -/
inductive Ascends : Nat → List Diagnostic → Nat → Prop
  | nil {low high : Nat} : low ≤ high → Ascends low [] high
  | cons {low high : Nat} {d : Diagnostic} {ds : List Diagnostic} : low ≤ d.line →
      Ascends d.line ds high → Ascends low (d :: ds) high

namespace Ascends

variable {low middle high : Nat} {ds es : List Diagnostic}

theorem le (h : Ascends low ds high) : low ≤ high := by
  induction h with
  | nil hle => exact hle
  | cons hle _ ih => exact Nat.le_trans hle ih

theorem lower (h : Ascends middle ds high) (hle : low ≤ middle) : Ascends low ds high := by
  cases h with
  | nil hle' => exact .nil (Nat.le_trans hle hle')
  | cons hle' hds => exact .cons (Nat.le_trans hle hle') hds

theorem append (h : Ascends low ds middle) (h' : Ascends middle es high) :
    Ascends low (ds ++ es) high := by
  induction h with
  | nil hle => exact h'.lower hle
  | cons hle _ ih => exact .cons hle (ih h')

theorem raise (h : Ascends low ds middle) (hle : middle ≤ high) : Ascends low ds high := by
  have h' := h.append (.nil hle)
  rwa [List.append_nil] at h'

theorem le_of_mem {d : Diagnostic} (h : Ascends low ds high) (hd : d ∈ ds) : low ≤ d.line := by
  induction h with
  | nil => cases hd
  | cons hle _ ih =>
    rcases List.mem_cons.mp hd with rfl | hd
    · exact hle
    · exact Nat.le_trans hle (ih hd)

theorem pairwise (h : Ascends low ds high) : ds.Pairwise fun d e => d.line ≤ e.line := by
  induction h with
  | nil => exact List.Pairwise.nil
  | cons _ hds ih => exact List.Pairwise.cons (fun e he => hds.le_of_mem he) ih

end Ascends

namespace Grammar

open Record

/-- The line of the next token, or of the end mark. -/
def lineOf (endLine : Nat) (ts : List Token) : Nat := (ts.head?.getD (.eof endLine)).line

/-- The lines of the tokens never decrease up to that of the end mark. -/
def Rising (endLine : Nat) (ts : List Token) : Prop :=
  (ts ++ [Token.eof endLine]).Pairwise fun t u => t.line ≤ u.line

section Rising

variable {n : Nat} {ts rest : List Token}

theorem Rising.suffix (h : Rising n ts) (hrest : rest <:+ ts) : Rising n rest :=
  List.Pairwise.sublist (hrest.sublist.append_right [.eof n]) h

/-- Further on the lines are no lower. -/
theorem Rising.lineOf_le (h : Rising n ts) (hrest : rest <:+ ts) : lineOf n ts ≤ lineOf n rest := by
  obtain ⟨before, rfl⟩ := hrest
  cases before with
  | nil => exact Nat.le_refl _
  | cons t before =>
    have hnext : rest.head?.getD (.eof n) ∈ before ++ rest ++ [.eof n] := by
      cases rest <;> simp
    exact (List.pairwise_cons.mp h).1 _ hnext

end Rising

/-- How many equals signs there are. -/
def equalsCount (ts : List Token) : Nat := ts.countP fun t => t.kind = .equal

end Grammar

/-! ## What outcomes cost -/

namespace Outcome

open Grammar Record

variable {α β : Type}

/-- What was reported in reading `ts` is paid for by the tokens read: targets
by equals signs, and declarations given up by a token each, with `slack` more
to spare. Declarations given up are reported on lines that never decrease if
those of the tokens do not. -/
structure Paced (slack endLine : Nat) (ts : List Token) (o : Outcome α) : Prop where
  suffix : o.rest <:+ ts
  raised : ∀ fault rest log, o = .failed fault rest log → ¬ fault.diagnostic.ofTarget
  targets : (targets o.log).length + equalsCount o.rest ≤ equalsCount ts
  losses : losses o.log = [] ∨ (losses o.log).length + o.rest.length + slack ≤ ts.length
  lines : Rising endLine ts →
    Ascends (lineOf endLine ts) (Record.losses o.reported) (lineOf endLine o.rest)

namespace Paced

variable {slack n : Nat} {ts more : List Token} {t : Token} {o : Outcome α}

theorem keep (a : α) (ts : List Token) : (Outcome.done a ts []).Paced slack n ts where
  suffix := List.suffix_refl ts
  raised := by
    rintro _ _ _ ⟨⟩
  targets := Nat.le_of_eq (Nat.zero_add _)
  losses := .inl rfl
  lines _ := .nil (Nat.le_refl _)

theorem fault {cause : SyntaxCause} (hcause : cause.message ≠ "Invalid assignment target.")
    (ts : List Token) :
    (Outcome.failed (α := α) (faultAt n ts cause) ts []).Paced slack n ts where
  suffix := List.suffix_refl ts
  raised := by
    rintro _ _ _ ⟨⟩
    exact hcause
  targets := Nat.le_of_eq (Nat.zero_add _)
  losses := .inl rfl
  lines _ := by
    have hloss : Record.losses [.reported (faultAt n ts cause).diagnostic] = [_] :=
      losses_reported hcause
    simp only [reported, List.nil_append, hloss]
    exact .cons (Nat.le_refl _) (.nil (Nat.le_refl _))

theorem passed (t : Token) (h : o.Paced slack n more) : o.Paced slack n (t :: more) where
  suffix := h.suffix.trans (List.suffix_cons t more)
  raised := h.raised
  targets := by
    have hle : equalsCount more ≤ equalsCount (t :: more) :=
      (List.sublist_cons_self t more).countP_le
    exact Nat.le_trans h.targets hle
  losses := by
    refine h.losses.imp_right fun hle => ?_
    simp only [List.length_cons]
    omega
  lines hrising :=
    (h.lines (hrising.suffix (List.suffix_cons t more))).lower
      (hrising.lineOf_le (List.suffix_cons t more))

/-- One reading after another. -/
theorem bind {next : α → List Token → Outcome β} (h : o.Paced slack n ts)
    (hnext : ∀ a rest log, o = .done a rest log → (next a rest).Paced slack n rest) :
    (o.bind next).Paced slack n ts := by
  cases o with
  | failed fault rest log =>
    exact ⟨h.suffix, by rintro _ _ _ ⟨⟩; exact h.raised _ _ _ rfl, h.targets, h.losses, h.lines⟩
  | done a rest log =>
    have h' := hnext a rest log rfl
    have hsuffix : rest <:+ ts := h.suffix
    refine ⟨?_, fun fault left later hfailed => ?_, ?_, ?_, fun hrising => ?_⟩
    · simpa using h'.suffix.trans hsuffix
    · rcases bind_eq_failed hfailed with hfirst | ⟨_, _, _, later', hdone, hlast⟩
      · cases hfirst
      · cases hdone
        exact h'.raised fault left later' hlast
    · have hfirst : (Record.targets log).length + equalsCount rest ≤ equalsCount ts := h.targets
      have hsecond := h'.targets
      simp only [bind_done, rest_logged, log_logged, targets_append, List.length_append]
      omega
    · have hfirst : Record.losses log = [] ∨
        (Record.losses log).length + rest.length + slack ≤ ts.length := h.losses
      have hlength := hsuffix.length_le
      have hlength' := h'.suffix.length_le
      simp only [bind_done, rest_logged, log_logged, losses_append, List.length_append]
      rcases hfirst with hnil | hfirst
      · rcases h'.losses with hnil' | hsecond
        · exact .inl (by rw [hnil, hnil', List.append_nil])
        · rw [hnil, List.length_nil, List.nil_append]
          right
          omega
      · right
        rcases h'.losses with hnil' | hsecond
        · rw [hnil', List.length_nil]
          omega
        · omega
    · have hfirst : Ascends (lineOf n ts) (Record.losses log) (lineOf n rest) := h.lines hrising
      simp only [bind_done, rest_logged, reported_logged, losses_append]
      exact hfirst.append (h'.lines (hrising.suffix hsuffix))

theorem undenoting (t : Token) (more : List Token) :
    (Outcome.failed (α := α) (.ofToken t .expectedExpression) more [.notAnExpression t]).Paced
      slack n (t :: more) where
  suffix := List.suffix_cons t more
  raised := by
    rintro _ _ _ ⟨⟩
    exact not_ofTarget_expectedExpression t
  targets := by
    have hle : equalsCount more ≤ equalsCount (t :: more) :=
      (List.sublist_cons_self t more).countP_le
    exact Nat.le_trans (Nat.le_of_eq (Nat.zero_add _)) hle
  losses := .inl rfl
  lines hrising := by
    have hloss : Record.losses
        [.reported (SyntaxFault.ofToken t .expectedExpression).diagnostic] = [_] :=
      losses_reported (not_ofTarget_expectedExpression t)
    have hother : Record.losses [.notAnExpression t] = [] := rfl
    simp only [reported, losses_append, hother, hloss, List.nil_append]
    exact .cons (Nat.le_refl _) (.nil (hrising.lineOf_le (List.suffix_cons t more)))

/-- A target costs the equals sign behind it. -/
theorem assigned (target : Expr) {equals : Token} {o : Outcome Expr}
    (hequals : equals.kind = .equal) (h : o.Paced slack n more) :
    (o.bind fun value rest => .done (assignTo target equals value).1 rest
      (assignTo target equals value).2).Paced slack n (equals :: more) := by
  have hfirst := h.passed equals
  cases o with
  | failed fault rest log => exact hfirst
  | done value rest log =>
    have hlosses : Record.losses (assignTo target equals value).2 = [] := by
      cases target <;> rfl
    have htargets : (Record.targets (assignTo target equals value).2).length ≤ 1 := by
      have hlog : (assignTo target equals value).2.length ≤ 1 := by cases target <;> simp [assignTo]
      exact Nat.le_trans (List.length_filter_le ..)
        (Nat.le_trans (List.length_filterMap_le ..) hlog)
    have hcount : equalsCount (equals :: more) = equalsCount more + 1 :=
      List.countP_cons_of_pos (by simpa using hequals)
    refine ⟨hfirst.suffix, fun _ _ _ hfailed => ?_, ?_, ?_, fun hrising => ?_⟩
    · cases hfailed
    · have hmore : (Record.targets log).length + equalsCount rest ≤ equalsCount more := h.targets
      simp only [bind_done, logged, Outcome.log, Outcome.rest, targets_append, List.length_append]
      omega
    · simp only [bind_done, logged, Outcome.log, Outcome.rest, losses_append, hlosses,
        List.append_nil]
      exact hfirst.losses
    · simp only [bind_done, logged, reported, Outcome.rest, losses_append, hlosses,
        List.append_nil]
      exact hfirst.lines hrising

/-- A brace before declarations is a token to spare. -/
theorem block (t : Token) (h : o.Paced 0 n more) : o.Paced 1 n (t :: more) := by
  have hpassed := h.passed t
  refine ⟨hpassed.suffix, hpassed.raised, hpassed.targets, h.losses.imp_right fun hle => ?_,
    hpassed.lines⟩
  simp only [List.length_cons]
  omega

/-- The token to spare pays for the fault of the declaration itself. -/
theorem given {o : Outcome Stmt} (h : o.Paced 1 n (t :: more)) :
    (given (t :: more) o).Paced 0 n (t :: more) := by
  cases o with
  | done s rest log =>
    refine ⟨h.suffix, fun _ _ _ hfailed => ?_, h.targets, h.losses.imp_right fun hle => ?_, h.lines⟩
    · cases hfailed
    · exact Nat.le_of_succ_le hle
  | failed fault rest log =>
    have hfault := h.raised _ _ _ rfl
    have hrest : rest <:+ t :: more := h.suffix
    have hafter := resume_after fault.cause hrest (List.cons_ne_nil t more)
    have hresume : resume (t :: more) fault.cause rest <:+ rest := by
      rw [resume]
      split
      · exact (skipPast_suffix_tail rest).trans (List.tail_suffix rest)
      · exact skipToBoundary_suffix rest
    have hlosses : Record.losses [.reported fault.diagnostic, .recovering fault] =
        [fault.diagnostic] := losses_reported hfault
    have htargets : Record.targets [.reported fault.diagnostic, .recovering fault] = [] :=
      targets_reported hfault
    refine ⟨hafter.suffix, fun _ _ _ hfailed => ?_, ?_, .inr ?_, fun hrising => ?_⟩
    · cases hfailed
    · have hmore : (Record.targets log).length + equalsCount rest ≤ equalsCount (t :: more) :=
        h.targets
      have hcount : equalsCount (resume (t :: more) fault.cause rest) ≤ equalsCount rest :=
        hresume.sublist.countP_le
      simp only [Grammar.given, Outcome.log, Outcome.rest, targets_append, htargets,
        List.append_nil]
      omega
    · have hspare : Record.losses log = [] ∨
          (Record.losses log).length + rest.length + 1 ≤ (t :: more).length := h.losses
      have hlength := hresume.length_le
      have hshorter := hafter.length_lt
      simp only [Grammar.given, Outcome.log, Outcome.rest, losses_append, hlosses,
        List.length_append, List.length_singleton]
      rcases hspare with hnil | hspare
      · rw [hnil, List.length_nil]
        omega
      · omega
    · have hlines : Ascends (lineOf n (t :: more))
          (Record.losses (log ++ [.reported fault.diagnostic])) (lineOf n rest) := h.lines hrising
      rw [losses_append, losses_reported hfault] at hlines
      simp only [Grammar.given, reported, Outcome.rest, losses_append, hlosses]
      exact hlines.raise ((hrising.suffix hrest).lineOf_le hresume)

end Paced

end Outcome

namespace Grammar

open Outcome

/-- Every rule keeps pace. -/
theorem paced_closed : Closed (fun _ ts o => ∀ n, (o n).Paced 1 n ts)
    (fun _ ts o => ∀ n, (o n).Paced 0 n ts) where
  keep a ts _ := .keep a ts
  fault ts _ hcause _ := .fault hcause ts
  undenoting t more _ _ := .undenoting t more
  passed _ h n := (h n).passed _
  assigned target _ _ _ hequals h n := (h n).assigned target hequals
  bind h hnext n := (h n).bind fun a rest log hdone => hnext n a rest log hdone n
  token t more _ := (Paced.keep t more).passed t
  block h n := (h n).block _
  given h n := (h n).given
  keepAll a ts _ := .keep a ts
  bindAll h hnext n := (h n).bind fun a rest log hdone => hnext n a rest log hdone n

end Grammar

namespace Program

open Grammar

theorem paced (tokens : List Token) :
    (declarations (endLine tokens) false (significant tokens)).outcome.Paced 0 (endLine tokens)
      (significant tokens) :=
  declarations_of_closed paced_closed false (significant tokens) (endLine tokens)

theorem rising_scanned (source : String) :
    Rising (endLine (Scan.ofSource source).tokens) (significant (Scan.ofSource source).tokens) := by
  have hbody : ∀ t ∈ (Scan.ofSource source).body, t.kind ≠ .eof :=
    fun _ ht => Scan.kind_ne_eof_of_mem_body ht
  rw [Scan.tokens, endLine_append_eof hbody, significant_append hbody (ending_eof _)]
  exact Scan.pairwise_tokens source

/-- **Reports keep pace with the tokens.** Of every token sequence, the reports
that are no matter of a target are at most as many as the tokens before the
first end mark, and those of targets at most as many as the equals signs among
these. Of every source, whether or not scanning it reports, the reports that
are no matter of a target are on lines that never decrease. -/
theorem reports_keep_pace :
    (∀ tokens : List Token,
      ((ofTokens tokens).diagnostics.filter fun d => ¬ d.ofTarget).length ≤
          (significant tokens).length ∧
        ((ofTokens tokens).diagnostics.filter fun d => d.ofTarget).length ≤
          (significant tokens).countP fun t => t.kind = .equal) ∧
    ∀ source : String,
      ((ofTokens (Scan.ofSource source).tokens).diagnostics.filter fun d => ¬ d.ofTarget).Pairwise
        fun d e => d.line ≤ e.line := by
  refine ⟨fun tokens => ⟨?_, ?_⟩, fun source => ?_⟩
  · rw [diagnostics_ofTokens]
    rcases (paced tokens).losses with hnil | hle
    · have hnone : Record.losses (declarations (endLine tokens) false (significant tokens)).log =
          [] := hnil
      rw [← Record.losses, hnone]
      exact Nat.zero_le _
    · exact Nat.le_trans (Nat.le_add_right _ _) hle
  · rw [diagnostics_ofTokens]
    exact Nat.le_trans (Nat.le_add_right _ _) (paced tokens).targets
  · rw [diagnostics_ofTokens]
    exact ((paced _).lines (rising_scanned source)).pairwise

/-- Two tokens and two reports: a semicolon alone is given up where it is
found. -/
example : (ofTokens (Scan.ofSource ";;").tokens).diagnostics.length = 2 := by decide +kernel

end Program

end Lox

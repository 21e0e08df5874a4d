/-
The tree a rule yields is derived from the grammar, with or without reports
(`assignment_sound`, `declarations_sound`): from all the tokens it read if it
reported nothing, and from some of them, in their order, in any case. What a
report leaves out is left out whole. An `else` that a rule leaves unread is
one that no `if` before it can take.
-/
import Lox.Proofs.Grammar.Derivation
import Lox.Proofs.Grammar.Outcome

namespace Lox

theorem Record.diagnostics_append (a b : List Record) :
    diagnostics (a ++ b) = diagnostics a ++ diagnostics b := List.filterMap_append

/-- Nothing is reported in a joined log exactly if nothing is in its parts. -/
theorem Record.diagnostics_append_eq_nil {a b : List Record} :
    diagnostics (a ++ b) = [] ↔ diagnostics a = [] ∧ diagnostics b = [] := by
  rw [diagnostics_append, List.append_eq_nil_iff]

namespace Grammar

open Record Reading

/-! ## Tokens that were kept -/

/-- The tokens `us` stand in `ts` before `rest`, in this order; and nothing
else does, unless the log says that something was reported. -/
structure Picked (ts us rest : List Token) (log : List Record) : Prop where
  sublist : (us ++ rest).Sublist ts
  all : diagnostics log = [] → ts = us ++ rest

namespace Picked

variable {ts us mid vs rest : List Token} {log later : List Record}

theorem nil (ts : List Token) : Picked ts [] ts [] := ⟨List.Sublist.refl ts, fun _ => rfl⟩

theorem cons (t : Token) (h : Picked ts us rest log) : Picked (t :: ts) (t :: us) rest log :=
  ⟨h.sublist.cons_cons t, fun clean => congrArg (t :: ·) (h.all clean)⟩

theorem trans (h : Picked ts us mid log) (h' : Picked mid vs rest later) :
    Picked ts (us ++ vs) rest (log ++ later) := by
  constructor
  · rw [List.append_assoc]
    exact ((List.Sublist.refl us).append h'.sublist).trans h.sublist
  · intro clean
    rw [diagnostics_append_eq_nil] at clean
    rw [h.all clean.1, h'.all clean.2, List.append_assoc]

theorem append_log (h : Picked ts us rest log) (later : List Record) :
    Picked ts us rest (log ++ later) :=
  ⟨h.sublist, fun clean => h.all (diagnostics_append_eq_nil.mp clean).1⟩

/-- The token after them, kept too. -/
theorem snoc {t : Token} (h : Picked ts us (t :: rest) log) : Picked ts (us ++ [t]) rest log := by
  have ht := h.trans ((nil rest).cons t)
  rwa [List.append_nil] at ht

/-- What is dropped after them is reported. -/
theorem dropped (h : Picked ts us mid log) (hrest : rest.Sublist mid)
    (reported : diagnostics later ≠ []) : Picked ts us rest (log ++ later) :=
  ⟨((List.Sublist.refl us).append hrest).trans h.sublist,
    fun clean => absurd (diagnostics_append_eq_nil.mp clean).2 reported⟩

end Picked

/-! ## Expressions -/

/-- The rule that reads operands joined at the first of some levels. -/
def ruleOf : List Level → Rule
  | [] => .unary
  | level :: _ => .level level

theorem operand_eq_ruleOf {level : Level} {tighter : List Level}
    (h : level :: tighter <:+ Level.all) : level.operand = ruleOf tighter := by
  -- The suffixes of the list of levels are few, and each is checked.
  simp only [Level.all, List.suffix_cons_iff, List.suffix_nil, List.cons.injEq, reduceCtorEq] at h
  rcases h with ⟨rfl, rfl⟩ | ⟨rfl, rfl⟩ | ⟨rfl, rfl⟩ | ⟨rfl, rfl⟩ | ⟨rfl, rfl⟩ | ⟨rfl, rfl⟩ | h
  all_goals first | rfl | cases h

theorem derives_of_ofToken {t : Token} {e : Expr} (h : Expr.ofToken? t = some e) :
    Derives .primary [t] e := by
  unfold Expr.ofToken? at h
  split at h <;> simp only [Option.some.injEq, reduceCtorEq] at h <;> subst h
  · next hk hl => exact .number hk hl
  · next hk hl => exact .string hk hl
  · next hk => exact .kwTrue hk
  · next hk => exact .kwFalse hk
  · next hk => exact .kwNil hk
  · next hk => exact .name hk

theorem atom_sound {t : Token} {more rest : List Token} {e : Expr} {log : List Record}
    (h : (atom t more).outcome = .done e rest log) :
    Picked (t :: more) [t] rest log ∧ Derives .primary [t] e := by
  cases he : Expr.ofToken? t with
  | none => simp [atom, he] at h
  | some e' =>
    simp only [atom, he, outcome_done, Outcome.done.injEq] at h
    obtain ⟨rfl, rfl, rfl⟩ := h
    exact ⟨(Picked.nil more).cons t, derives_of_ofToken he⟩

/-- A name is assigned to; anything else stands unassigned, and that is
reported. -/
theorem assignTo_cases (target : Expr) (equals : Token) (value : Expr) :
    (∃ name, target = .var name ∧ assignTo target equals value = (.assign name value, [])) ∨
      ((assignTo target equals value).1 = target ∧
        diagnostics (assignTo target equals value).2 ≠ []) := by
  cases target with
  | var name => exact .inl ⟨name, rfl, rfl⟩
  | _ => exact .inr ⟨rfl, by simp [assignTo, diagnostics, Record.diagnostic?]⟩

mutual

theorem assignment_sound {endLine : Nat} {ts rest : List Token} {e : Expr} {log : List Record}
    (h : (assignment endLine ts).outcome = .done e rest log) :
    ∃ us, Picked ts us rest log ∧ Derives .assignment us e := by
  rw [assignment_outcome, Outcome.bind_eq_done] at h
  obtain ⟨target, mid, first, later, htarget, h, rfl⟩ := h
  obtain ⟨us, hpicked, hus⟩ := chain_sound (List.suffix_refl Level.all) htarget
  cases mid with
  | nil =>
    simp only [Outcome.done.injEq] at h
    obtain ⟨rfl, rfl, -⟩ := h
    exact ⟨us, hpicked.append_log later, .unassigned hus⟩
  | cons equals more =>
    dsimp only at h
    split at h
    · next hequals =>
      rw [Outcome.bind_eq_done] at h
      obtain ⟨value, mid, log₁, log₂, hvalue, h, rfl⟩ := h
      simp only [Outcome.done.injEq] at h
      obtain ⟨rfl, rfl, rfl⟩ := h
      have := (after_of_outcome htarget).length_lt
      obtain ⟨vs, hpicked', hvs⟩ := assignment_sound hvalue
      rcases assignTo_cases target equals value with ⟨name, rfl, hassign⟩ | ⟨hkept, hreported⟩
      · obtain ⟨rfl, hname⟩ := hus.eq_of_var
        rw [hassign, List.append_nil]
        exact ⟨name :: equals :: vs, hpicked.trans (hpicked'.cons equals),
          .assign hname hequals hvs⟩
      · -- The value was read and is left out, with its equals sign.
        have hrest := ((List.sublist_append_right vs _).trans hpicked'.sublist).cons equals
        rw [hkept, ← List.append_assoc]
        exact ⟨us, (hpicked.append_log log₁).dropped hrest hreported, .unassigned hus⟩
    · simp only [Outcome.done.injEq] at h
      obtain ⟨rfl, rfl, -⟩ := h
      exact ⟨us, hpicked.append_log later, .unassigned hus⟩
termination_by 16 * ts.length + 10
decreasing_by
  · simp [Level.all]
  · simp only [List.length_cons] at this
    omega

theorem chain_sound {endLine : Nat} : ∀ {levels : List Level} {ts rest : List Token} {e : Expr}
    {log : List Record}, levels <:+ Level.all →
    (chain endLine levels ts).outcome = .done e rest log →
    ∃ us, Picked ts us rest log ∧ Derives (ruleOf levels) us e
  | [], _, _, _, _, _, h => by
    rw [chain_nil_outcome] at h
    exact unary_sound h
  | level :: tighter, ts, _, _, _, hlevels, h => by
    rw [chain_cons_outcome, Outcome.bind_eq_done] at h
    obtain ⟨left, mid, first, later, hleft, h, rfl⟩ := h
    have hoperand := operand_eq_ruleOf hlevels
    have hlt := (after_of_outcome hleft).length_lt
    obtain ⟨us, hpicked, hus⟩ := chain_sound ((List.suffix_cons level tighter).trans hlevels) hleft
    obtain ⟨vs, hpicked', hvs⟩ := chainTail_sound hlevels (.operand (hoperand ▸ hus)) h
    exact ⟨us ++ vs, hpicked.trans hpicked', hvs⟩
termination_by levels ts => 16 * ts.length + levels.length + 2
decreasing_by
  · simp
  · simp
  · simp only [List.length_cons]
    omega

/-- Reading on keeps what is derived so far, and adds to it. -/
theorem chainTail_sound {endLine : Nat} {level : Level} {tighter : List Level} :
    ∀ {ts : List Token} {left e : Expr} {us rest : List Token} {log : List Record},
    level :: tighter <:+ Level.all → Derives (.level level) us left →
    chainTail endLine level tighter left ts = .done e rest log →
    ∃ vs, Picked ts vs rest log ∧ Derives (.level level) (us ++ vs) e
  | [], _, _, _, _, _, _, hus, h => by
    simp only [chainTail_nil, Outcome.done.injEq] at h
    obtain ⟨rfl, rfl, rfl⟩ := h
    exact ⟨[], .nil [], by rwa [List.append_nil]⟩
  | operator :: operand, _, _, _, _, _, hlevels, hus, h => by
    rw [chainTail_cons] at h
    split at h
    · next hoperator =>
      rw [Outcome.bind_eq_done] at h
      obtain ⟨right, mid, first, later, hright, h, rfl⟩ := h
      have hoperand := operand_eq_ruleOf hlevels
      have hlt := (after_of_outcome hright).length_lt
      obtain ⟨ws, hpicked, hright⟩ :=
        chain_sound ((List.suffix_cons level tighter).trans hlevels) hright
      obtain ⟨vs, hpicked', hjoined⟩ :=
        chainTail_sound hlevels (.join hus (Level.terminal_iff.mpr hoperator) level.node_join
          (hoperand ▸ hright)) h
      exact ⟨operator :: ws ++ vs, (hpicked.cons operator).trans hpicked', by simpa using hjoined⟩
    · simp only [Outcome.done.injEq] at h
      obtain ⟨rfl, rfl, rfl⟩ := h
      exact ⟨[], .nil _, by rwa [List.append_nil]⟩
termination_by ts => 16 * ts.length + tighter.length
decreasing_by
  · simp only [List.length_cons]
    omega
  · simp only [List.length_cons]
    omega

theorem unary_sound {endLine : Nat} : ∀ {ts rest : List Token} {e : Expr} {log : List Record},
    (unary endLine ts).outcome = .done e rest log →
    ∃ us, Picked ts us rest log ∧ Derives .unary us e
  | [], _, _, _, h => by
    rw [unary_outcome] at h
    obtain ⟨us, hpicked, hus⟩ := primary_sound h
    exact ⟨us, hpicked, .unsigned hus⟩
  | t :: more, _, _, _, h => by
    rw [unary_outcome] at h
    dsimp only at h
    split at h
    · next hsign =>
      rw [Outcome.bind_pure_eq_done] at h
      obtain ⟨operand, hoperand, rfl⟩ := h
      obtain ⟨us, hpicked, hus⟩ := unary_sound hoperand
      exact ⟨t :: us, hpicked.cons t, .sign hsign hus⟩
    · obtain ⟨us, hpicked, hus⟩ := primary_sound h
      exact ⟨us, hpicked, .unsigned hus⟩
termination_by ts => 16 * ts.length + 1
decreasing_by
  all_goals
    simp only [List.length_cons, List.length_nil]
    omega

theorem primary_sound {endLine : Nat} : ∀ {ts rest : List Token} {e : Expr} {log : List Record},
    (primary endLine ts).outcome = .done e rest log →
    ∃ us, Picked ts us rest log ∧ Derives .primary us e
  | [], _, _, _, h => by simp [primary_outcome] at h
  | t :: more, _, _, _, h => by
    rw [primary_outcome] at h
    dsimp only at h
    split at h
    · exact ⟨[t], atom_sound h⟩
    split at h
    · next hleft =>
      rw [Outcome.bind_eq_done] at h
      obtain ⟨inner, mid, first, later, hinner, h, rfl⟩ := h
      rw [Outcome.expect_bind_eq_done] at h
      obtain ⟨right, mid', rfl, hright, h⟩ := h
      simp only [Outcome.done.injEq] at h
      obtain ⟨rfl, rfl, -⟩ := h
      obtain ⟨us, hpicked, hus⟩ := assignment_sound hinner
      exact ⟨t :: us ++ [right], (hpicked.cons t).snoc.append_log later, .group hleft hus hright⟩
    · simp at h
termination_by ts => 16 * ts.length
decreasing_by
  simp only [List.length_cons]
  omega

end

/-! ## Statements -/

theorem closedOutcome_sound {endLine : Nat} {message : String} {ts rest : List Token} {e : Expr}
    {log : List Record} (h : closedOutcome endLine message ts = .done e rest log) :
    ∃ us semi, Picked ts (us ++ [semi]) rest log ∧ Derives .assignment us e ∧
      semi.kind = .semicolon := by
  rw [closedOutcome, Outcome.bind_eq_done] at h
  obtain ⟨e, mid, first, later, he, h, rfl⟩ := h
  rw [Outcome.expect_bind_eq_done] at h
  obtain ⟨semi, mid', rfl, hsemi, h⟩ := h
  simp only [Outcome.done.injEq] at h
  obtain ⟨rfl, rfl, -⟩ := h
  obtain ⟨us, hpicked, hus⟩ := assignment_sound he
  exact ⟨us, semi, hpicked.snoc.append_log later, hus, hsemi⟩

theorem variableDeclaration_sound {endLine : Nat} {t : Token} {more rest : List Token} {s : Stmt}
    {log : List Record} (ht : t.kind = .kwVar)
    (h : (variableDeclaration endLine more (List.suffix_cons t more)).outcome = .done s rest log) :
    ∃ us, Picked (t :: more) us rest log ∧ DerivesDeclaration us s ∧ s.elseNearest = true := by
  rw [variableDeclaration_outcome, Outcome.expect_bind_eq_done] at h
  obtain ⟨name, mid, rfl, hname, h⟩ := h
  cases mid with
  | nil => simp [Outcome.expect, Outcome.bind] at h
  | cons u mid =>
    dsimp only at h
    split at h
    · next hu =>
      rw [Outcome.bind_pure_eq_done] at h
      obtain ⟨e, he, rfl⟩ := h
      obtain ⟨us, semi, hpicked, hus, hsemi⟩ := closedOutcome_sound he
      exact ⟨t :: name :: u :: us ++ [semi], ((hpicked.cons u).cons name).cons t,
        .initialized ht hname hu hus hsemi, rfl⟩
    · rw [Outcome.expect_bind_eq_done] at h
      obtain ⟨semi, mid', heq, hsemi, h⟩ := h
      simp only [List.cons.injEq] at heq
      obtain ⟨rfl, rfl⟩ := heq
      simp only [Outcome.done.injEq] at h
      obtain ⟨rfl, rfl, rfl⟩ := h
      exact ⟨[t, name, u], (((Picked.nil _).cons u).cons name).cons t, .bare ht hname hsemi, rfl⟩

/-- What a statement rule yields: a derivation of what it read and kept, with
every `else` at the nearest `if`, and no `else` left that the tree could
take. -/
def StatementRead (ts : List Token) (s : Stmt) (rest : List Token) (log : List Record) : Prop :=
  ∃ us, Picked ts us rest log ∧ DerivesStatement us s ∧ s.elseNearest = true ∧
    (s.endsOpen = true → ∀ t ∈ rest.head?, t.kind ≠ .kwElse)

/-- The same of a run of declarations, which ends at a closing brace if it
stands in a block, and with the tokens in any case. -/
def BodyRead (inBlock : Bool) (ts : List Token) (ss : List Stmt) (rest : List Token)
    (log : List Record) : Prop :=
  ∃ us, Picked ts us rest log ∧ DerivesBody us ss ∧ Stmt.bodyElseNearest ss = true ∧
    ∀ t ∈ rest.head?, inBlock = true ∧ t.kind = .rightBrace

/-- Branches end before a token that is no `else`, or with the statement
after one. -/
theorem branchesOutcome_cases {endLine : Nat} {c : Expr} {ts rest : List Token} {s : Stmt}
    {log : List Record} (h : branchesOutcome endLine c ts = .done s rest log) :
    ∃ thenBranch mid first later, (statement endLine ts).outcome = .done thenBranch mid first ∧
      log = first ++ later ∧
      ((s = .ifThen c thenBranch ∧ rest = mid ∧ ∀ t ∈ mid.head?, t.kind ≠ .kwElse) ∨
        ∃ e more elseBranch, mid = e :: more ∧ e.kind = .kwElse ∧
          (statement endLine more).outcome = .done elseBranch rest later ∧
          s = .ifElse c thenBranch elseBranch) := by
  rw [branchesOutcome, Outcome.bind_eq_done] at h
  obtain ⟨thenBranch, mid, first, later, hthen, h, rfl⟩ := h
  refine ⟨thenBranch, mid, first, later, hthen, rfl, ?_⟩
  cases mid with
  | nil =>
    simp only [Outcome.done.injEq] at h
    obtain ⟨rfl, rfl, -⟩ := h
    exact .inl ⟨rfl, rfl, by simp⟩
  | cons e more =>
    dsimp only at h
    split at h
    · next he =>
      rw [Outcome.bind_pure_eq_done] at h
      obtain ⟨elseBranch, helse, rfl⟩ := h
      exact .inr ⟨e, more, elseBranch, rfl, he, helse, rfl⟩
    · next he =>
      simp only [Outcome.done.injEq] at h
      obtain ⟨rfl, rfl, -⟩ := h
      exact .inl ⟨rfl, rfl, by simpa using he⟩

mutual

theorem statement_sound {endLine : Nat} : ∀ {ts rest : List Token} {s : Stmt} {log : List Record},
    (statement endLine ts).outcome = .done s rest log → StatementRead ts s rest log
  | [], _, _, _, h => by
    rw [statement_expression_outcome endLine (by simp), Outcome.bind_pure_eq_done] at h
    obtain ⟨e, he, rfl⟩ := h
    obtain ⟨us, semi, hpicked, -⟩ := closedOutcome_sound he
    have hnone := List.sublist_nil.mp hpicked.sublist
    simp at hnone
  | t :: more, rest, s, log, h => by
    by_cases hif : t.kind = .kwIf
    · rw [statement_if_outcome endLine more hif, Outcome.expect_bind_eq_done] at h
      obtain ⟨left, mid, hmore, hleft, h⟩ := h
      rw [Outcome.bind_eq_done] at h
      obtain ⟨c, mid₁, log₁, log₂, hc, h, rfl⟩ := h
      rw [Outcome.expect_bind_eq_done] at h
      obtain ⟨right, mid₂, hmid₁, hright, h⟩ := h
      have hlt : mid₂.length < more.length := by
        have hcondition := (after_of_outcome hc).length_lt
        rw [hmid₁] at hcondition
        rw [hmore]
        simp only [List.length_cons] at hcondition ⊢
        omega
      obtain ⟨cs, hcs, hc⟩ := assignment_sound hc
      obtain ⟨s₁, mid₃, first, later, hs₁, hlog, hbranches⟩ := branchesOutcome_cases h
      have hlt₁ := (after_of_outcome hs₁).length_lt
      obtain ⟨us, hmid₂, hus, hnearest, hopen⟩ := statement_sound hs₁
      have hthen : Picked (t :: more) (t :: left :: cs ++ right :: us) mid₃ (log₁ ++ first) := by
        rw [hmore]
        rw [hmid₁] at hcs
        exact ((hcs.trans (hmid₂.cons right)).cons left).cons t
      rw [hlog, ← List.append_assoc]
      rcases hbranches with ⟨rfl, rfl, hrest⟩ | ⟨e, more', s₂, rfl, he, hs₂, rfl⟩
      · refine ⟨_, hthen.append_log later, .ifThen hif hleft hc hright hus, ?_, fun _ => hrest⟩
        simpa [Stmt.elseNearest] using hnearest
      · have hlt₂ : more'.length < more.length := by
          simp only [List.length_cons] at hlt₁
          omega
        obtain ⟨vs, hmore', hvs, hnearest', hopen'⟩ := statement_sound hs₂
        refine ⟨_, hthen.trans (hmore'.cons e), .ifElse hif hleft hc hright hus he hvs, ?_, ?_⟩
        · -- The branch before this `else` was left there, so it is not open.
          have hclosed : s₁.endsOpen = false := by
            rw [Bool.eq_false_iff]
            exact fun hs₁ => hopen hs₁ e rfl he
          simp [Stmt.elseNearest, hclosed, hnearest, hnearest']
        · simpa [Stmt.endsOpen] using hopen'
    by_cases hprint : t.kind = .kwPrint
    · rw [statement_print_outcome endLine more hprint, Outcome.bind_pure_eq_done] at h
      obtain ⟨e, he, rfl⟩ := h
      obtain ⟨us, semi, hpicked, hus, hsemi⟩ := closedOutcome_sound he
      exact ⟨t :: us ++ [semi], hpicked.cons t, .print hprint hus hsemi, rfl,
        by simp [Stmt.endsOpen]⟩
    by_cases hbrace : t.kind = .leftBrace
    · rw [statement_block_outcome endLine more hbrace, Outcome.logged_eq_done] at h
      obtain ⟨later, h, rfl⟩ := h
      rw [Outcome.expect_bind_eq_done] at h
      obtain ⟨right, mid, hbody, hright, h⟩ := h
      simp only [Outcome.done.injEq] at h
      obtain ⟨rfl, rfl, -⟩ := h
      obtain ⟨us, hpicked, hus, hnearest, -⟩ := declarations_sound endLine true more
      rw [hbody] at hpicked
      exact ⟨t :: us ++ [right], (hpicked.cons t).snoc.append_log later, .block hbrace hus hright,
        by simpa [Stmt.elseNearest] using hnearest, by simp [Stmt.endsOpen]⟩
    · rw [statement_expression_outcome endLine (by simp [leadsStatement, hif, hprint, hbrace]),
        Outcome.bind_pure_eq_done] at h
      obtain ⟨e, he, rfl⟩ := h
      obtain ⟨us, semi, hpicked, hus, hsemi⟩ := closedOutcome_sound he
      exact ⟨us ++ [semi], hpicked, .expression hus hsemi, rfl, by simp [Stmt.endsOpen]⟩
termination_by ts => 3 * ts.length

theorem declaration_sound {endLine : Nat} {t : Token} {more rest : List Token} {s : Stmt}
    {log : List Record} (h : declarationOutcome endLine t more = .done s rest log) :
    ∃ us, Picked (t :: more) us rest log ∧ DerivesDeclaration us s ∧ s.elseNearest = true := by
  rw [declarationOutcome] at h
  split at h
  · next ht => exact variableDeclaration_sound ht h
  · obtain ⟨us, hpicked, hus, hnearest, -⟩ := statement_sound h
    exact ⟨us, hpicked, .statement hus, hnearest⟩
termination_by 3 * (t :: more).length + 1

theorem declarations_sound (endLine : Nat) : ∀ (inBlock : Bool) (ts : List Token),
    BodyRead inBlock ts (declarations endLine inBlock ts).statements
      (declarations endLine inBlock ts).rest (declarations endLine inBlock ts).log
  | inBlock, [] => by
    have hb := declarations_nil_parts endLine inBlock
    simp only [Body.parts, Prod.mk.injEq] at hb
    rw [hb.1, hb.2.1, hb.2.2]
    exact ⟨[], .nil [], .nil, rfl, by simp⟩
  | inBlock, t :: more => by
    by_cases hend : inBlock = true ∧ t.kind = .rightBrace
    · obtain ⟨rfl, ht⟩ := hend
      have hb := declarations_rightBrace_parts endLine more ht
      simp only [Body.parts, Prod.mk.injEq] at hb
      rw [hb.1, hb.2.1, hb.2.2]
      exact ⟨[], .nil _, .nil, rfl, by simpa using ht⟩
    · have hb := declarations_cons_parts endLine more hend
      simp only [Body.parts, Prod.mk.injEq] at hb
      have hafter := (declaration endLine t more).after
      have hlt : (declaration endLine t more).rest.length < more.length + 1 := hafter.length_lt
      obtain ⟨vs, hpicked', hvs, hnearest', hend'⟩ :=
        declarations_sound endLine inBlock (declaration endLine t more).rest
      rw [hb.1, hb.2.1, hb.2.2]
      cases ho : declarationOutcome endLine t more with
      | failed fault rest log =>
        have hd := declaration_parts endLine t more
        rw [ho, settled, Declared.parts, Prod.mk.injEq, Prod.mk.injEq] at hd
        -- The declaration is given up: none of its tokens are kept.
        have hreported : diagnostics (declaration endLine t more).log ≠ [] := by
          rw [hd.2.2, Ne, diagnostics_append_eq_nil]
          simp [diagnostics, Record.diagnostic?]
        have hpicked := (Picked.nil (t :: more)).dropped hafter.suffix.sublist hreported
        rw [hd.1]
        exact ⟨vs, hpicked.trans hpicked', hvs, hnearest', hend'⟩
      | done s rest log =>
        have hd := declaration_of_done ho
        obtain ⟨us, hpicked, hus, hnearest⟩ := declaration_sound ho
        rw [← hd.2.1, ← hd.2.2] at hpicked
        rw [hd.1]
        exact ⟨us ++ vs, hpicked.trans hpicked', .cons hus hvs,
          by simp [Stmt.bodyElseNearest, hnearest, hnearest'], hend'⟩
termination_by _ ts => 3 * ts.length + 2

end

end Grammar

end Lox

/-
Where declarations are given up. A semicolon ends a statement, so no rule fails
with a semicolon as the last token it read, except at the end of all tokens
(`Grammar.declaration_midway`). Whoever looks back from the token that a
declaration is given up at sees part of that declaration.
-/
import Lox.Proofs.Grammar.Closed
import Lox.Proofs.Recovery.MissingSemicolon

namespace Lox

namespace Grammar

open Reading Outcome

/-- From `ts` to `rest` nothing was read, or something other than a semicolon
last. -/
def Midway (ts rest : List Token) : Prop :=
  rest = ts ∨ ∃ t, t.kind ≠ .semicolon ∧ t :: rest <:+ ts

namespace Midway

variable {ts mid more rest : List Token} {t : Token}

theorem refl (ts : List Token) : Midway ts ts := .inl rfl

theorem suffix (h : Midway ts rest) : rest <:+ ts := by
  rcases h with rfl | ⟨t, -, hsuffix⟩
  · exact List.suffix_refl rest
  · exact (List.suffix_cons t rest).trans hsuffix

theorem trans (h : Midway ts mid) (h' : Midway mid rest) : Midway ts rest := by
  rcases h' with rfl | ⟨t, ht, hsuffix⟩
  · exact h
  · exact .inr ⟨t, ht, hsuffix.trans h.suffix⟩

/-- Behind a token that is no semicolon, wherever that stands. -/
theorem behind (h : Midway more rest) (ht : t.kind ≠ .semicolon) (hsuffix : t :: more <:+ ts) :
    Midway ts rest := by
  rcases h with rfl | ⟨u, hu, hrest⟩
  · exact .inr ⟨t, ht, hsuffix⟩
  · exact .inr ⟨u, hu, (hrest.trans (List.suffix_cons t more)).trans hsuffix⟩

theorem bind {α β : Type} {o : Outcome α} {next : α → List Token → Outcome β}
    (h : Midway ts o.rest)
    (hnext : ∀ a rest log, o = .done a rest log → Midway rest (next a rest).rest) :
    Midway ts (o.bind next).rest := by
  cases o with
  | failed fault rest log => exact h
  | done a rest log =>
    rw [bind_done, rest_logged]
    exact h.trans (hnext a rest log rfl)

end Midway

/-! ## Expressions -/

/-- No rule for expressions reads a semicolon. -/
theorem midway_exprClosed : ExprClosed fun _ ts o => ∀ n, Midway ts (o n).rest where
  keep _ ts _ := .refl ts
  fault ts _ _ _ := .refl ts
  undenoting t more ht _ := (Midway.refl more).behind ht (List.suffix_refl _)
  passed ht h n := (h n).behind ht (List.suffix_refl _)
  assigned _ equals more _ hequals h n := by
    have hkind : equals.kind ≠ .semicolon := by simp [hequals]
    exact ((h n).behind hkind (List.suffix_refl _)).bind fun _ rest _ _ => .refl rest
  bind h hnext n := (h n).bind fun a rest log hdone => hnext n a rest log hdone n

/-! ## Statements -/

/-- A fault is found midway, or at the end of all tokens. -/
def FailsMidway {α : Type} (ts : List Token) (o : Outcome α) : Prop :=
  ∀ fault rest log, o = .failed fault rest log → rest = [] ∨ Midway ts rest

namespace FailsMidway

variable {α β : Type} {ts more : List Token} {t : Token} {o : Outcome α}
  {next : α → List Token → Outcome β}

theorem done (a : α) (rest : List Token) (log : List Record) :
    FailsMidway ts (Outcome.done a rest log) := nofun

theorem behind (h : FailsMidway more o) (ht : t.kind ≠ .semicolon) (hsuffix : t :: more <:+ ts) :
    FailsMidway ts o :=
  fun fault rest log hfailed => (h fault rest log hfailed).imp_right (·.behind ht hsuffix)

theorem bind (h : FailsMidway ts o) (hnext : ∀ a rest log, o = .done a rest log →
    FailsMidway ts (next a rest)) : FailsMidway ts (o.bind next) := by
  intro fault rest log hfailed
  rcases bind_eq_failed hfailed with hfirst | ⟨a, mid, first, later, hdone, hlast⟩
  · exact h fault rest log hfirst
  · exact hnext a mid first hdone fault rest later hlast

/-- After something read that does not end with a semicolon. -/
theorem bind_midway (h : Midway ts o.rest) (hnext : ∀ a rest log, o = .done a rest log →
    FailsMidway rest (next a rest)) : FailsMidway ts (o.bind next) := by
  refine bind (fun fault rest log hfailed => ?_) fun a rest log hdone => ?_
  · rw [hfailed] at h
    exact .inr h
  · rw [hdone] at h
    exact fun fault rest' log' hfailed =>
      (hnext a rest log hdone fault rest' log' hfailed).imp_right h.trans

theorem expect (n : Nat) (kind : Token.Kind) (message : String) (ts : List Token) :
    FailsMidway ts (Outcome.expect n kind message ts) := by
  intro fault rest log hfailed
  right
  cases ts with
  | nil =>
    cases hfailed
    exact .refl []
  | cons t more =>
    rw [Outcome.expect] at hfailed
    split at hfailed
    · cases hfailed
    · cases hfailed
      exact .refl (t :: more)

end FailsMidway

theorem assignment_midway (n : Nat) (ts : List Token) : Midway ts (assignment n ts).outcome.rest :=
  assignment_of_exprClosed midway_exprClosed ts n

theorem expect_midway (n : Nat) {kind : Token.Kind} {message : String}
    (hkind : kind ≠ .semicolon) (hmessage : message ≠ "Invalid assignment target.")
    (ts : List Token) : Midway ts (Outcome.expect n kind message ts).rest :=
  expect_of_exprClosed midway_exprClosed hmessage hkind ts n

theorem closed_midway (n : Nat) (message : String) (ts : List Token) :
    FailsMidway ts (closedOutcome n message ts) :=
  .bind_midway (assignment_midway n ts) fun _ rest _ _ =>
    (FailsMidway.expect n .semicolon message rest).bind fun _ _ _ _ => .done _ _ _

theorem variableDeclaration_midway (n : Nat) {ts : List Token} (rest : List Token)
    (h : rest <:+ ts) : FailsMidway rest (variableDeclaration n rest h).outcome := by
  rw [variableDeclaration_outcome]
  refine .bind_midway (expect_midway n (by decide) (by decide) rest) fun name rest _ _ => ?_
  have hends : ∀ ts, FailsMidway ts ((Outcome.expect n .semicolon
      "Expect ';' after variable declaration." ts).bind
        fun _ rest => .done (Stmt.varDecl name none) rest []) :=
    fun ts => (FailsMidway.expect n _ _ ts).bind fun _ _ _ _ => .done _ _ _
  cases rest with
  | nil => exact hends []
  | cons t more =>
    dsimp only
    split
    · next ht =>
      have hvalue := closed_midway n "Expect ';' after variable declaration." more
      exact (hvalue.behind (by simp [ht]) (List.suffix_refl _)).bind fun _ _ _ _ => .done _ _ _
    · exact hends (t :: more)

/-- A block is given up at the end of all tokens only. -/
theorem block_midway (n : Nat) (more : List Token) :
    FailsMidway more ((declarations n true more).outcome.bind fun ss rest =>
      (Outcome.expect n .rightBrace "Expect '\x7d' after block." rest).bind
        fun _ rest => .done (Stmt.block ss) rest []) := by
  refine FailsMidway.bind (.done _ _ _) fun ss rest log hdone => ?_
  rw [Body.outcome, Outcome.done.injEq] at hdone
  have hhead : ∀ t ∈ rest.head?, true = true ∧ t.kind = .rightBrace :=
    hdone.2.1 ▸ declarations_rest more
  refine FailsMidway.bind (fun fault left later hfailed => ?_) fun _ _ _ _ => .done _ _ _
  cases rest with
  | nil =>
    cases hfailed
    exact .inl rfl
  | cons t rest =>
    rw [Outcome.expect_cons rest (hhead t rfl).2] at hfailed
    cases hfailed

theorem statement_midway (n : Nat) (ts : List Token) : FailsMidway ts (statement n ts).outcome := by
  cases ts with
  | nil =>
    rw [statement_expression_outcome n (by simp)]
    exact (closed_midway n _ []).bind fun _ _ _ _ => .done _ _ _
  | cons t more =>
    by_cases hif : t.kind = .kwIf
    · rw [statement_if_outcome n more hif]
      refine FailsMidway.behind ?_ (by simp [hif]) (List.suffix_refl _)
      refine .bind_midway (expect_midway n (by decide) (by decide) more) fun _ rest _ hleft => ?_
      refine .bind_midway (assignment_midway n rest) fun condition rest' _ hcondition => ?_
      refine .bind_midway (expect_midway n (by decide) (by decide) rest')
        fun _ branch _ hright => ?_
      -- The branches are read further on.
      have hmore := congrArg List.length (expect_eq_done.mp hleft).1
      have hlt := (after_of_outcome hcondition).length_lt
      have hbranch := congrArg List.length (expect_eq_done.mp hright).1
      rw [branchesOutcome]
      refine (statement_midway n branch).bind fun thenBranch rest' _ hthen => ?_
      have hafter := after_of_outcome hthen
      have hlt' := hafter.length_lt
      cases rest' with
      | nil => exact .done _ _ _
      | cons e more =>
        dsimp only
        split
        · next he =>
          -- The first branch may end with a semicolon, but then comes `else`.
          have hothers := (statement_midway n more).behind (by simp [he]) hafter.suffix
          exact hothers.bind fun _ _ _ _ => .done _ _ _
        · exact .done _ _ _
    by_cases hprint : t.kind = .kwPrint
    · rw [statement_print_outcome n more hprint]
      have hvalue := (closed_midway n "Expect ';' after value." more).behind
        (by simp [hprint]) (List.suffix_refl (t :: more))
      exact hvalue.bind fun _ _ _ _ => .done _ _ _
    by_cases hbrace : t.kind = .leftBrace
    · rw [statement_body_outcome n more hbrace]
      exact (block_midway n more).behind (by simp [hbrace]) (List.suffix_refl _)
    · rw [statement_expression_outcome n (by simp [leadsStatement, hif, hprint, hbrace])]
      exact (closed_midway n _ (t :: more)).bind fun _ _ _ _ => .done _ _ _
termination_by ts.length
decreasing_by
  all_goals
    simp only [List.length_cons] at *
    omega

/-- A declaration that is given up before the end of all tokens is given up at
its first token, or behind one that is no semicolon. -/
theorem declaration_midway (n : Nat) (t : Token) (more : List Token) :
    FailsMidway (t :: more) (declarationOutcome n t more) := by
  rw [declarationOutcome]
  split
  · next hvar =>
    exact (variableDeclaration_midway n more _).behind (by simp [hvar]) (List.suffix_refl _)
  · exact statement_midway n (t :: more)

end Grammar

end Lox

/-
A declaration whose final semicolon is missing. Reading it fails at the
token found in place of the semicolon, however deep in the statement that is
(`DerivesDeclaration.read_unclosed`), and reading resumes from that token on
(`DerivesBody.declarations_unclosed`). What was read before it stays
read (`DerivesBody.declarations_append`).
-/
import Lox.Proofs.Grammar.Acceptance

namespace Lox

/-- What is reported where the last token of a statement is missing. -/
def Stmt.unclosedMessage : Stmt → String
  | .expression _ => "Expect ';' after expression."
  | .print _ => "Expect ';' after value."
  | .varDecl _ _ => "Expect ';' after variable declaration."
  | .block _ => "Expect '\x7d' after block."
  | .ifThen _ thenBranch => thenBranch.unclosedMessage
  | .ifElse _ _ elseBranch => elseBranch.unclosedMessage

/-- The fault that a token stands where a statement should have ended. -/
def Stmt.unclosedAt (s : Stmt) (t : Token) : SyntaxFault :=
  .ofToken t (.expected s.unclosedMessage)

/-- The kinds that no expression goes on with and that do not close a
statement either. -/
def Token.Kind.interrupts (kind : Token.Kind) : Bool :=
  kind.startsStatement || kind == .rightBrace

theorem Level.interrupts_of_mem_operators (level : Level) :
    ∀ kind ∈ level.operators, kind.interrupts = false := by
  cases level <;> decide

namespace Grammar

theorem endsExpression_of_interrupts {t : Token} (h : t.kind.interrupts = true)
    (rest : List Token) : EndsExpression (t :: rest) := by
  refine ⟨stops_cons (fun level hmem => ?_) _ rest, ?_⟩
  · rw [level.interrupts_of_mem_operators _ hmem] at h
    cases h
  · rintro _ ⟨⟩ hequal
    rw [hequal] at h
    cases h

theorem ne_semicolon_of_interrupts {t : Token} (h : t.kind.interrupts = true) :
    t.kind ≠ .semicolon := by
  intro hsemi
  rw [hsemi] at h
  cases h

/-! ## Reading up to the missing semicolon -/

theorem Derives.read_unclosed {endLine : Nat} {message : String} {ts rest : List Token} {e : Expr}
    {t : Token} (h : Derives .assignment ts e) (ht : t.kind.interrupts = true) :
    closedOutcome endLine message (ts ++ t :: rest) =
      .failed (.ofToken t (.expected message)) (t :: rest) [] := by
  rw [closedOutcome, h.read (endsExpression_of_interrupts ht rest), Outcome.bind_done,
    Outcome.logged_nil, Outcome.expect, if_neg (ne_semicolon_of_interrupts ht)]
  rfl

theorem DerivesStatement.ne_nil {ts : List Token} {s : Stmt} (h : DerivesStatement ts s) :
    ts ≠ [] := by
  obtain ⟨t, more, rfl, -⟩ := h.head
  exact List.cons_ne_nil t more

/-- Where tokens in two parts end with a semicolon, the second part does. -/
theorem eq_append_of_last (front : List Token) {ts us : List Token} {semi : Token} (hts : ts ≠ [])
    (h : front ++ ts = us ++ [semi]) : ∃ vs, ts = vs ++ [semi] ∧ us = front ++ vs := by
  rw [← List.dropLast_concat_getLast hts, ← List.append_assoc] at h
  obtain ⟨hfront, hlast⟩ := List.append_inj' h rfl
  refine ⟨ts.dropLast, ?_, hfront.symm⟩
  rw [← hlast, List.dropLast_concat_getLast hts]

/-- A derived statement whose last token, a semicolon, is left out is given
up at the token in its place. The fault is raised in the innermost of the
last branches; the conditions and branches before it are read in full. -/
theorem DerivesStatement.read_unclosed (endLine : Nat) {t : Token} (rest : List Token)
    (ht : t.kind.interrupts = true) : ∀ {ts us : List Token} {s : Stmt} {semi : Token},
    DerivesStatement ts s → s.elseNearest = true → ts = us ++ [semi] → semi.kind = .semicolon →
    (statement endLine (us ++ t :: rest)).outcome = .failed (s.unclosedAt t) (t :: rest) []
  | _, us, _, semi, @DerivesStatement.ifThen u left cs right _ _ _ hif hleft hc hright hs,
      hnearest, hts, hsemi => by
    obtain ⟨vs, hvs, rfl⟩ := eq_append_of_last (u :: left :: cs ++ [right]) hs.ne_nil
      (by simpa using hts)
    simp only [Stmt.elseNearest] at hnearest
    have hthen := hs.read_unclosed endLine rest ht hnearest hvs hsemi
    have htokens : u :: left :: cs ++ [right] ++ vs ++ t :: rest =
        u :: left :: (cs ++ right :: (vs ++ t :: rest)) := by simp
    rw [htokens, statement_if_read hif hleft hc hright, branchesOutcome, hthen]
    rfl
  | _, us, _, semi, @DerivesStatement.ifElse u left cs right ts e _ _ s _ hif hleft hc hright hs he hs',
      hnearest, hts, hsemi => by
    obtain ⟨vs, hvs, rfl⟩ := eq_append_of_last (u :: left :: cs ++ right :: ts ++ [e]) hs'.ne_nil
      (by simpa using hts)
    simp only [Stmt.elseNearest, Bool.and_eq_true, Bool.not_eq_true'] at hnearest
    obtain ⟨⟨hclosed, hnearest⟩, hnearest'⟩ := hnearest
    have hthen : (statement endLine (ts ++ e :: (vs ++ t :: rest))).outcome =
        .done s (e :: (vs ++ t :: rest)) [] :=
      hs.read endLine hnearest fun hopen => absurd hopen (by simp [hclosed])
    have helse := hs'.read_unclosed endLine rest ht hnearest' hvs hsemi
    have htokens : u :: left :: cs ++ right :: ts ++ [e] ++ vs ++ t :: rest =
        u :: left :: (cs ++ right :: (ts ++ e :: (vs ++ t :: rest))) := by simp
    rw [htokens, statement_if_read hif hleft hc hright, branchesOutcome, hthen]
    simp only [Outcome.bind_done, he, if_true, helse, Outcome.bind_failed, Outcome.logged_nil]
    rfl
  | _, us, _, semi, .print hprint he _, _, hts, _ => by
    obtain ⟨rfl, -⟩ := List.append_inj' hts rfl
    rw [List.cons_append, statement_print_outcome _ _ hprint, he.read_unclosed ht]
    rfl
  | _, us, _, semi, .block _ _ hright, _, hts, hsemi => by
    obtain ⟨-, hlast⟩ := List.append_inj' hts rfl
    cases hlast
    rw [hright] at hsemi
    cases hsemi
  | _, us, _, semi, .expression he _, _, hts, _ => by
    obtain ⟨rfl, -⟩ := List.append_inj' hts rfl
    rw [statement_expression_outcome, he.read_unclosed ht]
    · rfl
    · obtain ⟨u, more, rfl, hu⟩ := he.head
      rintro _ ⟨⟩ (hk | hk | hk) <;> rw [hk] at hu <;> cases hu
termination_by ts => ts.length
decreasing_by
  all_goals
    simp only [List.length_append, List.length_cons]
    omega

/-- Something stands before the semicolon of a declaration. -/
theorem DerivesDeclaration.head_unclosed {us : List Token} {semi : Token} {s : Stmt}
    (h : DerivesDeclaration (us ++ [semi]) s) (hsemi : semi.kind = .semicolon) :
    ∃ u more, us = u :: more ∧ u.kind.startsDeclaration = true := by
  obtain ⟨t, more, hhead, ht⟩ := h.head
  cases us with
  | nil =>
    cases hhead
    rw [hsemi] at ht
    cases ht
  | cons u us =>
    cases hhead
    exact ⟨t, us, rfl, ht⟩

theorem DerivesDeclaration.read_unclosed (endLine : Nat) {t u semi : Token} {more : List Token}
    {s : Stmt} (rest : List Token) (ht : t.kind.interrupts = true)
    (h : DerivesDeclaration (u :: more ++ [semi]) s) (hnearest : s.elseNearest = true)
    (hsemi : semi.kind = .semicolon) :
    declarationOutcome endLine u (more ++ t :: rest) = .failed (s.unclosedAt t) (t :: rest) [] := by
  generalize hts : u :: more ++ [semi] = ts at h
  cases h with
  | @bare _ name semi' hvar hname _ =>
    obtain ⟨hus, -⟩ : u :: more = [_, name] ∧ [semi] = [semi'] := List.append_inj' hts rfl
    cases hus
    have hequal := (endsExpression_of_interrupts ht rest).2 t rfl
    have hmissing : Outcome.expect endLine .semicolon "Expect ';' after variable declaration."
        (t :: rest) = .failed ((Stmt.varDecl name none).unclosedAt t) (t :: rest) [] := by
      rw [Outcome.expect, if_neg (ne_semicolon_of_interrupts ht)]
      rfl
    rw [declarationOutcome, if_pos hvar, variableDeclaration_outcome]
    simp [hname, hequal, hmissing]
  | initialized hvar hname hequals he _ =>
    obtain ⟨hus, -⟩ := List.append_inj' hts rfl
    cases hus
    rw [declarationOutcome, if_pos hvar, variableDeclaration_outcome]
    simp [hname, hequals, he.read_unclosed ht, Stmt.unclosedAt, Stmt.unclosedMessage]
  | statement hs =>
    have hread := hs.read_unclosed endLine rest ht hnearest hts.symm hsemi
    obtain ⟨_, _, hhead, -, hvar⟩ := hs.head
    rw [← hts] at hhead
    cases hhead
    rw [declarationOutcome_of_statement _ hvar]
    exact hread

/-! ## Runs of declarations -/

/-- What is derived before other declarations is read as it is alone, as
long as no `else` comes next. -/
theorem DerivesBody.declarations_append (endLine : Nat) (inBlock : Bool) {rest : List Token}
    (hrest : NoElse rest) : ∀ {ts : List Token} {ss : List Stmt},
    DerivesBody ts ss → Stmt.bodyElseNearest ss = true →
    (declarations endLine inBlock (ts ++ rest)).parts =
      preceded ss [] (declarations endLine inBlock rest).parts
  | _, _, .nil, _ => rfl
  | _, _, @DerivesBody.cons _ us s _ hd hbody, hnearest => by
    simp only [Stmt.bodyElseNearest, Bool.and_eq_true] at hnearest
    obtain ⟨t, more, rfl, hread⟩ :=
      hd.read endLine hnearest.1 fun _ => hbody.noElse_append hrest
    rw [List.append_assoc, List.cons_append, declarations_of_done (hd.not_rightBrace inBlock) hread,
      hbody.declarations_append endLine inBlock hrest hnearest.2, preceded_preceded]
    rfl

theorem resume_expected {ts rest : List Token} (message : String)
    (h : rest.length < ts.length) : resume ts (.expected message) rest = skipToBoundary rest := by
  rw [resume, if_neg]
  rintro (hcause | hlength)
  · cases hcause
  · exact absurd hlength (Nat.ne_of_lt h)

/-- A declaration without its semicolon is reported at the token in its
place, and reading goes on at the boundary that follows. What comes before
is not concerned. -/
theorem DerivesBody.declarations_unclosed (endLine : Nat) (inBlock : Bool) {t semi : Token}
    {ts us : List Token} {ss : List Stmt} {s : Stmt} (rest : List Token)
    (ht : t.kind.interrupts = true) (hbody : DerivesBody ts ss)
    (hbodyNearest : Stmt.bodyElseNearest ss = true) (h : DerivesDeclaration (us ++ [semi]) s)
    (hnearest : s.elseNearest = true) (hsemi : semi.kind = .semicolon) :
    (declarations endLine inBlock (ts ++ (us ++ t :: rest))).parts =
      preceded ss [.reported (s.unclosedAt t).diagnostic, .recovering (s.unclosedAt t)]
        (declarations endLine inBlock (skipToBoundary (t :: rest))).parts := by
  obtain ⟨u, more, rfl, hu⟩ := h.head_unclosed hsemi
  have hnext : NoElse (u :: more ++ t :: rest) := by
    refine noElse_cons (fun hk => ?_) _
    rw [hk] at hu
    cases hu
  have hresume : resume (u :: (more ++ t :: rest)) (s.unclosedAt t).cause (t :: rest) =
      skipToBoundary (t :: rest) :=
    resume_expected s.unclosedMessage (by simp only [List.length_cons, List.length_append]; omega)
  rw [hbody.declarations_append endLine inBlock hnext hbodyNearest, List.cons_append,
    declarations_of_failed (h.not_rightBrace inBlock)
      (h.read_unclosed endLine rest ht hnearest hsemi),
    hresume, preceded_preceded, List.append_nil]
  rfl

end Grammar

end Lox

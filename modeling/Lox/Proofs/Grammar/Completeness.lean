/-
Tokens derived from the grammar are read with the tree of the derivation
and without a report, whatever follows them, as long as it cannot be taken
for more of the same (`Derives.read`, `DerivesBody.read`): no operator after
an expression, no `else` after a statement that could take it.
-/
import Lox.Proofs.Grammar.Soundness

namespace Lox

namespace Grammar

/-- What comes first, if anything, is no operator of these levels. -/
def Stops (levels : List Level) (rest : List Token) : Prop :=
  ∀ t ∈ rest.head?, ∀ level ∈ levels, t.kind ∉ level.operators

theorem stops_cons {t : Token} (h : ∀ level : Level, t.kind ∉ level.operators)
    (levels : List Level) (rest : List Token) : Stops levels (t :: rest) := by
  intro u hu level _
  simp only [List.head?_cons, Option.mem_def, Option.some.injEq] at hu
  exact hu ▸ h level

theorem Stops.mono {levels levels' : List Level} {rest : List Token} (h : Stops levels rest)
    (hsub : levels' ⊆ levels) : Stops levels' rest :=
  fun t ht level hlevel => h t ht level (hsub hlevel)

/-- An operator of a level stops the reading of its operands. -/
theorem stops_of_operator {level : Level} {tighter : List Level} {operator : Token}
    (hlevels : level :: tighter <:+ Level.all) (h : level.Terminal operator.kind)
    (rest : List Token) : Stops tighter (operator :: rest) := by
  intro t ht level' hlevel' hmem
  simp only [List.head?_cons, Option.mem_def, Option.some.injEq] at ht
  subst ht
  have hnodup : (level :: tighter).Nodup := hlevels.sublist.nodup (by decide)
  rw [h.level_eq (Level.terminal_iff.mpr hmem)] at hnodup
  exact (List.nodup_cons.mp hnodup).1 hlevel'

theorem chainTail_of_stops {endLine : Nat} {level : Level} {tighter : List Level} {left : Expr}
    {rest : List Token} (h : Stops [level] rest) :
    chainTail endLine level tighter left rest = .done left rest [] := by
  cases rest with
  | nil => exact chainTail_nil endLine level tighter left
  | cons t more => rw [chainTail_cons, if_neg (h t rfl level (by simp))]

/-- An operand that no operator follows is a whole expression of any level. -/
theorem chain_of_unary {endLine : Nat} {levels : List Level} {ts rest : List Token} {e : Expr}
    (h : (unary endLine ts).outcome = .done e rest []) (hstops : Stops levels rest) :
    (chain endLine levels ts).outcome = .done e rest [] := by
  induction levels with
  | nil => rw [chain_nil_outcome, h]
  | cons level tighter ih =>
    rw [chain_cons_outcome, ih (hstops.mono (List.subset_cons_self level tighter)),
      Outcome.bind_done, Outcome.logged_nil]
    exact chainTail_of_stops (hstops.mono (by simp))

/-- What comes first, if anything, ends an expression. -/
def EndsExpression (rest : List Token) : Prop :=
  Stops Level.all rest ∧ ∀ t ∈ rest.head?, t.kind ≠ .equal

theorem endsExpression_cons {t : Token} (h : t.kind = .rightParen ∨ t.kind = .semicolon)
    (rest : List Token) : EndsExpression (t :: rest) := by
  refine ⟨stops_cons (fun level => ?_) _ rest, ?_⟩
  · rcases h with h | h <;> rw [h] <;> cases level <;> decide
  · rcases h with h | h <;> simp [h]

/-- How a rule reads derived tokens. A level is stated before its last
operator is looked for, so that one more can be added on the right. -/
def Reads (endLine : Nat) (rule : Rule) (ts : List Token) (e : Expr) : Prop :=
  match rule with
  | .assignment =>
    ∀ rest, EndsExpression rest → (assignment endLine (ts ++ rest)).outcome = .done e rest []
  | .level level =>
    ∀ tighter, level :: tighter <:+ Level.all → ∀ rest, Stops tighter rest →
      (chain endLine (level :: tighter) (ts ++ rest)).outcome =
        chainTail endLine level tighter e rest
  | .unary => ∀ rest, (unary endLine (ts ++ rest)).outcome = .done e rest []
  | .primary => ∀ rest, (primary endLine (ts ++ rest)).outcome = .done e rest []

theorem Reads.operand {endLine : Nat} {level : Level} {tighter : List Level} {ts rest : List Token}
    {e : Expr} (h : Reads endLine level.operand ts e) (hlevels : level :: tighter <:+ Level.all)
    (hstops : Stops tighter rest) :
    (chain endLine tighter (ts ++ rest)).outcome = .done e rest [] := by
  rw [operand_eq_ruleOf hlevels] at h
  cases tighter with
  | nil =>
    rw [chain_nil_outcome]
    exact h rest
  | cons level' tighter =>
    have hlevels' := (List.suffix_cons level (level' :: tighter)).trans hlevels
    rw [h tighter hlevels' rest (hstops.mono (List.subset_cons_self level' tighter))]
    exact chainTail_of_stops (hstops.mono (by simp))

theorem unary_of_primary {endLine : Nat} {t : Token} {more rest : List Token} {e : Expr}
    (ht : t.kind.isAtom = true ∨ t.kind = .leftParen)
    (h : (primary endLine (t :: more)).outcome = .done e rest []) :
    (unary endLine (t :: more)).outcome = .done e rest [] := by
  rw [unary_outcome]
  dsimp only
  rw [if_neg, h]
  rintro (hk | hk) <;> simp [hk, Token.Kind.isAtom] at ht

theorem primary_of_ofToken {endLine : Nat} {t : Token} {rest : List Token} {e : Expr}
    (hatom : t.kind.isAtom = true) (h : Expr.ofToken? t = some e) :
    (primary endLine (t :: rest)).outcome = .done e rest [] := by
  rw [primary_outcome]
  dsimp only
  rw [if_pos hatom, atom, h]
  rfl

theorem Derives.primary_head {ts : List Token} {e : Expr} (h : Derives .primary ts e) :
    ∃ t more, ts = t :: more ∧ (t.kind.isAtom = true ∨ t.kind = .leftParen) := by
  cases h with
  | group hk => exact ⟨_, _, rfl, .inr hk⟩
  | number hk | string hk | kwTrue hk | kwFalse hk | kwNil hk | name hk =>
    exact ⟨_, _, rfl, .inl (by rw [hk]; rfl)⟩

theorem Derives.reads {endLine : Nat} {rule : Rule} {ts : List Token} {e : Expr}
    (h : Derives rule ts e) : Reads endLine rule ts e := by
  induction h with
  | @assign name equals ts value hname hequals _ ih =>
    intro rest hrest
    have hatom : name.kind.isAtom = true := by
      rw [hname]
      rfl
    have hprimary : (primary endLine (name :: equals :: (ts ++ rest))).outcome =
        .done (.var name) (equals :: (ts ++ rest)) [] :=
      primary_of_ofToken hatom (by simp [Expr.ofToken?, hname])
    have hstops : ∀ level : Level, equals.kind ∉ level.operators := by
      rw [hequals]
      intro level
      cases level <;> decide
    have htarget := chain_of_unary (unary_of_primary (.inl hatom) hprimary)
      (stops_cons hstops Level.all (ts ++ rest))
    rw [List.cons_append, List.cons_append, assignment_outcome, htarget]
    simp [hequals, ih rest hrest, assignTo]
  | unassigned _ ih =>
    intro rest hrest
    have hor := ih _ (List.suffix_refl Level.all) rest (hrest.1.mono (List.subset_cons_self _ _))
    rw [chainTail_of_stops (hrest.1.mono (by simp [Level.all]))] at hor
    rw [assignment_outcome, Level.all, hor]
    cases rest with
    | nil => rfl
    | cons t more => simp [hrest.2 t rfl]
  | operand _ ih =>
    intro tighter hlevels rest hstops
    rw [chain_cons_outcome, ih.operand hlevels hstops, Outcome.bind_done, Outcome.logged_nil]
  | join _ hoperator hnode _ ihleft ihright =>
    intro tighter hlevels rest hstops
    rw [hnode.eq_join, List.append_assoc, List.cons_append,
      ihleft tighter hlevels _ (stops_of_operator hlevels hoperator _), chainTail_cons,
      if_pos hoperator.mem_operators, ihright.operand hlevels hstops, Outcome.bind_done, Outcome.logged_nil]
  | sign hoperator _ ih =>
    intro rest
    rw [List.cons_append, unary_outcome]
    dsimp only
    rw [if_pos hoperator, ih rest]
    rfl
  | unsigned hprimary ih =>
    intro rest
    have hread := ih rest
    obtain ⟨t, more, rfl, ht⟩ := hprimary.primary_head
    exact unary_of_primary ht hread
  | number hk hl | string hk hl =>
    intro rest
    exact primary_of_ofToken (by rw [hk]; rfl) (by simp [Expr.ofToken?, hk, hl])
  | kwTrue hk | kwFalse hk | kwNil hk | name hk =>
    intro rest
    exact primary_of_ofToken (by rw [hk]; rfl) (by simp [Expr.ofToken?, hk])
  | @group left ts right e hleft _ hright ih =>
    intro rest
    have hinner := ih (right :: rest) (endsExpression_cons (.inl hright) rest)
    rw [List.append_assoc, List.cons_append, List.singleton_append, primary_outcome]
    simp [hleft, Token.Kind.isAtom, hinner, hright]

/-- A derived expression is read up to what ends it. -/
theorem Derives.read {endLine : Nat} {ts rest : List Token} {e : Expr}
    (h : Derives .assignment ts e) (hrest : EndsExpression rest) :
    (assignment endLine (ts ++ rest)).outcome = .done e rest [] :=
  h.reads rest hrest

theorem Derives.read_closed {endLine : Nat} {message : String} {ts rest : List Token} {e : Expr}
    {semi : Token} (h : Derives .assignment ts e) (hsemi : semi.kind = .semicolon) :
    closedOutcome endLine message (ts ++ semi :: rest) = .done e rest [] := by
  rw [closedOutcome, h.read (endsExpression_cons (.inr hsemi) rest)]
  simp [hsemi]

/-! ## Statements -/

/-- What comes first, if anything, is no `else` that a statement could take. -/
def EndsStatement (s : Stmt) (rest : List Token) : Prop :=
  s.endsOpen = true → ∀ t ∈ rest.head?, t.kind ≠ .kwElse

theorem statement_if_read {endLine : Nat} {t left right : Token} {cs ts : List Token} {c : Expr}
    (ht : t.kind = .kwIf) (hleft : left.kind = .leftParen) (hc : Derives .assignment cs c)
    (hright : right.kind = .rightParen) :
    (statement endLine (t :: left :: (cs ++ right :: ts))).outcome = branchesOutcome endLine c ts := by
  rw [statement_if_outcome endLine _ ht, Outcome.expect_cons _ hleft, Outcome.bind_done,
    hc.read (endsExpression_cons (.inl hright) ts), Outcome.bind_done,
    Outcome.expect_cons _ hright, Outcome.bind_done]
  simp only [Outcome.logged_nil]

theorem declarationOutcome_of_statement {endLine : Nat} {t : Token} (more : List Token)
    (h : t.kind ≠ .kwVar) :
    declarationOutcome endLine t more = (statement endLine (t :: more)).outcome := by
  rw [declarationOutcome, if_neg h]

/-- What comes first, if anything, is no `else`. -/
def NoElse (rest : List Token) : Prop := ∀ t ∈ rest.head?, t.kind ≠ .kwElse

theorem noElse_nil : NoElse [] := by simp [NoElse]

theorem noElse_cons {t : Token} (h : t.kind ≠ .kwElse) (rest : List Token) : NoElse (t :: rest) := by
  rintro _ ⟨⟩
  exact h

/-- No declaration begins with an `else`, nor does a body that something
else follows. -/
theorem DerivesBody.noElse_append {ts rest : List Token} {ss : List Stmt} (h : DerivesBody ts ss)
    (hrest : NoElse rest) : NoElse (ts ++ rest) := by
  cases h with
  | nil => exact hrest
  | cons hd =>
    obtain ⟨t, more, rfl, ht⟩ := hd.head
    refine noElse_cons (fun hk => ?_) _
    rw [hk] at ht
    cases ht

/-- No declaration begins with what ends a block. -/
theorem DerivesDeclaration.not_rightBrace {t : Token} {more : List Token} {s : Stmt}
    (h : DerivesDeclaration (t :: more) s) (inBlock : Bool) :
    ¬ (inBlock = true ∧ t.kind = .rightBrace) := by
  obtain ⟨u, us, heq, hu⟩ := h.head
  cases heq
  rintro ⟨-, hk⟩
  rw [hk] at hu
  cases hu

mutual

/-- A derived statement is read up to what ends it. -/
theorem DerivesStatement.read (endLine : Nat) : ∀ {ts : List Token} {s : Stmt},
    DerivesStatement ts s → s.elseNearest = true → ∀ {rest : List Token}, EndsStatement s rest →
    (statement endLine (ts ++ rest)).outcome = .done s rest []
  | _, _, .ifThen ht hleft hc hright hs, hnearest, rest, hrest => by
    simp only [Stmt.elseNearest] at hnearest
    have hthen := hs.read endLine hnearest fun _ => hrest rfl
    rw [List.append_assoc, List.cons_append, List.cons_append, List.cons_append,
      statement_if_read ht hleft hc hright, branchesOutcome, hthen]
    cases rest with
    | nil => rfl
    | cons e more => simp [hrest rfl e rfl]
  | _, _, .ifElse ht hleft hc hright hs he hs', hnearest, rest, hrest => by
    simp only [Stmt.elseNearest, Bool.and_eq_true, Bool.not_eq_true'] at hnearest
    obtain ⟨⟨hclosed, hnearest⟩, hnearest'⟩ := hnearest
    have helse := hs'.read endLine hnearest' hrest
    rw [List.append_assoc, List.append_assoc, List.cons_append, List.cons_append, List.cons_append,
      List.cons_append, statement_if_read ht hleft hc hright, branchesOutcome,
      hs.read endLine hnearest fun hopen => absurd hopen (by simp [hclosed])]
    simp [he, helse]
  | _, _, .print ht he hsemi, _, rest, _ => by
    rw [List.append_assoc, List.cons_append, statement_print_outcome _ _ ht,
      List.singleton_append, he.read_closed hsemi]
    rfl
  | _, _, .block hleft hbody hright, hnearest, rest, _ => by
    simp only [Stmt.elseNearest] at hnearest
    rw [List.append_assoc, List.cons_append, statement_block_outcome _ _ hleft,
      List.singleton_append]
    have hread := hbody.read endLine hnearest true (_ :: rest) fun t ht => ⟨rfl, by cases ht; exact hright⟩
    simp only [Body.parts, Prod.mk.injEq] at hread
    rw [hread.1, hread.2.1, hread.2.2]
    simp [hright]
  | _, _, .expression he hsemi, _, rest, _ => by
    rw [List.append_assoc, List.singleton_append, statement_expression_outcome, he.read_closed hsemi]
    · rfl
    · obtain ⟨t, more, rfl, ht⟩ := he.head
      rintro _ ⟨⟩ (hk | hk | hk) <;> rw [hk] at ht <;> cases ht

theorem DerivesDeclaration.read (endLine : Nat) : ∀ {ts : List Token} {s : Stmt},
    DerivesDeclaration ts s → s.elseNearest = true → ∀ {rest : List Token}, EndsStatement s rest →
    ∃ t more, ts = t :: more ∧ declarationOutcome endLine t (more ++ rest) = .done s rest []
  | _, _, .bare ht hname hsemi, _, rest, _ => by
    refine ⟨_, _, rfl, ?_⟩
    rw [declarationOutcome, if_pos ht, variableDeclaration_outcome]
    simp [hname, hsemi]
  | _, _, .initialized ht hname hequals he hsemi, _, rest, _ => by
    refine ⟨_, _, rfl, ?_⟩
    rw [declarationOutcome, if_pos ht, variableDeclaration_outcome]
    simp [hname, hequals, he.read_closed hsemi]
  | _, _, .statement hs, hnearest, rest, hrest => by
    obtain ⟨t, more, rfl, -, hvar⟩ := hs.head
    refine ⟨t, more, rfl, ?_⟩
    rw [declarationOutcome_of_statement _ hvar]
    exact hs.read endLine hnearest hrest

/-- Derived declarations are read up to what ends them: a closing brace in a
block, or nothing. -/
theorem DerivesBody.read (endLine : Nat) : ∀ {ts : List Token} {ss : List Stmt},
    DerivesBody ts ss → Stmt.bodyElseNearest ss = true → ∀ (inBlock : Bool) (rest : List Token),
    (∀ t ∈ rest.head?, inBlock = true ∧ t.kind = .rightBrace) →
    (declarations endLine inBlock (ts ++ rest)).parts = (ss, rest, [])
  | _, _, .nil, _, inBlock, [], _ => declarations_nil_parts endLine inBlock
  | _, _, .nil, _, inBlock, t :: more, hrest => by
    obtain ⟨rfl, ht⟩ := hrest t rfl
    exact declarations_rightBrace_parts endLine more ht
  | _, _, @DerivesBody.cons _ us s _ hd hbody, hnearest, inBlock, rest, hrest => by
    simp only [Stmt.bodyElseNearest, Bool.and_eq_true] at hnearest
    have hnext : NoElse (us ++ rest) := hbody.noElse_append fun t ht => by
      rw [(hrest t ht).2]
      decide
    obtain ⟨t, more, rfl, hread⟩ := hd.read endLine hnearest.1 fun _ => hnext
    rw [List.append_assoc, List.cons_append, declarations_of_done (hd.not_rightBrace inBlock) hread,
      hbody.read endLine hnearest.2 inBlock rest hrest]
    rfl

end

end Grammar

end Lox

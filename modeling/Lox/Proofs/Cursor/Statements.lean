/-
Walks over statements. Each rule for statements follows the reading it stands
for, and keeps the calls that are listed of it (`Marked.statement_makes`,
`Marked.declarations_makes`).

Resuming after a fault looks back at the token before the cursor, where the
readings look at those they have just dropped. The two agree because no
declaration is given up right behind a semicolon.
-/
import Lox.Proofs.Cursor.Tracks
import Lox.Proofs.Recovery.Midway

namespace Lox

namespace Marked

open Grammar Reading

variable {l : Marked} {ts more rest : List Token} {t : Token} {listed : List Call}

/-! ## Resuming after a fault -/

theorem makes_get {α : Type} {f : Cursor → Walk α} {o : Outcome α}
    (h : ∀ c, l.Before ts c → l.Makes (f c) ts o listed) : l.Makes (get >>= f) ts o listed :=
  fun c hc => h c hc c hc

theorem skip_tracks_nil {depth : Nat} (hdepth : 0 < depth) :
    l.Tracks (Walk.skip depth) [] (.done () [] []) := by
  cases depth with
  | zero => omega
  | succ depth =>
    rw [Walk.skip]
    exact tracks_isAtEnd.followed (tracks_pure ())

/-- Behind a token that was dropped. -/
theorem skip_tracks {depth : Nat} (hdepth : more.length < depth) (hsuffix : t :: more <:+ l.body) :
    l.Tracks (Walk.skip depth) more (.done () (skipPast (t :: more)) []) := by
  induction depth generalizing t more with
  | zero => omega
  | succ depth ih =>
    cases more with
    | nil =>
      have hpast : skipPast [t] = [] := by simp [skipPast, skipToBoundary]
      rw [hpast]
      exact skip_tracks_nil hdepth
    | cons u more =>
      rw [Walk.skip]
      refine tracks_isAtEnd.followed ((tracks_previous hsuffix).followed ?_)
      by_cases ht : t.kind = .semicolon
      · simp only [skipPast, ht, if_true]
        exact tracks_pure ()
      simp only [skipPast, ht, if_false]
      refine tracks_peek.followed ?_
      have hnext : l.next (u :: more) = u := rfl
      by_cases hu : u.kind.startsStatement = true
      · simp only [hnext, skipToBoundary, hu, if_true]
        exact tracks_pure ()
      · simp only [hnext, skipToBoundary, hu, if_false, Bool.false_eq_true]
        refine tracks_advance.followed (ih ?_ ((List.suffix_cons t (u :: more)).trans hsuffix))
        rw [List.length_cons] at hdepth
        omega

/-- At the end mark the cursor is not moved. There is a token to look back at
all the same, if only the end mark. -/
theorem exists_advance_nil (l : Marked) : ∃ t, l.Tracks Walk.advance [] (.done t [] []) := by
  have hlt : l.body.length - 1 < l.tokens.length := by
    simp only [tokens, List.length_append, List.length_cons]
    omega
  refine ⟨l.tokens[l.body.length - 1], tracks_isAtEnd.followed (tracks_of fun c hc => ?_)⟩
  have hcurrent : c.current = l.body.length := hc.place
  refine ⟨_, ?_, hc.looked (Nat.sub_le l.body.length 1), (List.append_nil _).symm, rfl⟩
  change (Walk.previous).run.run c = _
  rw [Walk.run_previous, hc.tokens, hcurrent, List.getElem?_eq_getElem hlt]
  rfl

theorem synchronize_tracks {depth start : Nat} (hdepth : rest.length < depth)
    (hts : ts <:+ l.body) (hstart : start + ts.length = l.body.length) (cause : SyntaxCause)
    (hrest : rest = [] ∨ Midway ts rest) :
    l.Tracks (Walk.synchronize depth start (cause != .expectedExpression)) rest
      (.done () (resume ts cause rest) []) := by
  refine makes_get fun c hc => ?_
  have hplace := hc.place
  have hcond : (c.current = start ∨ (cause != .expectedExpression) = false) ↔
      cause = .expectedExpression ∨ rest.length = ts.length := by
    rw [bne_eq_false_iff_eq, or_comm]
    refine or_congr_right ?_
    omega
  by_cases hdrop : cause = .expectedExpression ∨ rest.length = ts.length
  · rw [if_pos (hcond.mpr hdrop), resume, if_pos hdrop]
    cases rest with
    | nil =>
      obtain ⟨t, hadvance⟩ := l.exists_advance_nil
      exact hadvance.followed (skip_tracks_nil hdepth)
    | cons t more =>
      exact tracks_advance.followed (skip_tracks (Nat.lt_of_succ_lt hdepth) hc.suffix)
  · rw [if_neg (mt hcond.mp hdrop), resume, if_neg hdrop]
    rcases hrest with rfl | rfl | ⟨t, ht, hsuffix⟩
    · exact skip_tracks_nil hdepth
    · exact absurd (.inr rfl) hdrop
    · have hskip := skip_tracks hdepth (hsuffix.trans hts)
      rwa [skipPast, if_neg ht] at hskip

/-! ## Statements -/

section Stmt

variable (l : Marked)

theorem closed_tracks {depth : Nat} (message : String) (ts : List Token)
    (hdepth : 16 * ts.length + 10 < depth) :
    l.Tracks (Walk.closed depth message) ts (closedOutcome l.mark.line message ts) :=
  (assignment_tracks l depth ts hdepth).bind_tracks fun _ _ _ _ =>
    (tracks_consume _ _).bind_tracks fun _ _ _ _ => tracks_pure _

theorem variableDeclaration_tracks {depth : Nat} {ts : List Token} (rest : List Token)
    (h : rest <:+ ts) (hdepth : 16 * rest.length + 10 < depth) :
    l.Tracks (Walk.variableDeclaration depth) rest
      (variableDeclaration l.mark.line rest h).outcome := by
  rw [variableDeclaration_outcome]
  refine (tracks_consume _ _).bind_tracks fun name rest' _ hname => ?_
  have hlength := congrArg List.length (Outcome.expect_eq_done.mp hname).1
  have hends : ∀ (ts : List Token) (initializer? : Option Expr), l.Tracks
      (Walk.consume .semicolon "Expect ';' after variable declaration." >>=
        fun _ => pure (Stmt.varDecl name initializer?)) ts
      ((Outcome.expect l.mark.line .semicolon "Expect ';' after variable declaration." ts).bind
        fun _ rest => .done (.varDecl name initializer?) rest []) :=
    fun ts initializer? => (tracks_consume _ _).bind_tracks fun _ _ _ _ => tracks_pure _
  cases rest' with
  | nil => exact Makes.followed (makes_taking_nil (tracks_pure none)) (hends [] none)
  | cons t more =>
    simp only [List.length_cons] at hlength
    by_cases ht : t.kind = .equal
    · have hvalue : l.Tracks (Walk.initializer depth) (t :: more)
          ((assignment l.mark.line more).outcome.bind fun e rest => .done (some e) rest []) :=
        makes_taking_of_mem (by simp [ht]) fun _ =>
          (assignment_tracks l depth more (by omega)).bind_tracks fun _ _ _ _ => tracks_pure _
      have hwhole := hvalue.bind_tracks fun initializer? rest _ _ => hends rest initializer?
      simpa only [if_pos ht, closedOutcome, Outcome.bind_assoc, Outcome.bind_done,
        Outcome.logged_nil] using hwhole
    · simp only [if_neg ht]
      exact Makes.followed (makes_taking_of_not_mem (by simpa using ht) (tracks_pure none))
        (hends (t :: more) none)

theorem tracks_endsBlock {l : Marked} (inBlock : Bool) {ts : List Token} :
    l.Tracks (Walk.endsBlock inBlock) ts
      (.done (inBlock && ts.head?.any fun t => t.kind == .rightBrace) ts []) := by
  cases inBlock with
  | false => exact tracks_pure false
  | true => exact tracks_check .rightBrace

/-- A fault that is found midway is left behind as readings leave it. -/
theorem makes_tryCatch {depth : Nat} {x : Walk (Option Stmt)} {t : Token} {more : List Token}
    {o : Outcome Stmt} (hdepth : (t :: more).length < depth)
    (h : l.Makes x (t :: more) (o.bind fun s rest => .done (some s) rest []) listed)
    (hmidway : FailsMidway (t :: more) o) {c : Cursor} (hc : l.Before (t :: more) c) :
    l.Makes (tryCatch x fun fault => Walk.abandon depth c.current fault)
      (t :: more) (given (t :: more) o) listed := by
  intro c' hc'
  obtain ⟨hlisted, c₁, hrun, hc₁, hlog, hcalls⟩ := h c' hc'
  rw [Walk.run_tryCatch, hrun]
  cases o with
  | done s rest log =>
    rw [Outcome.bind_done] at hc₁ hlog
    refine ⟨hlisted, c₁, rfl, hc₁, ?_, hcalls⟩
    rw [hlog]
    simp [given, Outcome.reported, Outcome.logged]
  | failed fault rest log =>
    have hfails := hmidway fault rest log rfl
    have hle : rest.length ≤ (t :: more).length := by
      rcases hfails with rfl | hrest
      · exact Nat.zero_le _
      · exact hrest.suffix.length_le
    have hskipped := synchronize_tracks (Nat.lt_of_le_of_lt hle hdepth) hc.suffix hc.place
      fault.cause hfails
    have habandoned : l.Tracks (Walk.abandon depth c.current fault) rest
        (.done none (resume (t :: more) fault.cause rest) [.recovering fault]) :=
      (tracks_record _).after (hskipped.followed (tracks_pure none)) rfl
    obtain ⟨-, c₂, hrun₂, hc₂, hlog₂, hcalls₂⟩ := habandoned c₁ hc₁
    refine ⟨hlisted, c₂, hrun₂, hc₂, ?_, ?_⟩
    · rw [hlog₂, hlog]
      simp [given, Outcome.reported]
    · rw [hcalls₂, hcalls, List.map_nil, List.append_nil]

/-- A call is kept behind those made in it, with the places it began and ended
at. -/
theorem makes_kept {w : Nat → Walk (Option Stmt)} {t : Token} {more : List Token}
    (h : ∀ c, l.Before (t :: more) c →
      l.Makes (w c.current) (t :: more) (declaration l.mark.line t more).outcome listed) :
    l.Makes (do
        let start := (← get).current
        let s? ← w start
        Walk.keep start s?
        return s?)
      (t :: more) (declaration l.mark.line t more).outcome (listed ++ [⟨t, more⟩]) := by
  refine makes_get fun c hc c' hc' => ?_
  obtain ⟨hlisted, c₁, hrun, hc₁, hlog, hcalls⟩ := h c hc c' hc'
  -- The reading that is followed tells where the call ends and what it yields.
  have hplaced : l.placed ⟨t, more⟩ =
      ⟨c.current, c₁.current, (declaration l.mark.line t more).statement?⟩ := by
    have hstart := hc.place
    have hfinish : c₁.current + (declaration l.mark.line t more).rest.length = l.body.length :=
      hc₁.place
    rw [placed, Walk.Call.mk.injEq]
    exact ⟨by dsimp only; omega, by dsimp only; omega, rfl⟩
  refine ⟨fun k hk => ?_, { c₁ with calls := c₁.calls ++ [l.placed ⟨t, more⟩] }, ?_,
    ⟨hc₁.tokens, hc₁.suffix, hc₁.place, hc₁.trail⟩, hlog, ?_⟩
  · rcases List.mem_append.mp hk with hk | hk
    · exact hlisted k hk
    · rw [List.mem_singleton.mp hk]
      exact hc.suffix
  · rw [Walk.run_bind, hrun, hplaced]
    rfl
  · rw [hcalls, List.map_append, List.append_assoc]
    rfl

/-- The condition of an `if` makes no calls. What follows it makes those listed,
or is not come to. -/
theorem makes_condition {α : Type} {f : Expr → Walk α} {next : Expr → List Token → Outcome α}
    {depth : Nat} {ts : List Token} (hdepth : 16 * ts.length + 10 < depth)
    (hf : ∀ condition rest log, conditionOutcome l.mark.line ts = .done condition rest log →
      l.Makes (f condition) rest (next condition rest) listed)
    (hfailed : ∀ fault rest log, conditionOutcome l.mark.line ts = .failed fault rest log →
      listed = []) :
    l.Makes (do
        let _ ← Walk.consume .leftParen "Expect '(' after 'if'."
        let condition ← Walk.assignment depth
        let _ ← Walk.consume .rightParen "Expect ')' after if condition."
        f condition) ts ((conditionOutcome l.mark.line ts).bind next) listed := by
  have htracks : l.Tracks (do
      let _ ← Walk.consume .leftParen "Expect '(' after 'if'."
      let condition ← Walk.assignment depth
      let _ ← Walk.consume .rightParen "Expect ')' after if condition."
      return condition) ts (conditionOutcome l.mark.line ts) := by
    refine (tracks_consume _ _).bind_tracks fun _ rest _ hleft => ?_
    have hlength : ts.length = rest.length + 1 :=
      congrArg List.length (Outcome.expect_eq_done.mp hleft).1
    refine (assignment_tracks l depth rest (by omega)).bind_tracks fun condition rest _ _ => ?_
    exact (tracks_consume _ _).bind_tracks fun _ _ _ _ => tracks_pure condition
  simpa only [bind_assoc, pure_bind, List.nil_append] using htracks.bind hf hfailed

/-- The branches of an `if` make the calls of the statements they are; where the
first one fails, no calls are listed of what would follow, as there is nothing
there to read. -/
theorem branches_makes {depth : Nat} (condition : Expr) (branch : List Token)
    (h : ∀ ts, ts.length ≤ branch.length → l.Makes (Walk.statement depth) ts
      (statement l.mark.line ts).outcome (statementCalls l.mark.line ts)) :
    l.Makes (do
        let thenBranch ← Walk.statement depth
        if ← Walk.taking [.kwElse] then
          return .ifElse condition thenBranch (← Walk.statement depth)
        else return .ifThen condition thenBranch) branch
      (branchesOutcome l.mark.line condition branch)
      (statementCalls l.mark.line branch ++
        statementCalls l.mark.line (afterElse (statement l.mark.line branch).outcome)) := by
  rw [branchesOutcome]
  refine (h branch (Nat.le_refl _)).bind (fun thenBranch rest log hthen => ?_)
    fun _ _ _ hfailed => ?_
  · have hlt := (after_of_outcome hthen).length_lt
    rw [hthen]
    cases rest with
    | nil =>
      have hnone : afterElse (.done thenBranch [] log) = [] := rfl
      rw [hnone, statementCalls_nil]
      exact makes_taking_nil (tracks_pure _)
    | cons e more =>
      rw [List.length_cons] at hlt
      rw [afterElse]
      by_cases he : e.kind = .kwElse
      · simp only [if_pos he]
        refine makes_taking_of_mem (by simp [he]) fun _ => ?_
        exact (h more (by omega)).bind_tracks fun _ _ _ _ => tracks_pure _
      · simp only [if_neg he, statementCalls_nil]
        exact makes_taking_of_not_mem (by simpa using he) (tracks_pure _)
  · rw [hfailed]
    exact statementCalls_nil

mutual

theorem statement_makes (depth : Nat) (ts : List Token) (hdepth : 16 * ts.length + 11 < depth) :
    l.Makes (Walk.statement depth) ts (statement l.mark.line ts).outcome
      (statementCalls l.mark.line ts) := by
  cases depth with
  | zero => omega
  | succ depth =>
  rw [Walk.statement]
  cases ts with
  | nil =>
    rw [statement_expression_outcome _ (by simp), statementCalls_nil]
    refine makes_taking_nil (makes_taking_nil (makes_taking_nil ?_))
    exact (closed_tracks l _ [] (by omega)).bind_tracks fun _ _ _ _ => tracks_pure _
  | cons t more =>
    have hlength : (t :: more).length = more.length + 1 := rfl
    rw [statementCalls]
    by_cases hif : t.kind = .kwIf
    · rw [statement_if_condition more hif, if_pos hif]
      refine makes_taking_of_mem (by simp [hif]) fun _ => ?_
      refine makes_condition l (by omega) (fun condition branch _ hcondition => ?_)
        fun _ _ _ hfailed => ?_
      · have hafter : afterCondition l.mark.line more = branch := by
          rw [afterCondition, hcondition]
        have hle := length_afterCondition_le l.mark.line more
        rw [hafter] at hle ⊢
        exact branches_makes l condition branch fun ts hts => statement_makes depth ts (by omega)
      · have hafter : afterCondition l.mark.line more = [] := by rw [afterCondition, hfailed]
        dsimp only
        rw [hafter, afterElse_statement_nil, statementCalls_nil, List.append_nil]
    rw [if_neg hif]
    refine makes_taking_of_not_mem (by simpa using hif) ?_
    by_cases hprint : t.kind = .kwPrint
    · rw [statement_print_outcome _ more hprint, if_neg (by simp [hprint])]
      refine makes_taking_of_mem (by simp [hprint]) fun _ => ?_
      exact (closed_tracks l _ more (by omega)).bind_tracks fun _ _ _ _ => tracks_pure _
    refine makes_taking_of_not_mem (by simpa using hprint) ?_
    by_cases hbrace : t.kind = .leftBrace
    · rw [statement_body_outcome _ more hbrace, if_pos hbrace]
      refine makes_taking_of_mem (by simp [hbrace]) fun _ => ?_
      refine (declarations_makes depth true more (by omega)).bind_tracks fun ss rest _ _ => ?_
      exact (tracks_consume _ _).bind_tracks fun _ _ _ _ => tracks_pure _
    · rw [statement_expression_outcome _ (by simp [leadsStatement, hif, hprint, hbrace]),
        if_neg hbrace]
      refine makes_taking_of_not_mem (by simpa using hbrace) ?_
      exact (closed_tracks l _ (t :: more) (by omega)).bind_tracks fun _ _ _ _ => tracks_pure _

/-- The call itself is kept last. -/
theorem declaration_makes (depth : Nat) (t : Token) (more : List Token)
    (hdepth : 16 * (t :: more).length + 12 < depth) :
    l.Makes (Walk.declaration depth) (t :: more) (declaration l.mark.line t more).outcome
      (declarationCalls l.mark.line t more) := by
  cases depth with
  | zero => omega
  | succ depth =>
    rw [Walk.declaration, declarationCalls]
    refine makes_kept l (w := fun start => tryCatch _ (Walk.abandon depth start)) fun c hc => ?_
    rw [declaration_outcome]
    refine makes_tryCatch l (by omega) ?_ (declaration_midway _ t more) hc
    rw [declarationOutcome]
    by_cases hvar : t.kind = .kwVar
    · have hlength : (t :: more).length = more.length + 1 := rfl
      rw [if_pos hvar, if_pos hvar]
      refine makes_taking_of_mem (by simp [hvar]) fun _ => ?_
      exact (variableDeclaration_tracks l more _ (by omega)).bind_tracks
        fun _ _ _ _ => tracks_pure _
    · rw [if_neg hvar, if_neg hvar]
      refine makes_taking_of_not_mem (by simpa using hvar) ?_
      exact (statement_makes depth (t :: more) (by omega)).bind_tracks fun _ _ _ _ => tracks_pure _

theorem declarations_makes (depth : Nat) (inBlock : Bool) (ts : List Token)
    (hdepth : 16 * ts.length + 13 < depth) :
    l.Makes (Walk.declarations depth inBlock) ts (declarations l.mark.line inBlock ts).outcome
      (declarationsCalls l.mark.line inBlock ts) := by
  cases depth with
  | zero => omega
  | succ depth =>
  rw [Walk.declarations]
  refine (tracks_endsBlock inBlock).followed ?_
  cases ts with
  | nil =>
    rw [declarations_nil_outcome, declarationsCalls, List.head?_nil, Option.any_none,
      Bool.and_false, if_neg Bool.false_ne_true]
    exact tracks_isAtEnd.followed (tracks_pure [])
  | cons t more =>
    rw [declarationsCalls, List.head?_cons, Option.any_some]
    by_cases hend : inBlock = true ∧ t.kind = .rightBrace
    · rw [declarations_rightBrace_outcome _ more hend, if_pos hend, if_pos (by simpa using hend)]
      exact tracks_pure []
    · rw [declarations_cons_outcome _ more hend, if_neg hend, if_neg (by simpa using hend)]
      refine tracks_isAtEnd.followed ?_
      refine (declaration_makes depth t more (by omega)).bind (fun s? rest log hfirst => ?_)
        fun _ _ _ hfailed => nomatch hfailed
      rw [Declared.outcome, Outcome.done.injEq] at hfirst
      obtain ⟨-, rfl, -⟩ := hfirst
      have hlt := (declaration l.mark.line t more).after.length_lt
      exact (declarations_makes depth inBlock _ (by omega)).bind_tracks fun _ _ _ _ => tracks_pure _

end

end Stmt

end Marked

end Lox

/-
What a forgotten semicolon costs.

Before `var`, `if` or `print` it costs the statement it should have closed
and nothing else (`missing_semicolon_before_keyword`), at the top and in a
block.

Before the brace that closes a block it costs the brace too: reading resumes
behind it, inside the block, and what follows the block is taken for more of
it. Unless that begins with a brace, the block is never closed; this is
reported as a second fault, at the end of the program, and all of the program
from the block on is lost (`missing_semicolon_before_brace`).
-/
import Lox.Proofs.Recovery.Unclosed
import Lox.Source.Scan

namespace Lox

/-- The kinds that are no boundary between statements. -/
def Token.Kind.isInner (kind : Token.Kind) : Bool := !kind.startsStatement && kind != .semicolon

theorem Level.isInner_of_mem_operators (level : Level) :
    ∀ kind ∈ level.operators, kind.isInner = true := by
  cases level <;> decide

namespace Grammar

/-! ## Blocks -/

/-- Declarations are read to the end, or in a block up to a closing brace. -/
theorem declarations_rest {endLine : Nat} {inBlock : Bool} : ∀ ts : List Token,
    ∀ t ∈ (declarations endLine inBlock ts).rest.head?, inBlock = true ∧ t.kind = .rightBrace
  | [] => by
    have hparts := declarations_nil_parts endLine inBlock
    simp only [Body.parts, Prod.mk.injEq] at hparts
    simp [hparts.2.1]
  | t :: more => by
    by_cases hend : inBlock = true ∧ t.kind = .rightBrace
    · obtain ⟨rfl, ht⟩ := hend
      have hparts := declarations_rightBrace_parts endLine more ht
      simp only [Body.parts, Prod.mk.injEq] at hparts
      simpa [hparts.2.1] using ht
    · have hparts := declarations_cons_parts endLine more hend
      simp only [Body.parts, Prod.mk.injEq] at hparts
      have hlt := (declaration endLine t more).after.length_lt
      rw [hparts.2.1]
      exact declarations_rest (declaration endLine t more).rest
termination_by ts => ts.length
decreasing_by exact hlt

/-- A block that is closed is one statement. -/
theorem declarations_block_closed {endLine : Nat} {inBlock : Bool} {left right : Token}
    {ts more : List Token} {ss : List Stmt} {log : List Record} (hleft : left.kind = .leftBrace)
    (hright : right.kind = .rightBrace)
    (h : (declarations endLine true ts).parts = (ss, right :: more, log)) :
    (declarations endLine inBlock (left :: ts)).parts =
      preceded [.block ss] log (declarations endLine inBlock more).parts := by
  simp only [Body.parts, Prod.mk.injEq] at h
  refine declarations_of_done (by simp [hleft]) ?_
  rw [declarationOutcome_of_statement _ (by simp [hleft]), statement_block_outcome _ _ hleft,
    h.1, h.2.1, h.2.2, Outcome.expect_cons _ hright]
  simp [Outcome.logged]

/-- The fault that a block is still open at the end of the program. -/
def openBlock (endLine : Nat) : SyntaxFault :=
  faultAt endLine [] (.expected "Expect '\x7d' after block.")

/-- A block that is never closed is given up at the end. -/
theorem declarations_block_open {endLine : Nat} {inBlock : Bool} {left : Token} {ts : List Token}
    {ss : List Stmt} {log : List Record} (hleft : left.kind = .leftBrace)
    (h : (declarations endLine true ts).parts = (ss, [], log)) :
    (declarations endLine inBlock (left :: ts)).parts =
      ([], [], log ++ [.reported (openBlock endLine).diagnostic, .recovering (openBlock endLine)]) := by
  simp only [Body.parts, Prod.mk.injEq] at h
  have hfailed : declarationOutcome endLine left ts = .failed (openBlock endLine) [] log := by
    rw [declarationOutcome_of_statement _ (by simp [hleft]), statement_block_outcome _ _ hleft,
      h.2.1, h.2.2]
    simp [Outcome.expect, Outcome.logged, openBlock]
  have hresume : resume (left :: ts) (openBlock endLine).cause [] = [] :=
    resume_expected _ (by simp)
  rw [declarations_of_failed (by simp [hleft]) hfailed, hresume, declarations_nil_parts]
  simp [preceded]

/-- Two insides that differ in what they log make blocks that do. -/
theorem declarations_block_congr {endLine : Nat} {inBlock : Bool} {left : Token}
    {ts us : List Token} {log : List Record} (hleft : left.kind = .leftBrace)
    (h : (declarations endLine true ts).parts = preceded [] log (declarations endLine true us).parts) :
    (declarations endLine inBlock (left :: ts)).parts =
      preceded [] log (declarations endLine inBlock (left :: us)).parts := by
  have hus : (declarations endLine true us).parts = ((declarations endLine true us).statements,
    (declarations endLine true us).rest, (declarations endLine true us).log) := rfl
  cases hrest : (declarations endLine true us).rest with
  | nil =>
    rw [hrest] at hus
    rw [hus] at h
    rw [declarations_block_open hleft h, declarations_block_open hleft hus]
    simp [preceded]
  | cons right more =>
    have hright : right.kind = .rightBrace := (declarations_rest us right (by rw [hrest]; rfl)).2
    rw [hrest] at hus
    rw [hus] at h
    rw [declarations_block_closed hleft hright h, declarations_block_closed hleft hright hus]
    simp

/-! ## Boundaries in what is derived -/

theorem skipToBoundary_of_starts {t : Token} (h : t.kind.startsStatement = true)
    (rest : List Token) : skipToBoundary (t :: rest) = t :: rest := by
  rw [skipToBoundary, if_pos h]

theorem skipToBoundary_of_isInner {t : Token} (h : t.kind.isInner = true) (rest : List Token) :
    skipToBoundary (t :: rest) = skipToBoundary rest := by
  simp only [Token.Kind.isInner, Bool.and_eq_true, Bool.not_eq_true', bne_iff_ne] at h
  rw [skipToBoundary, if_neg (by simp [h.1]), if_neg h.2]

/-- Where no statement begins before a semicolon, that is the boundary. -/
theorem skipToBoundary_append {us : List Token} {semi : Token}
    (h : ∀ t ∈ us, t.kind.isInner = true) (hsemi : semi.kind = .semicolon) (rest : List Token) :
    skipToBoundary (us ++ semi :: rest) = rest := by
  induction us with
  | nil => simp [skipToBoundary, hsemi, Token.Kind.startsStatement]
  | cons t us ih =>
    rw [List.cons_append, skipToBoundary_of_isInner (h t List.mem_cons_self)]
    exact ih fun u hu => h u (List.mem_cons_of_mem t hu)

/-- No statement begins or ends within an expression. -/
theorem Derives.isInner {rule : Rule} {ts : List Token} {e : Expr} (h : Derives rule ts e) :
    ∀ t ∈ ts, t.kind.isInner = true := by
  induction h with
  | assign hname hequals _ ih =>
    simp only [List.forall_mem_cons]
    exact ⟨by rw [hname]; rfl, by rw [hequals]; rfl, ih⟩
  | unassigned _ ih | operand _ ih | unsigned _ ih => exact ih
  | @join level _ _ _ _ _ _ _ hoperator _ _ ihleft ihright =>
    simp only [List.forall_mem_append, List.forall_mem_cons]
    exact ⟨ihleft, level.isInner_of_mem_operators _ hoperator.mem_operators, ihright⟩
  | sign hoperator _ ih =>
    simp only [List.forall_mem_cons]
    exact ⟨by rcases hoperator with h | h <;> rw [h] <;> rfl, ih⟩
  | number hk | string hk | kwTrue hk | kwFalse hk | kwNil hk | name hk =>
    rw [List.forall_mem_singleton, hk]
    rfl
  | group hleft _ hright ih =>
    rw [List.forall_mem_append, List.forall_mem_cons, List.forall_mem_singleton]
    exact ⟨⟨by rw [hleft]; rfl, ih⟩, by rw [hright]; rfl⟩

mutual

theorem DerivesStatement.noElse_skipToBoundary : ∀ {ts : List Token} {s : Stmt},
    DerivesStatement ts s → ∀ rest, NoElse rest → NoElse (skipToBoundary rest) →
    NoElse (skipToBoundary (ts ++ rest))
  | _, _, .ifThen ht _ _ _ _, _, _, _ | _, _, .ifElse ht _ _ _ _ _ _, _, _, _
  | _, _, .print ht _ _, _, _, _ => by
    simp only [List.cons_append]
    rw [skipToBoundary_of_starts (by rw [ht]; rfl)]
    exact noElse_cons (by rw [ht]; decide) _
  | _, _, @DerivesStatement.block left ts right _ hleft hbody hright, rest, _, hskip => by
    have hinside : NoElse (skipToBoundary (ts ++ right :: rest)) :=
      hbody.noElse_skipToBoundary _ (noElse_cons (by rw [hright]; decide) rest)
        (by rwa [skipToBoundary_of_isInner (by rw [hright]; rfl)])
    rw [List.append_assoc, List.cons_append, skipToBoundary_of_isInner (by rw [hleft]; rfl)]
    exact hinside
  | _, _, .expression he hsemi, _, hrest, _ => by
    rw [List.append_assoc, List.singleton_append, skipToBoundary_append he.isInner hsemi]
    exact hrest

theorem DerivesDeclaration.noElse_skipToBoundary : ∀ {ts : List Token} {s : Stmt},
    DerivesDeclaration ts s → ∀ rest, NoElse rest → NoElse (skipToBoundary rest) →
    NoElse (skipToBoundary (ts ++ rest))
  | _, _, .bare ht _ _, _, _, _ | _, _, .initialized ht _ _ _ _, _, _, _ => by
    simp only [List.cons_append]
    rw [skipToBoundary_of_starts (by rw [ht]; rfl)]
    exact noElse_cons (by rw [ht]; decide) _
  | _, _, .statement hs, rest, hrest, hskip => hs.noElse_skipToBoundary rest hrest hskip

/-- The boundary that skipping stops at is never an `else`: an `if` comes
before it and is itself a boundary. -/
theorem DerivesBody.noElse_skipToBoundary : ∀ {ts : List Token} {ss : List Stmt},
    DerivesBody ts ss → ∀ rest, NoElse rest → NoElse (skipToBoundary rest) →
    NoElse (skipToBoundary (ts ++ rest))
  | _, _, .nil, _, _, hskip => hskip
  | _, _, .cons hd hbody, rest, hrest, hskip => by
    rw [List.append_assoc]
    exact hd.noElse_skipToBoundary _ (hbody.noElse_append hrest)
      (hbody.noElse_skipToBoundary rest hrest hskip)

end

/-- From its first boundary on a body is a body, unless it begins with a
block, whose inside may hold the boundary. -/
theorem DerivesBody.skipped {ts : List Token} {ss : List Stmt} (h : DerivesBody ts ss)
    (hnearest : Stmt.bodyElseNearest ss = true) (hhead : ∀ t ∈ ts.head?, t.kind ≠ .leftBrace) :
    ∃ rs, DerivesBody (skipToBoundary ts) rs ∧ Stmt.bodyElseNearest rs = true := by
  have hstarts : ∀ {t : Token} {more : List Token}, ts = t :: more → t.kind.startsStatement = true →
      ∃ rs, DerivesBody (skipToBoundary ts) rs ∧ Stmt.bodyElseNearest rs = true := by
    intro t more hts ht
    rw [hts, skipToBoundary_of_starts ht, ← hts]
    exact ⟨ss, h, hnearest⟩
  cases h with
  | nil => exact ⟨[], .nil, rfl⟩
  | cons hd hbody =>
    cases hd with
    | bare ht | initialized ht => exact hstarts rfl (by rw [ht]; rfl)
    | statement hs =>
      cases hs with
      | ifThen ht | ifElse ht | print ht => exact hstarts rfl (by rw [ht]; rfl)
      | block hleft => exact absurd hleft (hhead _ rfl)
      | expression he hsemi =>
        simp only [Stmt.bodyElseNearest, Bool.and_eq_true] at hnearest
        rw [List.append_assoc, List.singleton_append, skipToBoundary_append he.isInner hsemi]
        exact ⟨_, hbody, hnearest.2⟩

end Grammar

namespace Program

open Grammar

/-! ## Programs with a gap -/

/-- Tokens without an end mark that are read without a report. -/
structure Clean (ts : List Token) : Prop where
  unmarked : ∀ t ∈ ts, t.kind ≠ .eof
  silent : (ofTokens ts).diagnostics = []

theorem Clean.derives {ts : List Token} (h : Clean ts) :
    DerivesBody ts (ofTokens ts).statements ∧ Stmt.bodyElseNearest (ofTokens ts).statements = true := by
  have hderives := derives_of_clean h.silent
  rwa [significant_eq_self h.unmarked] at hderives

/-- Of one statement alone the tokens are those of a declaration. -/
theorem Clean.declaration {ts : List Token} {s : Stmt} (h : Clean ts)
    (hone : (ofTokens ts).statements = [s]) : DerivesDeclaration ts s ∧ s.elseNearest = true := by
  obtain ⟨hbody, hnearest⟩ := h.derives
  rw [hone] at hbody hnearest
  refine ⟨?_, by simpa [Stmt.bodyElseNearest] using hnearest⟩
  cases hbody with
  | cons hd hnil =>
    cases hnil
    rwa [List.append_nil]

section Gap

variable {before broken after : List Token} {semi first : Token} {s : Stmt}
  (hbefore : Clean before) (hs : Clean (broken ++ [semi]))
  (hone : (ofTokens (broken ++ [semi])).statements = [s]) (hsemi : semi.kind = .semicolon)
  (hafter : Clean (first :: after))

include hs in
theorem Clean.unmarked_broken : ∀ t ∈ broken, t.kind ≠ .eof :=
  fun t ht => hs.unmarked t (List.mem_append_left [semi] ht)

include hbefore hs hone hsemi hafter

/-- The gap between two runs, wherever they stand: it ends at the first
token of the second, which is kept. -/
theorem Clean.declarations_gap (hfirst : first.kind.startsStatement = true) (endLine : Nat)
    (inBlock : Bool) (rest : List Token)
    (hrest : ∀ t ∈ rest.head?, inBlock = true ∧ t.kind = .rightBrace) :
    (declarations endLine inBlock (before ++ broken ++ first :: after ++ rest)).parts =
      ((ofTokens before).statements ++ (ofTokens (first :: after)).statements, rest,
        [.reported (s.unclosedAt first).diagnostic, .recovering (s.unclosedAt first)]) := by
  obtain ⟨hbody, hbodyNearest⟩ := hbefore.derives
  obtain ⟨hd, hnearest⟩ := hs.declaration hone
  obtain ⟨hbody', hbodyNearest'⟩ := hafter.derives
  have hread := hbody'.read endLine hbodyNearest' inBlock rest hrest
  have hinterrupts : first.kind.interrupts = true := by
    rw [Token.Kind.interrupts, hfirst, Bool.true_or]
  rw [List.append_assoc, List.append_assoc, List.cons_append,
    hbody.declarations_unclosed endLine inBlock _ hinterrupts hbodyNearest hd hnearest hsemi,
    skipToBoundary_of_starts hfirst, ← List.cons_append, hread]
  simp [preceded]

/-- **A forgotten semicolon before a keyword costs one statement.** Let the
declaration `s` stand without its semicolon between two clean runs of
declarations, the second beginning with `var`, `if` or `print`. Then there is
one report, at the first token of the second run, and the statements are
those of the two runs. In a block of them it is the same. -/
theorem missing_semicolon_before_keyword
    (hfirst : first.kind = .kwVar ∨ first.kind = .kwIf ∨ first.kind = .kwPrint)
    {ending : List Token} (hending : Ending ending) :
    ((ofTokens (before ++ broken ++ first :: after ++ ending)).statements =
        (ofTokens before).statements ++ (ofTokens (first :: after)).statements ∧
      (ofTokens (before ++ broken ++ first :: after ++ ending)).diagnostics =
        [(s.unclosedAt first).diagnostic]) ∧
    ∀ left right : Token, left.kind = .leftBrace → right.kind = .rightBrace →
      (ofTokens (left :: (before ++ broken ++ first :: after ++ [right]) ++ ending)).statements =
          [.block ((ofTokens before).statements ++ (ofTokens (first :: after)).statements)] ∧
        (ofTokens (left :: (before ++ broken ++ first :: after ++ [right]) ++ ending)).diagnostics =
          [(s.unclosedAt first).diagnostic] := by
  have hstarts : first.kind.startsStatement = true := by
    rcases hfirst with h | h | h <;> rw [h] <;> rfl
  have hunmarked : ∀ t ∈ before ++ broken ++ first :: after, t.kind ≠ .eof := by
    rw [List.forall_mem_append, List.forall_mem_append]
    exact ⟨⟨hbefore.unmarked, hs.unmarked_broken⟩, hafter.unmarked⟩
  have hgap := hbefore.declarations_gap hs hone hsemi hafter hstarts
  constructor
  · have hread := hgap (endLine (before ++ broken ++ first :: after ++ ending)) false [] (by simp)
    rw [List.append_nil] at hread
    have hprogram := ofTokens_append hunmarked hending
    rw [hread] at hprogram
    exact hprogram
  · intro left right hleft hright
    have hmarked : ∀ t ∈ left :: (before ++ broken ++ first :: after ++ [right]), t.kind ≠ .eof := by
      rw [List.forall_mem_cons, List.forall_mem_append, List.forall_mem_singleton]
      exact ⟨by rw [hleft]; decide, hunmarked, by rw [hright]; decide⟩
    have hprogram := ofTokens_append hmarked hending
    rw [declarations_block_closed hleft hright (hgap _ true [right] (by simpa using hright)),
      declarations_nil_parts] at hprogram
    exact hprogram

end Gap

/-- A statement with an `else`, its last semicolon left out. -/
def openBranch : List Token := (Scan.ofSource "if (a) print a; else a = nil").body

/-- The tree it has with its semicolon. -/
def openBranchTree : Stmt :=
  let a : Token := ⟨.identifier, "a", none, 1⟩
  .ifElse (.var a) (.print (.var a)) (.expression (.assign a (.literal .nil)))

theorem missing_semicolon_before_print :
    let before := (Scan.ofSource "var a;").body
    let semi : Token := ⟨.semicolon, ";", none, 1⟩
    let first : Token := ⟨.kwPrint, "print", none, 2⟩
    let after := (Scan.ofSource "a; var b;").body
    Clean before ∧ Clean (openBranch ++ [semi]) ∧ Clean (first :: after) ∧
      (ofTokens (openBranch ++ [semi])).statements = [openBranchTree] ∧
      (ofTokens (before ++ openBranch ++ first :: after ++ [.eof 2])).statements =
        (ofTokens before).statements ++ (ofTokens (first :: after)).statements ∧
      (ofTokens (before ++ openBranch ++ first :: after ++ [.eof 2])).diagnostics =
        [⟨2, .atLexeme "print", "Expect ';' after expression."⟩] := by
  intro before semi first after
  have hbefore : Clean before := ⟨by decide +kernel, by decide +kernel⟩
  have hs : Clean (openBranch ++ [semi]) := ⟨by decide +kernel, by decide +kernel⟩
  have hafter : Clean (first :: after) := ⟨by decide +kernel, by decide +kernel⟩
  have hone : (ofTokens (openBranch ++ [semi])).statements = [openBranchTree] := by decide +kernel
  exact ⟨hbefore, hs, hafter, hone,
    (missing_semicolon_before_keyword hbefore hs hone rfl hafter (.inr (.inr rfl)) (ending_eof 2)).1⟩

section Brace

variable {before inside broken after : List Token} {left semi right : Token} {s : Stmt}
  (hbefore : Clean before) (hinside : Clean inside) (hs : Clean (broken ++ [semi]))
  (hone : (ofTokens (broken ++ [semi])).statements = [s]) (hsemi : semi.kind = .semicolon)
  (hafter : Clean after) (hleft : left.kind = .leftBrace) (hright : right.kind = .rightBrace)

include hinside hs hone hsemi hright in
/-- The gap at the end of a block takes the closing brace with it. -/
theorem Clean.declarations_brace_gap (endLine : Nat) (after : List Token) :
    (declarations endLine true (inside ++ broken ++ right :: after)).parts =
      preceded (ofTokens inside).statements
        [.reported (s.unclosedAt right).diagnostic, .recovering (s.unclosedAt right)]
        (declarations endLine true (skipToBoundary after)).parts := by
  obtain ⟨hbody, hbodyNearest⟩ := hinside.derives
  obtain ⟨hd, hnearest⟩ := hs.declaration hone
  rw [List.append_assoc,
    hbody.declarations_unclosed endLine true _ (by rw [hright]; rfl) hbodyNearest hd hnearest hsemi,
    skipToBoundary_of_isInner (by rw [hright]; rfl)]

include hbefore hleft in
theorem Clean.declarations_before_block (endLine : Nat) (ts : List Token) :
    (declarations endLine false (before ++ left :: ts)).parts =
      preceded (ofTokens before).statements [] (declarations endLine false (left :: ts)).parts := by
  obtain ⟨hbody, hbodyNearest⟩ := hbefore.derives
  exact hbody.declarations_append endLine false (noElse_cons (by rw [hleft]; decide) ts) hbodyNearest

include hbefore hinside hs hone hsemi hafter hleft hright

/-- **A forgotten semicolon before a closing brace costs the brace.** Let the
declaration `s` stand without its semicolon at the end of a block, all else
being clean. It is reported at the brace, and the program is read on as one
in which the block goes on with what follows it, from the first boundary on,
without that brace. If what follows does not begin with a brace, the block is
never closed: there is a second report, at the end, and of the statements
only those before the block are left. -/
theorem missing_semicolon_before_brace {ending : List Token} (hending : Ending ending) :
    let tokens := before ++ left :: (inside ++ broken ++ right :: after) ++ ending
    let kept := before ++ left :: (inside ++ skipToBoundary after) ++ [.eof (endLine tokens)]
    ((ofTokens tokens).statements = (ofTokens kept).statements ∧
      (ofTokens tokens).diagnostics =
        (s.unclosedAt right).diagnostic :: (ofTokens kept).diagnostics) ∧
    ((∀ t ∈ after.head?, t.kind ≠ .leftBrace) →
      (ofTokens tokens).statements = (ofTokens before).statements ∧
        (ofTokens tokens).diagnostics =
          [(s.unclosedAt right).diagnostic, (openBlock (endLine tokens)).diagnostic]) := by
  intro tokens kept
  obtain ⟨hbody, hbodyNearest⟩ := hafter.derives
  have hgap := hinside.declarations_brace_gap hs hone hsemi hright (endLine tokens) after
  have hunmarked : ∀ t ∈ before ++ left :: (inside ++ broken ++ right :: after), t.kind ≠ .eof := by
    simp only [List.forall_mem_append, List.forall_mem_cons]
    exact ⟨hbefore.unmarked, by rw [hleft]; decide, ⟨hinside.unmarked, hs.unmarked_broken⟩,
      by rw [hright]; decide, hafter.unmarked⟩
  have hprogram := ofTokens_append hunmarked hending
  rw [hbefore.declarations_before_block hleft] at hprogram
  constructor
  · have hnoElse : NoElse (skipToBoundary after) := by
      have hskip := hbody.noElse_skipToBoundary [] noElse_nil noElse_nil
      rwa [List.append_nil] at hskip
    have hkeptUnmarked : ∀ t ∈ before ++ left :: (inside ++ skipToBoundary after), t.kind ≠ .eof := by
      simp only [List.forall_mem_append, List.forall_mem_cons]
      exact ⟨hbefore.unmarked, by rw [hleft]; decide, hinside.unmarked,
        fun t ht => hafter.unmarked t ((skipToBoundary_suffix after).subset ht)⟩
    have hkept := ofTokens_append hkeptUnmarked (ending_eof (endLine tokens))
    rw [endLine_append_eof hkeptUnmarked, hbefore.declarations_before_block hleft] at hkept
    have hinner : (declarations (endLine tokens) true (inside ++ broken ++ right :: after)).parts =
        preceded [] [.reported (s.unclosedAt right).diagnostic, .recovering (s.unclosedAt right)]
          (declarations (endLine tokens) true (inside ++ skipToBoundary after)).parts := by
      rw [hgap, hinside.derives.1.declarations_append _ true hnoElse hinside.derives.2,
        preceded_preceded]
      rfl
    rw [declarations_block_congr hleft hinner, preceded_preceded, List.append_nil] at hprogram
    exact ⟨hprogram.1.trans hkept.1.symm, hprogram.2.trans (by rw [hkept.2]; rfl)⟩
  · intro hhead
    obtain ⟨rs, hrs, hrsNearest⟩ := hbody.skipped hbodyNearest hhead
    have hread := hrs.read (endLine tokens) hrsNearest true [] (by simp)
    rw [List.append_nil] at hread
    rw [hread] at hgap
    rw [declarations_block_open hleft hgap] at hprogram
    exact ⟨hprogram.1.trans (List.append_nil _), hprogram.2⟩

end Brace

theorem missing_semicolon_before_brace_of_branch :
    let before := (Scan.ofSource "var a;").body
    let left : Token := ⟨.leftBrace, "\x7b", none, 1⟩
    let inside := (Scan.ofSource "print a;").body
    let semi : Token := ⟨.semicolon, ";", none, 1⟩
    let right : Token := ⟨.rightBrace, "\x7d", none, 1⟩
    let after := (Scan.ofSource "a = nil; print a;").body
    let tokens := before ++ left :: (inside ++ openBranch ++ right :: after) ++ [.eof 2]
    Clean before ∧ Clean inside ∧ Clean (openBranch ++ [semi]) ∧ Clean after ∧
      (ofTokens (openBranch ++ [semi])).statements = [openBranchTree] ∧
      (ofTokens tokens).statements = (ofTokens before).statements ∧
      (ofTokens tokens).diagnostics =
        [⟨1, .atLexeme "\x7d", "Expect ';' after expression."⟩,
          ⟨2, .atEnd, "Expect '\x7d' after block."⟩] := by
  intro before left inside semi right after tokens
  have hbefore : Clean before := ⟨by decide +kernel, by decide +kernel⟩
  have hinside : Clean inside := ⟨by decide +kernel, by decide +kernel⟩
  have hs : Clean (openBranch ++ [semi]) := ⟨by decide +kernel, by decide +kernel⟩
  have hafter : Clean after := ⟨by decide +kernel, by decide +kernel⟩
  have hone : (ofTokens (openBranch ++ [semi])).statements = [openBranchTree] := by decide +kernel
  have hline : endLine tokens = 2 := by decide +kernel
  have hleft : left.kind = .leftBrace := rfl
  have hright : right.kind = .rightBrace := rfl
  obtain ⟨hstatements, hdiagnostics⟩ := (missing_semicolon_before_brace hbefore hinside hs hone rfl
    hafter hleft hright (ending_eof 2)).2 (by decide +kernel)
  refine ⟨hbefore, hinside, hs, hafter, hone, hstatements, ?_⟩
  rw [hline] at hdiagnostics
  exact hdiagnostics

/-- A block whose only statement lacks its semicolon, with a statement after
it: all three are clean apart from the gap, yet there are two reports, and
the statement after the block is not read. -/
theorem brace_lost_after_print :
    let left : Token := ⟨.leftBrace, "\x7b", none, 1⟩
    let broken := (Scan.ofSource "print a").body
    let semi : Token := ⟨.semicolon, ";", none, 1⟩
    let right : Token := ⟨.rightBrace, "\x7d", none, 1⟩
    let after := (Scan.ofSource "print b;").body
    let tokens := left :: (broken ++ right :: after)
    Clean [] ∧ Clean (broken ++ [semi]) ∧ (ofTokens (broken ++ [semi])).statements.length = 1 ∧
      Clean after ∧ (ofTokens tokens).diagnostics.length = 2 ∧
      ¬ (ofTokens after).statements <:+ (ofTokens tokens).statements := by
  intro left broken semi right after tokens
  refine ⟨⟨by decide +kernel, by decide +kernel⟩, ⟨by decide +kernel, by decide +kernel⟩,
    by decide +kernel, ⟨by decide +kernel, by decide +kernel⟩, by decide +kernel, by decide +kernel⟩

end Program

end Lox

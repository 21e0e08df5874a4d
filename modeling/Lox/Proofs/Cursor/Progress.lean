/-
Reading makes progress. Every call of the rule for declarations, at the top or
in a block, begins at a token that is no end mark and ends further on; and one
that yields no statement ends where a statement may begin: at the end mark,
right behind a semicolon, or at a token that starts a statement
(`Program.calls_make_progress`). So the walk ends, and at the first end mark.
-/
import Lox.Proofs.Cursor.Range

namespace Lox

/-! ## Boundaries between statements -/

/-- The places at which reading may resume after a fault. -/
inductive Boundary (tokens : List Token) : Nat → Prop
  | atEnd {place : Nat} {t : Token} : tokens[place]? = some t → t.kind = .eof →
      Boundary tokens place
  | behindSemicolon {place : Nat} {t : Token} : tokens[place]? = some t → t.kind = .semicolon →
      Boundary tokens (place + 1)
  | atStatement {place : Nat} {t : Token} : tokens[place]? = some t →
      t.kind.startsStatement = true → Boundary tokens place

namespace Grammar

variable {ts us rest : List Token}

/-- Of `ts`, nothing is left, or what starts a statement, or what stands behind
a semicolon. -/
def AtBoundary (ts rest : List Token) : Prop :=
  (∀ t ∈ rest.head?, t.kind.startsStatement = true) ∨
    ∃ t, t.kind = .semicolon ∧ t :: rest <:+ ts

theorem AtBoundary.of_suffix (h : AtBoundary us rest) (hus : us <:+ ts) : AtBoundary ts rest :=
  h.imp_right fun ⟨t, ht, hsuffix⟩ => ⟨t, ht, hsuffix.trans hus⟩

theorem skipToBoundary_atBoundary (ts : List Token) : AtBoundary ts (skipToBoundary ts) := by
  induction ts with
  | nil => exact .inl (by simp [skipToBoundary])
  | cons t rest ih =>
    unfold skipToBoundary
    split
    · next hstarts => exact .inl (by simpa using hstarts)
    split
    · next hsemicolon => exact .inr ⟨t, hsemicolon, List.suffix_refl _⟩
    · exact ih.of_suffix (List.suffix_cons t rest)

theorem skipPast_atBoundary (ts : List Token) : AtBoundary ts (skipPast ts) := by
  cases ts with
  | nil => exact .inl (by simp [skipPast])
  | cons t rest =>
    simp only [skipPast]
    split
    · next hsemicolon => exact .inr ⟨t, hsemicolon, List.suffix_refl _⟩
    · exact (skipToBoundary_atBoundary rest).of_suffix (List.suffix_cons t rest)

theorem resume_atBoundary (cause : SyntaxCause) (h : rest <:+ ts) :
    AtBoundary ts (resume ts cause rest) := by
  unfold resume
  split
  · exact (skipPast_atBoundary rest).of_suffix h
  · exact (skipToBoundary_atBoundary rest).of_suffix h

/-- A declaration that yields no statement is left at a boundary. -/
theorem declaration_atBoundary {n : Nat} {t : Token} {more : List Token}
    (h : (declaration n t more).statement? = none) :
    AtBoundary (t :: more) (declaration n t more).rest := by
  rw [declaration] at h ⊢
  cases hread : if t.kind = .kwVar then variableDeclaration n more (List.suffix_cons t more)
      else statement n (t :: more) with
  | done s rest log after =>
    rw [hread] at h
    cases h
  | failed fault rest log suffix => exact resume_atBoundary fault.cause suffix

end Grammar

/-! ## Calls that make progress -/

/-- The call begins at a token and ends further on, at a boundary if it yields
no statement. -/
structure Walk.Call.Progresses (tokens : List Token) (call : Walk.Call) : Prop where
  begins : ∃ t, tokens[call.start]? = some t ∧ t.kind ≠ .eof
  further : call.start < call.finish
  resumes : call.statement? = none → Boundary tokens call.finish

namespace Marked

open Grammar

variable {l : Marked} {ts rest : List Token} {place : Nat}

/-- The cursor at a place, before what is there. -/
theorem before_place (hsuffix : rest <:+ l.body) (hplace : place + rest.length = l.body.length) :
    l.Before rest ⟨l.tokens, place, [], [], []⟩ :=
  ⟨rfl, hsuffix, hplace, by simp⟩

theorem boundary_of_atBoundary (h : AtBoundary ts rest) (hts : ts <:+ l.body)
    (hrest : rest <:+ l.body) (hplace : place + rest.length = l.body.length) :
    Boundary l.tokens place := by
  rcases h with hhead | ⟨semicolon, hkind, hsuffix⟩
  · have hnext := (before_place hrest hplace).getElem?_current
    cases rest with
    | nil => exact .atEnd hnext l.ends
    | cons t more => exact .atStatement hnext (hhead t rfl)
  -- The semicolon is at the place before, so there is one.
  · have hbefore := hsuffix.trans hts
    have hle := hbefore.length_le
    rw [List.length_cons] at hle
    obtain ⟨place, rfl⟩ : ∃ before, place = before + 1 := ⟨place - 1, by omega⟩
    exact .behindSemicolon ((before_place hrest hplace).getElem?_previous hbefore) hkind

theorem placed_progresses {k : Grammar.Call} (hk : k.first :: k.more <:+ l.body) :
    (l.placed k).Progresses l.tokens := by
  have hle := hk.length_le
  have hafter := (declaration l.mark.line k.first k.more).after
  have hlt := hafter.length_lt
  refine ⟨⟨k.first, ?_, l.plain _ (hk.mem List.mem_cons_self)⟩, ?_, fun hnone => ?_⟩
  · exact (before_place hk (Nat.sub_add_cancel hle)).getElem?_current
  · simp only [placed]
    omega
  · have hrest := hafter.suffix.trans hk
    have hplace := Nat.sub_add_cancel hrest.length_le
    exact boundary_of_atBoundary (declaration_atBoundary hnone) hk hrest hplace

end Marked

namespace Program

open Grammar

/-- **Reading makes progress and resumes only at boundaries.** Over whatever
tokens, there are calls of the rule for declarations that the walk makes at any
depth that suffices, and it ends: at the first end mark, with the statements of
the tokens' program. The calls are those by which the log is accounted for, and
yield the same. Each begins at a token that is no end mark and ends strictly
further on, whether it yields a statement or not; and one that yields none ends
at an end mark, right behind a semicolon or at a token that starts a
statement. -/
theorem calls_make_progress (tokens : List Token) :
    ∃ made : List Walk.Call,
      (∀ d, depth tokens ≤ d → ∃ c,
        walk d tokens = some (.ok (ofTokens tokens).statements, c) ∧
        c.calls = made ∧ c.current = firstMark tokens) ∧
      made.map (·.statement?) = (calls tokens).map (·.statement? (endLine tokens)) ∧
      ∀ call ∈ made, call.Progresses (closedTokens tokens) := by
  obtain ⟨l, hclosed, hsignificant, hline⟩ := Marked.exists_closed tokens
  have hfirst : firstMark tokens = l.body.length := by
    rw [firstMark, ← hclosed, l.findIdx_tokens]
  refine ⟨(calls tokens).map l.placed, fun d hdepth => ?_, ?_, fun call hcall => ?_⟩
  · obtain ⟨c, hwalk, hc, -, hkept, -⟩ := walk_ends hclosed hsignificant hline hdepth
    exact ⟨c, hwalk, hkept, hfirst ▸ hc.place⟩
  · rw [List.map_map, hline]
    rfl
  · obtain ⟨k, hk, rfl⟩ := List.mem_map.mp hcall
    obtain ⟨c, -, -, -, -, hcalls⟩ := walk_ends hclosed hsignificant hline (Nat.le_refl _)
    rw [← hclosed]
    exact Marked.placed_progresses (hcalls k hk)

/-- Three declarations that cannot be read, two of them in a block. -/
def broken : List Token := (Scan.ofSource "\x7b var 1; a print b; \x7d ) c").body

/-- They are left behind a semicolon, at a keyword and at the end mark. -/
theorem calls_make_progress_of_broken :
    depth broken ≤ 190 ∧ ∃ c,
      walk 190 broken = some (.ok (ofTokens broken).statements, c) ∧ c.current = 11 ∧
      (c.calls.filter fun k => k.statement?.isNone).map (fun k => (k.start, k.finish)) =
        [(1, 4), (4, 5), (9, 11)] ∧
      ∀ place ∈ [4, 5, 11], Boundary (closedTokens broken) place := by
  have hdepth : depth broken ≤ 190 := by decide +kernel
  have hruns : (walk 190 broken).map (fun r => (r.2.calls.filter fun k =>
      k.statement?.isNone).map fun k => (k.start, k.finish)) = some [(1, 4), (4, 5), (9, 11)] := by
    decide +kernel
  have hmark : firstMark broken = 11 := by decide +kernel
  obtain ⟨made, hwalks, -, hprogress⟩ := calls_make_progress broken
  obtain ⟨c, hwalk, rfl, hcurrent⟩ := hwalks 190 hdepth
  rw [hwalk] at hruns
  have hlost : (c.calls.filter fun k => k.statement?.isNone).map (fun k => (k.start, k.finish)) =
      [(1, 4), (4, 5), (9, 11)] := Option.some.inj hruns
  refine ⟨hdepth, c, hwalk, hcurrent.trans hmark, hlost, fun place hplace => ?_⟩
  have hfinish : (c.calls.filter fun k => k.statement?.isNone).map (·.finish) = [4, 5, 11] := by
    have hsecond := congrArg (List.map Prod.snd) hlost
    rw [List.map_map] at hsecond
    exact hsecond
  rw [← hfinish] at hplace
  obtain ⟨call, hmem, rfl⟩ := List.mem_map.mp hplace
  obtain ⟨hcall, hnone⟩ := List.mem_filter.mp hmem
  exact (hprogress call hcall).resumes (Option.isNone_iff_eq_none.mp hnone)

end Program

end Lox

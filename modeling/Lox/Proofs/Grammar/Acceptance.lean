/-
The program of a token sequence against the grammar: nothing is reported
exactly if the tokens before the end mark are derived from the grammar, and
then the statements are the one tree of theirs in which every `else` belongs
to the nearest `if` (`diagnostics_eq_nil_iff_derives`). Of any tokens, the
statements are derived from some of them (`exists_derives`).

That tree exists for every derivation (`DerivesBody.exists_elseNearest`): an
`else` that stands too far out is moved to the `if` that it skipped.
-/
import Lox.Proofs.Grammar.Completeness

namespace Lox

namespace Grammar

/-- A statement that ends open takes an `else` after it, at its innermost
open `if`. -/
theorem DerivesStatement.append_else {e : Token} {us : List Token} {s' : Stmt} :
    ∀ {ts : List Token} {s : Stmt}, DerivesStatement ts s → s.elseNearest = true →
      s.endsOpen = true → e.kind = .kwElse → DerivesStatement us s' → s'.elseNearest = true →
      ∃ r, DerivesStatement (ts ++ e :: us) r ∧ r.elseNearest = true
  | _, _, @DerivesStatement.ifThen _ _ _ _ _ c s ht hleft hc hright hs, hnearest, _, he, hs',
      hnearest' => by
    simp only [Stmt.elseNearest] at hnearest
    cases hopen : s.endsOpen with
    | false =>
      exact ⟨.ifElse c s s', .ifElse ht hleft hc hright hs he hs',
        by simp [Stmt.elseNearest, hopen, hnearest, hnearest']⟩
    | true =>
      obtain ⟨r, hr, hrnearest⟩ := hs.append_else hnearest hopen he hs' hnearest'
      refine ⟨.ifThen c r, ?_, by simpa only [Stmt.elseNearest] using hrnearest⟩
      have hif := DerivesStatement.ifThen ht hleft hc hright hr
      simpa only [List.append_assoc, List.cons_append] using hif
  | _, _, @DerivesStatement.ifElse _ _ _ _ _ _ _ c s s₁ ht hleft hc hright hs he₁ hs₁,
      hnearest, hopen, he, hs', hnearest' => by
    simp only [Stmt.elseNearest, Bool.and_eq_true] at hnearest
    simp only [Stmt.endsOpen] at hopen
    obtain ⟨r, hr, hrnearest⟩ := hs₁.append_else hnearest.2 hopen he hs' hnearest'
    refine ⟨.ifElse c s r, ?_, by simp only [Stmt.elseNearest, hnearest.1.1, hnearest.1.2, hrnearest, Bool.and_self]⟩
    have hif := DerivesStatement.ifElse ht hleft hc hright hs he₁ hr
    simpa only [List.append_assoc, List.cons_append] using hif
  | _, _, .print _ _ _, _, hopen, _, _, _ => by simp [Stmt.endsOpen] at hopen
  | _, _, .block _ _ _, _, hopen, _, _, _ => by simp [Stmt.endsOpen] at hopen
  | _, _, .expression _ _, _, hopen, _, _, _ => by simp [Stmt.endsOpen] at hopen

mutual

theorem DerivesStatement.exists_elseNearest : ∀ {ts : List Token} {s : Stmt},
    DerivesStatement ts s → ∃ r, DerivesStatement ts r ∧ r.elseNearest = true
  | _, _, .ifThen ht hleft hc hright hs => by
    obtain ⟨r, hr, hnearest⟩ := hs.exists_elseNearest
    exact ⟨_, .ifThen ht hleft hc hright hr, by simpa only [Stmt.elseNearest] using hnearest⟩
  | _, _, .ifElse ht hleft hc hright hs he hs' => by
    obtain ⟨r, hr, hnearest⟩ := hs.exists_elseNearest
    obtain ⟨r', hr', hnearest'⟩ := hs'.exists_elseNearest
    cases hopen : r.endsOpen with
    | false =>
      exact ⟨_, .ifElse ht hleft hc hright hr he hr',
        by simp [Stmt.elseNearest, hopen, hnearest, hnearest']⟩
    | true =>
      -- The branch takes the `else` itself, so this `if` is left without one.
      obtain ⟨q, hq, hqnearest⟩ := hr.append_else hnearest hopen he hr' hnearest'
      have hif := DerivesStatement.ifThen ht hleft hc hright hq
      exact ⟨_, by simpa only [List.append_assoc, List.cons_append] using hif,
        by simpa only [Stmt.elseNearest] using hqnearest⟩
  | _, _, .print ht he hsemi => ⟨_, .print ht he hsemi, rfl⟩
  | _, _, .block hleft hbody hright => by
    obtain ⟨rs, hrs, hnearest⟩ := hbody.exists_elseNearest
    exact ⟨_, .block hleft hrs hright, by simpa only [Stmt.elseNearest] using hnearest⟩
  | _, _, .expression he hsemi => ⟨_, .expression he hsemi, rfl⟩

theorem DerivesDeclaration.exists_elseNearest : ∀ {ts : List Token} {s : Stmt},
    DerivesDeclaration ts s → ∃ r, DerivesDeclaration ts r ∧ r.elseNearest = true
  | _, _, .bare ht hname hsemi => ⟨_, .bare ht hname hsemi, rfl⟩
  | _, _, .initialized ht hname hequals he hsemi =>
    ⟨_, .initialized ht hname hequals he hsemi, rfl⟩
  | _, _, .statement hs => by
    obtain ⟨r, hr, hnearest⟩ := hs.exists_elseNearest
    exact ⟨r, .statement hr, hnearest⟩

/-- Whatever is derived is derived with every `else` at the nearest `if`. -/
theorem DerivesBody.exists_elseNearest : ∀ {ts : List Token} {ss : List Stmt},
    DerivesBody ts ss → ∃ rs, DerivesBody ts rs ∧ Stmt.bodyElseNearest rs = true
  | _, _, .nil => ⟨[], .nil, rfl⟩
  | _, _, .cons hd hbody => by
    obtain ⟨r, hr, hnearest⟩ := hd.exists_elseNearest
    obtain ⟨rs, hrs, hnearest'⟩ := hbody.exists_elseNearest
    exact ⟨r :: rs, .cons hr hrs, by simp [Stmt.bodyElseNearest, hnearest, hnearest']⟩

end

end Grammar

namespace Program

open Grammar

theorem diagnostics_ofTokens (tokens : List Token) :
    (ofTokens tokens).diagnostics =
      Record.diagnostics (declarations (endLine tokens) false (significant tokens)).log := by
  rw [diagnostics, ofTokens, Record.diagnostics_append]
  exact List.append_nil _

/-- Nothing, or an end mark first: what may stand after the tokens of a
program. -/
def Ending (ts : List Token) : Prop := ∀ t ∈ ts.head?, t.kind = .eof

theorem ending_nil : Ending [] := by simp [Ending]

theorem ending_eof (line : Nat) : Ending [.eof line] := by simp [Ending, Token.eof]

/-- Tokens before an ending are the significant ones, if none of them is an
end mark. -/
theorem significant_append {ts ending : List Token} (h : ∀ t ∈ ts, t.kind ≠ .eof)
    (hending : Ending ending) : significant (ts ++ ending) = ts := by
  rw [significant, List.takeWhile_append_of_pos fun t ht => by simpa using h t ht]
  cases ending with
  | nil => exact List.append_nil ts
  | cons mark more => simp [hending mark rfl]

theorem significant_eq_self {ts : List Token} (h : ∀ t ∈ ts, t.kind ≠ .eof) :
    significant ts = ts := by
  simpa using significant_append h ending_nil

theorem endLine_append_eof {ts : List Token} (h : ∀ t ∈ ts, t.kind ≠ .eof) (line : Nat) :
    endLine (ts ++ [.eof line]) = line := by
  have hfind : ts.find? (fun t => t.kind == .eof) = none := by
    simpa using h
  rw [endLine, List.find?_append, hfind]
  rfl

/-- A program is what its declarations come to. -/
theorem ofTokens_append {ts ending : List Token} (h : ∀ t ∈ ts, t.kind ≠ .eof)
    (hending : Ending ending) :
    (ofTokens (ts ++ ending)).statements =
        (declarations (endLine (ts ++ ending)) false ts).parts.1 ∧
      (ofTokens (ts ++ ending)).diagnostics =
        Record.diagnostics (declarations (endLine (ts ++ ending)) false ts).parts.2.2 := by
  rw [diagnostics_ofTokens, ofTokens, significant_append h hending]
  exact ⟨rfl, rfl⟩

/-- The statements are derived from some of the tokens in their order, and
from all of them if nothing is reported. -/
theorem exists_derives (tokens : List Token) :
    ∃ us, us.Sublist (significant tokens) ∧ DerivesBody us (ofTokens tokens).statements ∧
      Stmt.bodyElseNearest (ofTokens tokens).statements = true ∧
      ((ofTokens tokens).diagnostics = [] → us = significant tokens) := by
  obtain ⟨us, hpicked, hus, hnearest, hend⟩ :=
    declarations_sound (endLine tokens) false (significant tokens)
  -- Only a closing brace could be left, and only in a block.
  have hrest : (declarations (endLine tokens) false (significant tokens)).rest = [] := by
    cases hrest : (declarations (endLine tokens) false (significant tokens)).rest with
    | nil => rfl
    | cons t more =>
      rw [hrest] at hend
      exact absurd (hend t rfl).1 (by decide)
  rw [hrest] at hpicked
  refine ⟨us, ?_, hus, hnearest, fun clean => ?_⟩
  · simpa using hpicked.sublist
  · rw [diagnostics_ofTokens] at clean
    simpa using (hpicked.all clean).symm

/-- What is read without a report is derived, with the statements read. -/
theorem derives_of_clean {tokens : List Token} (clean : (ofTokens tokens).diagnostics = []) :
    DerivesBody (significant tokens) (ofTokens tokens).statements ∧
      Stmt.bodyElseNearest (ofTokens tokens).statements = true := by
  obtain ⟨us, -, hus, hnearest, hall⟩ := exists_derives tokens
  exact ⟨hall clean ▸ hus, hnearest⟩

/-- Derived tokens are read without a report, with the tree of theirs in
which every `else` is at the nearest `if`. -/
theorem ofTokens_of_derives {tokens : List Token} {ss : List Stmt}
    (h : DerivesBody (significant tokens) ss) (hnearest : Stmt.bodyElseNearest ss = true) :
    (ofTokens tokens).diagnostics = [] ∧ (ofTokens tokens).statements = ss := by
  have hread := h.read (endLine tokens) hnearest false [] (by simp)
  rw [List.append_nil] at hread
  simp only [Body.parts, Prod.mk.injEq] at hread
  exact ⟨by rw [diagnostics_ofTokens, hread.2.2]; rfl, hread.1⟩

/-- **Reading accepts exactly the grammar and yields exactly its tree.** For
every token sequence, nothing is reported exactly if the tokens before the
first end mark are derived; and nothing is reported with the statements `ss`
exactly if `ss` is the tree of a derivation in which every `else` belongs to
the nearest `if` that can take it. So there is one such tree, and none of
it is left out. -/
theorem diagnostics_eq_nil_iff_derives (tokens : List Token) :
    ((ofTokens tokens).diagnostics = [] ↔ ∃ ss, DerivesBody (significant tokens) ss) ∧
      ∀ ss, ((ofTokens tokens).diagnostics = [] ∧ (ofTokens tokens).statements = ss) ↔
        (DerivesBody (significant tokens) ss ∧ Stmt.bodyElseNearest ss = true) := by
  refine ⟨⟨fun clean => ⟨_, (derives_of_clean clean).1⟩, ?_⟩, fun ss => ⟨?_, ?_⟩⟩
  · rintro ⟨ss, h⟩
    obtain ⟨rs, hrs, hnearest⟩ := h.exists_elseNearest
    exact (ofTokens_of_derives hrs hnearest).1
  · rintro ⟨clean, rfl⟩
    exact derives_of_clean clean
  · rintro ⟨h, hnearest⟩
    exact ofTokens_of_derives h hnearest

end Program

end Lox

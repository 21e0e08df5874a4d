/-
Lines. The counter of a scanner puts tokens and faults on the line on which
their text ends: one more than there are line breaks in the source up to there
(`Scan.lines_count_newlines`). So lines never decrease, and the end mark
is on the last one.

Scanning goes line by line (`Scan.tokens_joined`): unless a string or a comment
is left open, the text after a line break is scanned as if it stood alone, on
lines further down.
-/
import Lox.Proofs.Source.Counter

namespace Lox

/-- The diagnostic on another line. -/
def Diagnostic.reline (f : Nat → Nat) (d : Diagnostic) : Diagnostic := { d with line := f d.line }

namespace Piece

/-! ## Where pieces end -/

/-- What is read off pieces and their lines is read off one piece, behind the
pieces that what comes before it is read off; its line is told by the text up
to the end of that piece. -/
theorem exists_of_getElem?_located {α β : Type} {g : Nat × Piece → Option α} {shape : α → β}
    {f : Piece → Option β} (hg : ∀ n p, (g (n, p)).map shape = f p) {a : α} :
    ∀ {line : Nat} {ps : List Piece} {i : Nat}, ((located line ps).filterMap g)[i]? = some a →
      ∃ before p after, ps = before ++ p :: after ∧ (before.filterMap f).length = i ∧
        f p = some (shape a) ∧ g (line + newlines (before.flatMap text ++ p.text), p) = some a
  | line, [], i, h => by simp [located] at h
  | line, q :: ps, i, h => by
    have hline : ∀ t, line + newlines q.text + newlines t = line + newlines (q.text ++ t) := by
      intro t
      rw [newlines_append, Nat.add_assoc]
    have hf := hg (line + newlines q.text) q
    rw [located] at h
    cases hq : g (line + newlines q.text, q) with
    | none =>
      rw [hq, Option.map_none] at hf
      rw [List.filterMap_cons_none hq] at h
      obtain ⟨before, p, after, rfl, hcount, hp, hend⟩ := exists_of_getElem?_located hg h
      rw [hline] at hend
      refine ⟨q :: before, p, after, rfl, ?_, hp, ?_⟩
      · rw [List.filterMap_cons_none hf.symm, hcount]
      · rw [List.flatMap_cons, List.append_assoc, hend]
    | some b =>
      rw [hq, Option.map_some] at hf
      rw [List.filterMap_cons_some hq] at h
      cases i with
      | zero =>
        cases h
        exact ⟨[], q, ps, rfl, rfl, hf.symm, hq⟩
      | succ i =>
        obtain ⟨before, p, after, rfl, hcount, hp, hend⟩ := exists_of_getElem?_located hg h
        rw [hline] at hend
        refine ⟨q :: before, p, after, rfl, ?_, hp, ?_⟩
        · rw [List.filterMap_cons_some hf.symm, List.length_cons, hcount]
        · rw [List.flatMap_cons, List.append_assoc, hend]

theorem le_of_mem_located {n : Nat} {p : Piece} : ∀ {line : Nat} {ps : List Piece},
    (n, p) ∈ located line ps → line ≤ n ∧ n ≤ line + newlines (ps.flatMap text)
  | _, [], h => by cases h
  | line, q :: ps, h => by
    rw [List.flatMap_cons, newlines_append]
    rcases List.mem_cons.mp h with h | h
    · cases h
      omega
    · obtain ⟨hlow, hhigh⟩ := le_of_mem_located h
      omega

/-- Pieces end on lines that never decrease. -/
theorem pairwise_located : ∀ (line : Nat) (ps : List Piece),
    (located line ps).Pairwise fun a b => a.1 ≤ b.1
  | _, [] => List.Pairwise.nil
  | line, p :: ps => by
    rw [located, List.pairwise_cons]
    exact ⟨fun _ hmem => (le_of_mem_located hmem).1, pairwise_located _ ps⟩

section Located

variable {α : Type} {g : Nat × Piece → Option α} {lineOf : α → Nat}
  (hg : ∀ n p a, g (n, p) = some a → lineOf a = n) {text : List Char}

include hg

theorem pairwise_filterMap_located (line : Nat) (ps : List Piece) :
    ((located line ps).filterMap g).Pairwise fun a b => lineOf a ≤ lineOf b := by
  refine List.Pairwise.filterMap g ?_ (pairwise_located line ps)
  intro x y hxy a ha b hb
  rw [hg _ _ a ha, hg _ _ b hb]
  exact hxy

theorem le_of_mem_filterMap_located {a : α} (h : a ∈ (located 1 (pieces text)).filterMap g) :
    lineOf a ≤ 1 + newlines text := by
  obtain ⟨⟨n, p⟩, hmem, ha⟩ := List.mem_filterMap.mp h
  have hle := (le_of_mem_located hmem).2
  rw [flatMap_text_pieces] at hle
  rw [hg n p a ha]
  exact hle

end Located

theorem line_of_token? (n : Nat) (p : Piece) (t : Token) (h : p.token? n = some t) :
    t.line = n := by
  unfold token? at h
  split at h
  · cases h
    rfl
  · cases h

theorem line_of_fault? (n : Nat) (p : Piece) (fault : LexicalFault)
    (h : p.fault? n = some fault) : fault.line = n := by
  unfold fault? at h
  split at h
  · cases h
    rfl
  · cases h

end Piece

namespace Scan

open Piece

/-! ## Lines of tokens and faults -/

variable {source : String} {i : Nat}

theorem line_of_getElem?_body {t : Token} (h : (ofSource source).body[i]? = some t) :
    ∃ before p after, pieces source.toList = before ++ p :: after ∧
      (before.filterMap lexeme?).length = i ∧ p.lexeme? = some (t.kind, t.lexeme, t.literal) ∧
      t.line = 1 + newlines (before.flatMap Piece.text ++ p.text) := by
  obtain ⟨before, p, after, hps, hcount, hp, ht⟩ := exists_of_getElem?_located map_token? h
  exact ⟨before, p, after, hps, hcount, hp, line_of_token? _ p t ht⟩

theorem line_of_getElem?_diagnostics {d : Diagnostic}
    (h : (ofSource source).diagnostics[i]? = some d) :
    ∃ before p after cause, pieces source.toList = before ++ p :: after ∧
      (before.filterMap cause?).length = i ∧ p.cause? = some cause ∧
      d = ⟨1 + newlines (before.flatMap Piece.text ++ p.text), .none, cause.message⟩ := by
  rw [diagnostics, List.getElem?_map] at h
  obtain ⟨fault, hfault, rfl⟩ := Option.map_eq_some_iff.mp h
  obtain ⟨before, p, after, hps, hcount, hp, hend⟩ := exists_of_getElem?_located map_fault? hfault
  refine ⟨before, p, after, fault.cause, hps, hcount, hp, ?_⟩
  rw [LexicalFault.diagnostic, line_of_fault? _ p fault hend]

theorem pairwise_tokens (source : String) :
    (ofSource source).tokens.Pairwise fun t u => t.line ≤ u.line := by
  rw [tokens, List.pairwise_append]
  refine ⟨pairwise_filterMap_located line_of_token? 1 _, List.pairwise_singleton _ _, ?_⟩
  intro t ht u hu
  rw [List.mem_singleton.mp hu]
  exact le_of_mem_filterMap_located line_of_token? ht

theorem pairwise_diagnostics (source : String) :
    (ofSource source).diagnostics.Pairwise fun d e => d.line ≤ e.line :=
  List.pairwise_map.mpr (pairwise_filterMap_located line_of_fault? 1 _)

theorem le_of_mem_diagnostics {d : Diagnostic} (h : d ∈ (ofSource source).diagnostics) :
    d.line ≤ 1 + newlines source.toList := by
  obtain ⟨fault, hfault, rfl⟩ := List.mem_map.mp h
  have hle : fault.line ≤ _ := le_of_mem_filterMap_located line_of_fault? hfault
  exact hle

/-- **Lines count line breaks.** Let a scanner with a line counter pass over a
source, and take the pieces that the source is made up of. Each token the
scanner gives comes from one of them, after as many token pieces as there are
tokens before it, and is on the line that is one plus the number of line breaks
up to the end of that piece. So is each diagnostic, which comes from a faulty
piece: a single character, or a string or comment without an end. The end mark
is on the line that is one plus the number of all line breaks. So the lines of
tokens never decrease, nor do those of diagnostics, and none of them is past
the end mark's. These are the tokens and diagnostics of the source. -/
theorem lines_count_newlines (source : String) :
    ∃ ps body, Munched source.toList ps ∧
      (Scanner.scan source).1 = body ++ [.eof (1 + newlines source.toList)] ∧
      (∀ i t, body[i]? = some t → ∃ before p after, ps = before ++ p :: after ∧
        (before.filterMap lexeme?).length = i ∧ p.lexeme? = some (t.kind, t.lexeme, t.literal) ∧
        t.line = 1 + newlines (before.flatMap Piece.text ++ p.text)) ∧
      (∀ i d, (Scanner.scan source).2[i]? = some d →
        ∃ before p after cause, ps = before ++ p :: after ∧
          (before.filterMap cause?).length = i ∧ p.cause? = some cause ∧
          d = ⟨1 + newlines (before.flatMap Piece.text ++ p.text), .none, cause.message⟩) ∧
      (Scanner.scan source).1.Pairwise (fun t u => t.line ≤ u.line) ∧
      (Scanner.scan source).2.Pairwise (fun d e => d.line ≤ e.line) ∧
      (∀ d ∈ (Scanner.scan source).2, d.line ≤ 1 + newlines source.toList) ∧
      (ofSource source).tokens = (Scanner.scan source).1 ∧
      (ofSource source).diagnostics = (Scanner.scan source).2 := by
  rw [Scanner.scan_eq]
  exact ⟨pieces source.toList, (ofSource source).body, munched_pieces _, rfl,
    fun _ _ h => line_of_getElem?_body h, fun _ _ h => line_of_getElem?_diagnostics h,
    pairwise_tokens source, pairwise_diagnostics source, fun _ h => le_of_mem_diagnostics h,
    rfl, rfl⟩

/-- A line break is counted in a string, in a comment to its end mark and after
a comment to the end of the line. -/
example : ((Scanner.scan "a \"b\nc\" // d\n/* e\n */ @ \"f\n").1.map fun t => (t.kind, t.line)) =
      [(.identifier, 1), (.string, 2), (.eof, 5)] ∧
    (Scanner.scan "a \"b\nc\" // d\n/* e\n */ @ \"f\n").2 =
      [⟨4, .none, "Unexpected character."⟩, ⟨5, .none, "Unterminated string."⟩] := by
  decide +kernel

/-! ## Line by line -/

/-- **Scanning goes line by line.** Let scanning a first text report no string
and no comment without an end; other faults may be reported. Of that text, a
line break and any second text, the tokens are those of the first but for its
end mark, and then those of the second with its end mark, further down by one
and by the line breaks of the first. So are the diagnostics. -/
theorem tokens_joined {s₁ : String} (h : ∀ fault ∈ (ofSource s₁).faults,
      fault.cause ≠ .unterminatedString ∧ fault.cause ≠ .unterminatedComment) (s₂ : String) :
    (ofSource (s₁ ++ "\n" ++ s₂)).tokens = (ofSource s₁).tokens.dropLast ++
        (ofSource s₂).tokens.map (Token.reline (· + (1 + newlines s₁.toList))) ∧
      (ofSource (s₁ ++ "\n" ++ s₂)).diagnostics = (ofSource s₁).diagnostics ++
        (ofSource s₂).diagnostics.map (Diagnostic.reline (· + (1 + newlines s₁.toList))) := by
  have hopen := not_isOpen_of_closed h
  constructor
  · have hbreak : newlines ('\n' :: s₂.toList) = newlines s₂.toList + 1 := List.count_cons_self
    have hlines : (ofSource (s₁ ++ "\n" ++ s₂)).lines = (ofSource s₂).lines + offset s₁ := by
      simp only [ofSource, offset]
      rw [toList_joined, newlines_append, hbreak]
      omega
    rw [tokens, tokens, tokens, body_joined hopen, hlines, List.dropLast_concat, List.map_append,
      List.append_assoc]
    rfl
  · rw [diagnostics, diagnostics, diagnostics, faults_joined hopen, List.map_append, List.map_map,
      List.map_map]
    rfl

/-- A text with a string across two lines, a character that belongs nowhere and
a mark at its end that an equals sign would extend. -/
def unfinished : String := "a \"b\nc\" @ !"

/-- The equals sign that the next text begins with is a token of its own. -/
theorem tokens_joined_of_unfinished :
    (ofSource unfinished).faults = [⟨2, .unexpectedCharacter '@'⟩] ∧
    (∀ fault ∈ (ofSource unfinished).faults,
      fault.cause ≠ .unterminatedString ∧ fault.cause ≠ .unterminatedComment) ∧
    (ofSource (unfinished ++ "\n" ++ "= 1. #")).tokens.map (fun t => (t.kind, t.line)) =
      [(.identifier, 1), (.string, 2), (.bang, 2), (.equal, 3), (.number, 3), (.dot, 3),
        (.eof, 3)] ∧
    (ofSource (unfinished ++ "\n" ++ "= 1. #")).diagnostics =
      [⟨2, .none, "Unexpected character."⟩, ⟨3, .none, "Unexpected character."⟩] := by
  have hclosed : ∀ fault ∈ (ofSource unfinished).faults,
      fault.cause ≠ .unterminatedString ∧ fault.cause ≠ .unterminatedComment := by decide +kernel
  obtain ⟨htokens, hdiagnostics⟩ := tokens_joined hclosed "= 1. #"
  refine ⟨by decide +kernel, hclosed, ?_, ?_⟩
  · rw [htokens]
    decide +kernel
  · rw [hdiagnostics]
    decide +kernel

end Scan

end Lox

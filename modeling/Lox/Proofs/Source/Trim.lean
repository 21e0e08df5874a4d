/-
Texts trimmed of whitespace. Whitespace is wider than what is blank in a
source, so trimming may drop characters that no scan takes, and some that
stand in a comment. It drops nothing that matters from a text that scans with
no report: in front of the first token such a text has only blanks, and what
follows the last one is blank or ends a comment (`pieces_trailing`).

So trimming a single line leaves its tokens where they are (`Scan.body_trim`).
-/
import Lox.Proofs.Source.Seam
import Lox.Text.Whitespace

namespace Lox

/-! ## Whitespace -/

/-- The characters that are seen in print, ASCII only. -/
def isVisible (c : Char) : Prop := 0x20 < c.toNat ∧ c.toNat < 0x7f

instance : DecidablePred isVisible := fun c =>
  inferInstanceAs (Decidable (0x20 < c.toNat ∧ c.toNat < 0x7f))

theorem not_isVisible_of_isWhitespace {c : Char} (h : isWhitespace c = true) : ¬ isVisible c := by
  simp only [isWhitespace, whitespaceRanges, List.any_cons, List.any_nil, Bool.or_eq_true,
    Bool.and_eq_true, decide_eq_true_eq, Bool.false_eq_true, or_false] at h
  unfold isVisible
  omega

/-- A text is whitespace, what is left when it is trimmed, and whitespace. -/
theorem exists_trimChars (text : List Char) : ∃ before after,
    text = before ++ trimChars text ++ after ∧ (∀ c ∈ before, isWhitespace c = true) ∧
      ∀ c ∈ after, isWhitespace c = true := by
  have hbefore := List.takeWhile_append_dropWhile (p := isWhitespace) (l := text)
  generalize hinner : text.dropWhile isWhitespace = inner at hbefore
  have hafter := List.takeWhile_append_dropWhile (p := isWhitespace) (l := inner.reverse)
  refine ⟨text.takeWhile isWhitespace, (inner.reverse.takeWhile isWhitespace).reverse, ?_,
    Piece.all_takeWhile isWhitespace text, fun c hc => ?_⟩
  · have hsplit := congrArg List.reverse hafter
    rw [List.reverse_append, List.reverse_reverse] at hsplit
    rw [trimChars, hinner, List.append_assoc, hsplit, hbefore]
  · exact Piece.all_takeWhile isWhitespace _ c (List.mem_reverse.mp hc)

namespace Piece

theorem isVisible_of_continuesWord {c : Char} (h : continuesWord c = true) : isVisible c := by
  have hcases : (((c.isUpper || c.isLower) || c.isDigit) || c == '_') = true := h
  simp only [Bool.or_eq_true, beq_iff_eq] at hcases
  unfold isVisible
  rcases hcases with ((hupper | hlower) | hdigit) | rfl
  · have hcode : 65 ≤ c.toNat ∧ c.toNat ≤ 90 := of_decide_eq_true hupper
    omega
  · have hcode := Bool.and_eq_true_iff.mp hlower
    have hcode : 97 ≤ c.toNat ∧ c.toNat ≤ 122 := hcode.imp of_decide_eq_true of_decide_eq_true
    omega
  · have hcode := Bool.and_eq_true_iff.mp hdigit
    have hcode : 48 ≤ c.toNat ∧ c.toNat ≤ 57 := hcode.imp of_decide_eq_true of_decide_eq_true
    omega
  · decide

theorem isVisible_of_goesOn {c : Char} (h : goesOn c = true) : isVisible c := by
  simp only [goesOn, Bool.or_eq_true, beq_iff_eq] at h
  rcases h with (((h | rfl) | rfl) | rfl) | rfl
  · exact isVisible_of_continuesWord h
  all_goals decide

theorem isVisible_of_operator {op : List Char × Token.Kind} (hop : op ∈ operators) {c : Char}
    (hc : op.1.head? = some c) : isVisible c := by
  have hall : ∀ op ∈ operators, (op.1.head?.all fun c => decide (isVisible c)) = true := by decide
  have hhead := hall op hop
  rw [hc] at hhead
  exact of_decide_eq_true hhead

/-- Whitespace is blank, or is not taken at all. -/
theorem isBlank_or_other {c : Char} (h : isWhitespace c = true) : isBlank c = true ∨ Other c := by
  have hvisible := not_isVisible_of_isWhitespace h
  cases hblank : isBlank c with
  | true => exact .inl rfl
  | false =>
    have hword : continuesWord c = false := by
      rw [Bool.eq_false_iff]
      exact fun hword => hvisible (isVisible_of_continuesWord hword)
    simp only [continuesWord, Char.isAlphanum, Bool.or_eq_false_iff] at hword
    refine .inr ⟨hblank, ?_, hword.1.2, ?_, fun op hop hhead => ?_⟩
    · rintro rfl
      exact hvisible (by decide)
    · rw [startsWord, hword.1.1, hword.2]
      rfl
    · exact hvisible (isVisible_of_operator hop hhead)

/-- No piece goes on with whitespace. -/
theorem apart_of_isWhitespace {u : List Char} (h : ∀ c ∈ u, isWhitespace c = true) : Apart u := by
  intro c hc
  rw [Bool.eq_false_iff]
  intro hgoes
  exact not_isVisible_of_isWhitespace (h c (List.mem_of_mem_head? hc)) (isVisible_of_goesOn hgoes)

/-! ## Whitespace around the pieces -/

/-- Neither a token nor a fault. -/
def IsSilent (p : Piece) : Prop := p.role = .blank ∨ p.role = .comment

/-- Nothing is wrong with any piece of the text. -/
def Clean (text : List Char) : Prop := ∀ p ∈ pieces text, p.cause? = none

theorem clean_cons {first : Char} {rest : List Char} :
    Clean (first :: rest) ↔ (cut first rest).1.cause? = none ∧ Clean (cut first rest).2 := by
  rw [Clean, pieces, List.forall_mem_cons]
  rfl

/-- The whitespace that a clean text begins with is blank. -/
theorem pieces_leading {w t : List Char} (hw : ∀ c ∈ w, isWhitespace c = true)
    (hclean : Clean (w ++ t)) :
    pieces (w ++ t) = w.map (fun c => ⟨[c], .blank⟩) ++ pieces t := by
  induction w with
  | nil => rfl
  | cons c w ih =>
    obtain ⟨hc, hw⟩ := List.forall_mem_cons.mp hw
    rw [List.cons_append] at hclean ⊢
    obtain ⟨hfirst, hrest⟩ := clean_cons.mp hclean
    rcases isBlank_or_other hc with hblank | hother
    · rw [cut_of_isBlank hblank] at hrest
      rw [pieces, cut_of_isBlank hblank, ih hw hrest]
      rfl
    · rw [cut_of_other hother] at hfirst
      cases hfirst

/-- A clean text of whitespace is blank. -/
theorem isSilent_of_isWhitespace {w : List Char} (hw : ∀ c ∈ w, isWhitespace c = true)
    (hclean : Clean w) : ∀ p ∈ pieces w, p.IsSilent := by
  rw [← List.append_nil w] at hclean ⊢
  rw [pieces_leading hw hclean, pieces, List.append_nil]
  intro p hp
  obtain ⟨c, -, rfl⟩ := List.mem_map.mp hp
  exact .inl rfl

/-- A comment end does not stand across a place that no slash follows. -/
theorem Closes.of_append {body u : List Char} (h : Closes (body ++ u)) (hu : '/' ∉ u) :
    Closes body := by
  obtain ⟨before, after, heq⟩ := h
  rw [show before ++ '*' :: '/' :: after = before ++ ['*', '/'] ++ after by simp,
    List.append_eq_append_iff] at heq
  rcases heq with ⟨more, hclosed, rfl⟩ | ⟨more, rfl, -⟩
  · rcases List.eq_nil_or_concat more with rfl | ⟨more, c, rfl⟩
    · exact ⟨before, [], by simpa using hclosed.symm⟩
    · have hslash := congrArg List.getLast? hclosed
      simp only [List.getLast?_append, List.getLast?_cons_cons, List.getLast?_singleton,
        Option.some_or, List.concat_eq_append, Option.some.injEq] at hslash
      subst hslash
      exact absurd (by simp) hu
  · exact ⟨before, more, by simp⟩

/-- Which pieces have no end. -/
theorem isOpen_cut {first : Char} {t : List Char} (h : (cut first t).1.isOpen = true) :
    (first = '"' ∧ '"' ∉ t) ∨ (first = '/' ∧ ∃ body, t = '*' :: body ∧ ¬ Closes body) := by
  have hmatches := cut_matches first t
  have htext := cut_append first t
  generalize (cut first t).1 = p at *
  generalize (cut first t).2 = rest at *
  cases hmatches with
  | openString hbody =>
    rw [List.append_nil] at htext
    cases htext
    exact .inl ⟨rfl, hbody⟩
  | openComment hbody =>
    rw [List.append_nil] at htext
    cases htext
    exact .inr ⟨rfl, _, rfl, hbody⟩
  | _ => cases h

/-- They have none before whitespace either. -/
theorem cause?_cut_append_of_isOpen {first : Char} {t u : List Char}
    (h : (cut first t).1.isOpen = true) (hu : ∀ c ∈ u, isWhitespace c = true) :
    (cut first (t ++ u)).1.cause? ≠ none := by
  have hvisible : ∀ c, isVisible c → c ∉ u := fun c hc hmem =>
    not_isVisible_of_isWhitespace (hu c hmem) hc
  rcases isOpen_cut h with ⟨rfl, ht⟩ | ⟨rfl, body, rfl, hbody⟩
  · have hquote : '"' ∉ t ++ u := by
      rw [List.mem_append, not_or]
      exact ⟨ht, hvisible '"' (by decide)⟩
    have hdrop : (t ++ u).dropWhile (· != '"') = [] := by
      rw [← List.append_nil (t ++ u), List.dropWhile_append_of_pos (all_ne hquote)]
      rfl
    rw [cut_quote, cutString, hdrop]
    exact Option.some_ne_none _
  · have hopen : closeComment? (body ++ u) = none := by
      rw [closeComment?_eq_none]
      exact fun hcloses => hbody (hcloses.of_append (hvisible '/' (by decide)))
    rw [List.cons_append, cut_slash]
    simp only [cutSlash, hopen]
    exact Option.some_ne_none _

/-- A comment to the end of the line takes what follows it on that line. -/
theorem cut_lineComment_append {more : List Char} (h : '\n' ∉ more) (u : List Char) :
    cut '/' ('/' :: (more ++ u)) = (⟨'/' :: '/' :: (more ++ u.takeWhile (· != '\n')), .comment⟩,
      u.dropWhile (· != '\n')) := by
  rw [cut_slash, cutSlash, List.takeWhile_append_of_pos (all_ne h),
    List.dropWhile_append_of_pos (all_ne h)]

/-- The whitespace that a clean text ends with adds nothing but silence. It may
be taken into a comment. -/
theorem pieces_trailing {t u : List Char} (hu : ∀ c ∈ u, isWhitespace c = true)
    (hclean : Clean (t ++ u)) : ∃ ps qs qs', pieces t = ps ++ qs ∧ pieces (t ++ u) = ps ++ qs' ∧
      (∀ q ∈ qs, q.IsSilent) ∧ ∀ q ∈ qs', q.IsSilent := by
  fun_induction pieces t with
  | case1 => exact ⟨[], [], pieces u, rfl, rfl, by simp, isSilent_of_isWhitespace hu hclean⟩
  | case2 first rest ih =>
    rw [List.cons_append] at hclean ⊢
    obtain ⟨hfirst, hafter⟩ := clean_cons.mp hclean
    by_cases hopen : (cut first rest).1.isOpen = true
    · exact absurd hfirst (cause?_cut_append_of_isOpen hopen hu)
    by_cases hline : first = '/' ∧ rest.head? = some '/' ∧ '\n' ∉ rest
    · obtain ⟨rfl, hhead, hbreak⟩ := hline
      cases rest with
      | nil => cases hhead
      | cons c more =>
        cases hhead
        have halone := cut_lineComment_append (List.not_mem_of_not_mem_cons hbreak) []
        have hboth := cut_lineComment_append (List.not_mem_of_not_mem_cons hbreak) u
        rw [List.append_nil] at halone
        rw [List.cons_append, hboth] at hafter
        -- The whitespace behind the comment, if it goes on after a line break.
        have hleft : ∀ c ∈ u.dropWhile (· != '\n'), isWhitespace c = true :=
          fun c hc => hu c ((List.dropWhile_sublist _).mem hc)
        refine ⟨[], _, _, rfl, rfl, ?_, ?_⟩
        · rw [halone, List.dropWhile_nil, pieces, List.forall_mem_singleton]
          exact .inr rfl
        · rw [pieces, List.cons_append, hboth, List.forall_mem_cons]
          exact ⟨.inr rfl, isSilent_of_isWhitespace hleft hafter⟩
    · have hcut := cut_apart (apart_of_isWhitespace hu) (by simpa using hopen)
        fun hslash hhead hbreak => absurd ⟨hslash, hhead, hbreak⟩ hline
      rw [hcut] at hafter
      obtain ⟨ps, qs, qs', ht, htu, hqs, hqs'⟩ := ih hafter
      refine ⟨(cut first rest).1 :: ps, qs, qs', ?_, ?_, hqs, hqs'⟩
      · rw [ht, List.cons_append]
      · rw [pieces, hcut, htu, List.cons_append]

/-! ## Tokens -/

/-- The tokens among pieces, the first of which begins on `line`. -/
def tokensFrom (line : Nat) (ps : List Piece) : List Token :=
  (located line ps).filterMap fun (n, p) => p.token? n

theorem tokensFrom_append (line : Nat) (ps qs : List Piece) :
    tokensFrom line (ps ++ qs) =
      tokensFrom line ps ++ tokensFrom (line + newlines (ps.flatMap text)) qs := by
  rw [tokensFrom, located_append, List.filterMap_append]
  rfl

theorem tokensFrom_of_isSilent {qs : List Piece} (h : ∀ q ∈ qs, q.IsSilent) (line : Nat) :
    tokensFrom line qs = [] := by
  rw [tokensFrom, List.filterMap_eq_nil_iff]
  rintro ⟨n, q⟩ hmem
  have hq : q ∈ qs := by
    rw [← map_snd_located line qs]
    exact List.mem_map_of_mem hmem
  rcases h q hq with hrole | hrole <;> simp [token?, hrole]

theorem tokensFrom_leading {w t : List Char} (hw : ∀ c ∈ w, isWhitespace c = true)
    (hclean : Clean (w ++ t)) (line : Nat) :
    tokensFrom line (pieces (w ++ t)) = tokensFrom (line + newlines w) (pieces t) := by
  have htext : (w.map fun c => (⟨[c], .blank⟩ : Piece)).flatMap text = w := by
    simp [List.flatMap_map]
  have hblank : tokensFrom line (w.map fun c => (⟨[c], .blank⟩ : Piece)) = [] := by
    refine tokensFrom_of_isSilent (fun q hq => ?_) line
    obtain ⟨c, -, rfl⟩ := List.mem_map.mp hq
    exact .inl rfl
  rw [pieces_leading hw hclean, tokensFrom_append, htext, hblank, List.nil_append]

theorem tokensFrom_trailing {t u : List Char} (hu : ∀ c ∈ u, isWhitespace c = true)
    (hclean : Clean (t ++ u)) (line : Nat) :
    tokensFrom line (pieces (t ++ u)) = tokensFrom line (pieces t) := by
  obtain ⟨ps, qs, qs', ht, htu, hqs, hqs'⟩ := pieces_trailing hu hclean
  rw [ht, htu, tokensFrom_append, tokensFrom_append, tokensFrom_of_isSilent hqs,
    tokensFrom_of_isSilent hqs']

theorem Clean.of_leading {w t : List Char} (hw : ∀ c ∈ w, isWhitespace c = true)
    (hclean : Clean (w ++ t)) : Clean t := by
  intro p hp
  refine hclean p ?_
  rw [pieces_leading hw hclean]
  exact List.mem_append_right _ hp

theorem Clean.of_trailing {t u : List Char} (hu : ∀ c ∈ u, isWhitespace c = true)
    (hclean : Clean (t ++ u)) : Clean t := by
  obtain ⟨ps, qs, qs', ht, htu, hqs, -⟩ := pieces_trailing hu hclean
  rw [Clean, htu] at hclean
  rw [Clean, ht]
  intro p hp
  rcases List.mem_append.mp hp with hp | hp
  · exact hclean p (List.mem_append_left _ hp)
  · rcases hqs p hp with hrole | hrole <;> simp [cause?, hrole]

end Piece

namespace Scan

open Piece

theorem diagnostics_eq_nil_iff {source : String} :
    (ofSource source).diagnostics = [] ↔ Clean source.toList := by
  have hfaults := map_faults source
  rw [diagnostics, List.map_eq_nil_iff, Clean, ← List.filterMap_eq_nil_iff, ← hfaults,
    List.map_eq_nil_iff]

/-- A line break at the end of a line is not in front of anything. -/
theorem newlines_eq_zero_of_leading {before rest : List Char}
    (h : '\n' ∉ (before ++ rest).dropLast) : newlines before = 0 ∨ rest = [] := by
  cases rest with
  | nil => exact .inr rfl
  | cons c rest =>
    left
    rw [newlines, List.count_eq_zero]
    intro hmem
    refine h ?_
    rw [List.dropLast_append_of_ne_nil (List.cons_ne_nil c rest)]
    exact List.mem_append_left _ hmem

/-- Trimming a line that scans with no report leaves it so, with the same
tokens on the same lines. -/
theorem body_trim {line : String} (hline : '\n' ∉ line.toList.dropLast)
    (hclean : (ofSource line).diagnostics = []) :
    (ofSource (trim line)).diagnostics = [] ∧
      (ofSource (trim line)).body = (ofSource line).body := by
  obtain ⟨before, after, htext, hbefore, hafter⟩ := exists_trimChars line.toList
  have htrim : (trim line).toList = trimChars line.toList := String.toList_ofList
  generalize trimChars line.toList = inner at htext htrim
  rw [List.append_assoc] at htext
  have hall := diagnostics_eq_nil_iff.mp hclean
  rw [htext] at hall hline
  have hrest := hall.of_leading hbefore
  constructor
  · rw [diagnostics_eq_nil_iff, htrim]
    exact hrest.of_trailing hafter
  · calc (ofSource (trim line)).body
      _ = tokensFrom 1 (pieces inner) := by rw [← htrim]; rfl
      _ = tokensFrom (1 + newlines before) (pieces inner) := by
        -- A line break in front of the tokens would be the end of the line.
        rcases newlines_eq_zero_of_leading hline with hzero | hnil
        · rw [hzero, Nat.add_zero]
        · rw [(List.append_eq_nil_iff.mp hnil).1, pieces]
          rfl
      _ = tokensFrom 1 (pieces (before ++ (inner ++ after))) := by
        rw [tokensFrom_leading hbefore hall, tokensFrom_trailing hafter hrest]
      _ = (ofSource line).body := by rw [← htext]; rfl

end Scan

end Lox

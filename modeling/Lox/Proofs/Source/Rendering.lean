/-
Tokens written out again: the texts of the tokens of a scan, with one space
between them, scan to the same tokens and to nothing else
(`Scan.scan_rendered`), whatever source they came from.

A token that was cut from some text is cut from its own text again if that
stands before a space or at the end (`Matches.cut_spaced`): a space continues no
number, word or operator, and a string has its end in itself.
-/
import Lox.Proofs.Source.Munch

namespace Lox

namespace Piece

/-! ## One token -/

/-- Whether the piece is a token. -/
def isToken (p : Piece) : Bool := p.lexeme?.isSome

/-- Nothing, or a space first: what stands after a token that is written
out. -/
def Spaced (u : List Char) : Prop := ∀ c, u.head? = some c → c = ' '

theorem spaced_nil : Spaced [] := nofun

theorem spaced_cons (u : List Char) : Spaced (' ' :: u) := by
  intro c hc
  cases hc
  rfl

/-- A span that stops at spaces stops there. -/
theorem Spaced.stops {u : List Char} (h : Spaced u) {p : Char → Bool} (hp : p ' ' = false) :
    ∀ c, u.head? = some c → p c = false := by
  intro c hc
  rw [h c hc, hp]

theorem cutNumber_whole {first : Char} {more u : List Char} (hu : Spaced u)
    (hmore : ∀ c ∈ more, c.isDigit = true) :
    cutNumber first (more ++ u) = (⟨first :: more, numberRole (first :: more) []⟩, u) := by
  have hstops := hu.stops (p := Char.isDigit) rfl
  rw [cutNumber, takeWhile_span hmore hstops, dropWhile_span hmore hstops]
  split
  · -- A space is no point.
    next digit after =>
    cases hu '.' rfl
  · rfl

theorem cutNumber_fractional {first digit : Char} {more fraction u : List Char} (hu : Spaced u)
    (hmore : ∀ c ∈ more, c.isDigit = true) (hdigit : digit.isDigit = true)
    (hfraction : ∀ c ∈ fraction, c.isDigit = true) :
    cutNumber first (more ++ '.' :: digit :: (fraction ++ u)) =
      (⟨first :: more ++ '.' :: digit :: fraction, numberRole (first :: more) (digit :: fraction)⟩,
        u) := by
  have hpoint : ∀ c, ('.' :: digit :: (fraction ++ u)).head? = some c → c.isDigit = false := by
    intro c hc
    cases hc
    rfl
  have hstops := hu.stops (p := Char.isDigit) rfl
  rw [cutNumber, takeWhile_span hmore hpoint, dropWhile_span hmore hpoint]
  simp only [hdigit, if_true, takeWhile_span hfraction hstops, dropWhile_span hfraction hstops]
  rfl

theorem cutWord_spaced {first : Char} {more u : List Char} (hu : Spaced u)
    (hmore : ∀ c ∈ more, continuesWord c = true) :
    cutWord first (more ++ u) =
      (⟨first :: more, .token (.ofWord (String.ofList (first :: more))) none⟩, u) := by
  have hstops := hu.stops (p := continuesWord) rfl
  rw [cutWord, takeWhile_span hmore hstops, dropWhile_span hmore hstops]

theorem cut_operator {text u : List Char} {first : Char} {rest : List Char} {kind : Token.Kind}
    (hu : Spaced u) (h : (text, kind) ∈ operators) (htext : text ++ u = first :: rest) :
    cut first rest = (⟨text, .token kind none⟩, u) := by
  rcases operators_cases h with ⟨c, rfl, hmark⟩ | ⟨rfl, rfl⟩ |
    ⟨c, plain, extended, hextensible, ⟨rfl, rfl⟩ | ⟨rfl, rfl⟩⟩
  all_goals
    simp only [List.cons_append, List.nil_append, List.cons.injEq] at htext
    obtain ⟨rfl, rfl⟩ := htext
  · rw [cut_of_mark? hmark]
  · -- A space makes neither a comment of a slash nor another operator of a mark.
    rw [cut_slash]
    unfold cutSlash
    split
    · cases hu '/' rfl
    · cases hu '*' rfl
    · rfl
  · rw [cut_of_extensible? hextensible]
    split
    · cases hu '=' rfl
    · rfl
  · rw [cut_of_extensible? hextensible]
    rfl

/-- A token is cut from its own text as it was cut where it stood. -/
theorem Matches.cut_spaced {p : Piece} {after u : List Char} (h : Matches p after)
    (htoken : p.isToken = true) (hu : Spaced u) {first : Char} {rest : List Char}
    (htext : p.text ++ u = first :: rest) : cut first rest = (p, u) := by
  cases h with
  | string hbody =>
    simp only [List.cons_append, List.append_assoc, List.nil_append, List.cons.injEq] at htext
    obtain ⟨rfl, rfl⟩ := htext
    rw [cut_quote, cutString_closed hbody]
  | whole hnonempty hdigits =>
    obtain ⟨d, more, rfl⟩ := List.exists_cons_of_ne_nil hnonempty
    obtain ⟨hfirst, hmore⟩ := List.forall_mem_cons.mp hdigits
    simp only [List.cons_append, List.cons.injEq] at htext
    obtain ⟨rfl, rfl⟩ := htext
    rw [cut_of_isDigit hfirst, cutNumber_whole hu hmore]
  | fractional hwhole hdigits hfraction hdigits' =>
    obtain ⟨d, more, rfl⟩ := List.exists_cons_of_ne_nil hwhole
    obtain ⟨d', fraction, rfl⟩ := List.exists_cons_of_ne_nil hfraction
    obtain ⟨hfirst, hmore⟩ := List.forall_mem_cons.mp hdigits
    obtain ⟨hfirst', hmore'⟩ := List.forall_mem_cons.mp hdigits'
    simp only [List.cons_append, List.append_assoc, List.cons.injEq] at htext
    obtain ⟨rfl, rfl⟩ := htext
    rw [cut_of_isDigit hfirst, cutNumber_fractional hu hmore hfirst' hmore']
  | word hfirst hmore =>
    simp only [List.cons_append, List.cons.injEq] at htext
    obtain ⟨rfl, rfl⟩ := htext
    rw [cut_of_startsWord hfirst, cutWord_spaced hu hmore]
  | operator hmem => exact cut_operator hu hmem htext
  | _ => cases htoken

/-! ## Tokens in a row -/

theorem pieces_spaced {p : Piece} {after u : List Char} (h : Matches p after)
    (htoken : p.isToken = true) (hu : Spaced u) : pieces (p.text ++ u) = p :: pieces u := by
  obtain ⟨first, rest, htext⟩ := List.exists_cons_of_ne_nil (l := p.text ++ u)
    (by simp [h.text_ne_nil])
  rw [htext, pieces, h.cut_spaced htoken hu htext]

theorem pieces_space (u : List Char) : pieces (' ' :: u) = ⟨[' '], .blank⟩ :: pieces u := by
  rw [pieces, cut_of_isBlank rfl]

/-- What is read off tokens written out is what is read off the tokens: the
spaces add nothing. -/
theorem filterMap_pieces_intercalate {α : Type} {f : Piece → Option α}
    (hblank : f ⟨[' '], .blank⟩ = none) : ∀ {ps : List Piece},
    (∀ p ∈ ps, p.isToken = true ∧ ∃ after, Matches p after) →
    (pieces ([' '].intercalate (ps.map text))).filterMap f = ps.filterMap f
  | [], _ => by
    rw [List.map_nil, List.intercalate_nil, pieces]
  | [p], h => by
    obtain ⟨htoken, after, hp⟩ := h p (List.mem_singleton_self p)
    have hpieces := pieces_spaced hp htoken spaced_nil
    rw [List.append_nil] at hpieces
    rw [List.map_singleton, List.intercalate_singleton, hpieces, pieces]
  | p :: q :: ps, h => by
    obtain ⟨⟨htoken, after, hp⟩, hrest⟩ := List.forall_mem_cons.mp h
    have ih := filterMap_pieces_intercalate hblank hrest
    rw [List.map_cons] at ih
    rw [List.map_cons, List.map_cons, List.intercalate_cons_cons, List.append_assoc,
      List.singleton_append, pieces_spaced hp htoken (spaced_cons _), pieces_space,
      List.filterMap_cons, List.filterMap_cons_none hblank, ih, List.filterMap_cons (l := q :: ps)]

theorem filterMap_filter_isToken (ps : List Piece) :
    (ps.filter isToken).filterMap lexeme? = ps.filterMap lexeme? := by
  induction ps with
  | nil => rfl
  | cons p ps ih =>
    cases h : p.lexeme? with
    | none => rw [List.filter_cons_of_neg (by simp [isToken, h]), List.filterMap_cons_none h, ih]
    | some l =>
      rw [List.filter_cons_of_pos (by simp [isToken, h]), List.filterMap_cons_some h,
        List.filterMap_cons_some h, ih]

theorem text_eq_of_lexeme? {p : Piece} {kind : Token.Kind} {word : String}
    {literal : Option Literal} (h : p.lexeme? = some (kind, word, literal)) : word.toList = p.text := by
  unfold lexeme? at h
  split at h
  · cases h
    exact String.toList_ofList
  · cases h

theorem map_text_filter_isToken (ps : List Piece) :
    (ps.filter isToken).map text = (ps.filterMap lexeme?).map fun l => l.2.1.toList := by
  induction ps with
  | nil => rfl
  | cons p ps ih =>
    cases h : p.lexeme? with
    | none => rw [List.filter_cons_of_neg (by simp [isToken, h]), List.filterMap_cons_none h, ih]
    | some l =>
      rw [List.filter_cons_of_pos (by simp [isToken, h]), List.filterMap_cons_some h, List.map_cons,
        List.map_cons, text_eq_of_lexeme? h, ih]

/-- A token denotes no fault. -/
theorem cause?_of_isToken {p : Piece} (h : p.isToken = true) : p.cause? = none := by
  unfold isToken lexeme? at h
  unfold cause?
  split at h
  · next hrole => rw [hrole]
  · cases h

end Piece

/-! ## Scans -/

namespace Scan

open Piece

/-- The texts of tokens, with one space between them. -/
def rendered (tokens : List Token) : String := String.intercalate " " (tokens.map Token.lexeme)

/-- The tokens before the end mark are those of the pieces. -/
theorem map_dropLast_tokens (source : String) :
    (ofSource source).tokens.dropLast.map (fun t => (t.kind, t.lexeme, t.literal)) =
      (pieces source.toList).filterMap lexeme? := by
  rw [List.map_dropLast, map_tokens, List.dropLast_concat]

theorem toList_rendered (source : String) :
    (rendered (ofSource source).tokens.dropLast).toList =
      [' '].intercalate (((pieces source.toList).filter isToken).map text) := by
  rw [rendered, String.toList_intercalate, map_text_filter_isToken, ← map_dropLast_tokens,
    List.map_map, List.map_map]
  rfl

/-- **Scanning undoes writing out.** For every source, faulty or not, the
texts of its tokens without the end mark, with one space between them, scan
without a report to tokens of the same kinds, with the same texts and what
they denote, in the same order, and one end mark after them. -/
theorem scan_rendered (source : String) :
    (ofSource (rendered (ofSource source).tokens.dropLast)).diagnostics = [] ∧
      (ofSource (rendered (ofSource source).tokens.dropLast)).tokens.map
          (fun t => (t.kind, t.lexeme, t.literal)) =
        (ofSource source).tokens.dropLast.map (fun t => (t.kind, t.lexeme, t.literal)) ++
          [(.eof, "", none)] := by
  have htokens : ∀ p ∈ (pieces source.toList).filter isToken,
      p.isToken = true ∧ ∃ after, Matches p after := by
    intro p hp
    obtain ⟨hmem, htoken⟩ := List.mem_filter.mp hp
    exact ⟨htoken, exists_matches_of_mem hmem⟩
  constructor
  · have hfaults := map_faults (rendered (ofSource source).tokens.dropLast)
    rw [toList_rendered, filterMap_pieces_intercalate rfl htokens,
      List.filterMap_eq_nil_iff.mpr fun p hp => cause?_of_isToken (htokens p hp).1,
      List.map_eq_nil_iff] at hfaults
    rw [diagnostics, hfaults, List.map_nil]
  · rw [map_tokens, toList_rendered, filterMap_pieces_intercalate rfl htokens,
      filterMap_filter_isToken, map_dropLast_tokens]

end Scan

end Lox

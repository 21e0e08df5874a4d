/-
A text is munched if each of its pieces is the longest that may stand at its
place (`Munched`). Cutting finds the longest piece and no other is as long
(`Matches.within_cut`), so every text is munched in one way, by its pieces
(`munched_iff`). The tokens and faults of a scan are then those of the
pieces, in order (`Scan.munches`).
-/
import Lox.Proofs.Source.Rules

namespace Lox

namespace Piece

/-- The piece may stand before `rest`, and no longer one may stand there. -/
structure Longest (p : Piece) (rest : List Char) : Prop where
  fits : Matches p rest
  longest : ∀ q after, Matches q after → q.text ++ after = p.text ++ rest →
    q.text.length ≤ p.text.length

/-- Pieces that make up a text, each the longest at its place. -/
inductive Munched : List Char → List Piece → Prop
  | nil : Munched [] []
  | cons {p rest ps} : Longest p rest → Munched rest ps → Munched (p.text ++ rest) (p :: ps)

/-! ## What is cut fits -/

theorem cutString_matches (rest : List Char) : Matches (cutString rest).1 (cutString rest).2 := by
  have hsplit := List.takeWhile_append_dropWhile (p := (· != '"')) (l := rest)
  unfold cutString
  cases h : rest.dropWhile (· != '"') with
  | nil =>
    rw [h, List.append_nil] at hsplit
    exact .openString (hsplit ▸ not_mem_takeWhile_ne '"' rest)
  | cons quote after =>
    have hquote : quote = '"' := by
      simpa using head?_dropWhile (· != '"') rest quote (by rw [h]; rfl)
    rw [hquote]
    exact .string (not_mem_takeWhile_ne '"' rest)

theorem cutNumber_matches {first : Char} (h : first.isDigit = true) (rest : List Char) :
    Matches (cutNumber first rest).1 (cutNumber first rest).2 := by
  have hwhole : ∀ c ∈ first :: rest.takeWhile Char.isDigit, c.isDigit = true :=
    List.forall_mem_cons.mpr ⟨h, all_takeWhile Char.isDigit rest⟩
  unfold cutNumber
  split
  · next digit after _ =>
    split
    · next hdigit =>
      exact .fractional (List.cons_ne_nil _ _) hwhole (List.cons_ne_nil _ _)
        (List.forall_mem_cons.mpr ⟨hdigit, all_takeWhile Char.isDigit after⟩)
    · exact .whole (List.cons_ne_nil _ _) hwhole
  · exact .whole (List.cons_ne_nil _ _) hwhole

theorem cutSlash_matches (rest : List Char) : Matches (cutSlash rest).1 (cutSlash rest).2 := by
  unfold cutSlash
  split
  · next rest =>
    refine .lineComment (not_mem_takeWhile_ne '\n' rest) fun c hc => ?_
    simpa using head?_dropWhile (· != '\n') rest c hc
  · next rest =>
    split
    · next closed after h =>
      obtain ⟨body, rfl, hfirst⟩ := first_of_closeComment? h
      exact .blockComment hfirst
    · next h => exact .openComment (closeComment?_eq_none.mp h)
  · exact .operator (by decide)

theorem cutMark_matches {first : Char} (hblank : isBlank first = false) (hquote : first ≠ '"')
    (hdigit : first.isDigit = false) (hword : startsWord first = false) (hslash : first ≠ '/')
    (rest : List Char) : Matches (cutMark first rest).1 (cutMark first rest).2 := by
  unfold cutMark
  split
  · next kind _ hmark => exact .operator (mem_operators_of_mark? hmark)
  · next plain extended _ hextensible =>
    split
    · exact .operator (mem_operators_of_extensible? hextensible).2
    · exact .operator (mem_operators_of_extensible? hextensible).1
  · next hmark hextensible =>
    refine .unexpected ⟨hblank, hquote, hdigit, hword, fun op hop hhead => ?_⟩
    have hcases := operators_head op hop
    rw [hhead] at hcases
    simp [hslash, hmark, hextensible] at hcases

/-- The first piece may stand before what follows it. -/
theorem cut_matches (first : Char) (rest : List Char) :
    Matches (cut first rest).1 (cut first rest).2 := by
  unfold cut
  split
  · next hblank => exact .blank hblank
  next hblank =>
  split
  · exact cutString_matches rest
  next hquote =>
  split
  · next hdigit => exact cutNumber_matches hdigit rest
  next hdigit =>
  split
  · next hword => exact .word hword (all_takeWhile continuesWord rest)
  next hword =>
  split
  · exact cutSlash_matches rest
  next hslash =>
  exact cutMark_matches (by simpa using hblank) (by simpa using hquote) (by simpa using hdigit)
    (by simpa using hword) (by simpa using hslash) rest

/-! ## Nothing longer fits -/

/-- A piece is another one, or shorter. -/
def Within (q p : Piece) : Prop := q = p ∨ q.text.length < p.text.length

theorem within_rfl {p : Piece} : p.Within p := .inl rfl

theorem length_lt_or_eq_nil (body more : List Char) :
    more = [] ∨ body.length < (body ++ more).length := by
  cases more with
  | nil => exact .inl rfl
  | cons c more =>
    right
    simp

theorem within_cutLine {body after : List Char} (hbody : '\n' ∉ body)
    (hafter : ∀ c, after.head? = some c → c = '\n') :
    Within ⟨'/' :: '/' :: body, .comment⟩ (cutSlash ('/' :: (body ++ after))).1 := by
  have hstops : ∀ c, after.head? = some c → (c != '\n') = false := by
    intro c hc
    simp [hafter c hc]
  rw [cutSlash, takeWhile_span (all_ne hbody) hstops]
  exact within_rfl

theorem cutString_closed {body : List Char} (hbody : '"' ∉ body) (after : List Char) :
    cutString (body ++ '"' :: after) =
      (⟨'"' :: (body ++ ['"']), .token .string (some (.text (String.ofList body)))⟩, after) := by
  have hstops : ∀ c, ('"' :: after).head? = some c → (c != '"') = false := by
    intro c hc
    cases hc
    rfl
  rw [cutString, takeWhile_span (all_ne hbody) hstops, dropWhile_span (all_ne hbody) hstops]

theorem within_openString {body : List Char} (hbody : '"' ∉ body) :
    Within ⟨'"' :: body, .fault .unterminatedString⟩ (cutString body).1 := by
  have hstops : ∀ c, ([] : List Char).head? = some c → (c != '"') = false := by simp
  have hspan := dropWhile_span (all_ne hbody) hstops
  rw [List.append_nil] at hspan
  rw [cutString, hspan]
  exact within_rfl

/-- Without a fraction a number ends where its digits end. -/
theorem within_cutNumber_whole {first : Char} {more after : List Char}
    (hmore : ∀ c ∈ more, c.isDigit = true) :
    Within ⟨first :: more, numberRole (first :: more) []⟩ (cutNumber first (more ++ after)).1 := by
  rw [cutNumber, List.takeWhile_append_of_pos hmore]
  rcases length_lt_or_eq_nil more (after.takeWhile Char.isDigit) with hnil | hlonger
  · rw [hnil, List.append_nil]
    split
    · split
      · right
        simp
      · exact within_rfl
    · exact within_rfl
  · right
    split
    · split
      · simp only [List.length_cons, List.length_append] at hlonger ⊢
        omega
      · exact Nat.succ_lt_succ hlonger
    · exact Nat.succ_lt_succ hlonger

theorem within_cutNumber_fractional {first digit : Char} {more fraction after : List Char}
    (hmore : ∀ c ∈ more, c.isDigit = true) (hdigit : digit.isDigit = true)
    (hfraction : ∀ c ∈ fraction, c.isDigit = true) :
    Within ⟨first :: more ++ '.' :: digit :: fraction, numberRole (first :: more) (digit :: fraction)⟩
      (cutNumber first (more ++ '.' :: digit :: (fraction ++ after))).1 := by
  have hpoint : ∀ c, ('.' :: digit :: (fraction ++ after)).head? = some c → c.isDigit = false := by
    intro c hc
    cases hc
    rfl
  rw [cutNumber, takeWhile_span hmore hpoint, dropWhile_span hmore hpoint]
  simp only [hdigit, if_true]
  rw [List.takeWhile_append_of_pos hfraction]
  rcases length_lt_or_eq_nil fraction (after.takeWhile Char.isDigit) with hnil | hlonger
  · rw [hnil, List.append_nil]
    exact within_rfl
  · right
    simp only [List.length_append, List.length_cons] at hlonger ⊢
    omega

theorem within_cutWord {first : Char} {more after : List Char}
    (hmore : ∀ c ∈ more, continuesWord c = true) :
    Within ⟨first :: more, .token (.ofWord (String.ofList (first :: more))) none⟩
      (cutWord first (more ++ after)).1 := by
  rw [cutWord, List.takeWhile_append_of_pos hmore]
  rcases length_lt_or_eq_nil more (after.takeWhile continuesWord) with hnil | hlonger
  · rw [hnil, List.append_nil]
    exact within_rfl
  · exact .inr (Nat.succ_lt_succ hlonger)

/-- The ways an operator is cut. -/
theorem operators_cases {text : List Char} {kind : Token.Kind} (h : (text, kind) ∈ operators) :
    (∃ c, text = [c] ∧ mark? c = some kind) ∨ (text = ['/'] ∧ kind = .slash) ∨
      ∃ c plain extended, extensible? c = some (plain, extended) ∧
        ((text = [c] ∧ kind = plain) ∨ (text = [c, '='] ∧ kind = extended)) := by
  simp only [operators, List.mem_cons, List.not_mem_nil, or_false, Prod.mk.injEq] at h
  rcases h with ⟨rfl, rfl⟩ | ⟨rfl, rfl⟩ | ⟨rfl, rfl⟩ | ⟨rfl, rfl⟩ | ⟨rfl, rfl⟩ | ⟨rfl, rfl⟩ |
    ⟨rfl, rfl⟩ | ⟨rfl, rfl⟩ | ⟨rfl, rfl⟩ | ⟨rfl, rfl⟩ | ⟨rfl, rfl⟩ | ⟨rfl, rfl⟩ | ⟨rfl, rfl⟩ |
    ⟨rfl, rfl⟩ | ⟨rfl, rfl⟩ | ⟨rfl, rfl⟩ | ⟨rfl, rfl⟩ | ⟨rfl, rfl⟩ | ⟨rfl, rfl⟩
  all_goals first
    | exact .inl ⟨_, rfl, rfl⟩
    | exact .inr (.inl ⟨rfl, rfl⟩)
    | exact .inr (.inr ⟨_, _, _, rfl, .inl ⟨rfl, rfl⟩⟩)
    | exact .inr (.inr ⟨_, _, _, rfl, .inr ⟨rfl, rfl⟩⟩)

theorem cut_of_mark? {c : Char} {kind : Token.Kind} (h : mark? c = some kind)
    (rest : List Char) : cut c rest = (⟨[c], .token kind none⟩, rest) := by
  unfold mark? at h
  split at h <;> cases h <;> rfl

theorem cut_of_extensible? {c : Char} {plain extended : Token.Kind}
    (h : extensible? c = some (plain, extended)) (rest : List Char) :
    cut c rest = match rest with
      | '=' :: after => (⟨[c, '='], .token extended none⟩, after)
      | _ => (⟨[c], .token plain none⟩, rest) := by
  unfold extensible? at h
  split at h <;> cases h <;> rfl

theorem within_slash (rest : List Char) :
    Within ⟨['/'], .token .slash none⟩ (cutSlash rest).1 := by
  unfold cutSlash
  split
  · right
    simp
  · right
    split <;> simp
  · exact within_rfl

theorem within_operator {text after rest : List Char} {first : Char} {kind : Token.Kind}
    (h : (text, kind) ∈ operators) (htext : text ++ after = first :: rest) :
    Within ⟨text, .token kind none⟩ (cut first rest).1 := by
  rcases operators_cases h with ⟨c, rfl, hmark⟩ | ⟨rfl, rfl⟩ |
    ⟨c, plain, extended, hextensible, ⟨rfl, rfl⟩ | ⟨rfl, rfl⟩⟩
  · cases htext
    rw [cut_of_mark? hmark]
    exact within_rfl
  · cases htext
    exact within_slash after
  · cases htext
    rw [cut_of_extensible? hextensible]
    split
    · right
      simp
    · exact within_rfl
  · cases htext
    rw [cut_of_extensible? hextensible]
    exact within_rfl

/-- **The first piece is the longest.** Whatever fits at the start of a text
is the piece that is cut, or shorter. -/
theorem Matches.within_cut {p : Piece} {after rest : List Char} {first : Char}
    (h : Matches p after) (htext : p.text ++ after = first :: rest) :
    p.Within (cut first rest).1 := by
  cases h with
  | blank hblank =>
    cases htext
    rw [cut_of_isBlank hblank]
    exact within_rfl
  | lineComment hbody hafter =>
    cases htext
    exact within_cutLine hbody hafter
  | @blockComment body _ hfirst =>
    simp only [List.cons_append, List.append_assoc, List.nil_append, List.cons.injEq] at htext
    obtain ⟨rfl, rfl⟩ := htext
    rw [cut_slash, cutSlash, closeComment?_first hfirst]
    exact within_rfl
  | string hbody =>
    simp only [List.cons_append, List.append_assoc, List.nil_append, List.cons.injEq] at htext
    obtain ⟨rfl, rfl⟩ := htext
    rw [cut_quote, cutString_closed hbody]
    exact within_rfl
  | whole hnonempty hdigits =>
    obtain ⟨d, more, rfl⟩ := List.exists_cons_of_ne_nil hnonempty
    obtain ⟨hfirst, hmore⟩ := List.forall_mem_cons.mp hdigits
    simp only [List.cons_append, List.cons.injEq] at htext
    obtain ⟨rfl, rfl⟩ := htext
    rw [cut_of_isDigit hfirst]
    exact within_cutNumber_whole hmore
  | fractional hwhole hdigits hfraction hdigits' =>
    obtain ⟨d, more, rfl⟩ := List.exists_cons_of_ne_nil hwhole
    obtain ⟨d', fraction, rfl⟩ := List.exists_cons_of_ne_nil hfraction
    obtain ⟨hfirst, hmore⟩ := List.forall_mem_cons.mp hdigits
    obtain ⟨hfirst', hmore'⟩ := List.forall_mem_cons.mp hdigits'
    simp only [List.cons_append, List.append_assoc, List.cons.injEq] at htext
    obtain ⟨rfl, rfl⟩ := htext
    rw [cut_of_isDigit hfirst]
    exact within_cutNumber_fractional hmore hfirst' hmore'
  | word hfirst hmore =>
    simp only [List.cons_append, List.cons.injEq] at htext
    obtain ⟨rfl, rfl⟩ := htext
    rw [cut_of_startsWord hfirst]
    exact within_cutWord hmore
  | operator hmem => exact within_operator hmem htext
  | unexpected hother =>
    cases htext
    rw [cut_of_other hother]
    exact within_rfl
  | openString hbody =>
    simp only [List.append_nil, List.cons.injEq] at htext
    obtain ⟨rfl, rfl⟩ := htext
    exact within_openString hbody
  | openComment hopen =>
    simp only [List.append_nil, List.cons.injEq] at htext
    obtain ⟨rfl, rfl⟩ := htext
    rw [cut_slash, cutSlash, closeComment?_eq_none.mpr hopen]
    exact within_rfl

/-! ## Every text is munched in one way -/

theorem Matches.text_ne_nil {p : Piece} {rest : List Char} (h : Matches p rest) :
    p.text ≠ [] := by
  cases h with
  | whole hnonempty => exact hnonempty
  | operator hmem =>
    have hne : ∀ op ∈ operators, op.1 ≠ [] := by decide
    exact hne _ hmem
  | _ => simp

theorem longest_cut (first : Char) (rest : List Char) :
    Longest (cut first rest).1 (cut first rest).2 := by
  refine ⟨cut_matches first rest, fun q after hq htext => ?_⟩
  rw [cut_append] at htext
  rcases hq.within_cut htext with h | h
  · exact Nat.le_of_eq (congrArg (fun p => p.text.length) h)
  · exact Nat.le_of_lt h

/-- The longest piece at the start of a text is the one that is cut. -/
theorem Longest.eq_cut {p : Piece} {first : Char} {rest after : List Char} (h : Longest p after)
    (htext : p.text ++ after = first :: rest) : p = (cut first rest).1 := by
  rcases h.fits.within_cut htext with hp | hp
  · exact hp
  · have hle := h.longest _ _ (cut_matches first rest) ((cut_append first rest).trans htext.symm)
    omega

theorem munched_pieces (text : List Char) : Munched text (pieces text) := by
  fun_induction pieces text with
  | case1 => exact .nil
  | case2 first rest ih =>
    have h := Munched.cons (longest_cut first rest) ih
    rw [cut_append] at h
    exact h

/-- The pieces of a text are the only way to munch it. -/
theorem munched_iff {text : List Char} {ps : List Piece} :
    Munched text ps ↔ ps = pieces text := by
  constructor
  · intro h
    induction h with
    | nil => rw [pieces]
    | @cons p rest ps hp _ ih =>
      obtain ⟨first, more, htext⟩ := List.exists_cons_of_ne_nil (l := p.text ++ rest)
        (by simp [hp.fits.text_ne_nil])
      -- The longest piece is the one cut, and takes the same off the text.
      have hcut := hp.eq_cut htext
      have hrest : (cut first more).2 = rest := by
        have happend := (cut_append first more).trans htext.symm
        rw [← hcut] at happend
        exact List.append_cancel_left happend
      rw [htext, pieces, ← hcut, hrest, ih]
  · intro h
    rw [h]
    exact munched_pieces text

/-! ## Tokens and faults of the pieces -/

/-- Kind, text and denoted value of the token a piece is, if it is one. -/
def lexeme? (p : Piece) : Option (Token.Kind × String × Option Literal) :=
  match p.role with
  | .token kind literal => some (kind, String.ofList p.text, literal)
  | _ => none

/-- What is wrong with a piece, if something is. -/
def cause? (p : Piece) : Option LexicalCause :=
  match p.role with
  | .fault cause => some cause
  | _ => none

theorem map_snd_located : ∀ (line : Nat) (ps : List Piece), (located line ps).map Prod.snd = ps
  | _, [] => rfl
  | line, p :: ps => by rw [located, List.map_cons, map_snd_located _ ps]

/-- What is read off the pieces and not their lines is read off the pieces
alone. -/
theorem filterMap_located {α : Type} (f : Piece → Option α) (line : Nat) (ps : List Piece) :
    ((located line ps).filterMap fun located => f located.2) = ps.filterMap f := by
  have h := congrArg (List.filterMap f) (map_snd_located line ps)
  rw [List.filterMap_map] at h
  exact h

theorem map_token? (line : Nat) (p : Piece) :
    (p.token? line).map (fun t => (t.kind, t.lexeme, t.literal)) = p.lexeme? := by
  unfold token? lexeme?
  cases p.role <;> rfl

theorem map_fault? (line : Nat) (p : Piece) :
    (p.fault? line).map LexicalFault.cause = p.cause? := by
  unfold fault? cause?
  cases p.role <;> rfl

end Piece

/-! ## End marks -/

theorem Token.Kind.ofWord_ne_eof (word : String) : Token.Kind.ofWord word ≠ .eof := by
  unfold Token.Kind.ofWord
  cases h : Token.Kind.reserved.lookup word with
  | none => simp
  | some kind =>
    obtain ⟨before, after, hreserved, -⟩ := List.lookup_eq_some_iff.mp h
    have hne : ∀ entry ∈ Token.Kind.reserved, entry.2 ≠ .eof := by decide
    exact hne (word, kind) (by rw [hreserved]; simp)

theorem Piece.Matches.kind_ne_eof {p : Piece} {rest : List Char} {kind : Token.Kind}
    {literal : Option Literal} (h : p.Matches rest) (hrole : p.role = .token kind literal) :
    kind ≠ .eof := by
  cases h with
  | word =>
    cases hrole
    exact Token.Kind.ofWord_ne_eof _
  | operator hmem =>
    cases hrole
    have hne : ∀ op ∈ Piece.operators, op.2 ≠ .eof := by decide
    exact hne _ hmem
  | string | whole | fractional =>
    cases hrole
    decide
  | _ => cases hrole

theorem Piece.exists_matches_of_mem {p : Piece} {text : List Char} (h : p ∈ pieces text) :
    ∃ rest, p.Matches rest := by
  fun_induction pieces text with
  | case1 => cases h
  | case2 first rest ih =>
    rcases List.mem_cons.mp h with rfl | h
    · exact ⟨_, cut_matches first rest⟩
    · exact ih h

/-- The end mark is the only one in a scan. -/
theorem Scan.kind_ne_eof_of_mem_body {source : String} {t : Token}
    (h : t ∈ (ofSource source).body) : t.kind ≠ .eof := by
  obtain ⟨⟨n, p⟩, hmem, htoken⟩ := List.mem_filterMap.mp h
  have hp : p ∈ Piece.pieces source.toList := by
    rw [← Piece.map_snd_located 1 (Piece.pieces source.toList)]
    exact List.mem_map_of_mem hmem
  obtain ⟨rest, hmatches⟩ := Piece.exists_matches_of_mem hp
  change p.token? n = some t at htoken
  unfold Piece.token? at htoken
  split at htoken
  · next kind literal hrole =>
    cases htoken
    exact hmatches.kind_ne_eof hrole
  · cases htoken

/-! ## Scans -/

namespace Scan

open Piece

theorem map_tokens (source : String) :
    (ofSource source).tokens.map (fun t => (t.kind, t.lexeme, t.literal)) =
      (pieces source.toList).filterMap lexeme? ++ [(.eof, "", none)] := by
  rw [tokens, List.map_append, ofSource, List.map_filterMap]
  simp only [map_token?]
  rw [filterMap_located]
  rfl

theorem map_faults (source : String) :
    (ofSource source).faults.map LexicalFault.cause = (pieces source.toList).filterMap cause? := by
  rw [ofSource, List.map_filterMap]
  simp only [map_fault?]
  exact filterMap_located cause? 1 _

/-- **A scan munches the source.** Every source is made up, with nothing left
over, of pieces each of which is the longest the rules allow at its place,
and in one way only. The tokens are those of the token pieces, in order,
with their kind, their text and what it denotes, and one end mark after
them; each faulty piece is reported once, in order, with its own cause. -/
theorem munches (source : String) :
    ∃ ps, Munched source.toList ps ∧ (∀ qs, Munched source.toList qs → qs = ps) ∧
      ps.flatMap Piece.text = source.toList ∧
      (ofSource source).tokens.map (fun t => (t.kind, t.lexeme, t.literal)) =
        ps.filterMap lexeme? ++ [(.eof, "", none)] ∧
      (ofSource source).faults.map LexicalFault.cause = ps.filterMap cause? ∧
      (ofSource source).diagnostics.map (fun d => (d.location, d.message)) =
        ps.filterMap fun p => p.cause?.map fun cause => (.none, cause.message) := by
  refine ⟨pieces source.toList, munched_pieces _, fun qs h => munched_iff.mp h,
    flatMap_text_pieces _, map_tokens source, map_faults source, ?_⟩
  rw [← List.map_filterMap, ← map_faults source, diagnostics, List.map_map, List.map_map]
  rfl

end Scan

end Lox

/-
The lexical rules, said without an order of reading: `Matches p rest` says
that the piece `p` may stand before `rest`.

Each rule is tied to the way its pieces are cut: a span of characters by
where it stops, a comment by its first end (`closeComment?_first`), and
which cutter a first character calls (`cut_of_isDigit` and its siblings).
-/
import Lox.Source.Scan

namespace Lox

namespace Piece

/-! ## The rules -/

/-- The operators and marks of one or two characters. -/
def operators : List (List Char × Token.Kind) :=
  [(['('], .leftParen), ([')'], .rightParen), (['\x7b'], .leftBrace), (['\x7d'], .rightBrace),
    ([','], .comma), (['.'], .dot), (['-'], .minus), (['+'], .plus), ([';'], .semicolon),
    (['/'], .slash), (['*'], .star), (['!'], .bang), (['!', '='], .bangEqual), (['='], .equal),
    (['=', '='], .equalEqual), (['>'], .greater), (['>', '='], .greaterEqual), (['<'], .less),
    (['<', '='], .lessEqual)]

/-- No other piece begins with the character. -/
structure Other (c : Char) : Prop where
  blank : isBlank c = false
  quote : c ≠ '"'
  digit : c.isDigit = false
  word : startsWord c = false
  operator : ∀ op ∈ operators, op.1.head? ≠ some c

/-- A comment end stands in the text. -/
def Closes (text : List Char) : Prop := ∃ before after, text = before ++ '*' :: '/' :: after

/-- The value of a number written with these digits. -/
def numberRole (whole fraction : List Char) : Role :=
  .token .number (some (.number (.ofDecimal (.ofDigits whole fraction))))

/-- The pieces that may stand before `rest`. -/
inductive Matches : Piece → List Char → Prop
  | blank {c rest} : isBlank c = true → Matches ⟨[c], .blank⟩ rest
  /-- A comment up to the line's end or the end of the text. -/
  | lineComment {body rest} : '\n' ∉ body → (∀ c, rest.head? = some c → c = '\n') →
      Matches ⟨'/' :: '/' :: body, .comment⟩ rest
  /-- A comment up to the first end mark after the opening one. -/
  | blockComment {body rest} :
      (∀ before after, body ++ ['*', '/'] = before ++ '*' :: '/' :: after → after = []) →
      Matches ⟨'/' :: '*' :: (body ++ ['*', '/']), .comment⟩ rest
  /-- A string up to the next quote; it denotes what stands between. -/
  | string {body rest} : '"' ∉ body →
      Matches ⟨'"' :: (body ++ ['"']), .token .string (some (.text (String.ofList body)))⟩ rest
  | whole {digits rest} : digits ≠ [] → (∀ c ∈ digits, c.isDigit = true) →
      Matches ⟨digits, numberRole digits []⟩ rest
  | fractional {whole fraction rest} : whole ≠ [] → (∀ c ∈ whole, c.isDigit = true) →
      fraction ≠ [] → (∀ c ∈ fraction, c.isDigit = true) →
      Matches ⟨whole ++ '.' :: fraction, numberRole whole fraction⟩ rest
  /-- A name, or a reserved word if it is in their table. -/
  | word {first more rest} : startsWord first = true → (∀ c ∈ more, continuesWord c = true) →
      Matches ⟨first :: more, .token (.ofWord (String.ofList (first :: more))) none⟩ rest
  | operator {text kind rest} : (text, kind) ∈ operators →
      Matches ⟨text, .token kind none⟩ rest
  | unexpected {c rest} : Other c → Matches ⟨[c], .fault (.unexpectedCharacter c)⟩ rest
  /-- A string without an end takes the rest of the text. -/
  | openString {body} : '"' ∉ body → Matches ⟨'"' :: body, .fault .unterminatedString⟩ []
  /-- So does a comment without an end. -/
  | openComment {body} : ¬ Closes body →
      Matches ⟨'/' :: '*' :: body, .fault .unterminatedComment⟩ []

/-! ## Spans of characters -/

section Span

variable {p : Char → Bool} {body rest : List Char}

theorem takeWhile_span (h : ∀ c ∈ body, p c = true) (hrest : ∀ c, rest.head? = some c → p c = false) :
    (body ++ rest).takeWhile p = body := by
  rw [List.takeWhile_append_of_pos h]
  cases rest with
  | nil => exact List.append_nil body
  | cons c more => rw [List.takeWhile_cons_of_neg (by simp [hrest c rfl]), List.append_nil]

theorem dropWhile_span (h : ∀ c ∈ body, p c = true) (hrest : ∀ c, rest.head? = some c → p c = false) :
    (body ++ rest).dropWhile p = rest := by
  rw [List.dropWhile_append_of_pos h]
  cases rest with
  | nil => rfl
  | cons c more => rw [List.dropWhile_cons_of_neg (by simp [hrest c rfl])]

/-- A text falls in one way into a span and what stops it. -/
theorem span_inj {body' rest' : List Char} (h : ∀ c ∈ body, p c = true)
    (hrest : ∀ c, rest.head? = some c → p c = false) (h' : ∀ c ∈ body', p c = true)
    (hrest' : ∀ c, rest'.head? = some c → p c = false) (htext : body ++ rest = body' ++ rest') :
    body = body' ∧ rest = rest' := by
  have hbody := takeWhile_span h hrest
  have hafter := dropWhile_span h hrest
  rw [htext, takeWhile_span h' hrest'] at hbody
  rw [htext, dropWhile_span h' hrest'] at hafter
  exact ⟨hbody.symm, hafter.symm⟩

theorem all_takeWhile (p : Char → Bool) (text : List Char) : ∀ c ∈ text.takeWhile p, p c = true :=
  fun c hc => List.all_eq_true.mp List.all_takeWhile c hc

theorem head?_dropWhile (p : Char → Bool) (text : List Char) :
    ∀ c, (text.dropWhile p).head? = some c → p c = false := by
  intro c hc
  have h := List.head?_dropWhile_not p text
  rw [hc] at h
  simpa using h

theorem all_ne {x : Char} (h : x ∉ body) : ∀ c ∈ body, (c != x) = true := by
  intro c hc
  rw [bne_iff_ne]
  intro hx
  exact h (hx ▸ hc)

theorem not_mem_takeWhile_ne (x : Char) (text : List Char) : x ∉ text.takeWhile (· != x) := by
  intro h
  simpa using all_takeWhile _ _ x h

end Span

/-! ## Comment ends -/

theorem closeComment?_end (after : List Char) :
    closeComment? ('*' :: '/' :: after) = some (['*', '/'], after) := by
  rw [closeComment?]

theorem closeComment?_cons {c : Char} {rest : List Char}
    (h : ¬ (c = '*' ∧ rest.head? = some '/')) :
    closeComment? (c :: rest) = (closeComment? rest).map fun (body, after) => (c :: body, after) := by
  rw [closeComment?]
  intro after hc hrest
  exact h ⟨hc, by rw [hrest]; rfl⟩

/-- What is closed is closed by the first comment end. -/
theorem closeComment?_first {after : List Char} : ∀ {body : List Char},
    (∀ u v, body ++ ['*', '/'] = u ++ '*' :: '/' :: v → v = []) →
    closeComment? (body ++ '*' :: '/' :: after) = some (body ++ ['*', '/'], after)
  | [], _ => closeComment?_end after
  | c :: body, h => by
    -- An end mark here would be one before the last.
    have hnot : ¬ (c = '*' ∧ (body ++ '*' :: '/' :: after).head? = some '/') := by
      intro hclose
      obtain ⟨rfl, hhead⟩ := hclose
      cases body with
      | nil => cases hhead
      | cons d body =>
        cases hhead
        have hv := h [] (body ++ ['*', '/']) rfl
        simp at hv
    have ih : closeComment? (body ++ '*' :: '/' :: after) = some (body ++ ['*', '/'], after) := by
      apply closeComment?_first
      intro u v huv
      exact h (c :: u) v (by rw [List.cons_append, huv, List.cons_append])
    rw [List.cons_append, closeComment?_cons hnot, ih]
    rfl

theorem first_of_closeComment? {after : List Char} : ∀ {text closed : List Char},
    closeComment? text = some (closed, after) →
    ∃ body, closed = body ++ ['*', '/'] ∧
      ∀ u v, body ++ ['*', '/'] = u ++ '*' :: '/' :: v → v = []
  | [], closed, h => by cases h
  | c :: rest, closed, h => by
    by_cases hclose : c = '*' ∧ rest.head? = some '/'
    · obtain ⟨rfl, hhead⟩ := hclose
      obtain ⟨more, rfl⟩ := List.head?_eq_some_iff.mp hhead
      rw [closeComment?_end] at h
      cases h
      refine ⟨[], rfl, fun u v huv => ?_⟩
      match u with
      | [] => simpa using huv
      | [_] => simp at huv
      | _ :: _ :: _ => simp at huv
    · rw [closeComment?_cons hclose] at h
      obtain ⟨⟨closed', after'⟩, hrest, heq⟩ := Option.map_eq_some_iff.mp h
      cases heq
      obtain ⟨body, rfl, hfirst⟩ := first_of_closeComment? hrest
      refine ⟨c :: body, rfl, fun u v huv => ?_⟩
      cases u with
      | nil =>
        rw [List.nil_append, List.cons_append, List.cons.injEq] at huv
        refine absurd ⟨huv.1, ?_⟩ hclose
        rw [← closeComment?_append hrest, List.append_assoc, ← List.append_assoc, huv.2]
        rfl
      | cons d u =>
        rw [List.cons_append, List.cons_append, List.cons.injEq] at huv
        exact hfirst u v huv.2

/-- Nothing is closed exactly if there is no comment end. -/
theorem closeComment?_eq_none : ∀ {text : List Char}, closeComment? text = none ↔ ¬ Closes text
  | [] => by simp [closeComment?, Closes]
  | c :: rest => by
    by_cases hclose : c = '*' ∧ rest.head? = some '/'
    · obtain ⟨rfl, hhead⟩ := hclose
      obtain ⟨more, rfl⟩ := List.head?_eq_some_iff.mp hhead
      rw [closeComment?_end]
      simp only [reduceCtorEq, false_iff, Classical.not_not]
      exact ⟨[], more, rfl⟩
    · rw [closeComment?_cons hclose, Option.map_eq_none_iff, closeComment?_eq_none]
      refine not_congr ⟨fun h => ?_, fun h => ?_⟩
      · obtain ⟨before, after, rfl⟩ := h
        exact ⟨c :: before, after, rfl⟩
      · obtain ⟨before, after, h⟩ := h
        cases before with
        | nil =>
          cases h
          exact absurd ⟨rfl, rfl⟩ hclose
        | cons d before =>
          cases h
          exact ⟨before, after, rfl⟩

/-! ## Which piece a character begins -/

theorem isBlank_cases {c : Char} (h : isBlank c = true) :
    c = ' ' ∨ c = '\t' ∨ c = '\r' ∨ c = '\n' := by
  simpa [isBlank, or_assoc] using h

theorem isDigit_of_startsWord {c : Char} (h : startsWord c = true) : c.isDigit = false := by
  rw [Bool.eq_false_iff]
  intro hdigit
  obtain ⟨hlow, hhigh⟩ := Char.isDigit_iff_toNat.mp hdigit
  have hlow : 48 ≤ c.toNat := hlow
  have hhigh : c.toNat ≤ 57 := hhigh
  have hcases : c.toNat = 48 ∨ c.toNat = 49 ∨ c.toNat = 50 ∨ c.toNat = 51 ∨ c.toNat = 52 ∨
      c.toNat = 53 ∨ c.toNat = 54 ∨ c.toNat = 55 ∨ c.toNat = 56 ∨ c.toNat = 57 := by omega
  rw [← Char.ofNat_toNat c] at h
  rcases hcases with hc | hc | hc | hc | hc | hc | hc | hc | hc | hc <;> rw [hc] at h <;> cases h

theorem cut_of_isBlank {c : Char} (h : isBlank c = true) (rest : List Char) :
    cut c rest = (⟨[c], .blank⟩, rest) := by
  rw [cut, if_pos h]

theorem cut_quote (rest : List Char) : cut '"' rest = cutString rest := rfl

theorem cut_slash (rest : List Char) : cut '/' rest = cutSlash rest := rfl

theorem cut_of_isDigit {c : Char} (h : c.isDigit = true) (rest : List Char) :
    cut c rest = cutNumber c rest := by
  have hblank : ¬ isBlank c = true := by
    intro hblank
    rcases isBlank_cases hblank with rfl | rfl | rfl | rfl <;> cases h
  have hquote : ¬ (c == '"') = true := by
    intro hquote
    cases beq_iff_eq.mp hquote
    cases h
  rw [cut, if_neg hblank, if_neg hquote, if_pos h]

theorem cut_of_startsWord {c : Char} (h : startsWord c = true) (rest : List Char) :
    cut c rest = cutWord c rest := by
  have hblank : ¬ isBlank c = true := by
    intro hblank
    rcases isBlank_cases hblank with rfl | rfl | rfl | rfl <;> cases h
  have hquote : ¬ (c == '"') = true := by
    intro hquote
    cases beq_iff_eq.mp hquote
    cases h
  have hdigit : ¬ c.isDigit = true := by simp [isDigit_of_startsWord h]
  rw [cut, if_neg hblank, if_neg hquote, if_neg hdigit, if_pos h]

theorem mem_operators_of_mark? {c : Char} {kind : Token.Kind} (h : mark? c = some kind) :
    ([c], kind) ∈ operators := by
  unfold mark? at h
  split at h <;> cases h <;> decide

theorem mem_operators_of_extensible? {c : Char} {plain extended : Token.Kind}
    (h : extensible? c = some (plain, extended)) :
    ([c], plain) ∈ operators ∧ ([c, '='], extended) ∈ operators := by
  unfold extensible? at h
  split at h <;> cases h <;> decide

/-- An operator begins with a slash or with a mark. -/
theorem operators_head : ∀ op ∈ operators, op.1.head? = some '/' ∨
    (op.1.head?.bind mark?).isSome = true ∨ (op.1.head?.bind extensible?).isSome = true := by
  decide

theorem cutMark_of_other {c : Char} (h : Other c) (rest : List Char) :
    cutMark c rest = (⟨[c], .fault (.unexpectedCharacter c)⟩, rest) := by
  have hmark : mark? c = none := by
    cases hmark : mark? c with
    | none => rfl
    | some kind => exact absurd rfl (h.operator _ (mem_operators_of_mark? hmark))
  have hextensible : extensible? c = none := by
    cases hextensible : extensible? c with
    | none => rfl
    | some kinds => exact absurd rfl (h.operator _ (mem_operators_of_extensible? hextensible).1)
  simp only [cutMark, hmark, hextensible]

theorem cut_of_other {c : Char} (h : Other c) (rest : List Char) :
    cut c rest = (⟨[c], .fault (.unexpectedCharacter c)⟩, rest) := by
  have hslash : c ≠ '/' := by
    intro hslash
    exact h.operator (['/'], .slash) (by decide) (by rw [hslash]; rfl)
  have hquote := h.quote
  simp only [cut, h.blank, h.digit, h.word, beq_iff_eq, hquote, hslash, if_false,
    Bool.false_eq_true]
  exact cutMark_of_other h rest

end Piece

end Lox

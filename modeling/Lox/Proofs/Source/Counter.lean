/-
Scanning with a counter. Pieces are cut from a text and their lines are told by
the line breaks before them; here the text stays where it is, a cursor is moved
over it, one character at a time, and a counter says which line the cursor is
on. The counter is put up by one at three places: at a line break between
pieces, at one in a string and at one in a comment that runs to its end mark. A
comment to the end of the line leaves the line break in front of the cursor.
Tokens, faults and the end mark get the line that the counter shows once their
text is passed over.

One step passes over the first piece of what is left and puts the counter up
by the line breaks in it (`scanToken_eq`), so a whole run finds what cutting the
text into pieces finds (`scan_eq`).
-/
import Mathlib.Data.List.Basic
import Lox.Proofs.Source.Seam

namespace Lox

/-- A scanner: the text, where the piece being read begins, the character that
comes next, the line, and what was reported so far. -/
structure Scanner where
  source : List Char
  start : Nat
  cursor : Nat
  line : Nat
  reported : List Diagnostic

namespace Scanner

open Piece

/-! ## Characters -/

/-- The scanner at the beginning of a text, on the first line. -/
def ofSource (source : String) : Scanner := ⟨source.toList, 0, 0, 1, []⟩

/-- The character that comes next, if any is left. -/
def peek? (s : Scanner) : Option Char := s.source[s.cursor]?

/-- The character after the one that comes next. -/
def peekSecond? (s : Scanner) : Option Char := s.source[s.cursor + 1]?

/-- Passes over one character, if any is left. -/
def advance (s : Scanner) : Scanner :=
  if s.cursor < s.source.length then { s with cursor := s.cursor + 1 } else s

/-- Puts the counter up by one. -/
def newLine (s : Scanner) : Scanner := { s with line := s.line + 1 }

/-- The next piece begins at the cursor. -/
def begin (s : Scanner) : Scanner := { s with start := s.cursor }

/-- Adds a diagnostic to those reported. -/
def report (s : Scanner) (fault : LexicalFault) : Scanner :=
  { s with reported := s.reported ++ [fault.diagnostic] }

/-- How many characters are left. -/
def left (s : Scanner) : Nat := s.source.length - s.cursor

theorem left_advance_lt {s : Scanner} {c : Char} (h : s.peek? = some c) :
    s.advance.left < s.left := by
  have hlt : s.cursor < s.source.length := (List.getElem?_eq_some_iff.mp h).1
  simp only [advance, if_pos hlt, left]
  omega

/-- Passes over the next character if it is the one expected. -/
def matchNext (expected : Char) (s : Scanner) : Bool × Scanner :=
  if s.peek? = some expected then (true, s.advance) else (false, s)

/-- Passes over characters as long as they are of a kind, not counting lines. -/
def advanceWhile (p : Char → Bool) (s : Scanner) : Scanner :=
  match _ : s.peek? with
  | some c => if p c then s.advance.advanceWhile p else s
  | none => s
termination_by s.left
decreasing_by exact left_advance_lt ‹_›

/-- The text between two places. -/
def slice (s : Scanner) (begin close : Nat) : List Char := (s.source.take close).drop begin

/-- The text from where the piece begins to the cursor. -/
def lexeme (s : Scanner) : List Char := s.slice s.start s.cursor

/-- A token of the text passed over, on the line that the counter shows. -/
def token (s : Scanner) (kind : Token.Kind) (literal : Option Literal) : Token :=
  ⟨kind, String.ofList s.lexeme, literal, s.line⟩

/-! ## Pieces -/

/-- What one step finds, a token, nothing or a fault, and where it ends. -/
abbrev Step := Except LexicalFault (Option Token) × Scanner

/-- A token that denotes nothing. -/
def plain (kind : Token.Kind) (s : Scanner) : Step := (.ok (some (s.token kind none)), s)

/-- One of two kinds, the second if an equals sign comes next. -/
def orEqual (kind extended : Token.Kind) (s : Scanner) : Step :=
  match s.matchNext '=' with
  | (true, s) => s.plain extended
  | (false, s) => s.plain kind

/-- A comment to its end mark, its opening already passed over. -/
def blockComment (s : Scanner) : Step :=
  match _ : s.peek? with
  | some c =>
    if c = '*' ∧ s.peekSecond? = some '/' then (.ok none, s.advance.advance)
    else if c = '\n' then s.newLine.advance.blockComment
    else s.advance.blockComment
  | none => (.error ⟨s.line, .unterminatedComment⟩, s)
termination_by s.left
decreasing_by
  · exact left_advance_lt (s := s.newLine) ‹_›
  · exact left_advance_lt ‹_›

/-- Passes over characters up to the next quote. -/
def advanceToQuote (s : Scanner) : Scanner :=
  match _ : s.peek? with
  | some c =>
    if c = '"' then s
    else if c = '\n' then s.newLine.advance.advanceToQuote
    else s.advance.advanceToQuote
  | none => s
termination_by s.left
decreasing_by
  · exact left_advance_lt (s := s.newLine) ‹_›
  · exact left_advance_lt ‹_›

/-- A string, its opening quote already passed over. -/
def string (s : Scanner) : Step :=
  let s := s.advanceToQuote
  match s.peek? with
  | none => (.error ⟨s.line, .unterminatedString⟩, s)
  | some _ =>
    let s := s.advance
    let value := String.ofList (s.slice (s.start + 1) (s.cursor - 1))
    (.ok (some (s.token .string (some (.text value)))), s)

/-- The number that digits, with or without a point among them, denote. -/
def numeral (text : List Char) : Binary64 :=
  .ofDecimal (.ofDigits (text.takeWhile (· != '.')) ((text.dropWhile (· != '.')).drop 1))

/-- A number, its first digit already passed over. -/
def number (s : Scanner) : Step :=
  let s := s.advanceWhile Char.isDigit
  let s :=
    if s.peek? = some '.' ∧ s.peekSecond?.any Char.isDigit then
      s.advance.advanceWhile Char.isDigit
    else s
  (.ok (some (s.token .number (some (.number (numeral s.lexeme))))), s)

/-- A name or reserved word, its first character already passed over. -/
def identifier (s : Scanner) : Step :=
  let s := s.advanceWhile continuesWord
  s.plain (.ofWord (String.ofList s.lexeme))

/-- What begins with a slash, which is already passed over. -/
def slash (s : Scanner) : Step :=
  match s.matchNext '/' with
  | (true, s) => (.ok none, s.advanceWhile (· != '\n'))
  | (false, s) =>
    match s.matchNext '*' with
    | (true, s) => s.blockComment
    | (false, s) => s.plain .slash

/-- Passes over one piece of the text. -/
def scanToken (s : Scanner) : Step :=
  match s.peek? with
  | none => (.ok none, s)
  | some c =>
    let s := s.advance
    match c with
    | '(' => s.plain .leftParen
    | ')' => s.plain .rightParen
    | '\x7b' => s.plain .leftBrace
    | '\x7d' => s.plain .rightBrace
    | ',' => s.plain .comma
    | '.' => s.plain .dot
    | '-' => s.plain .minus
    | '+' => s.plain .plus
    | ';' => s.plain .semicolon
    | '*' => s.plain .star
    | '!' => s.orEqual .bang .bangEqual
    | '=' => s.orEqual .equal .equalEqual
    | '<' => s.orEqual .less .lessEqual
    | '>' => s.orEqual .greater .greaterEqual
    | '/' => s.slash
    | ' ' => (.ok none, s)
    | '\r' => (.ok none, s)
    | '\t' => (.ok none, s)
    | '\n' => (.ok none, s.newLine)
    | '"' => s.string
    | c =>
      if c.isDigit then s.number
      else if startsWord c then s.identifier
      else (.error ⟨s.line, .unexpectedCharacter c⟩, s)

/-! ## Passing over a text -/

/-- The text that is left. -/
def rest (s : Scanner) : List Char := s.source.drop s.cursor

/-- The scanner behind a text, with every line break in it counted. -/
def beyond (text : List Char) (s : Scanner) : Scanner :=
  { s with cursor := s.cursor + text.length, line := s.line + newlines text }

variable {s : Scanner} {text after : List Char} {c : Char}

theorem peek?_eq (s : Scanner) : s.peek? = s.rest.head? := by
  rw [peek?, rest, List.head?_drop]

theorem peek?_of_rest (h : s.rest = c :: after) : s.peek? = some c := by
  rw [peek?_eq, h, List.head?_cons]

theorem peek?_of_nil (h : s.rest = []) : s.peek? = none := by
  rw [peek?_eq, h, List.head?_nil]

theorem peekSecond?_of_rest (h : s.rest = c :: after) : s.peekSecond? = after.head? := by
  have hnext : s.source.drop (s.cursor + 1) = after := by
    rw [← List.drop_drop, ← rest, h, List.drop_one, List.tail_cons]
  rw [peekSecond?, ← List.head?_drop, hnext]

theorem matchNext_of_ne (h : s.rest.head? ≠ some c) : s.matchNext c = (false, s) := by
  rw [matchNext, peek?_eq, if_neg h]

@[simp] theorem beyond_nil (s : Scanner) : s.beyond [] = s := rfl

theorem beyond_beyond (s : Scanner) (t u : List Char) :
    (s.beyond t).beyond u = s.beyond (t ++ u) := by
  simp only [beyond, List.length_append, newlines_append, Nat.add_assoc]

theorem rest_beyond (h : s.rest = text ++ after) : (s.beyond text).rest = after := by
  simp only [rest, beyond] at h ⊢
  rw [← List.drop_drop, h, List.drop_left]

theorem advance_of_rest (h : s.rest = c :: after) :
    s.advance = { s with cursor := s.cursor + 1 } := by
  have hlt : s.cursor < s.source.length := (List.getElem?_eq_some_iff.mp (peek?_of_rest h)).1
  rw [advance, if_pos hlt]

/-- No line is counted at a character that is no line break. -/
theorem advance_eq (h : s.rest = c :: after) (hc : c ≠ '\n') : s.advance = s.beyond [c] := by
  have hbreaks : newlines [c] = 0 := List.count_singleton.trans (by simp [hc])
  rw [advance_of_rest h, beyond, hbreaks]
  rfl

theorem matchNext_of_rest (h : s.rest = c :: after) (hc : c ≠ '\n') :
    s.matchNext c = (true, s.beyond [c]) := by
  rw [matchNext, peek?_of_rest h, if_pos rfl, advance_eq h hc]

theorem newLine_advance_eq (h : s.rest = '\n' :: after) : s.newLine.advance = s.beyond ['\n'] := by
  have hrest : s.newLine.rest = '\n' :: after := h
  rw [advance_of_rest hrest]
  rfl

/-- What a text that was passed over holds, behind what was skipped of it. -/
theorem slice_eq (skipped : List Char) (h : s.rest = skipped ++ (text ++ after)) :
    s.slice (s.cursor + skipped.length) (s.cursor + skipped.length + text.length) = text := by
  rw [slice, List.drop_take, Nat.add_sub_cancel_left, ← List.drop_drop, ← rest, h, List.drop_left,
    List.take_left]

theorem lexeme_beyond (hstart : s.start = s.cursor) (h : s.rest = text ++ after) :
    (s.beyond text).lexeme = text := by
  have hslice : s.slice s.cursor (s.cursor + text.length) = text := slice_eq [] h
  rw [← hstart] at hslice
  rw [lexeme, beyond, ← hstart]
  exact hslice

theorem token_beyond (hstart : s.start = s.cursor) (h : s.rest = text ++ after) (kind : Token.Kind)
    (literal : Option Literal) : (s.beyond text).token kind literal =
      ⟨kind, String.ofList text, literal, (s.beyond text).line⟩ := by
  rw [token, lexeme_beyond hstart h]

/-! ## Loops -/

section Unrolled

variable {p : Char → Bool}

theorem advanceWhile_nil (h : s.rest = []) : s.advanceWhile p = s := by
  have hpeek := peek?_of_nil h
  rw [advanceWhile]
  split <;> simp_all

theorem advanceWhile_cons (h : s.rest = c :: after) :
    s.advanceWhile p = if p c then s.advance.advanceWhile p else s := by
  have hpeek := peek?_of_rest h
  rw [advanceWhile]
  split <;> simp_all

theorem advanceToQuote_nil (h : s.rest = []) : s.advanceToQuote = s := by
  have hpeek := peek?_of_nil h
  rw [advanceToQuote]
  split <;> simp_all

theorem advanceToQuote_cons (h : s.rest = c :: after) : s.advanceToQuote =
    if c = '"' then s
    else if c = '\n' then s.newLine.advance.advanceToQuote else s.advance.advanceToQuote := by
  have hpeek := peek?_of_rest h
  rw [advanceToQuote]
  split <;> simp_all

theorem blockComment_nil (h : s.rest = []) :
    s.blockComment = (.error ⟨s.line, .unterminatedComment⟩, s) := by
  have hpeek := peek?_of_nil h
  rw [blockComment]
  split <;> simp_all

theorem blockComment_cons (h : s.rest = c :: after) : s.blockComment =
    if c = '*' ∧ after.head? = some '/' then (.ok none, s.advance.advance)
    else if c = '\n' then s.newLine.advance.blockComment else s.advance.blockComment := by
  have hpeek := peek?_of_rest h
  rw [blockComment, peekSecond?_of_rest h]
  split <;> simp_all

end Unrolled

/-- Passing over characters of a kind that no line break is of leaves no line
uncounted. -/
theorem advanceWhile_eq {p : Char → Bool} (hp : p '\n' = false) : ∀ {text : List Char}
    {s : Scanner}, s.rest = text → s.advanceWhile p = s.beyond (text.takeWhile p)
  | [], _, h => advanceWhile_nil h
  | c :: text, s, h => by
    rw [advanceWhile_cons h]
    by_cases hc : p c = true
    · have hbreak : c ≠ '\n' := by
        rintro rfl
        rw [hp] at hc
        cases hc
      rw [if_pos hc, advance_eq h hbreak, advanceWhile_eq hp (rest_beyond h), beyond_beyond,
        List.takeWhile_cons_of_pos hc]
      rfl
    · rw [if_neg hc, List.takeWhile_cons_of_neg hc, beyond_nil]

theorem advanceWhile_beyond {p : Char → Bool} (hp : p '\n' = false) (text : List Char)
    (h : s.rest = text ++ after) :
    (s.beyond text).advanceWhile p = s.beyond (text ++ after.takeWhile p) ∧
      s.rest = text ++ after.takeWhile p ++ after.dropWhile p := by
  constructor
  · rw [advanceWhile_eq hp (rest_beyond h), beyond_beyond]
  · rw [h, List.append_assoc, List.takeWhile_append_dropWhile]

/-- A step of the loops in strings and in comments, which count every line. -/
theorem ite_newLine_advance {α : Type} (f : Scanner → α) (h : s.rest = c :: after) :
    (if c = '\n' then f s.newLine.advance else f s.advance) = f (s.beyond [c]) := by
  split
  · next hbreak =>
    subst hbreak
    rw [newLine_advance_eq h]
  · next hbreak => rw [advance_eq h hbreak]

theorem advanceToQuote_eq : ∀ {text : List Char} {s : Scanner}, s.rest = text →
    s.advanceToQuote = s.beyond (text.takeWhile (· != '"'))
  | [], _, h => advanceToQuote_nil h
  | c :: text, s, h => by
    rw [advanceToQuote_cons h, ite_newLine_advance advanceToQuote h]
    by_cases hquote : c = '"'
    · simp [hquote]
    · have hwhile : (c :: text).takeWhile (· != '"') = [c] ++ text.takeWhile (· != '"') := by
        simp [hquote]
      rw [if_neg hquote, advanceToQuote_eq (rest_beyond h), beyond_beyond, hwhile]

theorem blockComment_eq : ∀ {text : List Char} {s : Scanner}, s.rest = text →
    s.blockComment = match closeComment? text with
      | some (body, _) => (.ok none, s.beyond body)
      | none => (.error ⟨(s.beyond text).line, .unterminatedComment⟩, s.beyond text)
  | [], _, h => blockComment_nil h
  | c :: text, s, h => by
    rw [blockComment_cons h, ite_newLine_advance blockComment h]
    by_cases hclose : c = '*' ∧ text.head? = some '/'
    · obtain ⟨rfl, hslash⟩ := hclose
      obtain ⟨after, rfl⟩ : ∃ after, text = '/' :: after := List.head?_eq_some_iff.mp hslash
      have hstar : s.advance = s.beyond ['*'] := advance_eq h (by decide)
      have hend : (s.beyond ['*']).advance = (s.beyond ['*']).beyond ['/'] :=
        advance_eq (rest_beyond h) (by decide)
      rw [if_pos ⟨rfl, rfl⟩, closeComment?_end, hstar, hend, beyond_beyond]
      rfl
    · rw [if_neg hclose, closeComment?_cons hclose, blockComment_eq (rest_beyond h), beyond_beyond]
      cases closeComment? text with
      | none => rfl
      | some closed => simp only [Option.map_some, beyond_beyond]; rfl

/-! ## One step -/

/-- A step over a piece: what the piece is, on the line behind it. -/
def past (p : Piece) (s : Scanner) : Step :=
  let s := s.beyond p.text
  match p.role with
  | .token kind literal => (.ok (some ⟨kind, String.ofList p.text, literal, s.line⟩), s)
  | .fault cause => (.error ⟨s.line, cause⟩, s)
  | .blank | .comment => (.ok none, s)

theorem numeral_whole {whole : List Char} (h : ∀ c ∈ whole, c.isDigit = true) :
    Role.token .number (some (.number (numeral whole))) = numberRole whole [] := by
  have hpoint : '.' ∉ whole := fun hmem => by cases h _ hmem
  have hnil : ∀ c, ([] : List Char).head? = some c → (c != '.') = false := by simp
  have htake := takeWhile_span (all_ne hpoint) hnil
  have hdrop := dropWhile_span (all_ne hpoint) hnil
  rw [List.append_nil] at htake hdrop
  rw [numeral, htake, hdrop]
  rfl

theorem numeral_fractional {whole : List Char} (h : ∀ c ∈ whole, c.isDigit = true)
    (fraction : List Char) :
    Role.token .number (some (.number (numeral (whole ++ '.' :: fraction)))) =
      numberRole whole fraction := by
  have hpoint : '.' ∉ whole := fun hmem => by cases h _ hmem
  have hstops : ∀ c, ('.' :: fraction).head? = some c → (c != '.') = false := by simp
  rw [numeral, takeWhile_span (all_ne hpoint) hstops, dropWhile_span (all_ne hpoint) hstops]
  rfl

section Step

variable {first : Char} {rest : List Char} (hstart : s.start = s.cursor)

include hstart

theorem plain_beyond (text : List Char) (h : s.rest = text ++ after) (kind : Token.Kind) :
    (s.beyond text).plain kind = s.past ⟨text, .token kind none⟩ := by
  rw [plain, token_beyond hstart h]
  rfl

theorem orEqual_eq {kind extended : Token.Kind}
    (hfirst : extensible? first = some (kind, extended)) (h : s.rest = first :: rest) :
    (s.beyond [first]).orEqual kind extended = s.past (cut first rest).1 := by
  have hrest : (s.beyond [first]).rest = rest := rest_beyond h
  rw [orEqual, cut_of_extensible? hfirst]
  by_cases hequal : rest.head? = some '='
  · obtain ⟨after, rfl⟩ := List.head?_eq_some_iff.mp hequal
    rw [matchNext_of_rest hrest (by decide), beyond_beyond]
    exact plain_beyond hstart [first, '='] h extended
  · simp only [matchNext_of_ne (c := '=') (by rwa [hrest])]
    split
    · exact absurd List.head?_cons hequal
    · exact plain_beyond hstart [first] h kind

theorem string_eq (h : s.rest = '"' :: rest) :
    (s.beyond ['"']).string = s.past (cutString rest).1 := by
  have hsplit : rest.takeWhile (· != '"') ++ rest.dropWhile (· != '"') = rest :=
    List.takeWhile_append_dropWhile
  have hstops := head?_dropWhile (· != '"') rest
  have hloop : (s.beyond ['"']).advanceToQuote = s.beyond ('"' :: rest.takeWhile (· != '"')) := by
    rw [advanceToQuote_eq (rest_beyond h), beyond_beyond]
    rfl
  rw [string, hloop, cutString]
  generalize rest.takeWhile (· != '"') = body at hsplit
  generalize rest.dropWhile (· != '"') = left at hsplit hstops
  subst hsplit
  have hleft : (s.beyond ('"' :: body)).rest = left := rest_beyond h
  cases left with
  | nil =>
    simp only [peek?_of_nil hleft, List.append_nil]
    rfl
  | cons quote after =>
    have hquote : quote = '"' := by simpa using hstops quote rfl
    subst hquote
    have htext : s.rest = '"' :: (body ++ ['"']) ++ after := by simp [h]
    have hclose : (s.beyond ('"' :: body)).advance = s.beyond ('"' :: (body ++ ['"'])) := by
      rw [advance_eq hleft (by decide), beyond_beyond]
      rfl
    have hvalue :
        s.slice (s.start + 1) ((s.beyond ('"' :: (body ++ ['"']))).cursor - 1) = body := by
      have hcursor : (s.beyond ('"' :: (body ++ ['"']))).cursor - 1 =
          s.cursor + 1 + body.length := by
        simp only [beyond, List.length_cons, List.length_append, List.length_nil]
        omega
      rw [hcursor, hstart]
      exact slice_eq ['"'] h
    simp only [peek?_of_rest hleft, hclose, token_beyond hstart htext]
    rw [show (s.beyond ('"' :: (body ++ ['"']))).slice = s.slice from rfl]
    rw [show (s.beyond ('"' :: (body ++ ['"']))).start = s.start from rfl, hvalue]
    rfl

theorem numeral_beyond (h : s.rest = text ++ after) :
    ((.ok (some ((s.beyond text).token .number (some (.number (numeral (s.beyond text).lexeme))))),
      s.beyond text) : Step) = s.past ⟨text, .token .number (some (.number (numeral text)))⟩ := by
  rw [lexeme_beyond hstart h, token_beyond hstart h]
  rfl

theorem number_eq (hfirst : first.isDigit = true) (h : s.rest = first :: rest) :
    (s.beyond [first]).number = s.past (cutNumber first rest).1 := by
  have hwhole : ∀ c ∈ first :: rest.takeWhile Char.isDigit, c.isDigit = true :=
    List.forall_mem_cons.mpr ⟨hfirst, all_takeWhile Char.isDigit rest⟩
  obtain ⟨hloop, htext⟩ := advanceWhile_beyond (p := Char.isDigit) rfl [first] h
  have hleft := rest_beyond htext
  simp only [number, hloop, cutNumber]
  rw [List.singleton_append] at htext hleft ⊢
  generalize first :: rest.takeWhile Char.isDigit = whole at *
  generalize rest.dropWhile Char.isDigit = left at *
  split
  · next hpoint =>
    obtain ⟨hpeek, hsecond⟩ := hpoint
    rw [peek?_eq, hleft] at hpeek
    obtain ⟨tail, rfl⟩ := List.head?_eq_some_iff.mp hpeek
    rw [peekSecond?_of_rest hleft] at hsecond
    cases tail with
    | nil => cases hsecond
    | cons digit after =>
      have hdigit : digit.isDigit = true := hsecond
      have hpointed : s.rest = (whole ++ ['.']) ++ digit :: after := by
        rw [htext, List.append_assoc, List.singleton_append]
      obtain ⟨hfraction, hall⟩ := advanceWhile_beyond (p := Char.isDigit) rfl _ hpointed
      rw [List.takeWhile_cons_of_pos hdigit, List.append_assoc whole, List.singleton_append]
        at hfraction hall
      rw [advance_eq hleft (by decide), beyond_beyond, hfraction, numeral_beyond hstart hall,
        numeral_fractional hwhole]
      simp only [hdigit, if_true]
      rfl
  · next hpoint =>
    rw [numeral_beyond hstart htext, numeral_whole hwhole]
    split
    · next digit after =>
      have hdigit : ¬ digit.isDigit = true := by
        intro hdigit
        refine hpoint ⟨peek?_of_rest hleft, ?_⟩
        rw [peekSecond?_of_rest hleft]
        exact hdigit
      rw [if_neg hdigit]
      rfl
    · rfl

theorem identifier_eq (h : s.rest = first :: rest) :
    (s.beyond [first]).identifier = s.past (cutWord first rest).1 := by
  obtain ⟨hloop, htext⟩ := advanceWhile_beyond (p := continuesWord) rfl [first] h
  simp only [identifier, hloop, lexeme_beyond hstart htext]
  exact plain_beyond hstart _ htext _

theorem slash_eq (h : s.rest = '/' :: rest) :
    (s.beyond ['/']).slash = s.past (cutSlash rest).1 := by
  have hrest : (s.beyond ['/']).rest = rest := rest_beyond h
  rw [slash]
  by_cases hline : rest.head? = some '/'
  · obtain ⟨after, rfl⟩ := List.head?_eq_some_iff.mp hline
    have hopened : ((s.beyond ['/']).beyond ['/']).rest = after := rest_beyond hrest
    rw [matchNext_of_rest hrest (by decide)]
    simp only
    rw [advanceWhile_eq rfl hopened, beyond_beyond, beyond_beyond]
    rfl
  rw [matchNext_of_ne (by rwa [hrest])]
  by_cases hblock : rest.head? = some '*'
  · obtain ⟨after, rfl⟩ := List.head?_eq_some_iff.mp hblock
    have hopened : ((s.beyond ['/']).beyond ['*']).rest = after := rest_beyond hrest
    simp only [matchNext_of_rest hrest (by decide : '*' ≠ '\n')]
    rw [blockComment_eq hopened, cutSlash]
    cases closeComment? after with
    | none =>
      simp only [beyond_beyond]
      rfl
    | some closed =>
      simp only [beyond_beyond]
      rfl
  · simp only [matchNext_of_ne (c := '*') (by rwa [hrest])]
    rw [plain_beyond hstart ['/'] h]
    unfold cutSlash
    split
    · exact absurd List.head?_cons hline
    · exact absurd List.head?_cons hblock
    · rfl

/-- **One step.** A scanner at the beginning of a piece passes over the piece
that is cut there, finds what that piece is, and puts the counter up by the
line breaks in it. -/
theorem scanToken_eq (h : s.rest = first :: rest) : s.scanToken = s.past (cut first rest).1 := by
  by_cases hbreak : first = '\n'
  · subst hbreak
    simp only [scanToken, peek?_of_rest h, advance_of_rest h]
    rfl
  have hbeyond := advance_eq h hbreak
  simp only [scanToken, peek?_of_rest h, hbeyond]
  split
  -- Left open are a line break, which was dealt with, and the characters not listed.
  all_goals first
    | exact plain_beyond hstart [_] h _
    | exact orEqual_eq hstart rfl h
    | exact slash_eq hstart h
    | exact string_eq hstart h
    | rfl
    | skip
  · exact absurd rfl hbreak
  · by_cases hdigit : first.isDigit = true
    · rw [if_pos hdigit, cut_of_isDigit hdigit]
      exact number_eq hstart hdigit h
    by_cases hword : startsWord first = true
    · rw [if_neg hdigit, if_pos hword, cut_of_startsWord hword]
      exact identifier_eq hstart h
    have hother : Other first := by
      refine ⟨?_, ‹_›, Bool.not_eq_true _ ▸ hdigit, Bool.not_eq_true _ ▸ hword, ?_⟩
      · simp only [isBlank, Bool.or_eq_false_iff, beq_eq_false_iff_ne]
        exact ⟨⟨⟨‹_›, ‹_›⟩, ‹_›⟩, ‹_›⟩
      · simp only [operators, List.forall_mem_cons, List.head?_cons, ne_eq, Option.some.injEq,
          eq_comm]
        and_intros <;> first | assumption | exact List.forall_mem_nil _
    rw [if_neg hdigit, if_neg hword, cut_of_other hother]
    rfl

end Step

/-! ## All steps -/

theorem past_snd (p : Piece) (s : Scanner) : (s.past p).2 = s.beyond p.text := by
  rw [past]
  split <;> rfl

theorem left_begin_scanToken_lt {t : Scanner} {found : Except LexicalFault (Option Token)}
    (hpeek : s.peek? = some c) (h : s.begin.scanToken = (found, t)) : t.left < s.left := by
  rw [peek?_eq] at hpeek
  obtain ⟨rest, hrest⟩ := List.head?_eq_some_iff.mp hpeek
  have hlt : s.cursor < s.source.length := by
    have hlength := congrArg List.length hrest
    simp only [Scanner.rest, List.length_drop, List.length_cons] at hlength
    omega
  have htext := List.length_pos_iff.mpr (cut_text_ne_nil c rest)
  have ht : s.begin.beyond (cut c rest).1.text = t := by
    rw [← past_snd, ← scanToken_eq (s := s.begin) rfl hrest, h]
  rw [← ht]
  simp only [left, beyond, begin]
  omega

/-- Passes over the whole text, adding the tokens found to those found before
and the end mark last; faults are reported as they are found. -/
def scanTokens (tokens : List Token) (s : Scanner) : List Token × Scanner :=
  match _ : s.peek? with
  | none => (tokens ++ [.eof s.line], s)
  | some _ =>
    match _ : s.begin.scanToken with
    | (.ok (some t), s') => s'.scanTokens (tokens ++ [t])
    | (.ok none, s') => s'.scanTokens tokens
    | (.error fault, s') => (s'.report fault).scanTokens tokens
termination_by s.left
decreasing_by
  · exact left_begin_scanToken_lt ‹_› ‹_›
  · exact left_begin_scanToken_lt ‹_› ‹_›
  · exact left_begin_scanToken_lt (t := s') ‹_› ‹_›

/-- The tokens of a text, the end mark last, and the diagnostics. -/
def scan (source : String) : List Token × List Diagnostic :=
  let (tokens, s) := (ofSource source).scanTokens []
  (tokens, s.reported)

theorem scanTokens_nil (h : s.rest = []) (tokens : List Token) :
    s.scanTokens tokens = (tokens ++ [.eof s.line], s) := by
  have hpeek := peek?_of_nil h
  rw [scanTokens]
  split <;> simp_all

/-- The scanner behind a piece, where the piece is reported if it is faulty. -/
def behind (p : Piece) (s : Scanner) : Scanner :=
  let s := s.begin.beyond p.text
  { s with reported := s.reported ++ (p.fault? s.line).toList.map LexicalFault.diagnostic }

theorem scanTokens_step (h : s.peek? = some c) (tokens : List Token) :
    s.scanTokens tokens = match s.begin.scanToken with
      | (.ok (some t), s') => s'.scanTokens (tokens ++ [t])
      | (.ok none, s') => s'.scanTokens tokens
      | (.error fault, s') => (s'.report fault).scanTokens tokens := by
  rw [scanTokens]
  split
  · next hnone =>
    rw [h] at hnone
    cases hnone
  · split <;> next heq => rw [heq]

theorem scanTokens_cons {first : Char} {rest : List Char} (h : s.rest = first :: rest)
    (tokens : List Token) : s.scanTokens tokens = (s.behind (cut first rest).1).scanTokens
      (tokens ++ ((cut first rest).1.token? (s.behind (cut first rest).1).line).toList) := by
  have hstep : s.begin.scanToken = s.begin.past (cut first rest).1 := scanToken_eq rfl h
  rw [scanTokens_step (peek?_of_rest h), hstep, past]
  cases hrole : (cut first rest).1.role <;> simp [behind, token?, fault?, hrole, report]

/-- **A whole run.** It adds the tokens and the faults of the pieces that are
left, on the lines told by the line breaks in them. -/
theorem scanTokens_eq (text : List Char) :
    ∀ {s : Scanner} (_ : s.rest = text) (tokens : List Token),
    (s.scanTokens tokens).1 = tokens ++ (located s.line (pieces text)).filterMap
        (fun (line, p) => p.token? line) ++ [.eof (s.line + newlines text)] ∧
      (s.scanTokens tokens).2.reported = s.reported ++ ((located s.line (pieces text)).filterMap
        (fun (line, p) => p.fault? line)).map LexicalFault.diagnostic := by
  fun_induction pieces text with
  | case1 =>
    intro s h tokens
    rw [scanTokens_nil h]
    simp [located, newlines]
  | case2 first rest ih =>
    intro s h tokens
    have hcut := cut_append first rest
    have hrest : (s.behind (cut first rest).1).rest = (cut first rest).2 :=
      rest_beyond (s := s.begin) (h.trans hcut.symm)
    have hlines : s.line + newlines (first :: rest) =
        (s.behind (cut first rest).1).line + newlines (cut first rest).2 := by
      rw [← hcut, newlines_append, ← Nat.add_assoc]
      rfl
    obtain ⟨htokens, hreported⟩ := ih hrest
      (tokens ++ ((cut first rest).1.token? (s.behind (cut first rest).1).line).toList)
    simp only [List.filterMap_eq_flatMap_toList] at htokens hreported ⊢
    rw [scanTokens_cons h, htokens, hreported, hlines, located, List.flatMap_cons,
      List.flatMap_cons, List.map_append, List.append_assoc tokens, ← List.append_assoc s.reported]
    exact ⟨rfl, rfl⟩

/-- **The counter and the line breaks agree.** The scanner finds the tokens and
the diagnostics that cutting its text into pieces finds, each on the same line. -/
theorem scan_eq (source : String) :
    scan source = ((Scan.ofSource source).tokens, (Scan.ofSource source).diagnostics) := by
  obtain ⟨htokens, hreported⟩ := scanTokens_eq source.toList (s := ofSource source) rfl []
  exact Prod.ext htokens hreported

end Scanner

end Lox

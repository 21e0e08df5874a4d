/-
Source text falls into consecutive pieces: blanks, comments, tokens, and
faults where no other piece fits. `cut` takes the first piece off a text;
nothing is lost (`cut_append`) and something is always taken
(`cut_text_ne_nil`), so `pieces` splits any text into its pieces.
-/
import Lox.Report.Fault

namespace Lox

/-- What a piece of source text is. -/
inductive Piece.Role where
  | blank
  | comment
  | token (kind : Token.Kind) (literal : Option Literal)
  | fault (cause : LexicalCause)
deriving DecidableEq

/-- A stretch of source text, and what it is. -/
structure Piece where
  /-- The characters themselves. -/
  text : List Char
  /-- What they are. -/
  role : Piece.Role
deriving DecidableEq

namespace Piece

/-! ## Characters -/

/-- The characters that part tokens and mean nothing. -/
def isBlank (c : Char) : Bool := c == ' ' || c == '\t' || c == '\r' || c == '\n'

/-- The characters a name or a keyword begins with. -/
def startsWord (c : Char) : Bool := c.isAlpha || c == '_'

/-- The characters it goes on with. -/
def continuesWord (c : Char) : Bool := c.isAlphanum || c == '_'

/-- Marks that are a token by themselves. -/
def mark? : Char → Option Token.Kind
  | '(' => some .leftParen
  | ')' => some .rightParen
  | '\x7b' => some .leftBrace
  | '\x7d' => some .rightBrace
  | ',' => some .comma
  | '.' => some .dot
  | '-' => some .minus
  | '+' => some .plus
  | ';' => some .semicolon
  | '*' => some .star
  | _ => none

/-- Marks that an equals sign may extend, with both kinds. -/
def extensible? : Char → Option (Token.Kind × Token.Kind)
  | '!' => some (.bang, .bangEqual)
  | '=' => some (.equal, .equalEqual)
  | '<' => some (.less, .lessEqual)
  | '>' => some (.greater, .greaterEqual)
  | _ => none

/-! ## Cutting one piece -/

/-- A string, its opening quote already seen: up to the next quote, across
lines, with no escapes. -/
def cutString (rest : List Char) : Piece × List Char :=
  match rest.dropWhile (· != '"') with
  | [] => (⟨'"' :: rest, .fault .unterminatedString⟩, [])
  | quote :: after =>
    let body := rest.takeWhile (· != '"')
    (⟨'"' :: (body ++ [quote]), .token .string (some (.text (String.ofList body)))⟩, after)

/-- A number, its first digit already seen: digits, and a point with more
digits if a digit follows the point. -/
def cutNumber (first : Char) (rest : List Char) : Piece × List Char :=
  let whole := first :: rest.takeWhile Char.isDigit
  let number (fraction : List Char) : Role :=
    .token .number (some (.number (.ofDecimal (.ofDigits whole fraction))))
  match rest.dropWhile Char.isDigit with
  | '.' :: digit :: after =>
    if digit.isDigit then
      let fraction := digit :: after.takeWhile Char.isDigit
      (⟨whole ++ '.' :: fraction, number fraction⟩, after.dropWhile Char.isDigit)
    else (⟨whole, number []⟩, '.' :: digit :: after)
  | after => (⟨whole, number []⟩, after)

/-- A name or reserved word, its first character already seen. -/
def cutWord (first : Char) (rest : List Char) : Piece × List Char :=
  let word := first :: rest.takeWhile continuesWord
  (⟨word, .token (.ofWord (String.ofList word)) none⟩, rest.dropWhile continuesWord)

/-- The text through the first comment end, and what follows it. -/
def closeComment? : List Char → Option (List Char × List Char)
  | [] => none
  | c :: rest =>
    match c, rest with
    | '*', '/' :: after => some (['*', '/'], after)
    | _, _ => (closeComment? rest).map fun (body, after) => (c :: body, after)

/-- What begins with a slash: a comment to the end of the line, a comment
to its end mark, or division. -/
def cutSlash : List Char → Piece × List Char
  | '/' :: rest =>
    (⟨'/' :: '/' :: rest.takeWhile (· != '\n'), .comment⟩, rest.dropWhile (· != '\n'))
  | '*' :: rest =>
    match closeComment? rest with
    | some (body, after) => (⟨'/' :: '*' :: body, .comment⟩, after)
    | none => (⟨'/' :: '*' :: rest, .fault .unterminatedComment⟩, [])
  | rest => (⟨['/'], .token .slash none⟩, rest)

/-- A mark, extended by an equals sign where it can be; any other character
is a fault by itself. -/
def cutMark (first : Char) (rest : List Char) : Piece × List Char :=
  match mark? first, extensible? first with
  | some kind, _ => (⟨[first], .token kind none⟩, rest)
  | none, some (plain, extended) =>
    match rest with
    | '=' :: after => (⟨[first, '='], .token extended none⟩, after)
    | _ => (⟨[first], .token plain none⟩, rest)
  | none, none => (⟨[first], .fault (.unexpectedCharacter first)⟩, rest)

/-- The first piece of a text and what follows it. -/
def cut (first : Char) (rest : List Char) : Piece × List Char :=
  if isBlank first then (⟨[first], .blank⟩, rest)
  else if first == '"' then cutString rest
  else if first.isDigit then cutNumber first rest
  else if startsWord first then cutWord first rest
  else if first == '/' then cutSlash rest
  else cutMark first rest

/-! ## Nothing is lost -/

theorem cutString_append (rest : List Char) :
    (cutString rest).1.text ++ (cutString rest).2 = '"' :: rest := by
  have split := List.takeWhile_append_dropWhile (p := (· != '"')) (l := rest)
  unfold cutString
  cases h : rest.dropWhile (· != '"') with
  | nil => simp
  | cons quote after => rw [h] at split; simp [split]

theorem cutNumber_append (first : Char) (rest : List Char) :
    (cutNumber first rest).1.text ++ (cutNumber first rest).2 = first :: rest := by
  have split := List.takeWhile_append_dropWhile (p := Char.isDigit) (l := rest)
  unfold cutNumber
  split
  · next digit after h =>
    rw [h] at split
    split <;> simp [split]
  · simp [split]

theorem cutWord_append (first : Char) (rest : List Char) :
    (cutWord first rest).1.text ++ (cutWord first rest).2 = first :: rest := by
  simp [cutWord, List.takeWhile_append_dropWhile]

theorem closeComment?_append {text body after : List Char}
    (h : closeComment? text = some (body, after)) : body ++ after = text := by
  induction text generalizing body with
  | nil => simp [closeComment?] at h
  | cons c rest ih =>
    unfold closeComment? at h
    split at h
    · simp only [Option.some.injEq, Prod.mk.injEq] at h
      obtain ⟨rfl, rfl⟩ := h
      rfl
    · obtain ⟨⟨body', after'⟩, hclose, heq⟩ := Option.map_eq_some_iff.mp h
      simp only [Prod.mk.injEq] at heq
      obtain ⟨rfl, rfl⟩ := heq
      simp [ih hclose]

theorem cutSlash_append (rest : List Char) :
    (cutSlash rest).1.text ++ (cutSlash rest).2 = '/' :: rest := by
  unfold cutSlash
  split
  · next rest => simp [List.takeWhile_append_dropWhile]
  · next rest =>
    split
    · next body after h => simp [closeComment?_append h]
    · simp
  · simp

theorem cutMark_append (first : Char) (rest : List Char) :
    (cutMark first rest).1.text ++ (cutMark first rest).2 = first :: rest := by
  unfold cutMark
  split
  · simp
  · split <;> simp
  · simp

/-- The piece and what follows it are the text. -/
theorem cut_append (first : Char) (rest : List Char) :
    (cut first rest).1.text ++ (cut first rest).2 = first :: rest := by
  unfold cut
  split
  · simp
  split
  · next h => simpa [eq_of_beq h] using cutString_append rest
  split
  · exact cutNumber_append first rest
  split
  · exact cutWord_append first rest
  split
  · next h => simpa [eq_of_beq h] using cutSlash_append rest
  · exact cutMark_append first rest

/-- A piece is never empty. -/
theorem cut_text_ne_nil (first : Char) (rest : List Char) : (cut first rest).1.text ≠ [] := by
  unfold cut cutString cutNumber cutWord cutSlash cutMark
  repeat' split
  all_goals simp

theorem cut_length_lt (first : Char) (rest : List Char) :
    (cut first rest).2.length < (first :: rest).length := by
  have whole := congrArg List.length (cut_append first rest)
  have some := List.length_pos_iff.mpr (cut_text_ne_nil first rest)
  simp only [List.length_append, List.length_cons] at whole ⊢
  omega

/-! ## All pieces -/

/-- The pieces of a text, in order. -/
def pieces : List Char → List Piece
  | [] => []
  | first :: rest => (cut first rest).1 :: pieces (cut first rest).2
termination_by text => text.length
decreasing_by exact cut_length_lt first rest

/-- The pieces, put together again, are the text. -/
theorem flatMap_text_pieces (text : List Char) : (pieces text).flatMap Piece.text = text := by
  fun_induction pieces text with
  | case1 => rfl
  | case2 first rest ih => rw [List.flatMap_cons, ih, cut_append]

end Piece

end Lox

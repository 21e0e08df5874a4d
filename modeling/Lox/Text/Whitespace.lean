/-
The Unicode property White_Space, and texts trimmed of it. It is wider than
what counts as blank in a program.
-/

namespace Lox

/-- The ranges of the White_Space property, ends included. -/
def whitespaceRanges : List (Nat × Nat) :=
  [(0x09, 0x0d), (0x20, 0x20), (0x85, 0x85), (0xa0, 0xa0), (0x1680, 0x1680), (0x2000, 0x200a),
    (0x2028, 0x2029), (0x202f, 0x202f), (0x205f, 0x205f), (0x3000, 0x3000)]

/-- Whether a character has the White_Space property. -/
def isWhitespace (c : Char) : Bool :=
  whitespaceRanges.any fun (first, last) => first ≤ c.toNat && c.toNat ≤ last

/-- A text without the whitespace at both of its ends. -/
def trimChars (text : List Char) : List Char :=
  ((text.dropWhile isWhitespace).reverse.dropWhile isWhitespace).reverse

/-- The same of a string. -/
def trim (s : String) : String := String.ofList (trimChars s.toList)

end Lox

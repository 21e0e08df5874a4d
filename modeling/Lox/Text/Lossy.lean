/-
Bytes shown as text. Output that fills a sink may end inside a character,
and other bytes may be no text at all: a character begun and not completed
is shown as one replacement character, and so is a byte that begins none.
-/

namespace Lox

namespace Lossy

/-- Stands for bytes that are no character. -/
def replacement : Char := '\ufffd'

/-- A character begun: the value of its bytes so far, how many bytes it lacks
and the bounds of the next one. -/
structure Begun where
  value : Nat
  lacking : Nat
  low : UInt8
  high : UInt8
deriving DecidableEq

/-- What a first byte makes. -/
inductive First where
  | char (c : Char)
  | begun (b : Begun)
  | invalid
deriving DecidableEq

/-- The bounds of a second byte leave out forms longer than needed, surrogates
and values above the last character. -/
def First.ofByte (b : UInt8) : First :=
  if b ≤ 0x7f then .char (Char.ofNat b.toNat)
  else if b ≤ 0xc1 then .invalid
  else if b ≤ 0xdf then .begun ⟨b.toNat - 0xc0, 1, 0x80, 0xbf⟩
  else if b = 0xe0 then .begun ⟨0, 2, 0xa0, 0xbf⟩
  else if b = 0xed then .begun ⟨0xd, 2, 0x80, 0x9f⟩
  else if b ≤ 0xef then .begun ⟨b.toNat - 0xe0, 2, 0x80, 0xbf⟩
  else if b = 0xf0 then .begun ⟨0, 3, 0x90, 0xbf⟩
  else if b ≤ 0xf3 then .begun ⟨b.toNat - 0xf0, 3, 0x80, 0xbf⟩
  else if b = 0xf4 then .begun ⟨4, 3, 0x80, 0x8f⟩
  else .invalid

/-- The text shown so far, and the character begun after it. -/
structure Shown where
  text : String
  pending : Option Begun
deriving DecidableEq

namespace Shown

/-- Takes a byte that continues nothing. -/
def start (text : String) (b : UInt8) : Shown :=
  match First.ofByte b with
  | .char c => ⟨text.push c, none⟩
  | .begun begun => ⟨text, some begun⟩
  | .invalid => ⟨text.push replacement, none⟩

/-- Takes the next byte. One that does not continue the character begun gives
that character up and starts anew. -/
def take (s : Shown) (b : UInt8) : Shown :=
  match s.pending with
  | none => start s.text b
  | some begun =>
    if begun.low ≤ b ∧ b ≤ begun.high then
      let value := begun.value * 64 + (b.toNat - 0x80)
      if begun.lacking ≤ 1 then ⟨s.text.push (Char.ofNat value), none⟩
      else ⟨s.text, some ⟨value, begun.lacking - 1, 0x80, 0xbf⟩⟩
    else start (s.text.push replacement) b

/-- The text when no byte is left. -/
def finish (s : Shown) : String :=
  match s.pending with
  | none => s.text
  | some _ => s.text.push replacement

end Shown

end Lossy

/-- Bytes shown as text. -/
def lossyText (bytes : List UInt8) : String :=
  (bytes.foldl Lossy.Shown.take ⟨"", none⟩).finish

end Lox

/-
What a program writes: bytes on standard output, where printed values go,
and text on standard error.
-/

namespace Lox

/-- What a program wrote to its two outputs. -/
structure Written where
  /-- Bytes on standard output. -/
  stdout : List UInt8
  /-- Text on standard error. -/
  stderr : String
deriving DecidableEq

namespace Written

/-- What is written by one and then the other. -/
def append (a b : Written) : Written := ⟨a.stdout ++ b.stdout, a.stderr ++ b.stderr⟩

/-- Texts, one to a line. -/
def lines (texts : List String) : String := String.join (texts.map (· ++ "\n"))

end Written

end Lox

/-
Scripts: source text kept in a file, and why one cannot be read.
-/

namespace Lox

/-- Why a file cannot be read as text. -/
inductive ReadFailure where
  | missing
  | directory
  /-- The path goes on after a file. -/
  | notDirectory
  /-- The file's bytes are no text. -/
  | notText
  | other (cause : String)
deriving DecidableEq

/-- What is said of it. -/
def ReadFailure.cause : ReadFailure → String
  | .missing => "No such file or directory (os error 2)"
  | .directory => "Is a directory (os error 21)"
  | .notDirectory => "Not a directory (os error 20)"
  | .notText => "stream did not contain valid UTF-8"
  | .other cause => cause

/-- The text of a file's content. -/
def decodeText (content : ByteArray) : Except ReadFailure String :=
  match String.fromUTF8? content with
  | some text => .ok text
  | none => .error .notText

end Lox

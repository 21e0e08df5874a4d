/-
The prompt: each line of input is run in one session, trimmed of the
whitespace around it. A line that is no text is passed over with a message,
and no failure ends the session.
-/
import Lox.Command.Written
import Lox.Session
import Lox.Text.Whitespace

namespace Lox

namespace Prompt

/-- Shown before each line is read. -/
def mark : Written := ⟨utf8 "> ", ""⟩

/-- Shown at the end of input. -/
def farewell : Written := ⟨utf8 "\nExited loxer repl\n", ""⟩

/-- What is on standard error after a line has run: what was shown while it
was compiled, and a fault of the run by its own message. -/
def errorText (shown : List String) : Except Failure Unit → String
  | .error (.runtime error) => Written.lines (shown ++ [error.message])
  | _ => Written.lines shown

/-- Runs one line of input, its line break included. -/
def step (s : Session Sink) (line : List UInt8) : Written × Session Sink :=
  match decodeText ⟨line.toArray⟩ with
  | .error failure => (⟨[], "Failed read line: " ++ failure.cause ++ "\n"⟩, s)
  | .ok text =>
    let (result, s') := s.run (trim text)
    (⟨s'.output.drop s.output.length, errorText (s'.shown.drop s.shown.length) result⟩, s')

/-- The first line of some input, its line break included, and the rest. -/
def splitLine (input : List UInt8) : List UInt8 × List UInt8 :=
  match input.dropWhile (· != 0x0a) with
  | [] => (input, [])
  | newline :: rest => (input.takeWhile (· != 0x0a) ++ [newline], rest)

theorem splitLine_length_lt (b : UInt8) (input : List UInt8) :
    (splitLine (b :: input)).2.length < (b :: input).length := by
  have split := List.takeWhile_append_dropWhile (p := (· != 0x0a)) (l := b :: input)
  unfold splitLine
  cases h : (b :: input).dropWhile (· != 0x0a) with
  | nil => simp
  | cons newline rest =>
    have := congrArg List.length split
    rw [h] at this
    simp only [List.length_append, List.length_cons] at this ⊢
    omega

/-- The lines of some input. -/
def lines : List UInt8 → List (List UInt8)
  | [] => []
  | b :: input => (splitLine (b :: input)).1 :: lines (splitLine (b :: input)).2
termination_by input => input.length
decreasing_by exact splitLine_length_lt b input

/-- Everything written while these lines are run. -/
def transcript (s : Session Sink) : List (List UInt8) → Written
  | [] => mark.append farewell
  | line :: rest =>
    let (written, s') := step s line
    (mark.append written).append (transcript s' rest)

end Prompt

end Lox

/-
The program: words from the command line, files and lines from outside.
What is written for them is decided by `Lox.Command`.
-/
import Lox.Command.Run

namespace Lox.Main

/-- Reads the content of a file. -/
def readContent (path : String) : IO (Except ReadFailure ByteArray) := do
  try
    return .ok (← IO.FS.readBinFile path)
  catch e =>
    match e with
    | .noFileOrDirectory .. => return .error .missing
    | .inappropriateType _ 21 _ => return .error .directory
    | .inappropriateType .. => return .error .notDirectory
    | _ => return .error (.other (toString e))

/-- Writes to both outputs. -/
def emit (written : Written) : IO Unit := do
  let stdout ← IO.getStdout
  stdout.write ⟨written.stdout.toArray⟩
  stdout.flush
  (← IO.getStderr).putStr written.stderr

/-- Reads one line, its line break included; nothing at the end of input. -/
partial def readLine (input : IO.FS.Stream) (line : Array UInt8) : IO (Array UInt8) := do
  let bytes ← input.read 1
  match bytes.data.toList with
  | [] => return line
  | b :: _ => if b == 0x0a then return line.push b else readLine input (line.push b)

/-- Runs lines as they come until the input ends. -/
partial def prompt (input : IO.FS.Stream) (s : Session Sink) : IO Unit := do
  emit Prompt.mark
  let line ← readLine input #[]
  if line.isEmpty then emit Prompt.farewell
  else
    let (written, s') := Prompt.step s line.toList
    emit written
    prompt input s'

/-- Writes what a command came to and gives its status. -/
def finish (ended : Ended) : IO UInt32 := do
  emit ended.written
  return ended.status.toUInt32

end Lox.Main

/-- Runs the command its words ask for. -/
def main (words : List String) : IO UInt32 := do
  match Lox.Command.ofWords words with
  | .ok .repl =>
    Lox.Main.prompt (← IO.getStdin) (.initial .unlimited)
    return 0
  | .ok (.file path) | .ok (.tokens path) | .ok (.ast path) =>
    let content ← Lox.Main.readContent path
    Lox.Main.finish (Lox.Command.runWords (fun _ => content) [] words)
  | .error _ => Lox.Main.finish (Lox.Command.runWords (fun _ => .error .missing) [] words)

/-
Where printed text goes, as bytes. Anything that can be written to and be
flushed will do (`Writer`), and either may be refused for any cause at any
time.

A sink is a writer that keeps what is written to it. It may hold only so many
bytes; of a write that does not fit it stores the part that does, and
refuses. Flushes are counted, failing ones too.
-/

namespace Lox

/-- The bytes of a text. -/
def utf8 (s : String) : List UInt8 := s.toUTF8.data.toList

/-- What text can be printed to. Each operation gives the cause if it is
refused, and what it leaves behind, refused or not. -/
class Writer (W : Type) where
  /-- Hands over these bytes, in as many parts as it takes, up to the first that
  is refused. -/
  write : W → List UInt8 → Option String × W
  /-- Passes on what was held back. -/
  flush : W → Option String × W

/-- How a full sink turns a write down. -/
inductive Sink.Refusal where
  | fails
  /-- The write is accepted with no byte taken. -/
  | takesNothing
deriving DecidableEq

/-- What is said of a write turned down so. -/
def Sink.Refusal.cause : Sink.Refusal → String
  | .fails => "sink full"
  | .takesNothing => "failed to write whole buffer"

/-- A place for bytes, with a limit or without. -/
structure Sink where
  /-- The bytes taken so far. -/
  stored : List UInt8
  /-- How many bytes the sink holds, if there is a limit. -/
  limit : Option Nat
  /-- What becomes of a write beyond the limit. -/
  refusal : Sink.Refusal
  /-- Whether flushes fail. -/
  failsFlush : Bool
  /-- How often it was flushed, whether that failed or not. -/
  flushes : Nat
deriving DecidableEq

namespace Sink

/-- An empty sink that accepts everything. -/
def unlimited : Sink := ⟨[], none, .fails, false, 0⟩

/-- How many of `count` bytes the sink still takes. -/
def taken (s : Sink) (count : Nat) : Nat :=
  match s.limit with
  | none => count
  | some limit => min count (limit - s.stored.length)

/-- Stores what fits; the cause of refusal if that is not everything. -/
def write (s : Sink) (bytes : List UInt8) : Option String × Sink :=
  (if s.taken bytes.length < bytes.length then some s.refusal.cause else none,
    { s with stored := s.stored ++ bytes.take (s.taken bytes.length) })

/-- Flushes; the cause of failure if the sink cannot. -/
def flush (s : Sink) : Option String × Sink :=
  (if s.failsFlush then some "flush failed" else none, { s with flushes := s.flushes + 1 })

instance : Writer Sink := ⟨write, flush⟩

@[simp] theorem writer_write (s : Sink) (bytes : List UInt8) :
    Writer.write s bytes = s.write bytes := rfl

@[simp] theorem writer_flush (s : Sink) : Writer.flush s = s.flush := rfl

end Sink

end Lox

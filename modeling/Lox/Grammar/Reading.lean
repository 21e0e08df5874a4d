/-
Readings: what a rule of the grammar makes of the tokens in front of it.

A rule that applies yields a value and leaves a proper suffix of its tokens
(`After`); a rule that does not raises a fault and leaves a suffix, the
tokens at which it gave up. Both keep a log. The suffix is part of the
type, so rules that call each other are seen to end.
-/
import Lox.Report.Record

namespace Lox

/-- `rest` is what is left of `ts` after at least one token. -/
structure After (rest ts : List Token) : Prop where
  suffix : rest <:+ ts
  length_lt : rest.length < ts.length

namespace After

theorem cons (t : Token) (ts : List Token) : After ts (t :: ts) :=
  ⟨List.suffix_cons t ts, Nat.lt_succ_self _⟩

theorem trans {a b c : List Token} (h : After a b) (h' : b <:+ c) : After a c :=
  ⟨h.suffix.trans h', Nat.lt_of_lt_of_le h.length_lt h'.length_le⟩

theorem tail {t : Token} {rest ts : List Token} (h : t :: rest <:+ ts) : After rest ts :=
  (After.cons t rest).trans h

theorem suffix_tail {t : Token} {rest ts : List Token} (h : After (t :: rest) ts) : rest <:+ ts :=
  (tail h.suffix).suffix

end After

/-- What a rule makes of the tokens before it: a value and fewer tokens than
before, or a fault and no more of them. Either way it has logged something. -/
inductive Reading (α : Type) (ts : List Token) where
  | done (value : α) (rest : List Token) (log : List Record) (after : After rest ts)
  | failed (fault : SyntaxFault) (rest : List Token) (log : List Record) (suffix : rest <:+ ts)

namespace Reading

variable {α β : Type} {ts : List Token}

/-- The reading with earlier records put in front of its log. -/
def logged (earlier : List Record) : Reading α ts → Reading α ts
  | .done value rest log after => .done value rest (earlier ++ log) after
  | .failed fault rest log suffix => .failed fault rest (earlier ++ log) suffix

/-- A reading of the last tokens of `ts` as a reading of `ts`. -/
def within {rest : List Token} (h : rest <:+ ts) : Reading α rest → Reading α ts
  | .done value rest' log after => .done value rest' log (after.trans h)
  | .failed fault rest' log suffix => .failed fault rest' log (suffix.trans h)

/-- Reads on after a value; a fault ends the whole reading. -/
def bind (r : Reading α ts) (next : α → (rest : List Token) → After rest ts → Reading β ts) :
    Reading β ts :=
  match r with
  | .done value rest log after => (next value rest after).logged log
  | .failed fault rest log suffix => .failed fault rest log suffix

end Reading

namespace Grammar

/-- The fault at the first of these tokens, or at the end mark. -/
def faultAt (endLine : Nat) (ts : List Token) (cause : SyntaxCause) : SyntaxFault :=
  .ofToken (ts.head?.getD (.eof endLine)) cause

/-- Reads one token of a kind; any other token is a fault with the message. -/
def expect (endLine : Nat) (kind : Token.Kind) (message : String) {ts : List Token}
    (rest : List Token) (h : rest <:+ ts) : Reading Token ts :=
  match rest, h with
  | [], h => .failed (faultAt endLine [] (.expected message)) [] [] h
  | t :: more, h =>
    if t.kind = kind then .done t more [] (.tail h)
    else .failed (faultAt endLine (t :: more) (.expected message)) (t :: more) [] h

end Grammar

end Lox

/-
Machines that differ in their log, and in what their sinks do not show, do the
same. No run looks at the log, and of a sink a run learns only whether it
refuses. So let a relation between sinks be kept by writing and flushing, with
the same refusals (`Writer.Indistinct`): then runs from machines with related
sinks end alike (`Machine.interpret_alike`).

The same sink is related to itself, whatever it is (`Writer.indistinct_eq`);
so are sinks that were flushed a different number of times
(`Sink.sameBytes_indistinct`).
-/
import Lox.Proofs.Machine.Run

namespace Lox

section

variable {W α β : Type}

/-! ## Sinks -/

/-- From related sinks an operation is refused alike, and leaves related sinks. -/
def Writer.Respects (R : W → W → Prop) (operation : W → Option String × W) : Prop :=
  ∀ a b, R a b → (operation b).1 = (operation a).1 ∧ R (operation a).2 (operation b).2

/-- No operation tells related sinks apart. -/
structure Writer.Indistinct [Writer W] (R : W → W → Prop) : Prop where
  write : ∀ bytes, Respects R fun sink => write sink bytes
  flush : Respects R flush

theorem Writer.indistinct_eq [Writer W] : Indistinct (W := W) Eq where
  write := by
    rintro bytes a _ rfl
    exact ⟨rfl, rfl⟩
  flush := by
    rintro a _ rfl
    exact ⟨rfl, rfl⟩

/-- The sinks are the same but for the count of flushes. -/
def Sink.SameBytes (a b : Sink) : Prop := ∃ flushes, b = { a with flushes }

namespace Sink.SameBytes

theorem refl (a : Sink) : a.SameBytes a := ⟨a.flushes, rfl⟩

theorem trans {a b c : Sink} (h : a.SameBytes b) (h' : b.SameBytes c) : a.SameBytes c := by
  obtain ⟨flushes, rfl⟩ := h
  obtain ⟨flushes', rfl⟩ := h'
  exact ⟨flushes', rfl⟩

theorem stored {a b : Sink} (h : a.SameBytes b) : b.stored = a.stored := by
  obtain ⟨flushes, rfl⟩ := h
  rfl

end Sink.SameBytes

/-- What a sink takes of a write, and whether it can be flushed, does not hang
on how often it was. -/
theorem Sink.sameBytes_indistinct : Writer.Indistinct Sink.SameBytes where
  write := by
    rintro bytes a _ ⟨flushes, rfl⟩
    exact ⟨rfl, flushes, rfl⟩
  flush := by
    rintro a _ ⟨flushes, rfl⟩
    exact ⟨rfl, flushes + 1, rfl⟩

/-! ## Machines -/

/-- The machines are the same but for the log, with related sinks. -/
def Machine.Alike (R : W → W → Prop) (m n : Machine W) : Prop :=
  ∃ sink log, R m.sink sink ∧ n = { m with sink, log }

namespace Machine.Alike

variable {R : W → W → Prop} {l m n : Machine W}

theorem of_log (hR : ∀ sink, R sink sink) (m : Machine W) (log : List Record) :
    m.Alike R { m with log } :=
  ⟨m.sink, log, hR m.sink, rfl⟩

theorem trans (hR : ∀ {a b c}, R a b → R b c → R a c) (h : l.Alike R m) (h' : m.Alike R n) :
    l.Alike R n := by
  obtain ⟨sink, log, hsink, rfl⟩ := h
  obtain ⟨sink', log', hsink', rfl⟩ := h'
  exact ⟨sink', log', hR hsink hsink', rfl⟩

theorem scopes (h : m.Alike R n) : n.scopes = m.scopes := by
  obtain ⟨sink, log, -, rfl⟩ := h
  rfl

theorem current (h : m.Alike R n) : n.current = m.current := by
  obtain ⟨sink, log, -, rfl⟩ := h
  rfl

theorem sink (h : m.Alike R n) : R m.sink n.sink := by
  obtain ⟨sink, log, hsink, rfl⟩ := h
  exact hsink

theorem entering (h : m.Alike R n) (count : Nat) :
    (m.entering count).Alike R (n.entering count) := by
  obtain ⟨sink, log, hsink, rfl⟩ := h
  exact ⟨sink, _, hsink, rfl⟩

end Machine.Alike

namespace Run

/-- Two ends of runs: the same value or the same fault, in alike machines. -/
inductive EndsAlike (R : W → W → Prop) : EStateM.Result RuntimeError (Machine W) α →
    EStateM.Result RuntimeError (Machine W) α → Prop
  | ok {a m n} : m.Alike R n → EndsAlike R (.ok a m) (.ok a n)
  | error {e m n} : m.Alike R n → EndsAlike R (.error e m) (.error e n)

/-- The run looks neither at the log nor at what sets related sinks apart. -/
def Blind (R : W → W → Prop) (x : Run W α) : Prop :=
  ∀ m n, m.Alike R n → EndsAlike R (x m) (x n)

variable {R : W → W → Prop}

theorem Blind.bind {x : Run W α} {f : α → Run W β} (hx : x.Blind R) (hf : ∀ a, (f a).Blind R) :
    (x >>= f).Blind R := by
  intro m n h
  have hends := hx m n h
  change EndsAlike R (EStateM.bind x f m) (EStateM.bind x f n)
  unfold EStateM.bind
  generalize x m = r at hends ⊢
  generalize x n = r' at hends ⊢
  cases hends with
  | ok h₁ => exact hf _ _ _ h₁
  | error h₁ => exact .error h₁

theorem blind_pure (a : α) : (pure a : Run W α).Blind R := fun _ _ h => .ok h

theorem blind_ofExcept (x : Except RuntimeError α) : (ofExcept x).Blind R := by
  intro m n h
  cases x with
  | ok a => exact .ok h
  | error e => exact .error h

theorem blind_lookup (name : Token) : (lookup name).Blind R := by
  intro m n h
  obtain ⟨sink, log, hsink, rfl⟩ := h
  simp only [lookup]
  cases m.scopes.get m.current name.lexeme name.line with
  | ok value => exact .ok ⟨sink, log, hsink, rfl⟩
  | error e => exact .error ⟨sink, log, hsink, rfl⟩

theorem blind_assign (name : Token) (value : Value) : (assign name value).Blind R := by
  intro m n h
  obtain ⟨sink, log, hsink, rfl⟩ := h
  simp only [assign]
  cases m.scopes.assign m.current name.lexeme name.line value with
  | ok scopes => exact .ok ⟨sink, log, hsink, rfl⟩
  | error e => exact .error ⟨sink, log, hsink, rfl⟩

theorem blind_define (name : Token) (value : Value) : (define name value).Blind R := by
  intro m n h
  obtain ⟨sink, log, hsink, rfl⟩ := h
  exact .ok ⟨sink, log, hsink, rfl⟩

theorem blind_onSink {operation : W → Option String × W} (h : Writer.Respects R operation) :
    (onSink operation).Blind R := by
  intro m n halike
  obtain ⟨sink, log, hsink, rfl⟩ := halike
  obtain ⟨hcause, hafter⟩ := h m.sink sink hsink
  simp only [onSink]
  generalize operation m.sink = r at hcause hafter ⊢
  generalize operation sink = r' at hcause hafter ⊢
  obtain ⟨cause?, after⟩ := r
  obtain ⟨cause?', after'⟩ := r'
  cases hcause
  cases cause? with
  | none => exact .ok ⟨after', log, hafter, rfl⟩
  | some cause => exact .error ⟨after', log, hafter, rfl⟩

theorem Blind.inBlock {body : Run W Unit} (h : body.Blind R) (count : Nat) :
    (inBlock count body).Blind R := by
  intro m n halike
  have hends := h _ _ (halike.entering count)
  rw [inBlock_apply, inBlock_apply, halike.current]
  generalize body (m.entering count) = r at hends ⊢
  generalize body (n.entering count) = r' at hends ⊢
  cases hends with
  | ok h₁ =>
    obtain ⟨sink, log, hsink, rfl⟩ := h₁
    exact .ok ⟨sink, log, hsink, rfl⟩
  | error h₁ =>
    obtain ⟨sink, log, hsink, rfl⟩ := h₁
    exact .error ⟨sink, log, hsink, rfl⟩

/-- Whatever is executed is blind. -/
theorem blind_closed [Writer W] (hR : Writer.Indistinct R) :
    Closed fun _ (x : Run W _) => x.Blind R where
  pure := blind_pure
  bind := Blind.bind
  ofExcept := blind_ofExcept
  lookup := blind_lookup
  assign := blind_assign
  define := blind_define
  print := fun value => blind_onSink (hR.write (utf8 (value.display ++ "\n")))
  inBlock := Blind.inBlock

end Run

/-- Statements end alike from alike machines. -/
theorem Machine.interpret_alike [Writer W] {R : W → W → Prop} (hR : Writer.Indistinct R)
    {m n : Machine W} (h : m.Alike R n) (ss : List Stmt) :
    (n.interpret ss).1 = (m.interpret ss).1 ∧
      (m.interpret ss).2.Alike R (n.interpret ss).2 := by
  have hblind : (Stmt.interpret ss).Blind R :=
    (Stmt.execAll_of_closed (Run.blind_closed hR) ss).bind fun _ => Run.blind_onSink hR.flush
  have hends := hblind m n h
  unfold interpret
  generalize Stmt.interpret ss m = r at hends ⊢
  generalize Stmt.interpret ss n = r' at hends ⊢
  cases hends with
  | ok h₁ => exact ⟨rfl, h₁⟩
  | error h₁ => exact ⟨rfl, h₁⟩

end

end Lox

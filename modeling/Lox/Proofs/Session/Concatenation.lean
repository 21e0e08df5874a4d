/-
A session is one long program. Of two sources that compile, the one text
with a line break between them compiles too, to the statements of the first
and then those of the second further down (`compile_joined`); and running it
does what running the two in turn does (`Session.run_joined`).
-/
import Lox.Proofs.Grammar.Acceptance
import Lox.Proofs.Grammar.Reline
import Lox.Proofs.Machine.Alike
import Lox.Proofs.Machine.Reline
import Lox.Proofs.Session.Reachable
import Lox.Proofs.Source.Seam
import Mathlib.Control.Monad.Basic

namespace Lox

/-! ## Compiling -/

/-- All tokens of a scan but its end mark are significant. -/
theorem Program.significant_tokens (source : String) :
    significant (Scan.ofSource source).tokens = (Scan.ofSource source).body := by
  rw [significant, Scan.tokens, List.takeWhile_append_of_pos]
  · exact List.append_nil _
  · intro t ht
    simpa using Scan.kind_ne_eof_of_mem_body ht

/-- What a source compiles to, by the grammar. -/
theorem compile_iff_derives {source : String} {ss : List Stmt} :
    (compile [] source).result = .ok ss ↔ (Scan.ofSource source).diagnostics = [] ∧
      Grammar.DerivesBody (Scan.ofSource source).body ss ∧ Stmt.bodyElseNearest ss = true := by
  rw [compile_eq_ok, ← Program.significant_tokens]
  refine and_congr_right fun _ => ⟨fun h => ?_, fun h => ?_⟩
  · obtain ⟨hparse, rfl⟩ := h
    exact Program.derives_of_clean hparse
  · exact Program.ofTokens_of_derives h.1 h.2

/-- Two sources that compile, compile as one text. -/
theorem compile_joined {s₁ s₂ : String} {ss₁ ss₂ : List Stmt}
    (h₁ : (compile [] s₁).result = .ok ss₁) (h₂ : (compile [] s₂).result = .ok ss₂) :
    (compile [] (s₁ ++ "\n" ++ s₂)).result =
      .ok (ss₁ ++ Stmt.relineBody (· + Scan.offset s₁) ss₂) := by
  obtain ⟨hscan₁, hderives₁, hnearest₁⟩ := compile_iff_derives.mp h₁
  obtain ⟨hscan₂, hderives₂, hnearest₂⟩ := compile_iff_derives.mp h₂
  have hopen := Scan.not_isOpen_of_clean hscan₁
  refine compile_iff_derives.mpr ⟨?_, ?_, ?_⟩
  · rw [Scan.diagnostics, Scan.faults_joined hopen, List.map_eq_nil_iff.mp hscan₁,
      List.map_eq_nil_iff.mp hscan₂]
    rfl
  · rw [Scan.body_joined hopen]
    exact hderives₁.append (hderives₂.reline _)
  · rw [Stmt.bodyElseNearest_append, Stmt.bodyElseNearest_reline, hnearest₁, hnearest₂]
    rfl

/-! ## Executing -/

namespace Machine

/-- After statements that end well, others go on as from a machine like the
one they left: only the flush between them is missing. -/
theorem interpret_append_of_ok {m : Machine Sink} {ss : List Stmt} (h : (m.interpret ss).1 = .ok ())
    (ts : List Stmt) :
    ∃ m₁, m.interpret (ss ++ ts) = m₁.interpret ts ∧
      (m.interpret ss).2.Alike Sink.SameBytes m₁ := by
  cases hss : Stmt.execAll ss m with
  | error e m₁ =>
    rw [interpret_of_execAll_error hss] at h
    cases h
  | ok _ m₁ =>
    refine ⟨m₁, ?_, ?_⟩
    · unfold interpret
      rw [Stmt.interpret_append, Run.bind_of_ok hss]
    · rw [interpret_of_execAll_ok hss]
      exact ⟨m₁.sink, m₁.log, ⟨m₁.sink.flushes, rfl⟩, rfl⟩

/-- After statements that end with a fault nothing is executed. -/
theorem interpret_append_of_error {m : Machine Sink} {ss : List Stmt} {e : RuntimeError}
    (hflushes : m.sink.failsFlush = false) (h : (m.interpret ss).1 = .error e) (ts : List Stmt) :
    m.interpret (ss ++ ts) = m.interpret ss := by
  cases hss : Stmt.execAll ss m with
  | ok _ m₁ =>
    -- The sink flushes, so the fault is not the flush's.
    rw [interpret_of_execAll_ok_sink hss, hflushes] at h
    cases h
  | error e' m₁ =>
    have hjoined : Stmt.execAll (ss ++ ts) m = .error e' m₁ := by
      rw [Stmt.execAll_append]
      exact Run.bind_eq_error.mpr (.inl hss)
    rw [interpret_of_execAll_error hjoined, interpret_of_execAll_error hss]

end Machine

/-! ## Sessions -/

/-- The failure with the line of its runtime fault changed. -/
def Failure.reline (f : Nat → Nat) : Failure → Failure
  | .runtime e => .runtime (e.reline f)
  | failure => failure

namespace Session

theorem mapError_reline (f : Nat → Nat) (r : Except RuntimeError Unit) :
    (r.mapError (RuntimeError.reline f)).mapError .runtime =
      (r.mapError .runtime).mapError (Failure.reline f) := by
  cases r <;> rfl

/-- What both ways of running two sources come to if the first ends well. -/
theorem run_joined_of_ok {s : Session Sink} {s₁ s₂ : String} {ss₁ ss₂ : List Stmt}
    (h₁ : (compile [] s₁).result = .ok ss₁) (h₂ : (compile [] s₂).result = .ok ss₂)
    (hok : (s.run s₁).1 = .ok ()) :
    ((s.run s₁).2.run s₂).2.machine.Alike Sink.SameBytes (s.run (s₁ ++ "\n" ++ s₂)).2.machine ∧
      (s.run (s₁ ++ "\n" ++ s₂)).1 =
        ((s.run s₁).2.run s₂).1.mapError (Failure.reline (· + Scan.offset s₁)) := by
  have hstart : (s.loaded s₁).Alike Sink.SameBytes (s.loaded (s₁ ++ "\n" ++ s₂)) :=
    .of_log .refl _ _
  obtain ⟨hsame, hmiddle⟩ := Machine.interpret_alike Sink.sameBytes_indistinct hstart ss₁
  have hok₁ := hsame.trans ((run_eq_ok_iff h₁).mp hok)
  obtain ⟨m₁, happend, hm₁⟩ := Machine.interpret_append_of_ok hok₁
    (Stmt.relineBody (· + Scan.offset s₁) ss₂)
  -- From here the two ways differ in the log and in one flush.
  have hsecond : ((s.run s₁).2.loaded s₂).Alike Sink.SameBytes m₁ := by
    have hloaded :
        ((s.run s₁).2.loaded s₂).Alike Sink.SameBytes ((s.loaded s₁).interpret ss₁).2 := by
      rw [run_of_compiled h₁]
      exact .of_log .refl (loaded _ s₂) _
    exact (hloaded.trans .trans hmiddle).trans .trans hm₁
  obtain ⟨hresult, hend⟩ := Machine.interpret_alike Sink.sameBytes_indistinct hsecond ss₂
  rw [run_of_compiled (compile_joined h₁ h₂), run_of_compiled h₂, happend,
    Machine.interpret_reline, hresult]
  exact ⟨hend, mapError_reline _ _⟩

/-- And if the first ends with a fault. -/
theorem run_joined_of_error {s : Session Sink} (hflushes : s.machine.sink.failsFlush = false)
    {s₁ s₂ : String} {ss₁ ss₂ : List Stmt} (h₁ : (compile [] s₁).result = .ok ss₁)
    (h₂ : (compile [] s₂).result = .ok ss₂) {e : RuntimeError}
    (herror : (s.run s₁).1 = .error (.runtime e)) :
    (s.run s₁).2.machine.Alike Sink.SameBytes (s.run (s₁ ++ "\n" ++ s₂)).2.machine ∧
      (s.run (s₁ ++ "\n" ++ s₂)).1 = .error (.runtime e) := by
  have hstart : (s.loaded s₁).Alike Sink.SameBytes (s.loaded (s₁ ++ "\n" ++ s₂)) :=
    .of_log .refl _ _
  obtain ⟨hsame, hend⟩ := Machine.interpret_alike Sink.sameBytes_indistinct hstart ss₁
  have herror₁ := hsame.trans ((run_eq_runtime_iff h₁).mp herror)
  have hflushes₁ : (s.loaded (s₁ ++ "\n" ++ s₂)).sink.failsFlush = false := hflushes
  have happend := Machine.interpret_append_of_error hflushes₁ herror₁
    (Stmt.relineBody (· + Scan.offset s₁) ss₂)
  rw [run_of_compiled (compile_joined h₁ h₂), run_of_compiled h₁, happend, herror₁]
  exact ⟨hend, rfl⟩

/-- **A session is one long program.** In any session whose sink can be
flushed, let two sources compile. Then the text of both, with a line break
between them, compiles.

If the first runs well, running the text prints what running one and then
the other prints, leaves the same bindings in every frame and ends with the
same result, but for the line of a runtime fault, which is further down by
the lines of the first.

If the first ends with a runtime fault, running the text ends with it too,
with the same output and the same bindings. -/
theorem run_joined {s : Session Sink} (hflushes : s.machine.sink.failsFlush = false)
    {s₁ s₂ : String} {ss₁ ss₂ : List Stmt} (h₁ : (compile [] s₁).result = .ok ss₁)
    (h₂ : (compile [] s₂).result = .ok ss₂) :
    ((∃ ss, (compile [] (s₁ ++ "\n" ++ s₂)).result = .ok ss) ∧
      (compile [] (s₁ ++ "\n" ++ s₂)).diagnostics = []) ∧
    ((s.run s₁).1 = .ok () →
      (s.run (s₁ ++ "\n" ++ s₂)).2.output = ((s.run s₁).2.run s₂).2.output ∧
      (s.run (s₁ ++ "\n" ++ s₂)).2.machine.scopes = ((s.run s₁).2.run s₂).2.machine.scopes ∧
      (s.run (s₁ ++ "\n" ++ s₂)).1 =
        ((s.run s₁).2.run s₂).1.mapError (Failure.reline (· + (1 + newlines s₁.toList)))) ∧
    (∀ e, (s.run s₁).1 = .error (.runtime e) →
      (s.run (s₁ ++ "\n" ++ s₂)).1 = .error (.runtime e) ∧
      (s.run (s₁ ++ "\n" ++ s₂)).2.output = (s.run s₁).2.output ∧
      (s.run (s₁ ++ "\n" ++ s₂)).2.machine.scopes = (s.run s₁).2.machine.scopes) := by
  have hjoined := compile_joined h₁ h₂
  refine ⟨⟨⟨_, hjoined⟩, (compile_silent_of_ok hjoined).1⟩, fun hok => ?_, fun e herror => ?_⟩
  · obtain ⟨halike, hresult⟩ := run_joined_of_ok h₁ h₂ hok
    exact ⟨halike.sink.stored, halike.scopes, hresult⟩
  · obtain ⟨halike, hresult⟩ := run_joined_of_error hflushes h₁ h₂ herror
    exact ⟨hresult, halike.sink.stored, halike.scopes⟩

/-- A global that is bound, an `if` without an `else`, and a comment at the
end. -/
def opening : String := "var a = nil;\nif (a) print a; // and no else"

/-- A name that is bound, and on the next line one that is not. -/
def closing : String := "print a;\nb;"

theorem run_joined_of_opening_closing :
    let s := Session.initial .unlimited
    s.machine.sink.failsFlush = false ∧
      (∃ ss, (compile [] opening).result = .ok ss) ∧ (∃ ss, (compile [] closing).result = .ok ss) ∧
      (s.run opening).1 = .ok () ∧
      ((s.run opening).2.run closing).1 = .error (.runtime (.undefinedVariable "b" 2)) ∧
      (s.run (opening ++ "\n" ++ closing)).1 = .error (.runtime (.undefinedVariable "b" 4)) := by
  have h₁ := compile_eq_ok.mpr ⟨(by decide +kernel : (Scan.ofSource opening).diagnostics = []),
    by decide +kernel, rfl⟩
  have h₂ := compile_eq_ok.mpr ⟨(by decide +kernel : (Scan.ofSource closing).diagnostics = []),
    by decide +kernel, rfl⟩
  have hok : ((Session.initial .unlimited).run opening).1 = .ok () := by decide +kernel
  have hsecond : (((Session.initial .unlimited).run opening).2.run closing).1 =
      .error (.runtime (.undefinedVariable "b" 2)) := by decide +kernel
  have hjoined := (run_joined (s := .initial .unlimited) rfl h₁ h₂).2.1 hok
  refine ⟨rfl, ⟨_, h₁⟩, ⟨_, h₂⟩, hok, hsecond, ?_⟩
  rw [hjoined.2.2, hsecond]
  rfl

end Session

end Lox

/-
Sessions as running sources makes them. Between two sources a machine stands
in its global frame (`Reachable.atGlobal`), whatever the sources were and
however they ended.

A source compiles if scanning and parsing report nothing about it, and else
fails with what the first of them reports (`compile_of_scanning`,
`compile_of_parsing`, `compile_of_clean`). Running what compiles is executing
its statements (`run_of_compiled`).
-/
import Lox.Proofs.Machine.Run
import Lox.Session

namespace Lox

section

variable {source : String}

theorem tokenize_of_clean (h : (Scan.ofSource source).diagnostics = []) :
    (tokenize [] source).result = .ok (Scan.ofSource source).tokens ∧
      (tokenize [] source).diagnostics = [] ∧ (tokenize [] source).shown = [] := by
  simp only [tokenize, List.nil_append, h, if_true, and_self]

theorem tokenize_of_scanning (h : (Scan.ofSource source).diagnostics ≠ []) :
    (tokenize [] source).result = .error (.scanning (Scan.ofSource source).diagnostics.length) ∧
      (tokenize [] source).diagnostics = (Scan.ofSource source).diagnostics ∧
      (tokenize [] source).shown = report (Scan.ofSource source).diagnostics := by
  simp only [tokenize, List.nil_append, h, if_false, and_self]

/-- Nothing is parsed if scanning reports, and what it has shown is not shown
once more. -/
theorem compile_of_scanning (h : (Scan.ofSource source).diagnostics ≠ []) :
    (compile [] source).result = .error (.scanning (Scan.ofSource source).diagnostics.length) ∧
      (compile [] source).diagnostics = (Scan.ofSource source).diagnostics ∧
      (compile [] source).shown = report (Scan.ofSource source).diagnostics := by
  obtain ⟨hresult, hdiagnostics, hshown⟩ := tokenize_of_scanning h
  simp only [compile, hresult, hdiagnostics, hshown, and_self]

theorem compile_of_parsing (hscan : (Scan.ofSource source).diagnostics = [])
    (hparse : (Program.ofTokens (Scan.ofSource source).tokens).diagnostics ≠ []) :
    (compile [] source).result = .error
        (.parsing (Program.ofTokens (Scan.ofSource source).tokens).diagnostics.length) ∧
      (compile [] source).diagnostics =
        (Program.ofTokens (Scan.ofSource source).tokens).diagnostics ∧
      (compile [] source).shown =
        report (Program.ofTokens (Scan.ofSource source).tokens).diagnostics := by
  obtain ⟨hresult, hdiagnostics, hshown⟩ := tokenize_of_clean hscan
  simp only [compile, hresult, hdiagnostics, hshown, List.nil_append, hparse, if_false, and_self]

theorem compile_of_clean (hscan : (Scan.ofSource source).diagnostics = [])
    (hparse : (Program.ofTokens (Scan.ofSource source).tokens).diagnostics = []) :
    (compile [] source).result = .ok (Program.ofTokens (Scan.ofSource source).tokens).statements ∧
      (compile [] source).diagnostics = [] ∧ (compile [] source).shown = [] := by
  obtain ⟨hresult, hdiagnostics, hshown⟩ := tokenize_of_clean hscan
  simp only [compile, hresult, hdiagnostics, hshown, List.nil_append, hparse, if_true, and_self]

/-- A source compiles exactly if neither scanning nor parsing it reports. -/
theorem compile_eq_ok {statements : List Stmt} :
    (compile [] source).result = .ok statements ↔
      (Scan.ofSource source).diagnostics = [] ∧
        (Program.ofTokens (Scan.ofSource source).tokens).diagnostics = [] ∧
        (Program.ofTokens (Scan.ofSource source).tokens).statements = statements := by
  by_cases hscan : (Scan.ofSource source).diagnostics = []
  case neg => simp [(compile_of_scanning hscan).1, hscan]
  by_cases hparse : (Program.ofTokens (Scan.ofSource source).tokens).diagnostics = []
  case neg => simp [(compile_of_parsing hscan hparse).1, hparse]
  simp [(compile_of_clean hscan hparse).1, hscan, hparse]

/-- Where a source compiles, nothing was reported and nothing shown. -/
theorem compile_silent_of_ok {statements : List Stmt}
    (h : (compile [] source).result = .ok statements) :
    (compile [] source).diagnostics = [] ∧ (compile [] source).shown = [] := by
  obtain ⟨hscan, hparse, -⟩ := compile_eq_ok.mp h
  exact (compile_of_clean hscan hparse).2

end

section

variable {W : Type}

namespace Session

/-- The machine in which the statements of a source begin. -/
def loaded (s : Session W) (source : String) : Machine W :=
  { s.machine with log := s.machine.log ++ (compile [] source).log }

variable [Writer W]

theorem run_of_compiled {s : Session W} {source : String} {statements : List Stmt}
    (h : (compile [] source).result = .ok statements) :
    s.run source = (((s.loaded source).interpret statements).1.mapError .runtime,
      ⟨((s.loaded source).interpret statements).2, (compile [] source).diagnostics,
        s.shown ++ (compile [] source).shown⟩) := by
  simp only [run, h]
  rfl

theorem run_eq_ok_iff {s : Session W} {source : String} {statements : List Stmt}
    (h : (compile [] source).result = .ok statements) :
    (s.run source).1 = .ok () ↔ ((s.loaded source).interpret statements).1 = .ok () := by
  rw [run_of_compiled h]
  cases ((s.loaded source).interpret statements).1 with
  | ok => exact ⟨fun _ => rfl, fun _ => rfl⟩
  | error e => exact ⟨nofun, nofun⟩

theorem run_eq_runtime_iff {s : Session W} {source : String} {statements : List Stmt}
    {e : RuntimeError} (h : (compile [] source).result = .ok statements) :
    (s.run source).1 = .error (.runtime e) ↔
      ((s.loaded source).interpret statements).1 = .error e := by
  rw [run_of_compiled h]
  cases ((s.loaded source).interpret statements).1 with
  | ok => exact ⟨nofun, nofun⟩
  | error e' =>
    constructor
    · intro he
      cases he
      rfl
    · intro he
      cases he
      rfl

theorem run_of_rejected {s : Session W} {source : String} {failure : Failure}
    (h : (compile [] source).result = .error failure) :
    s.run source = (.error failure, ⟨s.loaded source, (compile [] source).diagnostics,
      s.shown ++ (compile [] source).shown⟩) := by
  simp only [run, h]
  rfl

/-- Sessions that begin with anything to print to and run any sources, by
themselves or from files. -/
inductive Reachable : Session W → Prop
  | start (sink : W) : Reachable (.start sink)
  | run {s : Session W} (source : String) : Reachable s → Reachable (s.run source).2
  | runScript {s : Session W} (path : String) (content : Except ReadFailure ByteArray) :
      Reachable s → Reachable (s.runScript path content).2

end Session

/-- The machine stands in its oldest frame, which is there. -/
structure Machine.AtGlobal (m : Machine W) : Prop where
  current : m.current = 0
  frames : 0 < m.scopes.frames.length

theorem Machine.AtGlobal.evolves {m m' : Machine W} (h : m.AtGlobal) (he : m.Evolves m') :
    m'.AtGlobal :=
  ⟨he.current.trans h.current, Nat.lt_of_lt_of_le h.frames he.frames⟩

variable [Writer W]

theorem Machine.interpret_evolves (m : Machine W) (statements : List Stmt) :
    m.Evolves (m.interpret statements).2 := by
  have hevolving := Stmt.interpret_evolving statements m
  rw [interpret]
  cases h : Stmt.interpret statements m with
  | ok _ m' => exact hevolving.1 () m' h
  | error e m' => exact hevolving.2 e m' h

namespace Session

theorem run_atGlobal {s : Session W} (h : s.machine.AtGlobal) (source : String) :
    (s.run source).2.machine.AtGlobal := by
  have hloaded : (s.loaded source).AtGlobal := ⟨h.current, h.frames⟩
  cases hc : (compile [] source).result with
  | error failure =>
    rw [run_of_rejected hc]
    exact hloaded
  | ok statements =>
    rw [run_of_compiled hc]
    exact hloaded.evolves (Machine.interpret_evolves _ _)

/-- Between two sources a session is in its global frame. -/
theorem Reachable.atGlobal {s : Session W} (h : s.Reachable) : s.machine.AtGlobal := by
  induction h with
  | start sink => exact ⟨rfl, Nat.zero_lt_one⟩
  | run source _ ih => exact run_atGlobal ih source
  | runScript path content _ ih =>
    rw [Session.runScript]
    split
    · exact ih
    · exact run_atGlobal ih _

end Session

end

end Lox

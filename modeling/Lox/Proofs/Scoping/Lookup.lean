/-
Names in a session mean what the text says (`Session.lookup_follows_text`):
in every session and for every source that compiles, a name that is read or
assigned is found in the frame of the innermost block that has declared it
by then, and a run ends with an undefined name exactly if it comes to one
that nothing around it has declared.
-/
import Lox.Proofs.Grammar.Acceptance
import Lox.Proofs.Scoping.Agreement
import Lox.Proofs.Scoping.Undefined
import Lox.Proofs.Session.Reachable

namespace Lox

/-- The names the oldest frame binds. -/
def Scopes.globals (s : Scopes) : List String :=
  (s.frames.head?.map fun frame => frame.bindings.map Prod.fst).getD []

theorem Bindings.isSome_lookup_iff (x : String) (b : Bindings) :
    (b.lookup x).isSome = true ↔ x ∈ b.map Prod.fst := by
  rw [List.lookup_isSome_iff, List.mem_map]
  constructor
  · intro h
    obtain ⟨p, hp, hx⟩ := h
    exact ⟨p, hp, (beq_iff_eq.mp hx).symm⟩
  · intro h
    obtain ⟨p, hp, hx⟩ := h
    exact ⟨p, hp, beq_iff_eq.mpr hx.symm⟩

theorem Scopes.isSome_local?_zero (s : Scopes) (x : String) :
    (s.local? x 0).isSome = true ↔ x ∈ s.globals := by
  rw [local?, globals, ← List.head?_eq_getElem?]
  cases s.frames.head? with
  | none => simp
  | some frame => exact Bindings.isSome_lookup_iff x frame.bindings

section

variable {W : Type}

/-- In the global frame text and run agree, the text starting with the names
that are bound. -/
theorem Machine.AtGlobal.agrees {m : Machine W} (h : m.AtGlobal) :
    Agrees m [m.scopes.globals] [0] := by
  refine ⟨?_, ?_, m.scopes.isSome_local?_zero, trivial⟩
  · rw [h.current, Scopes.chain_zero]
  · rw [h.current]
    exact h.frames

variable [Writer W]

/-- Flushing ends with no undefined name, so executing the statements has. -/
theorem Machine.interpret_undefined_iff {m : Machine W} {statements : List Stmt} {x : String}
    {n : Nat} : (m.interpret statements).1 = .error (.undefinedVariable x n) ↔
      ∃ m', Stmt.execAll statements m = .error (.undefinedVariable x n) m' := by
  cases hss : Stmt.execAll statements m with
  | ok _ m₁ =>
    rw [interpret_of_execAll_ok hss]
    cases (Writer.flush m₁.sink).1 <;> simp
  | error e m₁ =>
    rw [interpret_of_execAll_error hss]
    simp

namespace Session

theorem run_undefined_iff {s : Session W} {source : String} {statements : List Stmt}
    (h : (compile [] source).result = .ok statements) {x : String} {n : Nat} :
    (s.run source).1 = .error (.runtime (.undefinedVariable x n)) ↔
      ∃ m', Stmt.execAll statements (s.loaded source) = .error (.undefinedVariable x n) m' := by
  rw [run_eq_runtime_iff h]
  exact Machine.interpret_undefined_iff

/-- **Names are found where the text declares them.** In any session, whatever
it prints to, let a source compile to `statements` and let the global frame bind the names
`globals`.

Every name that the run reads or assigns stands in the text, and the frame
in which it is found is the frame of the innermost block around it, or the
global one, that has declared it textually before; bound globals count as
declared.

The run ends with an undefined name exactly if it comes to a name for which
there is no such frame, and reports that name and its line.

So if every name in the text is declared, no branch that the run may take
ends with an undefined name. -/
theorem lookup_follows_text {s : Session W} (hs : s.Reachable) {source : String}
    {statements : List Stmt} (hcompiled : (compile [] source).result = .ok statements) :
    (∀ l, Stmt.BodyReaches [s.machine.scopes.globals] [0] statements (s.loaded source) l →
      ⟨l.name, l.scopes⟩ ∈ Stmt.bodyOccurrences [s.machine.scopes.globals] statements ∧
        l.found = l.expected) ∧
    (∀ x n, (s.run source).1 = .error (.runtime (.undefinedVariable x n)) ↔
      ∃ l, Stmt.BodyReaches [s.machine.scopes.globals] [0] statements (s.loaded source) l ∧
        l.expected = none ∧ l.name.lexeme = x ∧ l.name.line = n) ∧
    ((∀ o ∈ Stmt.bodyOccurrences [s.machine.scopes.globals] statements,
        o.scopes.Binds o.name.lexeme) →
      ∀ x n, (s.run source).1 ≠ .error (.runtime (.undefinedVariable x n))) := by
  obtain ⟨-, hparse, hstatements⟩ := compile_eq_ok.mp hcompiled
  have hblocks : Stmt.bodyDeclaresInBlocks statements = true :=
    hstatements ▸ (Program.derives_of_clean hparse).1.declaresInBlocks
  have hglobal : (s.loaded source).AtGlobal := ⟨hs.atGlobal.current, hs.atGlobal.frames⟩
  have hagrees : ∀ l,
      Stmt.BodyReaches [s.machine.scopes.globals] [0] statements (s.loaded source) l →
      Agrees l.machine l.scopes l.frames :=
    fun l hl => hl.agrees hblocks hglobal.agrees
  have hundefined : ∀ x n, (s.run source).1 = .error (.runtime (.undefinedVariable x n)) ↔
      ∃ l, Stmt.BodyReaches [s.machine.scopes.globals] [0] statements (s.loaded source) l ∧
        l.expected = none ∧ l.name.lexeme = x ∧ l.name.line = n := by
    intro x n
    rw [run_undefined_iff hcompiled,
      Stmt.execAll_undefined_iff [s.machine.scopes.globals] [0]]
    refine exists_congr fun l => and_congr_right fun hl => ?_
    rw [Lookup.Misses, (hagrees l hl).found_eq_expected]
  refine ⟨fun l hl => ⟨hl.mem_occurrences, (hagrees l hl).found_eq_expected⟩, hundefined, ?_⟩
  intro hbound x n hfails
  obtain ⟨l, hl, hnone, -⟩ := (hundefined x n).mp hfails
  exact (hagrees l hl).expected_eq_none.mp hnone (hbound _ hl.mem_occurrences)

end Session

end

namespace Session

/-- A block that reads a global, declares the name again from itself and
assigns to it, under a condition too. -/
def shadowing : String :=
  "\x7b print a; var a = a; a = a or a; if (a) print a; else a = nil; \x7d"

theorem lookup_follows_text_of_shadowing :
    let s := ((Session.initial .unlimited).run "var a;").2
    s.Reachable ∧ (∃ statements, (compile [] shadowing).result = .ok statements) ∧
      ∀ x n, (s.run shadowing).1 ≠ .error (.runtime (.undefinedVariable x n)) := by
  have hreachable : ((Session.initial .unlimited).run "var a;").2.Reachable :=
    .run _ (.start _)
  have hcompiled := compile_eq_ok.mpr
    ⟨(by decide +kernel : (Scan.ofSource shadowing).diagnostics = []), by decide +kernel, rfl⟩
  refine ⟨hreachable, ⟨_, hcompiled⟩, (lookup_follows_text hreachable hcompiled).2.2 ?_⟩
  decide +kernel

end Session

end Lox

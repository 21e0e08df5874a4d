/-
Lines of a prompt. A prompt runs each line without the whitespace around it.
For a line that scans with no report this changes nothing but the line on which
the end mark stands, so it runs as the line itself would, and only diagnostics
located at the end may be on another line (`Session.run_trimmed`).
-/
import Lox.Proofs.Grammar.EndLine
import Lox.Proofs.Machine.Alike
import Lox.Proofs.Session.Reachable
import Lox.Proofs.Source.Trim
import Mathlib.Control.Monad.Basic

namespace Lox

/-- Sources whose tokens differ in the line of the end mark only. -/
structure SameTokens (source source' : String) : Prop where
  clean : (Scan.ofSource source).diagnostics = []
  clean' : (Scan.ofSource source').diagnostics = []
  body : (Scan.ofSource source').body = (Scan.ofSource source).body

namespace SameTokens

variable {source source' : String}

theorem program (h : SameTokens source source') :
    (Program.ofTokens (Scan.ofSource source').tokens).statements =
        (Program.ofTokens (Scan.ofSource source).tokens).statements ∧
      (Program.ofTokens (Scan.ofSource source').tokens).diagnostics.map Diagnostic.unended =
        (Program.ofTokens (Scan.ofSource source).tokens).diagnostics.map Diagnostic.unended := by
  rw [Scan.tokens, Scan.tokens, h.body]
  exact Program.ofTokens_eof (fun _ => Scan.kind_ne_eof_of_mem_body) _ _

/-- They compile to the same. -/
theorem compile (h : SameTokens source source') :
    (compile [] source').result = (compile [] source).result ∧
      (compile [] source').diagnostics.map Diagnostic.unended =
        (compile [] source).diagnostics.map Diagnostic.unended := by
  obtain ⟨hstatements, hdiagnostics⟩ := h.program
  have hlength := congrArg List.length hdiagnostics
  rw [List.length_map, List.length_map] at hlength
  by_cases hparse : (Program.ofTokens (Scan.ofSource source).tokens).diagnostics = []
  · have hparse' : (Program.ofTokens (Scan.ofSource source').tokens).diagnostics = [] := by
      rw [hparse] at hlength
      exact List.eq_nil_of_length_eq_zero hlength
    rw [(compile_of_clean h.clean hparse).1, (compile_of_clean h.clean' hparse').1,
      (compile_of_clean h.clean hparse).2.1, (compile_of_clean h.clean' hparse').2.1, hstatements]
    exact ⟨rfl, rfl⟩
  · have hparse' : (Program.ofTokens (Scan.ofSource source').tokens).diagnostics ≠ [] := by
      intro hnil
      rw [hnil] at hlength
      exact hparse (List.eq_nil_of_length_eq_zero hlength.symm)
    rw [(compile_of_parsing h.clean hparse).1, (compile_of_parsing h.clean' hparse').1,
      (compile_of_parsing h.clean hparse).2.1, (compile_of_parsing h.clean' hparse').2.1,
      hlength]
    exact ⟨rfl, hdiagnostics⟩

/-- And do the same in any session. -/
theorem run {W : Type} [Writer W] (h : SameTokens source source') (s : Session W) :
    (s.run source').1 = (s.run source).1 ∧
      (s.run source).2.machine.Alike Eq (s.run source').2.machine ∧
      (s.run source').2.diagnostics.map Diagnostic.unended =
        (s.run source).2.diagnostics.map Diagnostic.unended := by
  obtain ⟨hresult, hdiagnostics⟩ := h.compile
  have hstart : (s.loaded source).Alike Eq (s.loaded source') := .of_log (fun _ => rfl) _ _
  cases hcompile : (Lox.compile [] source).result with
  | error failure =>
    rw [hcompile] at hresult
    rw [Session.run_of_rejected hcompile, Session.run_of_rejected hresult]
    exact ⟨rfl, hstart, hdiagnostics⟩
  | ok statements =>
    rw [hcompile] at hresult
    obtain ⟨hsame, hend⟩ := Machine.interpret_alike Writer.indistinct_eq hstart statements
    rw [Session.run_of_compiled hcompile, Session.run_of_compiled hresult, hsame]
    exact ⟨rfl, hend, hdiagnostics⟩

end SameTokens

/-- **A line that scans may be trimmed.** Let a line have no line break but at
its end, and let scanning it report nothing. Then scanning it without the
whitespace around it, more than is blank in a source, reports nothing either and
returns the same tokens on the same lines, the line of the end mark apart. And
in any session, whatever it prints to, running the one ends with the same result
as running the other, with the sink left the same and so the same output, the
same bindings in every frame and the same diagnostics, but for the lines of
diagnostics located at the end. -/
theorem Session.run_trimmed {line : String} (hline : '\n' ∉ line.toList.dropLast)
    (hclean : (Scan.ofSource line).diagnostics = []) :
    (Scan.ofSource (trim line)).diagnostics = [] ∧
    (∃ n, (Scan.ofSource (trim line)).tokens = (Scan.ofSource line).tokens.dropLast ++ [.eof n]) ∧
    ∀ {W : Type} [Writer W] (s : Session W),
      (s.run (trim line)).1 = (s.run line).1 ∧
      (s.run (trim line)).2.machine.sink = (s.run line).2.machine.sink ∧
      (s.run (trim line)).2.machine.scopes = (s.run line).2.machine.scopes ∧
      (s.run (trim line)).2.machine.current = (s.run line).2.machine.current ∧
      (s.run (trim line)).2.diagnostics.map Diagnostic.unended =
        (s.run line).2.diagnostics.map Diagnostic.unended := by
  obtain ⟨htrimmed, hbody⟩ := Scan.body_trim hline hclean
  refine ⟨htrimmed, ⟨(Scan.ofSource (trim line)).lines, ?_⟩, fun {W} _ s => ?_⟩
  · rw [Scan.tokens, Scan.tokens, List.dropLast_concat, hbody]
  · obtain ⟨hresult, halike, hdiagnostics⟩ := SameTokens.run ⟨hclean, htrimmed, hbody⟩ s
    exact ⟨hresult, halike.sink.symm, halike.scopes, halike.current, hdiagnostics⟩

/-- Tabs in front, and at the end a comment that begins and ends with a space
that is no blank, and a line break. -/
def Session.padded : String := "\t\tvar a = 1; print a //\u00a0b\u00a0\n"

/-- The statement lacks its semicolon, and the raw line lacks it a line
further down. -/
theorem Session.run_trimmed_of_padded :
    trim padded = "var a = 1; print a //\u00a0b" ∧ '\n' ∉ padded.toList.dropLast ∧
    (Scan.ofSource padded).diagnostics = [] ∧
    (Scan.ofSource (trim padded)).diagnostics = [] ∧
    ((Session.initial .unlimited).run (trim padded)).1 = .error (.parsing 1) ∧
    ((Session.initial .unlimited).run (trim padded)).2.diagnostics =
      [⟨1, .atEnd, "Expect ';' after value."⟩] ∧
    ((Session.initial .unlimited).run padded).2.diagnostics =
      [⟨2, .atEnd, "Expect ';' after value."⟩] := by
  have hline : '\n' ∉ padded.toList.dropLast := by decide +kernel
  have hclean : (Scan.ofSource padded).diagnostics = [] := by decide +kernel
  obtain ⟨htrimmed, -, hrun⟩ := run_trimmed hline hclean
  refine ⟨by decide +kernel, hline, hclean, htrimmed, ?_, by decide +kernel, by decide +kernel⟩
  rw [(hrun (Session.initial .unlimited)).1]
  decide +kernel

end Lox

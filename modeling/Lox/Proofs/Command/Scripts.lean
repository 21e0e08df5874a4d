/-
The commands that take a script. All three end at the first stage that
reports, with the same end for the same reports (`Command.rejection`):
printing tokens looks at scanning only, printing trees and running a script
look at parsing too, and only if scanning reported nothing. What none of them
rejects is listed, or executed up to its end or to the first statement that
fails (`Stmt.StopsAt`).
-/
import Lox.Command.Run
import Lox.Proofs.Machine.Alike
import Lox.Proofs.Session.Reachable

namespace Lox

/-! ## Where statements stop -/

namespace Stmt

variable {W : Type} [Writer W]

/-- Of the statements, those before one end well, and that one ends with the
fault `e` in the machine `m'`. -/
def StopsAt (ss : List Stmt) (m : Machine W) (e : RuntimeError) (m' : Machine W) : Prop :=
  ∃ before s after m₁, ss = before ++ s :: after ∧ execAll before m = .ok () m₁ ∧
    s.exec m₁ = .error e m'

theorem stopsAt_of_execAll : ∀ {ss : List Stmt} {m : Machine W} {e : RuntimeError}
    {m' : Machine W}, execAll ss m = .error e m' → StopsAt ss m e m'
  | [], m, e, m', h => by
    rw [execAll] at h
    exact absurd h Run.pure_ne_error
  | s :: ss, m, e, m', h => by
    rw [execAll] at h
    rcases Run.bind_eq_error.mp h with hs | ⟨_, m₁, hs, hss⟩
    · refine ⟨[], s, ss, m, rfl, ?_, hs⟩
      rw [execAll]
      rfl
    · obtain ⟨before, s', after, m₂, rfl, hbefore, hs'⟩ := stopsAt_of_execAll hss
      refine ⟨s :: before, s', after, m₂, rfl, ?_, hs'⟩
      rw [execAll]
      exact Run.bind_eq_ok.mpr ⟨(), m₁, hs, hbefore⟩

end Stmt

/-- A source that compiles is run as its statements are executed from a
machine with nothing in its log. -/
theorem Session.run_initial {source : String} {ss : List Stmt}
    (h : (compile [] source).result = .ok ss) :
    (∃ m, Stmt.execAll ss (Machine.initial Sink.unlimited) = .ok () m ∧
      ((initial .unlimited).run source).1 = .ok () ∧
      ((initial .unlimited).run source).2.output = m.sink.stored) ∨
    ∃ e m, Stmt.execAll ss (Machine.initial Sink.unlimited) = .error e m ∧
      ((initial .unlimited).run source).1 = .error (.runtime e) ∧
      ((initial .unlimited).run source).2.output = m.sink.stored := by
  have hloaded : (Machine.initial Sink.unlimited).Alike Eq ((initial .unlimited).loaded source) :=
    .of_log (fun _ => rfl) _ _
  obtain ⟨hresult, halike⟩ := Machine.interpret_alike Writer.indistinct_eq hloaded ss
  rw [run_of_compiled h, output, hresult, ← halike.sink]
  cases hexec : Stmt.execAll ss (Machine.initial Sink.unlimited) with
  | ok _ m =>
    rw [Machine.interpret_of_execAll_ok_sink hexec]
    exact .inl ⟨m, rfl, rfl, rfl⟩
  | error e m =>
    rw [Machine.interpret_of_execAll_error hexec]
    exact .inr ⟨e, m, rfl, rfl, rfl⟩

/-! ## The commands -/

namespace Command

/-- How a stage says how much it reported. -/
def count (stage : String) (n : Nat) : String :=
  stage ++ " reported " ++ toString n ++ if n = 1 then " error" else " errors"

/-- The end of a command on a script that a stage reports of: each report on a
line of its own, then how many there are. -/
def rejection (stage : String) (diagnostics : List Diagnostic) : Ended :=
  ⟨⟨[], Written.lines (diagnostics.map Diagnostic.text ++
    ["Failed run: " ++ count stage diagnostics.length])⟩, 65⟩

/-- The end of a command that lists texts. -/
def listed (texts : List String) : Ended := ⟨⟨utf8 (Written.lines texts), ""⟩, 0⟩

@[simp] theorem rejection_status (stage : String) (diagnostics : List Diagnostic) :
    (rejection stage diagnostics).status = 65 := rfl

@[simp] theorem listed_status (texts : List String) : (listed texts).status = 0 := rfl

theorem count_eq (stage : String) (n : Nat) :
    count stage n = stage ++ " reported " ++ toString n ++ " error" ++ Failure.plural n := by
  have hplural : " errors" = " error" ++ "s" := rfl
  unfold count Failure.plural
  split
  · rw [String.append_empty]
  · rw [hplural]
    exact String.append_assoc.symm

theorem finish_scanning (diagnostics : List Diagnostic) :
    finish [] (report diagnostics) (.error (.scanning diagnostics.length)) =
      rejection "Scanning" diagnostics := by
  rw [finish, rejection, count_eq]
  rfl

theorem finish_parsing (diagnostics : List Diagnostic) :
    finish [] (report diagnostics) (.error (.parsing diagnostics.length)) =
      rejection "Parsing" diagnostics := by
  rw [finish, rejection, count_eq]
  rfl

/-- The script of a file that holds text. -/
theorem readScript_of_text {content : String → Except ReadFailure ByteArray} {path : String}
    {bytes : ByteArray} {source : String} (hcontent : content path = .ok bytes)
    (htext : String.fromUTF8? bytes = some source) :
    Session.readScript path (content path) = .ok source := by
  have hdecode : decodeText bytes = .ok source := by
    rw [decodeText, htext]
  rw [Session.readScript, hcontent]
  change (decodeText bytes).mapError _ = _
  rw [hdecode]
  rfl

section

variable {content : String → Except ReadFailure ByteArray} {path source : String}
  (hscript : Session.readScript path (content path) = .ok source) (input : List UInt8)

include hscript

/-- A listing ends with the failure of its stage, or with what it lists. -/
theorem listing_of_error {α : Type} {stage : String → Staged (List α)} {text : α → String}
    {failure : Failure} (h : (stage source).result = .error failure) :
    listing stage text (Session.readScript path (content path)) =
      finish [] (stage source).shown (.error failure) := by
  simp only [listing, hscript, h]

theorem listing_of_ok {α : Type} {stage : String → Staged (List α)} {text : α → String}
    {items : List α} (h : (stage source).result = .ok items)
    (hsilent : (stage source).shown = []) :
    listing stage text (Session.readScript path (content path)) = listed (items.map text) := by
  simp only [listing, hscript, h, hsilent, finish]
  rfl

theorem run_file :
    run content input (.file path) =
      finish ((Session.initial .unlimited).run source).2.output
        ((Session.initial .unlimited).run source).2.shown
        ((Session.initial .unlimited).run source).1 := by
  simp only [run, Session.runScript, hscript]

/-- Reports of scanning end all three commands alike. -/
theorem run_of_scanning (hscan : (Scan.ofSource source).diagnostics ≠ []) :
    run content input (.tokens path) = rejection "Scanning" (Scan.ofSource source).diagnostics ∧
      run content input (.ast path) = rejection "Scanning" (Scan.ofSource source).diagnostics ∧
      run content input (.file path) = rejection "Scanning" (Scan.ofSource source).diagnostics := by
  obtain ⟨htokenize, -, htokenized⟩ := tokenize_of_scanning hscan
  obtain ⟨hcompile, -, hcompiled⟩ := compile_of_scanning hscan
  refine ⟨?_, ?_, ?_⟩
  · rw [run, listing_of_error hscript htokenize, htokenized, finish_scanning]
  · rw [run, listing_of_error hscript hcompile, hcompiled, finish_scanning]
  · rw [run_file hscript, Session.run_of_rejected hcompile, hcompiled]
    exact finish_scanning _

theorem run_of_parsing (hscan : (Scan.ofSource source).diagnostics = [])
    (hparse : (Program.ofTokens (Scan.ofSource source).tokens).diagnostics ≠ []) :
    run content input (.ast path) =
        rejection "Parsing" (Program.ofTokens (Scan.ofSource source).tokens).diagnostics ∧
      run content input (.file path) =
        rejection "Parsing" (Program.ofTokens (Scan.ofSource source).tokens).diagnostics := by
  obtain ⟨hcompile, -, hcompiled⟩ := compile_of_parsing hscan hparse
  constructor
  · rw [run, listing_of_error hscript hcompile, hcompiled, finish_parsing]
  · rw [run_file hscript, Session.run_of_rejected hcompile, hcompiled]
    exact finish_parsing _

theorem run_tokens_of_scanned (hscan : (Scan.ofSource source).diagnostics = []) :
    run content input (.tokens path) =
      listed ((Scan.ofSource source).tokens.map Token.display) := by
  obtain ⟨htokenize, -, htokenized⟩ := tokenize_of_clean hscan
  rw [run, listing_of_ok hscript htokenize htokenized]

theorem run_ast_of_compiled {ss : List Stmt} (hcompile : (compile [] source).result = .ok ss) :
    run content input (.ast path) = listed (ss.map Stmt.text) := by
  rw [run, listing_of_ok hscript hcompile (compile_silent_of_ok hcompile).2]

/-- What is printed by a script's statements is what running it writes. -/
theorem run_file_of_compiled {ss : List Stmt} (hcompile : (compile [] source).result = .ok ss) :
    (∃ m, Stmt.execAll ss (Machine.initial Sink.unlimited) = .ok () m ∧
      run content input (.file path) = ⟨⟨m.sink.stored, ""⟩, 0⟩) ∨
    ∃ e m, Stmt.StopsAt ss (Machine.initial Sink.unlimited) e m ∧
      run content input (.file path) =
        ⟨⟨m.sink.stored, Written.lines ["Failed run: Runtime error:\n" ++ e.message]⟩, 70⟩ := by
  have hsilent : ((Session.initial .unlimited).run source).2.shown = [] := by
    rw [Session.run_of_compiled hcompile]
    exact (compile_silent_of_ok hcompile).2
  rw [run_file hscript, hsilent]
  rcases Session.run_initial hcompile with
    ⟨m, hexec, hresult, hstored⟩ | ⟨e, m, hexec, hresult, hstored⟩
  · rw [hresult, hstored]
    exact .inl ⟨m, hexec, rfl⟩
  · rw [hresult, hstored, finish]
    refine .inr ⟨e, m, Stmt.stopsAt_of_execAll hexec, ?_⟩
    have htext : "Failed run: " ++ (Failure.runtime e).message =
        "Failed run: Runtime error:\n" ++ e.message := String.append_assoc.symm
    rw [htext]
    rfl

end

/-- **The commands on a script agree.** Let a file hold a text.

Printing its tokens ends with 65 exactly if scanning reports of it; printing
its trees and running it end so exactly if scanning does or, where it does
not, parsing does. Then nothing is on standard output, and standard error has
the reports in order, one to a line, and one line with their number; this is
the same for all three commands if scanning reports, and for the last two if
parsing does.

Otherwise the tokens or the trees are listed and the end is 0. A script that
is run ends with 0 and with all that its statements print, or with 70 and
with what they print up to the statement that fails. -/
theorem scripts_agree {content : String → Except ReadFailure ByteArray} {path : String}
    {bytes : ByteArray} {source : String} (hcontent : content path = .ok bytes)
    (htext : String.fromUTF8? bytes = some source) (input : List UInt8) :
    let scan := Scan.ofSource source
    let program := Program.ofTokens scan.tokens
    let tokens := run content input (.tokens path)
    let ast := run content input (.ast path)
    let file := run content input (.file path)
    (tokens.status = 65 ↔ scan.diagnostics ≠ []) ∧
    (ast.status = 65 ↔
      scan.diagnostics ≠ [] ∨ scan.diagnostics = [] ∧ program.diagnostics ≠ []) ∧
    (file.status = 65 ↔
      scan.diagnostics ≠ [] ∨ scan.diagnostics = [] ∧ program.diagnostics ≠ []) ∧
    (scan.diagnostics ≠ [] →
      tokens = rejection "Scanning" scan.diagnostics ∧ ast = tokens ∧ file = tokens) ∧
    (scan.diagnostics = [] → tokens = listed (scan.tokens.map Token.display)) ∧
    (scan.diagnostics = [] → program.diagnostics ≠ [] →
      ast = rejection "Parsing" program.diagnostics ∧ file = ast) ∧
    (scan.diagnostics = [] → program.diagnostics = [] →
      ast = listed (program.statements.map Stmt.text) ∧
      ((∃ m, Stmt.execAll program.statements (Machine.initial Sink.unlimited) = .ok () m ∧
          file = ⟨⟨m.sink.stored, ""⟩, 0⟩) ∨
        ∃ e m, Stmt.StopsAt program.statements (Machine.initial Sink.unlimited) e m ∧
          file = ⟨⟨m.sink.stored, Written.lines ["Failed run: Runtime error:\n" ++ e.message]⟩,
            70⟩)) := by
  intro scan program tokens ast file
  have hscript := readScript_of_text hcontent htext
  by_cases hscan : scan.diagnostics = []
  case neg =>
    have hall : tokens = rejection "Scanning" scan.diagnostics ∧
        ast = rejection "Scanning" scan.diagnostics ∧
        file = rejection "Scanning" scan.diagnostics := run_of_scanning hscript input hscan
    simp [hall, hscan]
  have htokens : tokens = listed (scan.tokens.map Token.display) :=
    run_tokens_of_scanned hscript input hscan
  by_cases hparse : program.diagnostics = []
  case neg =>
    have hboth : ast = rejection "Parsing" program.diagnostics ∧
        file = rejection "Parsing" program.diagnostics := run_of_parsing hscript input hscan hparse
    simp [htokens, hboth, hscan, hparse]
  have hcompile : (compile [] source).result = .ok program.statements :=
    compile_eq_ok.mpr ⟨hscan, hparse, rfl⟩
  have hast : ast = listed (program.statements.map Stmt.text) :=
    run_ast_of_compiled hscript input hcompile
  have hfile := run_file_of_compiled hscript input hcompile
  have hstatus : file.status ≠ 65 := by
    rcases hfile with ⟨m, -, hfile⟩ | ⟨e, m, -, hfile⟩ <;>
      simp [file, hfile]
  exact ⟨by simp [htokens, hscan], by simp [hast, hscan, hparse], by simp [hstatus, hscan, hparse],
    fun h => absurd hscan h, fun _ => htokens, fun _ h => absurd hparse h,
    fun _ _ => ⟨hast, hfile⟩⟩

/-- Two characters that begin no token, around a statement that is no
statement: the second report is of the second character. -/
def misspelt : String := "@\nprint;\n#"

theorem scripts_agree_of_misspelt :
    let content := fun _ : String => Except.ok misspelt.toUTF8
    String.fromUTF8? misspelt.toUTF8 = some misspelt ∧
      run content [] (.tokens "a.lox") = ⟨⟨[], "[line 1] Error: Unexpected character.\n" ++
        "[line 3] Error: Unexpected character.\nFailed run: Scanning reported 2 errors\n"⟩, 65⟩ ∧
      run content [] (.ast "a.lox") = run content [] (.tokens "a.lox") ∧
      run content [] (.file "a.lox") = run content [] (.tokens "a.lox") := by
  intro content
  have hcontent : content "a.lox" = .ok misspelt.toUTF8 := rfl
  have htext : String.fromUTF8? misspelt.toUTF8 = some misspelt := by decide +kernel
  obtain ⟨-, -, -, hscanning, -⟩ := scripts_agree hcontent htext []
  obtain ⟨htokens, hast, hfile⟩ := hscanning (by decide +kernel)
  refine ⟨htext, ?_, hast, hfile⟩
  rw [htokens]
  decide +kernel

end Command

end Lox

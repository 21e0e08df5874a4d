/-
What is rejected leaves no trace. A text that cannot be read, scanned or
parsed is rejected before any of its statements is executed, and only the
log and standard error tell of it (`Session.call_of_rejected`). Nothing that is
executed looks at the log, so a session goes on as if the text had never been
there (`Session.Matches.trace`).

Whatever is printed to, statements only write to it, and it is flushed once all
of them have ended well, and at no other time (`Machine.interpret_of_raised`,
`Machine.interpret_of_not_raised`).
-/
import Lox.Proofs.Machine.Alike
import Lox.Proofs.Session.Reachable
import Mathlib.Control.Monad.Basic

namespace Lox

/-! ## Flushes -/

/-- A number that goes up by one with each flush, refused or not, and that no
write changes. -/
structure Writer.CountsFlushes {W : Type} [Writer W] (count : W → Nat) : Prop where
  write : ∀ sink bytes, count (write sink bytes).2 = count sink
  flush : ∀ sink, count (flush sink).2 = count sink + 1

/-- A sink has one. -/
theorem Sink.countsFlushes : Writer.CountsFlushes Sink.flushes where
  write _ _ := rfl
  flush _ := rfl

namespace Machine

variable {W : Type} [Writer W]

/-- The fault that one of the statements raises, if one does. -/
def raised? (m : Machine W) (ss : List Stmt) : Option RuntimeError :=
  match Stmt.execAll ss m with
  | .ok _ _ => none
  | .error e _ => some e

theorem raised?_eq_some {m : Machine W} {ss : List Stmt} {e : RuntimeError} :
    m.raised? ss = some e ↔ ∃ m', Stmt.execAll ss m = .error e m' := by
  unfold raised?
  cases Stmt.execAll ss m <;> simp

theorem raised?_eq_none {m : Machine W} {ss : List Stmt} :
    m.raised? ss = none ↔ ∃ m', Stmt.execAll ss m = .ok () m' := by
  unfold raised?
  cases Stmt.execAll ss m <;> simp

/-- A fault that a statement raises ends the run before the flush. -/
theorem interpret_of_raised {m : Machine W} {ss : List Stmt} {e : RuntimeError}
    (h : m.raised? ss = some e) :
    (m.interpret ss).1 = .error e ∧ Writer.Wrote m.sink (m.interpret ss).2.sink := by
  obtain ⟨m', hss⟩ := raised?_eq_some.mp h
  rw [interpret_of_execAll_error hss]
  exact ⟨rfl, (execAll_moves_wrote ss m).2 e m' hss⟩

/-- If none does, the sink is flushed once after all writes, and the run ends
with the fault of that if it fails. -/
theorem interpret_of_not_raised {m : Machine W} {ss : List Stmt} (h : m.raised? ss = none) :
    ∃ sink, Writer.Wrote m.sink sink ∧
      (m.interpret ss).1 = (Writer.flush sink).1.elim (.ok ()) (.error <| .output ·) ∧
      (m.interpret ss).2.sink = (Writer.flush sink).2 := by
  obtain ⟨m', hss⟩ := raised?_eq_none.mp h
  rw [interpret_of_execAll_ok hss]
  exact ⟨m'.sink, (execAll_moves_wrote ss m).1 _ _ hss, rfl, rfl⟩

end Machine

/-! ## Calls -/

/-- Whether it came before any statement was executed. -/
def Failure.isRejection : Failure → Bool
  | .unreadable _ _ => true
  | .scanning _ => true
  | .parsing _ => true
  | .runtime _ => false

theorem isRejection_of_compile {source : String} {failure : Failure}
    (h : (compile [] source).result = .error failure) : failure.isRejection = true := by
  by_cases hscan : (Scan.ofSource source).diagnostics = []
  case neg =>
    rw [(compile_of_scanning hscan).1] at h
    cases h
    rfl
  by_cases hparse : (Program.ofTokens (Scan.ofSource source).tokens).diagnostics = []
  case neg =>
    rw [(compile_of_parsing hscan hparse).1] at h
    cases h
    rfl
  rw [(compile_of_clean hscan hparse).1] at h
  cases h

theorem isRejection_of_readScript {path : String} {content : Except ReadFailure ByteArray}
    {failure : Failure} (h : Session.readScript path content = .error failure) :
    failure.isRejection = true := by
  unfold Session.readScript at h
  cases hcontent : content >>= decodeText with
  | ok text =>
    rw [hcontent] at h
    cases h
  | error cause =>
    rw [hcontent] at h
    cases h
    rfl

namespace Session

/-- What a session is asked for: to run a source, or a script, given what
reading its file comes to. -/
inductive Call where
  /-- Run this text. -/
  | source (text : String)
  /-- Run the script at a path. -/
  | script (path : String) (content : Except ReadFailure ByteArray)

section

variable {W : Type} [Writer W]

/-- How the session answers a call, and what becomes of it. -/
def call (s : Session W) : Call → Except Failure Unit × Session W
  | .source text => s.run text
  | .script path content => s.runScript path content

/-- The text of a call, if it can be read. -/
def Call.text : Call → Except Failure String
  | .source text => .ok text
  | .script path content => readScript path content

theorem call_eq (s : Session W) (c : Call) :
    s.call c = match c.text with
      | .error failure => (.error failure, s)
      | .ok text => s.run text := by
  cases c with
  | source text => rfl
  | script path content => rfl

/-- The statements of the call's text, if it is not rejected. -/
def Call.statements (c : Call) : Except Failure (List Stmt) := do
  let text ← c.text
  (compile [] text).result

/-- A rejected call leaves the machine as it is, but for the log. -/
theorem call_of_rejected {c : Call} {failure : Failure} (h : c.statements = .error failure)
    (s : Session W) :
    failure.isRejection = true ∧ (s.call c).1 = .error failure ∧
      ∃ log, (s.call c).2.machine = { s.machine with log } := by
  rw [call_eq]
  cases htext : c.text with
  | error unread =>
    rw [Call.statements, htext] at h
    cases h
    refine ⟨?_, rfl, s.machine.log, rfl⟩
    cases c with
    | source text => cases htext
    | script path content => exact isRejection_of_readScript htext
  | ok text =>
    rw [Call.statements, htext] at h
    have hrun := run_of_rejected (s := s) (h : (compile [] text).result = .error failure)
    refine ⟨isRejection_of_compile h, ?_, ?_⟩
    · simp only [hrun]
    · simp only [hrun]
      exact ⟨_, rfl⟩

theorem Call.statements_eq_ok {c : Call} {ss : List Stmt} :
    c.statements = .ok ss ↔ ∃ text, c.text = .ok text ∧ (compile [] text).result = .ok ss := by
  unfold statements
  cases c.text with
  | error unread => exact ⟨nofun, nofun⟩
  | ok text => exact ⟨fun h => ⟨text, rfl, h⟩, fun ⟨_, rfl, h⟩ => h⟩

/-- Another executes its statements. -/
theorem call_of_compiled {c : Call} {text : String} {ss : List Stmt} (htext : c.text = .ok text)
    (hcompile : (compile [] text).result = .ok ss) (s : Session W) :
    s.call c = (((s.loaded text).interpret ss).1.mapError .runtime,
      ⟨((s.loaded text).interpret ss).2, [], s.shown⟩) := by
  obtain ⟨hdiagnostics, hshown⟩ := compile_silent_of_ok hcompile
  rw [call_eq, htext]
  simp only [run_of_compiled hcompile, hdiagnostics, hshown, List.append_nil]

/-- A statement of the call's text ends with the fault. -/
def Raises (s : Session W) (c : Call) (e : RuntimeError) : Prop :=
  ∃ text ss, c.text = .ok text ∧ (compile [] text).result = .ok ss ∧
    (s.loaded text).raised? ss = some e

/-- A call in which a statement raises a fault ends with it and does not
flush. -/
theorem Raises.call {s : Session W} {c : Call} {e : RuntimeError} (h : s.Raises c e) :
    (s.call c).1 = .error (.runtime e) ∧
      Writer.Wrote s.machine.sink (s.call c).2.machine.sink := by
  obtain ⟨text, ss, htext, hcompile, hraised⟩ := h
  obtain ⟨hresult, hwrote⟩ := Machine.interpret_of_raised hraised
  rw [call_of_compiled htext hcompile, hresult]
  exact ⟨rfl, hwrote⟩

/-- The call writes to the sink, then flushes it, and ends as the flush does. -/
def Flushes (s : Session W) (c : Call) : Prop :=
  ∃ sink, Writer.Wrote s.machine.sink sink ∧
    (s.call c).1 = (Writer.flush sink).1.elim (.ok ()) (.error <| .runtime <| .output ·) ∧
    (s.call c).2.machine.sink = (Writer.flush sink).2

/-- Of the calls that are not rejected, all others flush. -/
theorem raises_or_flushes {c : Call} {ss : List Stmt} (h : c.statements = .ok ss)
    (s : Session W) : (∃ e, s.Raises c e) ∨ s.Flushes c := by
  obtain ⟨text, htext, hcompile⟩ := Call.statements_eq_ok.mp h
  cases hraised : (s.loaded text).raised? ss with
  | some e => exact .inl ⟨e, text, ss, htext, hcompile, hraised⟩
  | none =>
    obtain ⟨sink, hwrote, hresult, hsink⟩ := Machine.interpret_of_not_raised hraised
    refine .inr ⟨sink, hwrote, ?_, ?_⟩
    · rw [call_of_compiled htext hcompile, hresult]
      cases (Writer.flush sink).1 <;> rfl
    · rw [call_of_compiled htext hcompile]
      exact hsink

/-- A call that flushes ends well, or with the cause for which the flush was
refused. -/
theorem Flushes.cases {s : Session W} {c : Call} (h : s.Flushes c) :
    ∃ sink, Writer.Wrote s.machine.sink sink ∧
      ((s.call c).1 = .ok () ∧ Writer.flush sink = (none, (s.call c).2.machine.sink) ∨
      ∃ cause, (s.call c).1 = .error (.runtime (.output cause)) ∧
        Writer.flush sink = (some cause, (s.call c).2.machine.sink)) := by
  obtain ⟨sink, hwrote, hresult, hsink⟩ := h
  refine ⟨sink, hwrote, ?_⟩
  rw [hresult, hsink]
  rcases Writer.flush sink with ⟨_ | cause, after⟩
  · exact .inl ⟨rfl, rfl⟩
  · exact .inr ⟨cause, rfl, rfl⟩

/-- The three ways of a call. -/
theorem call_cases (s : Session W) (c : Call) :
    (∃ failure log, failure.isRejection = true ∧ (s.call c).1 = .error failure ∧
      (s.call c).2.machine = { s.machine with log }) ∨
    (∃ e, s.Raises c e) ∨ s.Flushes c := by
  cases hc : c.statements with
  | error failure =>
    obtain ⟨hfailure, hresult, log, hmachine⟩ := call_of_rejected hc s
    exact .inl ⟨failure, log, hfailure, hresult, hmachine⟩
  | ok ss => exact .inr (raises_or_flushes hc s)

/-- A call that ends well writes, then flushes, and is not refused. -/
theorem flush_of_ok {s : Session W} {c : Call} (h : (s.call c).1 = .ok ()) :
    ∃ sink, Writer.Wrote s.machine.sink sink ∧
      Writer.flush sink = (none, (s.call c).2.machine.sink) := by
  rcases call_cases s c with ⟨_, _, -, hresult, -⟩ | ⟨e, hraises⟩ | hflushes
  · cases hresult.symm.trans h
  · cases hraises.call.1.symm.trans h
  · obtain ⟨sink, hwrote, ⟨-, hflush⟩ | ⟨cause, hfault, -⟩⟩ := hflushes.cases
    · exact ⟨sink, hwrote, hflush⟩
    · cases hfault.symm.trans h

theorem count_of_ok {count : W → Nat} (hcount : Writer.CountsFlushes count) {s : Session W}
    {c : Call} (h : (s.call c).1 = .ok ()) :
    count (s.call c).2.machine.sink = count s.machine.sink + 1 := by
  obtain ⟨sink, hwrote, hflush⟩ := flush_of_ok h
  have hflushed := hcount.flush sink
  rw [hflush] at hflushed
  rw [hflushed, hwrote.map_eq hcount.write]

/-! ## Sequences of calls -/

/-- A call, how it ended, and the session after it. -/
structure Step (W : Type) where
  /-- What the session was asked for. -/
  call : Call
  /-- How it ended. -/
  result : Except Failure Unit
  /-- What became of the session. -/
  after : Session W

/-- One call. -/
def step (s : Session W) (c : Call) : Step W := ⟨c, (s.call c).1, (s.call c).2⟩

/-- The steps of calls one after another. -/
def trace : Session W → List Call → List (Step W)
  | _, [] => []
  | s, c :: cs => s.step c :: (s.step c).after.trace cs

/-- Whether the call ended before any statement was executed. -/
def Step.isRejected (step : Step W) : Bool :=
  match step.result with
  | .ok () => false
  | .error failure => failure.isRejection

theorem isRejected_step_of_error {c : Call} {failure : Failure}
    (h : c.statements = .error failure) (s : Session W) : (s.step c).isRejected = true := by
  obtain ⟨hfailure, hresult, -⟩ := call_of_rejected h s
  simp only [Step.isRejected, step, hresult, hfailure]

theorem isRejected_step_of_ok {c : Call} {ss : List Stmt} (h : c.statements = .ok ss)
    (s : Session W) : (s.step c).isRejected = false := by
  rcases raises_or_flushes h s with ⟨e, he⟩ | hflushes
  · simp only [Step.isRejected, step, he.call.1, Failure.isRejection]
  · obtain ⟨sink, -, ⟨hok, -⟩ | ⟨cause, hfault, -⟩⟩ := hflushes.cases
    · simp only [Step.isRejected, step, hok]
    · simp only [Step.isRejected, step, hfault, Failure.isRejection]

theorem statements_of_isRejected {s : Session W} {c : Call} (h : (s.step c).isRejected = true) :
    ∃ failure, c.statements = .error failure := by
  cases hc : c.statements with
  | error failure => exact ⟨failure, rfl⟩
  | ok ss =>
    rw [isRejected_step_of_ok hc s] at h
    cases h

/-- What a step leaves that a later one may tell: its result, what was printed
to with all that it has stored and was flushed, the diagnostics and the
bindings. -/
structure Seen (W : Type) where
  /-- How the call ended. -/
  result : Except Failure Unit
  /-- What was printed to, as the call left it. -/
  sink : W
  /-- What the call had reported. -/
  diagnostics : List Diagnostic
  /-- The bindings of every frame. -/
  scopes : Scopes

/-- What is seen of a step. -/
def Step.seen (step : Step W) : Seen W where
  result := step.result
  sink := step.after.machine.sink
  diagnostics := step.after.diagnostics
  scopes := step.after.machine.scopes

/-- The machines of the sessions are the same but for the log. -/
def Matches (s t : Session W) : Prop := s.machine.Alike Eq t.machine

namespace Matches

omit [Writer W] in
theorem refl (s : Session W) : s.Matches s := .of_log (fun _ => rfl) _ _

/-- A rejected call on one side only changes nothing. -/
theorem rejected {s t : Session W} (h : s.Matches t) {c : Call} {failure : Failure}
    (hc : c.statements = .error failure) : (s.call c).2.Matches t := by
  obtain ⟨-, -, log, hmachine⟩ := call_of_rejected hc s
  have halike : (s.call c).2.machine.Alike Eq s.machine := by
    rw [hmachine]
    exact .of_log (fun _ => rfl) { s.machine with log } _
  exact halike.trans .trans h

/-- Any other call, made on both, shows the same on both. -/
theorem accepted {s t : Session W} (h : s.Matches t) {c : Call} {ss : List Stmt}
    (hc : c.statements = .ok ss) :
    (t.step c).seen = (s.step c).seen ∧ (s.step c).after.Matches (t.step c).after := by
  obtain ⟨text, htext, hcompile⟩ := Call.statements_eq_ok.mp hc
  have hloaded : (s.loaded text).Alike Eq (t.loaded text) := by
    obtain ⟨sink, log, hsink, hmachine⟩ := h
    rw [loaded, loaded, hmachine]
    exact ⟨sink, _, hsink, rfl⟩
  obtain ⟨hresult, halike⟩ := Machine.interpret_alike Writer.indistinct_eq hloaded ss
  simp only [step, Step.seen, call_of_compiled htext hcompile]
  rw [hresult, halike.scopes, ← halike.sink]
  exact ⟨rfl, halike⟩

/-- The calls that are not rejected show the same without the others. -/
theorem trace {s t : Session W} (h : s.Matches t) (cs : List Call) :
    (t.trace (((s.trace cs).filter (!·.isRejected)).map Step.call)).map Step.seen =
      ((s.trace cs).filter (!·.isRejected)).map Step.seen := by
  -- The two sessions differ more and more in their logs, and match all along.
  induction cs generalizing s t with
  | nil => rfl
  | cons c cs ih =>
    rw [Session.trace]
    cases hc : c.statements with
    | error failure =>
      have hrejected := isRejected_step_of_error hc s
      rw [List.filter_cons_of_neg (by simp [hrejected])]
      exact ih (h.rejected hc)
    | ok ss =>
      have hkept := isRejected_step_of_ok hc s
      obtain ⟨hseen, hafter⟩ := h.accepted hc
      rw [List.filter_cons_of_pos (by simp [hkept]), List.map_cons, List.map_cons, Session.trace,
        List.map_cons]
      exact List.cons_eq_cons.mpr ⟨hseen, ih hafter⟩

end Matches

/-- **A failed compilation has no effect.** In any session, whatever it prints
to, a call that is rejected, for its file cannot be read or its text not be
scanned or parsed, prints nothing, flushes nothing and binds nothing.

A call that ends well writes and then flushes, exactly once. One in which a
statement raises a fault ends with it and does not flush; the only other runtime
fault is that of the one flush. So the first puts any count of flushes up by one,
and the second leaves it.

Of calls one after another, those that are not rejected end and show the same
when the rejected ones are left out: the result, what was printed to, with all
that it has stored and every flush of it, the diagnostics and the bindings. -/
theorem rejections_leave_no_trace (s : Session W) :
    (∀ c, (s.step c).isRejected = true →
      (s.call c).2.machine.sink = s.machine.sink ∧
      (s.call c).2.machine.scopes = s.machine.scopes ∧
      (s.call c).2.machine.current = s.machine.current) ∧
    (∀ c, (s.call c).1 = .ok () → ∃ sink, Writer.Wrote s.machine.sink sink ∧
      Writer.flush sink = (none, (s.call c).2.machine.sink)) ∧
    (∀ c e, s.Raises c e → (s.call c).1 = .error (.runtime e) ∧
      Writer.Wrote s.machine.sink (s.call c).2.machine.sink) ∧
    (∀ c e, (s.call c).1 = .error (.runtime e) → s.Raises c e ∨
      ∃ sink cause, Writer.Wrote s.machine.sink sink ∧ e = .output cause ∧
        Writer.flush sink = (some cause, (s.call c).2.machine.sink)) ∧
    (∀ count, Writer.CountsFlushes count → ∀ c,
      ((s.call c).1 = .ok () →
        count (s.call c).2.machine.sink = count s.machine.sink + 1) ∧
      ∀ e, s.Raises c e → count (s.call c).2.machine.sink = count s.machine.sink) ∧
    ∀ cs, (s.trace (((s.trace cs).filter (!·.isRejected)).map Step.call)).map Step.seen =
      ((s.trace cs).filter (!·.isRejected)).map Step.seen := by
  refine ⟨fun c hc => ?_, fun c hc => flush_of_ok hc, fun c e hraises => hraises.call,
    fun c e hc => ?_, fun count hcount c => ⟨count_of_ok hcount, fun e hraises => ?_⟩,
    (Matches.refl s).trace⟩
  · obtain ⟨failure, hstatements⟩ := statements_of_isRejected hc
    obtain ⟨-, -, log, hmachine⟩ := call_of_rejected hstatements s
    rw [hmachine]
    exact ⟨rfl, rfl, rfl⟩
  · rcases call_cases s c with ⟨_, _, hfailure, hresult, -⟩ | ⟨e', hraises⟩ | hflushes
    · cases hresult.symm.trans hc
      cases hfailure
    · cases hraises.call.1.symm.trans hc
      exact .inl hraises
    · obtain ⟨sink, hwrote, ⟨hok, -⟩ | ⟨cause, hfault, hflush⟩⟩ := hflushes.cases
      · cases hok.symm.trans hc
      · cases hfault.symm.trans hc
        exact .inr ⟨sink, cause, hwrote, rfl, hflush⟩
  · exact hraises.call.2.map_eq hcount.write

end

/-- A source that binds a name and one that fails at another, among texts that
are rejected. -/
def interrupted : List Call :=
  [.source "var a = nil;", .source "a = true; print (;", .script "gone.lox" (.error .missing),
    .source "print a; b;", .source "var a = true; @", .source "print a;"]

/-- Without those texts too, the last call prints what the first one bound, and
the one that fails does not flush; the first one flushes once. -/
theorem rejections_leave_no_trace_of_interrupted :
    let s := Session.initial .unlimited
    let kept := (s.trace interrupted).filter (!·.isRejected)
    (s.call (.source "var a = nil;")).2.machine.sink.flushes = s.machine.sink.flushes + 1 ∧
      (s.trace interrupted).map Step.isRejected = [false, true, true, false, true, false] ∧
      (s.trace (kept.map Step.call)).map (fun step =>
          (step.seen.sink.stored, step.seen.sink.flushes)) =
        [([], 1), (utf8 "nil\n", 1), (utf8 "nil\nnil\n", 2)] := by
  intro s kept
  obtain ⟨-, -, -, -, hcounts, hkept⟩ := rejections_leave_no_trace s
  have hseen := hkept interrupted
  have hshown := congrArg (List.map fun seen => (seen.sink.stored, seen.sink.flushes)) hseen
  rw [List.map_map, List.map_map] at hshown
  exact ⟨(hcounts _ Sink.countsFlushes _).1 (by decide +kernel), by decide +kernel,
    hshown.trans (by decide +kernel)⟩

end Session

end Lox

/-
The line of the end mark is in the diagnostics located at the end and nowhere
else: tokens with their end mark on another line have the same program, but for
the lines of such diagnostics (`Program.ofTokens_eof`).
-/
import Lox.Proofs.Grammar.Acceptance
import Lox.Proofs.Grammar.Closed

namespace Lox

/-- The diagnostic without its line, if it is located at the end. -/
def Diagnostic.unended (d : Diagnostic) : Diagnostic :=
  if d.location = .atEnd then { d with line := 0 } else d

/-- The fault without its line, if it is located at the end. -/
def SyntaxFault.unended (fault : SyntaxFault) : SyntaxFault :=
  if fault.location = .atEnd then { fault with line := 0 } else fault

namespace SyntaxFault

@[simp] theorem diagnostic_unended (fault : SyntaxFault) :
    fault.unended.diagnostic = fault.diagnostic.unended := by
  by_cases h : fault.location = .atEnd <;> simp [unended, diagnostic, Diagnostic.unended, h]

@[simp] theorem cause_unended (fault : SyntaxFault) : fault.unended.cause = fault.cause := by
  by_cases h : fault.location = .atEnd <;> simp [unended, h]

end SyntaxFault

namespace Record

/-- The record without the line of what it holds, if that is located at the end. -/
def unended : Record → Record
  | .reported d => .reported d.unended
  | .recovering fault => .recovering fault.unended
  | record => record

theorem diagnostics_unended (log : List Record) :
    diagnostics (log.map unended) = (diagnostics log).map Diagnostic.unended := by
  have hrecord : ∀ r : Record, (unended r).diagnostic? = r.diagnostic?.map Diagnostic.unended := by
    intro r
    cases r <;> rfl
  simp only [diagnostics, List.filterMap_map, List.map_filterMap, Function.comp_def, hrecord]

end Record

namespace Outcome

variable {α β : Type}

/-- The outcome without the lines of what is located at the end. -/
def unended : Outcome α → Outcome α
  | .done value rest log => .done value rest (log.map Record.unended)
  | .failed fault rest log => .failed fault.unended rest (log.map Record.unended)

theorem unended_logged (o : Outcome α) (earlier : List Record) :
    (o.logged earlier).unended = o.unended.logged (earlier.map Record.unended) := by
  cases o <;> simp [logged, unended]

theorem unended_bind (o : Outcome α) (next : α → List Token → Outcome β) :
    (o.bind next).unended = o.unended.bind fun a rest => (next a rest).unended := by
  cases o with
  | done a rest log => exact unended_logged (next a rest) log
  | failed fault rest log => rfl

/-- What goes on from outcomes that agree agrees. -/
theorem unended_bind_congr {o o' : Outcome α} {next next' : α → List Token → Outcome β}
    (h : o.unended = o'.unended) (hnext : ∀ a rest log, o = .done a rest log →
      (next a rest).unended = (next' a rest).unended) :
    (o.bind next).unended = (o'.bind next').unended := by
  rw [unended_bind, unended_bind, ← h]
  cases o with
  | done a rest log =>
    have hsame := hnext a rest log rfl
    rw [unended, bind_done, bind_done, hsame]
  | failed fault rest log => rfl

/-- So does what becomes of a declaration: where reading resumes hangs on the
cause of the fault and not on its line. -/
theorem unended_given_congr {o o' : Outcome Stmt} (ts : List Token) (h : o.unended = o'.unended) :
    (Grammar.given ts o).unended = (Grammar.given ts o').unended := by
  cases o with
  | done s rest log =>
    cases o' with
    | done s' rest' log' =>
      simp only [unended, done.injEq] at h
      simp only [Grammar.given, unended, h.1, h.2.1, h.2.2]
    | failed fault' rest' log' => cases h
  | failed fault rest log =>
    cases o' with
    | done s' rest' log' => cases h
    | failed fault' rest' log' =>
      simp only [unended, failed.injEq] at h
      obtain ⟨hfault, rfl, hlog⟩ := h
      have hcause : fault.cause = fault'.cause := by
        rw [← fault.cause_unended, hfault, fault'.cause_unended]
      have hdiagnostic : fault.diagnostic.unended = fault'.diagnostic.unended := by
        rw [← fault.diagnostic_unended, hfault, fault'.diagnostic_unended]
      simp only [Grammar.given, unended, hcause, List.map_append, List.map_cons, List.map_nil, hlog,
        Record.unended, hfault, hdiagnostic]

end Outcome

namespace Grammar

open Outcome

theorem unended_faultAt (n m : Nat) (ts : List Token) (cause : SyntaxCause) :
    (faultAt n ts cause).unended = (faultAt m ts cause).unended := by
  cases ts <;> rfl

/-- The outcomes of a rule for two lines of the end mark agree. -/
theorem unended_closed :
    Closed (fun _ _ o => ∀ n m, (o n).unended = (o m).unended)
      (fun _ _ o => ∀ n m, (o n).unended = (o m).unended) where
  keep _ _ _ _ := rfl
  fault ts cause _ n m := by simp only [unended, unended_faultAt n m]
  undenoting _ _ _ _ _ := rfl
  passed _ h := h
  assigned _ _ _ _ _ h n m := unended_bind_congr (h n m) fun _ _ _ _ => rfl
  bind h hnext n m :=
    unended_bind_congr (h n m) fun a rest log hdone => hnext n a rest log hdone n m
  token _ _ _ _ := rfl
  block h := h
  given h n m := unended_given_congr _ (h n m)
  keepAll _ _ _ _ := rfl
  bindAll h hnext n m :=
    unended_bind_congr (h n m) fun a rest log hdone => hnext n a rest log hdone n m

end Grammar

/-- On whatever line the end mark stands, the statements are the same, and the
diagnostics are but for the lines of those located at the end. -/
theorem Program.ofTokens_eof {ts : List Token} (h : ∀ t ∈ ts, t.kind ≠ .eof) (n m : Nat) :
    (ofTokens (ts ++ [.eof n])).statements = (ofTokens (ts ++ [.eof m])).statements ∧
      (ofTokens (ts ++ [.eof n])).diagnostics.map Diagnostic.unended =
        (ofTokens (ts ++ [.eof m])).diagnostics.map Diagnostic.unended := by
  have hagree := Grammar.declarations_of_closed Grammar.unended_closed false ts n m
  simp only [Grammar.Body.outcome, Outcome.unended, Outcome.done.injEq] at hagree
  obtain ⟨hstatements, -, hlog⟩ := hagree
  obtain ⟨hstatements₁, hdiagnostics₁⟩ := ofTokens_append h (ending_eof n)
  obtain ⟨hstatements₂, hdiagnostics₂⟩ := ofTokens_append h (ending_eof m)
  rw [endLine_append_eof h] at hstatements₁ hdiagnostics₁ hstatements₂ hdiagnostics₂
  constructor
  · rw [hstatements₁, hstatements₂]
    exact hstatements
  · rw [hdiagnostics₁, hdiagnostics₂, ← Record.diagnostics_unended, ← Record.diagnostics_unended]
    exact congrArg Record.diagnostics hlog

end Lox

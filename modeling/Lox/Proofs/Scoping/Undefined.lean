/-
Faults of undefined names against the lookups a run comes to: a run ends
with such a fault exactly if it reaches a name that no frame on the walk
binds (`Stmt.execAll_undefined_iff`). Nothing else raises the fault, and a
run does not survive such a lookup.
-/
import Lox.Proofs.Scoping.Static

namespace Lox

/-! ## Operators raise other faults -/

theorem Operator.unary_ne_undefined (operator : Token) (v : Value) (x : String) (n : Nat) :
    Operator.unary operator v ≠ .error (.undefinedVariable x n) := by
  intro h
  rcases Operator.unary_eq_error h with h | ⟨h, -⟩ <;> cases h

theorem Operator.binary_ne_undefined (a : Value) (operator : Token) (b : Value) (x : String)
    (n : Nat) : Operator.binary a operator b ≠ .error (.undefinedVariable x n) := by
  intro h
  rcases Operator.binary_eq_error h with h | h | ⟨h, -⟩ <;> cases h

open Run

section

variable {W : Type}

/-! ## Expressions -/

/-- Evaluation ends at a name that is reached and unbound. -/
theorem Expr.Reaches.eval_eq_error {e : Expr} {m m' : Machine W} {name : Token}
    (h : e.Reaches m name m') (hnone : m'.scopes.binder? m'.current name.lexeme = none) :
    e.eval m = .error (.undefinedVariable name.lexeme name.line) m' := by
  induction h with
  | grouping _ ih =>
    rw [eval]
    exact ih hnone
  | unary _ ih | binaryLeft _ ih | logicalLeft _ ih | value _ ih =>
    rw [eval]
    exact bind_eq_error.mpr (.inl (ih hnone))
  | binaryRight hleft _ ih =>
    rw [eval]
    exact bind_eq_error.mpr (.inr ⟨_, _, hleft, bind_eq_error.mpr (.inl (ih hnone))⟩)
  | logicalRight hleft hopen _ ih =>
    rw [eval]
    refine bind_eq_error.mpr (.inr ⟨_, _, hleft, ?_⟩)
    rw [if_neg (by simp [hopen])]
    exact ih hnone
  | var =>
    rw [eval]
    exact lookup_eq_error.mpr ⟨hnone, rfl, rfl⟩
  | target hvalue =>
    rw [eval]
    refine bind_eq_error.mpr (.inr ⟨_, _, hvalue, bind_eq_error.mpr (.inl ?_)⟩)
    exact assign_eq_error.mpr ⟨hnone, rfl, rfl⟩

/-- An undefined name that ends evaluation was reached there. -/
theorem Expr.exists_reaches_of_undefined {x : String} {n : Nat} {m' : Machine W} :
    ∀ {e : Expr} {m : Machine W}, e.eval m = .error (.undefinedVariable x n) m' →
      ∃ name, e.Reaches m name m' ∧ m'.scopes.binder? m'.current name.lexeme = none ∧
        name.lexeme = x ∧ name.line = n
  | .literal v, m, h => by
    rw [eval] at h
    exact absurd h pure_ne_error
  | .grouping inner, m, h => by
    rw [eval] at h
    obtain ⟨name, hreach, hname⟩ := exists_reaches_of_undefined h
    exact ⟨name, .grouping hreach, hname⟩
  | .unary operator operand, m, h => by
    rw [eval] at h
    rcases bind_eq_error.mp h with h | ⟨v, m₁, -, h⟩
    · obtain ⟨name, hreach, hname⟩ := exists_reaches_of_undefined h
      exact ⟨name, .unary hreach, hname⟩
    · exact absurd (ofExcept_eq_error.mp h).1 (Operator.unary_ne_undefined _ _ _ _)
  | .binary left operator right, m, h => by
    rw [eval] at h
    rcases bind_eq_error.mp h with h | ⟨a, m₁, hleft, h⟩
    · obtain ⟨name, hreach, hname⟩ := exists_reaches_of_undefined h
      exact ⟨name, .binaryLeft hreach, hname⟩
    · rcases bind_eq_error.mp h with h | ⟨b, m₂, -, h⟩
      · obtain ⟨name, hreach, hname⟩ := exists_reaches_of_undefined h
        exact ⟨name, .binaryRight hleft hreach, hname⟩
      · exact absurd (ofExcept_eq_error.mp h).1 (Operator.binary_ne_undefined _ _ _ _ _)
  | .logical left operator right, m, h => by
    rw [eval] at h
    rcases bind_eq_error.mp h with h | ⟨a, m₁, hleft, h⟩
    · obtain ⟨name, hreach, hname⟩ := exists_reaches_of_undefined h
      exact ⟨name, .logicalLeft hreach, hname⟩
    · cases hopen : Operator.decides operator a with
      | true =>
        rw [if_pos hopen] at h
        exact absurd h pure_ne_error
      | false =>
        rw [if_neg (by simp [hopen])] at h
        obtain ⟨name, hreach, hname⟩ := exists_reaches_of_undefined h
        exact ⟨name, .logicalRight hleft hopen hreach, hname⟩
  | .var name, m, h => by
    rw [eval] at h
    obtain ⟨hnone, hname, rfl⟩ := lookup_eq_error.mp h
    cases hname
    exact ⟨name, .var, hnone, rfl, rfl⟩
  | .assign target value, m, h => by
    rw [eval] at h
    rcases bind_eq_error.mp h with h | ⟨v, m₁, hvalue, h⟩
    · obtain ⟨name, hreach, hname⟩ := exists_reaches_of_undefined h
      exact ⟨name, .value hreach, hname⟩
    · rcases bind_eq_error.mp h with h | ⟨_, m₂, -, h⟩
      · obtain ⟨hnone, hname, rfl⟩ := assign_eq_error.mp h
        cases hname
        exact ⟨target, .target hvalue, hnone, rfl, rfl⟩
      · exact absurd h pure_ne_error

/-! ## Statements -/

/-- The lookup is in vain, of a name with this text on this line. -/
def Lookup.Misses (l : Lookup W) (x : String) (n : Nat) : Prop :=
  l.found = none ∧ l.name.lexeme = x ∧ l.name.line = n

variable [Writer W]

namespace Stmt

mutual

theorem Reaches.exec_eq_error : ∀ {scopes : Static} {frames : List Nat} {s : Stmt}
    {m : Machine W} {l : Lookup W}, s.Reaches scopes frames m l → l.found = none →
    ∃ m', s.exec m = .error (.undefinedVariable l.name.lexeme l.name.line) m'
  | _, _, _, _, _, .expression h, hnone | _, _, _, _, _, .print h, hnone
  | _, _, _, _, _, .initializer h, hnone | _, _, _, _, _, .ifThenCondition h, hnone
  | _, _, _, _, _, .ifElseCondition h, hnone => by
    rw [exec]
    exact ⟨_, bind_eq_error.mpr (.inl (h.eval_eq_error hnone))⟩
  | _, _, _, _, _, .block h, hnone => by
    rw [exec]
    obtain ⟨m₁, hbody⟩ := h.execAll_eq_error hnone
    exact ⟨_, inBlock_eq_error.mpr ⟨m₁, hbody, rfl⟩⟩
  | _, _, _, _, _, .ifThenBranch hc htrue h, hnone
  | _, _, _, _, _, .thenBranch hc htrue h, hnone => by
    rw [exec]
    obtain ⟨m', hbranch⟩ := h.exec_eq_error hnone
    refine ⟨m', bind_eq_error.mpr (.inr ⟨_, _, hc, ?_⟩)⟩
    rw [if_pos htrue]
    exact hbranch
  | _, _, _, _, _, .elseBranch hc hfalse h, hnone => by
    rw [exec]
    obtain ⟨m', hbranch⟩ := h.exec_eq_error hnone
    refine ⟨m', bind_eq_error.mpr (.inr ⟨_, _, hc, ?_⟩)⟩
    rw [if_neg (by simp [hfalse])]
    exact hbranch

theorem BodyReaches.execAll_eq_error : ∀ {scopes : Static} {frames : List Nat} {ss : List Stmt}
    {m : Machine W} {l : Lookup W}, BodyReaches scopes frames ss m l → l.found = none →
    ∃ m', execAll ss m = .error (.undefinedVariable l.name.lexeme l.name.line) m'
  | _, _, _, _, _, .head h, hnone => by
    rw [execAll]
    obtain ⟨m', hs⟩ := h.exec_eq_error hnone
    exact ⟨m', bind_eq_error.mpr (.inl hs)⟩
  | _, _, _, _, _, .tail hs h, hnone => by
    rw [execAll]
    obtain ⟨m', hss⟩ := h.execAll_eq_error hnone
    exact ⟨m', bind_eq_error.mpr (.inr ⟨_, _, hs, hss⟩)⟩

end

mutual

theorem exists_reaches_of_undefined {x : String} {n : Nat} : ∀ {s : Stmt} (scopes : Static)
    (frames : List Nat) {m m' : Machine W}, s.exec m = .error (.undefinedVariable x n) m' →
    ∃ l, s.Reaches scopes frames m l ∧ l.Misses x n
  | .expression e, scopes, frames, m, m', h => by
    rw [exec] at h
    rcases bind_eq_error.mp h with h | ⟨_, _, -, h⟩
    · obtain ⟨name, hreach, hname⟩ := Expr.exists_reaches_of_undefined h
      exact ⟨_, .expression hreach, hname⟩
    · exact absurd h pure_ne_error
  | .print e, scopes, frames, m, m', h => by
    rw [exec] at h
    rcases bind_eq_error.mp h with h | ⟨_, _, -, h⟩
    · obtain ⟨name, hreach, hname⟩ := Expr.exists_reaches_of_undefined h
      exact ⟨_, .print hreach, hname⟩
    · obtain ⟨cause, -, hcause, -⟩ := onSink_eq_error.mp h
      cases hcause
  | .varDecl _ none, _, _, _, _, h => by
    rw [exec] at h
    exact absurd h define_ne_error
  | .varDecl _ (some e), scopes, frames, m, m', h => by
    rw [exec] at h
    rcases bind_eq_error.mp h with h | ⟨_, _, -, h⟩
    · obtain ⟨name, hreach, hname⟩ := Expr.exists_reaches_of_undefined h
      exact ⟨_, .initializer hreach, hname⟩
    · exact absurd h define_ne_error
  | .block body, scopes, frames, m, m', h => by
    rw [exec] at h
    obtain ⟨m₁, hbody, -⟩ := inBlock_eq_error.mp h
    obtain ⟨l, hreach, hname⟩ := exists_bodyReaches_of_undefined _ _ hbody
    exact ⟨l, .block hreach, hname⟩
  | .ifThen c s, scopes, frames, m, m', h => by
    rw [exec] at h
    rcases bind_eq_error.mp h with h | ⟨v, m₁, hc, h⟩
    · obtain ⟨name, hreach, hname⟩ := Expr.exists_reaches_of_undefined h
      exact ⟨_, .ifThenCondition hreach, hname⟩
    · split at h
      · next htrue =>
        obtain ⟨l, hreach, hname⟩ := exists_reaches_of_undefined scopes frames h
        exact ⟨l, .ifThenBranch hc htrue hreach, hname⟩
      · exact absurd h pure_ne_error
  | .ifElse c s s', scopes, frames, m, m', h => by
    rw [exec] at h
    rcases bind_eq_error.mp h with h | ⟨v, m₁, hc, h⟩
    · obtain ⟨name, hreach, hname⟩ := Expr.exists_reaches_of_undefined h
      exact ⟨_, .ifElseCondition hreach, hname⟩
    · split at h
      · next htrue =>
        obtain ⟨l, hreach, hname⟩ := exists_reaches_of_undefined scopes frames h
        exact ⟨l, .thenBranch hc htrue hreach, hname⟩
      · next hfalse =>
        obtain ⟨l, hreach, hname⟩ := exists_reaches_of_undefined scopes frames h
        exact ⟨l, .elseBranch hc (by simpa using hfalse) hreach, hname⟩

theorem exists_bodyReaches_of_undefined {x : String} {n : Nat} : ∀ {ss : List Stmt}
    (scopes : Static) (frames : List Nat) {m m' : Machine W},
    execAll ss m = .error (.undefinedVariable x n) m' →
    ∃ l, BodyReaches scopes frames ss m l ∧ l.Misses x n
  | [], _, _, _, _, h => by
    rw [execAll] at h
    exact absurd h pure_ne_error
  | s :: ss, scopes, frames, m, m', h => by
    rw [execAll] at h
    rcases bind_eq_error.mp h with h | ⟨_, m₁, hs, h⟩
    · obtain ⟨l, hreach, hname⟩ := exists_reaches_of_undefined scopes frames h
      exact ⟨l, .head hreach, hname⟩
    · obtain ⟨l, hreach, hname⟩ := exists_bodyReaches_of_undefined (scopes.after s) frames h
      exact ⟨l, .tail hs hreach, hname⟩

end

/-- Statements end with an undefined name exactly if they reach one that no
frame on the walk binds. The scopes and frames are those the statements
stand in; any will do here. -/
theorem execAll_undefined_iff {ss : List Stmt} {m : Machine W} {x : String} {n : Nat}
    (scopes : Static) (frames : List Nat) :
    (∃ m', execAll ss m = .error (.undefinedVariable x n) m') ↔
      ∃ l, BodyReaches scopes frames ss m l ∧ l.Misses x n := by
  constructor
  · intro h
    obtain ⟨m', h⟩ := h
    exact exists_bodyReaches_of_undefined scopes frames h
  · intro h
    obtain ⟨l, hreach, hnone, rfl, rfl⟩ := h
    exact hreach.execAll_eq_error hnone

end Stmt

end

end Lox

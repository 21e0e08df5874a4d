/-
The machine does what the rules say: seen as a store and a sink, its runs
are exactly the rules' (`Machine.interpret_iff_interprets`).

Evaluation is sound and complete for the rules from any machine. Execution
is so where the current frame is there to be written to, as it always is;
the frames of the blocks that have ended stay in the machine, but no walk
from the current frame meets them.
-/
import Lox.Proofs.Machine.Run
import Lox.Proofs.Scoping.Store

namespace Lox

open BigStep

/-! ## Runs by their ends -/

section

variable {W : Type}

namespace Run

variable {α β : Type}

/-- The run ends with this value or fault, in this machine. -/
def Ends (x : Run W α) (m : Machine W) (r : Except RuntimeError α) (m' : Machine W) : Prop :=
  match r with
  | .ok a => x m = .ok a m'
  | .error e => x m = .error e m'

theorem Ends.bind {x : Run W α} {f : α → Run W β} {m m₁ m' : Machine W} {a : α}
    {r : Except RuntimeError β} (hx : x.Ends m (.ok a) m₁) (hf : (f a).Ends m₁ r m') :
    (x >>= f).Ends m r m' := by
  cases r with
  | ok b => exact bind_eq_ok.mpr ⟨a, m₁, hx, hf⟩
  | error e => exact bind_eq_error.mpr (.inr ⟨a, m₁, hx, hf⟩)

theorem Ends.fault {x : Run W α} {f : α → Run W β} {m m' : Machine W} {e : RuntimeError}
    (hx : x.Ends m (.error e) m') : (x >>= f).Ends m (.error e) m' :=
  bind_eq_error.mpr (.inl hx)

/-- A sequence ends where its first part fails, or as its second part does. -/
theorem Ends.bind_cases {x : Run W α} {f : α → Run W β} {m m' : Machine W}
    {r : Except RuntimeError β} (h : (x >>= f).Ends m r m') :
    (∃ a m₁, x.Ends m (.ok a) m₁ ∧ (f a).Ends m₁ r m') ∨
      ∃ e, x.Ends m (.error e) m' ∧ r = .error e := by
  cases r with
  | ok b => exact .inl (bind_eq_ok.mp h)
  | error e =>
    rcases bind_eq_error.mp h with hx | hf
    · exact .inr ⟨e, hx, rfl⟩
    · exact .inl hf

/-- A run has one end. -/
theorem Ends.unique {x : Run W α} {m m₁ m₂ : Machine W} {r₁ r₂ : Except RuntimeError α}
    (h₁ : x.Ends m r₁ m₁) (h₂ : x.Ends m r₂ m₂) : r₁ = r₂ ∧ m₁ = m₂ := by
  cases r₁ <;> cases r₂ <;> simp_all [Ends]

theorem exists_ends (x : Run W α) (m : Machine W) : ∃ r m', x.Ends m r m' := by
  cases h : x m with
  | ok a m' => exact ⟨.ok a, m', h⟩
  | error e m' => exact ⟨.error e, m', h⟩

theorem ends_pure {a : α} {m m' : Machine W} {r : Except RuntimeError α} :
    (pure a : Run W α).Ends m r m' ↔ r = .ok a ∧ m' = m := by
  cases r with
  | ok b => simp only [Ends, pure_eq_ok, Except.ok.injEq, eq_comm]
  | error e => simp [Ends, pure_ne_error]

theorem ends_ofExcept {x r : Except RuntimeError α} {m m' : Machine W} :
    (ofExcept x).Ends m r m' ↔ r = x ∧ m' = m := by
  rw [eq_comm (a := r)]
  cases r with
  | ok b => exact ofExcept_eq_ok
  | error e => exact ofExcept_eq_error

theorem ends_onSink {operation : W → Option String × W} {m m' : Machine W}
    {r : Except RuntimeError Unit} :
    (onSink operation).Ends m r m' ↔
      (∃ sink, operation m.sink = (none, sink) ∧ r = .ok () ∧ m' = { m with sink }) ∨
        ∃ cause sink, operation m.sink = (some cause, sink) ∧ r = .error (.output cause) ∧
          m' = { m with sink } := by
  rcases hm : operation m.sink with ⟨_ | cause, sink⟩
  · cases r <;> simp [Ends, onSink, hm, eq_comm]
  · cases r <;> simp [Ends, onSink, hm, eq_comm]

theorem ends_define {x : Token} {v : Value} {m m' : Machine W} {r : Except RuntimeError Unit} :
    (define x v).Ends m r m' ↔
      r = .ok () ∧ m' = { m with scopes := m.scopes.define m.current x.lexeme v } := by
  cases r <;> simp [Ends, define, eq_comm]

theorem ends_inBlock {count : Nat} {body : Run W Unit} {m m' : Machine W}
    {r : Except RuntimeError Unit} :
    (inBlock count body).Ends m r m' ↔
      ∃ m₁, body.Ends (m.entering count) r m₁ ∧ m' = { m₁ with current := m.current } := by
  cases r with
  | ok => exact inBlock_eq_ok
  | error e => exact inBlock_eq_error

end Run

/-! ## The state of a machine -/

/-- What the rules see of a machine. -/
def Machine.state (m : Machine W) : State W := ⟨m.scopes.store m.current, m.sink⟩

namespace Run

theorem ends_lookup {x : Token} {m m' : Machine W} {r : Except RuntimeError Value} :
    (lookup x).Ends m r m' ↔ m' = m ∧
      ((∃ v, m.state.store.value? x.lexeme = some v ∧ r = .ok v) ∨
        m.state.store.value? x.lexeme = none ∧
          r = .error (.undefinedVariable x.lexeme x.line)) := by
  rw [Machine.state, Scopes.value?_store_eq_none, Scopes.value?_store]
  cases r with
  | ok v => simp [Ends, lookup_eq_ok, and_comm]
  | error e => simp [Ends, lookup_eq_error, and_comm, and_assoc]

/-- An assignment ends as the store has it. -/
theorem ends_assign {x : Token} {v : Value} {m : Machine W} :
    (∃ store m', m.state.store.rebind? x.lexeme v = some store ∧ m'.state = { m.state with store } ∧
      (assign x v).Ends m (.ok ()) m') ∨
    (m.state.store.rebind? x.lexeme v = none ∧
      (assign x v).Ends m (.error (.undefinedVariable x.lexeme x.line)) m) := by
  rw [Machine.state, Scopes.rebind?_store]
  cases hb : m.scopes.binder? m.current x.lexeme with
  | none => exact .inr ⟨rfl, assign_eq_error.mpr ⟨hb, rfl, rfl⟩⟩
  | some i => exact .inl ⟨_, _, rfl, rfl, assign_eq_ok.mpr ⟨i, hb, rfl⟩⟩

/-- So where it failed the name is unbound in the store, and where it did not
the store is the one rebound. -/
theorem Ends.assign_cases {x : Token} {v : Value} {m m' : Machine W} {r : Except RuntimeError Unit}
    (h : (assign x v).Ends m r m') :
    (∃ store, m.state.store.rebind? x.lexeme v = some store ∧ r = .ok () ∧
      m'.state = { m.state with store }) ∨
    (m.state.store.rebind? x.lexeme v = none ∧
      r = .error (.undefinedVariable x.lexeme x.line) ∧ m' = m) := by
  rcases ends_assign with ⟨store, m₁, hstore, hm₁, hends⟩ | ⟨hstore, hends⟩
  · obtain ⟨rfl, rfl⟩ := h.unique hends
    exact .inl ⟨store, hstore, rfl, hm₁⟩
  · obtain ⟨rfl, rfl⟩ := h.unique hends
    exact .inr ⟨hstore, rfl, rfl⟩

end Run

open Run

/-! ## Expressions -/

/-- What an expression comes to, the rules give. -/
theorem Expr.eval_sound {e : Expr} : ∀ {m m' : Machine W} {r : Except RuntimeError Value},
    e.eval.Ends m r m' → Evaluates e m.state r m'.state := by
  induction e with
  | literal v =>
    intro m m' r h
    rw [eval] at h
    obtain ⟨rfl, rfl⟩ := ends_pure.mp h
    exact .literal
  | grouping inner ih =>
    intro m m' r h
    rw [eval] at h
    exact .grouping (ih h)
  | unary t operand ih =>
    intro m m' r h
    rw [eval] at h
    rcases h.bind_cases with ⟨v, m₁, hv, h⟩ | ⟨fault, hfault, rfl⟩
    · obtain ⟨rfl, rfl⟩ := ends_ofExcept.mp h
      exact .unary (ih hv)
    · exact .unaryFault (ih hfault)
  | binary left t right ihleft ihright =>
    intro m m' r h
    rw [eval] at h
    rcases h.bind_cases with ⟨a, m₁, ha, h⟩ | ⟨fault, hfault, rfl⟩
    · rcases h.bind_cases with ⟨b, m₂, hb, h⟩ | ⟨fault, hfault, rfl⟩
      · obtain ⟨rfl, rfl⟩ := ends_ofExcept.mp h
        exact .binary (ihleft ha) (ihright hb)
      · exact .binaryRightFault (ihleft ha) (ihright hfault)
    · exact .binaryLeftFault (ihleft hfault)
  | logical left t right ihleft ihright =>
    intro m m' r h
    rw [eval] at h
    rcases h.bind_cases with ⟨a, m₁, ha, h⟩ | ⟨fault, hfault, rfl⟩
    · by_cases ht : t.kind = .kwOr
      · cases htruthy : a.isTruthy with
        | true =>
          simp only [Operator.decides, ht, htruthy, if_true] at h
          obtain ⟨rfl, rfl⟩ := ends_pure.mp h
          exact .orDecided ht (ihleft ha) htruthy
        | false =>
          simp only [Operator.decides, ht, htruthy, if_true, if_false, Bool.false_eq_true] at h
          exact .orUndecided ht (ihleft ha) htruthy (ihright h)
      · cases htruthy : a.isTruthy with
        | false =>
          simp only [Operator.decides, ht, htruthy, if_true, if_false, Bool.not_false] at h
          obtain ⟨rfl, rfl⟩ := ends_pure.mp h
          exact .andDecided ht (ihleft ha) htruthy
        | true =>
          simp only [Operator.decides, ht, htruthy, if_false, Bool.not_true, Bool.false_eq_true] at h
          exact .andUndecided ht (ihleft ha) htruthy (ihright h)
    · exact .logicalFault (ihleft hfault)
  | var x =>
    intro m m' r h
    rw [eval] at h
    obtain ⟨rfl, ⟨v, hv, rfl⟩ | ⟨hnone, rfl⟩⟩ := ends_lookup.mp h
    · exact .var hv
    · exact .varUnbound hnone
  | assign x value ih =>
    intro m m' r h
    rw [eval] at h
    rcases h.bind_cases with ⟨v, m₁, hv, h⟩ | ⟨fault, hfault, rfl⟩
    · rcases h.bind_cases with ⟨_, m₂, hassign, h⟩ | ⟨fault, hassign, rfl⟩
      · obtain ⟨rfl, rfl⟩ := ends_pure.mp h
        obtain ⟨store, hstore, -, hm₂⟩ | ⟨_, hr, _⟩ := hassign.assign_cases
        · rw [hm₂]
          exact .assign (ih hv) hstore
        · cases hr
      · obtain ⟨_, _, hr, _⟩ | ⟨hnone, hr, rfl⟩ := hassign.assign_cases
        · cases hr
        · cases hr
          exact .assignUnbound (ih hv) hnone
    · exact .assignFault (ih hfault)

/-- What the rules give, the expression comes to. -/
theorem BigStep.Evaluates.complete {e : Expr} {σ σ' : State W} {r : Except RuntimeError Value}
    (h : Evaluates e σ r σ') :
    ∀ {m : Machine W}, m.state = σ → ∃ m', e.eval.Ends m r m' ∧ m'.state = σ' := by
  induction h with
  | literal =>
    intro m hm
    rw [Expr.eval]
    exact ⟨m, ends_pure.mpr ⟨rfl, rfl⟩, hm⟩
  | grouping _ ih =>
    intro m hm
    rw [Expr.eval]
    exact ih hm
  | unary _ ih =>
    intro m hm
    rw [Expr.eval]
    obtain ⟨m₁, hv, hm₁⟩ := ih hm
    exact ⟨m₁, hv.bind (ends_ofExcept.mpr ⟨rfl, rfl⟩), hm₁⟩
  | unaryFault _ ih | binaryLeftFault _ ih | logicalFault _ ih | assignFault _ ih =>
    intro m hm
    rw [Expr.eval]
    obtain ⟨m₁, hfault, hm₁⟩ := ih hm
    exact ⟨m₁, hfault.fault, hm₁⟩
  | binary _ _ ihleft ihright =>
    intro m hm
    rw [Expr.eval]
    obtain ⟨m₁, ha, hm₁⟩ := ihleft hm
    obtain ⟨m₂, hb, hm₂⟩ := ihright hm₁
    exact ⟨m₂, ha.bind (hb.bind (ends_ofExcept.mpr ⟨rfl, rfl⟩)), hm₂⟩
  | binaryRightFault _ _ ihleft ihright =>
    intro m hm
    rw [Expr.eval]
    obtain ⟨m₁, ha, hm₁⟩ := ihleft hm
    obtain ⟨m₂, hfault, hm₂⟩ := ihright hm₁
    exact ⟨m₂, ha.bind hfault.fault, hm₂⟩
  | orDecided ht _ htruthy ih | andDecided ht _ htruthy ih =>
    intro m hm
    rw [Expr.eval]
    obtain ⟨m₁, ha, hm₁⟩ := ih hm
    refine ⟨m₁, ha.bind ?_, hm₁⟩
    simp [Operator.decides, ht, htruthy, ends_pure]
  | orUndecided ht _ htruthy _ ihleft ihright | andUndecided ht _ htruthy _ ihleft ihright =>
    intro m hm
    rw [Expr.eval]
    obtain ⟨m₁, ha, hm₁⟩ := ihleft hm
    obtain ⟨m₂, hright, hm₂⟩ := ihright hm₁
    refine ⟨m₂, ha.bind ?_, hm₂⟩
    simpa [Operator.decides, ht, htruthy] using hright
  | var hv =>
    rintro m rfl
    rw [Expr.eval]
    exact ⟨m, ends_lookup.mpr ⟨rfl, .inl ⟨_, hv, rfl⟩⟩, rfl⟩
  | varUnbound hnone =>
    rintro m rfl
    rw [Expr.eval]
    exact ⟨m, ends_lookup.mpr ⟨rfl, .inr ⟨hnone, rfl⟩⟩, rfl⟩
  | assign _ hstore ih =>
    intro m hm
    rw [Expr.eval]
    obtain ⟨m₁, hv, rfl⟩ := ih hm
    rcases ends_assign with ⟨store, m₂, hstore', hm₂, hassign⟩ | ⟨hnone, _⟩
    · rw [hstore, Option.some.injEq] at hstore'
      rw [hstore']
      exact ⟨m₂, hv.bind (hassign.bind (ends_pure.mpr ⟨rfl, rfl⟩)), hm₂⟩
    · rw [hstore] at hnone
      cases hnone
  | assignUnbound _ hnone ih =>
    intro m hm
    rw [Expr.eval]
    obtain ⟨m₁, hv, rfl⟩ := ih hm
    rcases ends_assign with ⟨store, m₂, hstore, _, _⟩ | ⟨_, hassign⟩
    · rw [hnone] at hstore
      cases hstore
    · exact ⟨m₁, hv.bind hassign.fault, rfl⟩

/-! ## Frames that stay -/

namespace Machine

/-- The current frame is there. -/
def Grounded (m : Machine W) : Prop := m.current < m.scopes.frames.length

/-- The same frame is current, and the walk from it is the same. -/
structure Stays (m m' : Machine W) : Prop where
  current : m'.current = m.current
  grows : m.scopes.Grows m'.scopes

namespace Stays

theorem refl (m : Machine W) : m.Stays m := ⟨rfl, .refl m.scopes⟩

theorem trans {m m₁ m' : Machine W} (h : m.Stays m₁) (h' : m₁.Stays m') : m.Stays m' :=
  ⟨h'.current.trans h.current, h.grows.trans h'.grows⟩

theorem define (m : Machine W) (i : Nat) (name : String) (value : Value) :
    m.Stays { m with scopes := m.scopes.define i name value } :=
  ⟨rfl, .define m.scopes i name value⟩

theorem onSink (m : Machine W) (sink : W) : m.Stays { m with sink } := ⟨rfl, .refl m.scopes⟩

theorem leaving {m m₁ : Machine W} {count : Nat} (h : (m.entering count).Stays m₁) :
    m.Stays { m₁ with current := m.current } :=
  ⟨rfl, (Scopes.Grows.nest m.scopes m.current).trans h.grows⟩

end Stays

theorem stays_steady [Writer W] : Steady (Stays (W := W)) where
  refl := .refl
  trans := .trans
  define := .define
  write m _ := .onSink m _
  flush m := .onSink m _
  leaving := .leaving

theorem grounded_initial (sink : W) : (initial sink).Grounded := Nat.zero_lt_one

theorem Grounded.stays {m m' : Machine W} (h : m.Grounded) (hm : m.Stays m') : m'.Grounded := by
  have hframes := hm.grows.frames
  rw [Grounded, hm.current]
  exact Nat.lt_of_lt_of_le h hframes

theorem state_define {m : Machine W} (h : m.Grounded) (x : String) (v : Value) :
    { m with scopes := m.scopes.define m.current x v }.state =
      { m.state with store := m.state.store.bind x v } := by
  simp only [state, Scopes.bind_store h]

theorem state_entering {m : Machine W} (h : m.Grounded) (count : Nat) :
    (m.entering count).state = { m.state with store := ∅ :: m.state.store } := by
  simp only [state, entering, Scopes.store_nest h]

theorem Grounded.current_entering {m : Machine W} (h : m.Grounded) (count : Nat) :
    (m.entering count).current = m.scopes.frames.length :=
  (Scopes.frames_nest h).2

theorem Grounded.entering {m : Machine W} (h : m.Grounded) (count : Nat) :
    (m.entering count).Grounded := by
  rw [Grounded, h.current_entering, m.length_entering]
  exact Nat.lt_succ_self _

/-- Coming back from a block drops its scope and nothing else. -/
theorem state_leaving {m m₁ : Machine W} {count : Nat} (h : m.Grounded)
    (hm₁ : (m.entering count).Stays m₁) :
    { m₁ with current := m.current }.state =
      { m₁.state with store := m₁.state.store.tail } := by
  have hcurrent : m₁.current = (m.scopes.nest m.current).2 := hm₁.current
  simp only [state, hcurrent, Scopes.tail_store_of_grows h hm₁.grows]

end Machine

theorem Run.Moves.of_ends {α : Type} {R : Machine W → Machine W → Prop} {x : Run W α}
    (h : x.Moves R) {m m' : Machine W} {r : Except RuntimeError α} (hx : x.Ends m r m') :
    R m m' := by
  cases r with
  | ok a => exact (h m).1 a m' hx
  | error e => exact (h m).2 e m' hx

variable [Writer W]

theorem Run.stays_closed : Closed fun _ (x : Run W _) => x.Moves Machine.Stays :=
  Moves.closed Machine.stays_steady.toExecSteady

theorem Expr.eval_grounded {e : Expr} {m m' : Machine W} {r : Except RuntimeError Value}
    (h : m.Grounded) (he : e.eval.Ends m r m') : m'.Grounded :=
  h.stays ((e.eval_of_closed Run.stays_closed.toEvalClosed).of_ends he)

theorem Stmt.exec_grounded {s : Stmt} {m m' : Machine W} {r : Except RuntimeError Unit}
    (h : m.Grounded) (hs : s.exec.Ends m r m') : m'.Grounded :=
  h.stays ((s.exec_of_closed Run.stays_closed).of_ends hs)

theorem Stmt.execAll_stays {ss : List Stmt} {m m' : Machine W} {r : Except RuntimeError Unit}
    (hss : (Stmt.execAll ss).Ends m r m') : m.Stays m' :=
  (Stmt.execAll_of_closed Run.stays_closed ss).of_ends hss

/-! ## Statements -/

namespace Stmt

mutual

/-- How a statement ends, the rules give. -/
theorem exec_sound : ∀ {s : Stmt} {m m' : Machine W} {r : Except RuntimeError Unit}, m.Grounded →
    s.exec.Ends m r m' → Executes s m.state r m'.state
  | .expression e, m, m', r, _, h => by
    rw [exec] at h
    rcases h.bind_cases with ⟨v, m₁, hv, h⟩ | ⟨fault, hfault, rfl⟩
    · obtain ⟨rfl, rfl⟩ := ends_pure.mp h
      exact .expression (Expr.eval_sound hv)
    · exact .expressionFault (Expr.eval_sound hfault)
  | .print e, m, m', r, _, h => by
    rw [exec] at h
    rcases h.bind_cases with ⟨v, m₁, hv, h⟩ | ⟨fault, hfault, rfl⟩
    · rcases ends_onSink.mp h with ⟨sink, hsink, rfl, rfl⟩ | ⟨cause, sink, hsink, rfl, rfl⟩
      · exact .print (Expr.eval_sound hv) hsink
      · exact .printRefused (Expr.eval_sound hv) hsink
    · exact .printFault (Expr.eval_sound hfault)
  | .varDecl x none, m, m', r, hm, h => by
    rw [exec] at h
    obtain ⟨rfl, rfl⟩ := ends_define.mp h
    rw [Machine.state_define hm]
    exact .bare
  | .varDecl x (some e), m, m', r, hm, h => by
    rw [exec] at h
    rcases h.bind_cases with ⟨v, m₁, hv, h⟩ | ⟨fault, hfault, rfl⟩
    · obtain ⟨rfl, rfl⟩ := ends_define.mp h
      rw [Machine.state_define (Expr.eval_grounded hm hv)]
      exact .initialized (Expr.eval_sound hv)
    · exact .initializerFault (Expr.eval_sound hfault)
  | .block body, m, m', r, hm, h => by
    rw [exec] at h
    obtain ⟨m₁, hbody, rfl⟩ := ends_inBlock.mp h
    -- However the body ended, the walk from its frame still goes on to this one.
    have hrules := execAll_sound (hm.entering body.length) hbody
    rw [Machine.state_entering hm] at hrules
    rw [Machine.state_leaving hm (execAll_stays hbody)]
    exact .block hrules
  | .ifThen c s, m, m', r, hm, h => by
    rw [exec] at h
    rcases h.bind_cases with ⟨v, m₁, hv, h⟩ | ⟨fault, hfault, rfl⟩
    · split at h
      · next htruthy =>
        exact .ifThen (Expr.eval_sound hv) htruthy (exec_sound (Expr.eval_grounded hm hv) h)
      · next htruthy =>
        obtain ⟨rfl, rfl⟩ := ends_pure.mp h
        exact .ifThenSkipped (Expr.eval_sound hv) (Bool.eq_false_iff.mpr htruthy)
    · exact .ifThenFault (Expr.eval_sound hfault)
  | .ifElse c s s', m, m', r, hm, h => by
    rw [exec] at h
    rcases h.bind_cases with ⟨v, m₁, hv, h⟩ | ⟨fault, hfault, rfl⟩
    · split at h
      · next htruthy =>
        exact .thenBranch (Expr.eval_sound hv) htruthy (exec_sound (Expr.eval_grounded hm hv) h)
      · next htruthy =>
        exact .elseBranch (Expr.eval_sound hv) (Bool.eq_false_iff.mpr htruthy)
          (exec_sound (Expr.eval_grounded hm hv) h)
    · exact .ifElseFault (Expr.eval_sound hfault)

theorem execAll_sound : ∀ {ss : List Stmt} {m m' : Machine W} {r : Except RuntimeError Unit},
    m.Grounded → (execAll ss).Ends m r m' → ExecutesAll ss m.state r m'.state
  | [], m, m', r, _, h => by
    rw [execAll] at h
    obtain ⟨rfl, rfl⟩ := ends_pure.mp h
    exact .nil
  | s :: ss, m, m', r, hm, h => by
    rw [execAll] at h
    rcases h.bind_cases with ⟨_, m₁, hs, h⟩ | ⟨fault, hfault, rfl⟩
    · exact .cons (exec_sound hm hs) (execAll_sound (exec_grounded hm hs) h)
    · exact .fault (exec_sound hm hfault)

end

end Stmt

namespace BigStep

mutual

/-- How the rules end a statement, it ends. -/
theorem Executes.complete : ∀ {s : Stmt} {σ σ' : State W} {r : Except RuntimeError Unit},
    Executes s σ r σ' → ∀ {m : Machine W}, m.Grounded → m.state = σ →
    ∃ m', s.exec.Ends m r m' ∧ m'.state = σ'
  | _, _, _, _, .expression he, m, _, hσ => by
    obtain ⟨m₁, hv, hm₁⟩ := he.complete hσ
    rw [Stmt.exec]
    exact ⟨m₁, hv.bind (ends_pure.mpr ⟨rfl, rfl⟩), hm₁⟩
  | _, _, _, _, .expressionFault he, m, _, hσ | _, _, _, _, .printFault he, m, _, hσ
  | _, _, _, _, .initializerFault he, m, _, hσ | _, _, _, _, .ifThenFault he, m, _, hσ
  | _, _, _, _, .ifElseFault he, m, _, hσ => by
    obtain ⟨m₁, hfault, hm₁⟩ := he.complete hσ
    rw [Stmt.exec]
    exact ⟨m₁, hfault.fault, hm₁⟩
  | _, _, _, _, .print he hsink, m, _, hσ => by
    obtain ⟨m₁, hv, rfl⟩ := he.complete hσ
    rw [Stmt.exec]
    exact ⟨_, hv.bind (ends_onSink.mpr (.inl ⟨_, hsink, rfl, rfl⟩)), rfl⟩
  | _, _, _, _, .printRefused he hsink, m, _, hσ => by
    obtain ⟨m₁, hv, rfl⟩ := he.complete hσ
    rw [Stmt.exec]
    exact ⟨_, hv.bind (ends_onSink.mpr (.inr ⟨_, _, hsink, rfl, rfl⟩)), rfl⟩
  | _, _, _, _, @Executes.bare _ _ x _, m, hm, hσ => by
    subst hσ
    rw [Stmt.exec]
    exact ⟨_, ends_define.mpr ⟨rfl, rfl⟩, Machine.state_define hm x.lexeme .nil⟩
  | _, _, _, _, @Executes.initialized _ _ x _ v _ _ he, m, hm, hσ => by
    obtain ⟨m₁, hv, rfl⟩ := he.complete hσ
    rw [Stmt.exec]
    exact ⟨_, hv.bind (ends_define.mpr ⟨rfl, rfl⟩),
      Machine.state_define (Expr.eval_grounded hm hv) x.lexeme v⟩
  | _, _, _, _, @Executes.block _ _ body _ _ _ hbody, m, hm, hσ => by
    subst hσ
    obtain ⟨m₁, hends, rfl⟩ :=
      hbody.complete (hm.entering body.length) (Machine.state_entering hm body.length)
    rw [Stmt.exec]
    exact ⟨_, ends_inBlock.mpr ⟨m₁, hends, rfl⟩,
      Machine.state_leaving hm (Stmt.execAll_stays hends)⟩
  | _, _, _, _, .ifThen hc htruthy hs, m, hm, hσ
  | _, _, _, _, .thenBranch hc htruthy hs, m, hm, hσ => by
    obtain ⟨m₁, hv, hm₁⟩ := hc.complete hσ
    obtain ⟨m₂, hends, hm₂⟩ := hs.complete (Expr.eval_grounded hm hv) hm₁
    rw [Stmt.exec]
    refine ⟨m₂, hv.bind ?_, hm₂⟩
    rw [if_pos htruthy]
    exact hends
  | _, _, _, _, .ifThenSkipped hc hfalsy, m, hm, hσ => by
    obtain ⟨m₁, hv, hm₁⟩ := hc.complete hσ
    rw [Stmt.exec]
    refine ⟨m₁, hv.bind ?_, hm₁⟩
    rw [if_neg (by simp [hfalsy])]
    exact ends_pure.mpr ⟨rfl, rfl⟩
  | _, _, _, _, .elseBranch hc hfalsy hs, m, hm, hσ => by
    obtain ⟨m₁, hv, hm₁⟩ := hc.complete hσ
    obtain ⟨m₂, hends, hm₂⟩ := hs.complete (Expr.eval_grounded hm hv) hm₁
    rw [Stmt.exec]
    refine ⟨m₂, hv.bind ?_, hm₂⟩
    rw [if_neg (by simp [hfalsy])]
    exact hends

theorem ExecutesAll.complete : ∀ {ss : List Stmt} {σ σ' : State W} {r : Except RuntimeError Unit},
    ExecutesAll ss σ r σ' → ∀ {m : Machine W}, m.Grounded → m.state = σ →
    ∃ m', (Stmt.execAll ss).Ends m r m' ∧ m'.state = σ'
  | _, _, _, _, .nil, m, _, hσ => by
    rw [Stmt.execAll]
    exact ⟨m, ends_pure.mpr ⟨rfl, rfl⟩, hσ⟩
  | _, _, _, _, .cons hs hss, m, hm, hσ => by
    obtain ⟨m₁, hends, hm₁⟩ := hs.complete hm hσ
    obtain ⟨m₂, hends', hm₂⟩ := hss.complete (Stmt.exec_grounded hm hends) hm₁
    rw [Stmt.execAll]
    exact ⟨m₂, hends.bind hends', hm₂⟩
  | _, _, _, _, .fault hs, m, hm, hσ => by
    obtain ⟨m₁, hfault, hm₁⟩ := hs.complete hm hσ
    rw [Stmt.execAll]
    exact ⟨m₁, hfault.fault, hm₁⟩

end

end BigStep

/-! ## Programs -/

theorem Stmt.interpret_sound {ss : List Stmt} {m m' : Machine W} {r : Except RuntimeError Unit}
    (hm : m.Grounded) (h : (Stmt.interpret ss).Ends m r m') :
    Interprets ss m.state r m'.state := by
  rw [interpret] at h
  rcases h.bind_cases with ⟨_, m₁, hss, h⟩ | ⟨fault, hfault, rfl⟩
  · rcases ends_onSink.mp h with ⟨sink, hsink, rfl, rfl⟩ | ⟨cause, sink, hsink, rfl, rfl⟩
    · exact .flushed (execAll_sound hm hss) hsink
    · exact .refused (execAll_sound hm hss) hsink
  · exact .fault (execAll_sound hm hfault)

theorem BigStep.Interprets.complete {ss : List Stmt} {m : Machine W} {r : Except RuntimeError Unit}
    {σ' : State W} (hm : m.Grounded) (h : Interprets ss m.state r σ') :
    ∃ m', (Stmt.interpret ss).Ends m r m' ∧ m'.state = σ' := by
  rw [Stmt.interpret]
  cases h with
  | flushed hss hsink =>
    obtain ⟨m₁, hends, rfl⟩ := hss.complete hm rfl
    exact ⟨_, hends.bind (ends_onSink.mpr (.inl ⟨_, hsink, rfl, rfl⟩)), rfl⟩
  | refused hss hsink =>
    obtain ⟨m₁, hends, rfl⟩ := hss.complete hm rfl
    exact ⟨_, hends.bind (ends_onSink.mpr (.inr ⟨_, _, hsink, rfl, rfl⟩)), rfl⟩
  | fault hss =>
    obtain ⟨m₁, hfault, hm₁⟩ := hss.complete hm rfl
    exact ⟨m₁, hfault.fault, hm₁⟩

namespace Machine

theorem interpret_ends (m : Machine W) (ss : List Stmt) :
    (Stmt.interpret ss).Ends m (m.interpret ss).1 (m.interpret ss).2 := by
  rw [interpret]
  cases h : Stmt.interpret ss m with
  | ok _ m' => exact h
  | error e m' => exact h

/-- **The machine refines the rules.** From every machine whose current frame
is there, whatever it prints to, statements end as the rules say and in no
other way: well or with the same fault, with the same sink, and so the same
bytes in it, and the same bindings in each frame on the walk from the current
one. It is the walk of before, and the current frame is there still, so more
statements may follow. -/
theorem interpret_iff_interprets {m : Machine W} (hm : m.Grounded) (ss : List Stmt) :
    (∀ r σ, Interprets ss m.state r σ ↔ (m.interpret ss).1 = r ∧ (m.interpret ss).2.state = σ) ∧
      (m.interpret ss).2.current = m.current ∧
      (m.interpret ss).2.scopes.chain m.current = m.scopes.chain m.current ∧
      (m.interpret ss).2.Grounded := by
  have hends := m.interpret_ends ss
  have hstays : m.Stays (m.interpret ss).2 := (Stmt.interpret_moves stays_steady ss).of_ends hends
  refine ⟨fun r σ => ⟨fun h => ?_, ?_⟩, hstays.current, hstays.grows.chain hm, hm.stays hstays⟩
  · obtain ⟨m', hends', rfl⟩ := h.complete hm
    obtain ⟨hr, hm'⟩ := hends.unique hends'
    exact ⟨hr, congrArg state hm'⟩
  · rintro ⟨rfl, rfl⟩
    exact Stmt.interpret_sound hm hends

end Machine

end

namespace Machine

/-- A block that declares `a` again, prints it and fails at a name that is not
bound. -/
def failingBlock : List Stmt :=
  let a : Token := ⟨.identifier, "a", none, 1⟩
  let b : Token := ⟨.identifier, "b", none, 2⟩
  [.varDecl a none,
    .block [.varDecl a (some (.literal (.bool true))), .print (.var a),
      .expression (.assign b (.var a))]]

/-- What it printed stays printed, and its `a` is gone. -/
theorem interpret_iff_interprets_of_failingBlock :
    (initial Sink.unlimited).Grounded ∧
      Interprets failingBlock ⟨[∅], Sink.unlimited⟩ (.error (.undefinedVariable "b" 2))
        ⟨[Finmap.singleton "a" .nil], { Sink.unlimited with stored := utf8 "true\n" }⟩ := by
  have hgrounded := grounded_initial Sink.unlimited
  have hstate : (initial Sink.unlimited).state = ⟨[∅], Sink.unlimited⟩ := by decide +kernel
  refine ⟨hgrounded, ?_⟩
  rw [← hstate]
  exact ((interpret_iff_interprets hgrounded failingBlock).1 _ _).mpr
    ⟨by decide +kernel, by decide +kernel⟩

end Machine

end Lox

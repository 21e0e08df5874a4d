/-
A sink that fills up cuts a run short and changes nothing before that
(`Machine.interpret_cut_short`). While everything written fits, a run on a
limited sink is the run on an unlimited one (`Run.Fits`). The first print
that does not fit is refused after the bytes that do, and the refusal ends
the run at once, in however many blocks it stands (`Stmt.BodyPrints.refused`).

`Stmt.Prints` follows execution to each of its prints, and so says what the
frames held when a byte was about to be written.
-/
import Lox.Proofs.Machine.Refinement

namespace Lox

/-! ## Writing -/

namespace Sink

variable {s : Sink} {bytes : List UInt8}

theorem write_of_unlimited (h : s.limit = none) :
    s.write bytes = (none, { s with stored := s.stored ++ bytes }) := by
  simp [write, taken, h]

/-- What a limit leaves room for is stored. -/
theorem write_of_room {limit : Nat} (h : s.limit = some limit)
    (hroom : s.stored.length + bytes.length ≤ limit) :
    s.write bytes = (none, { s with stored := s.stored ++ bytes }) := by
  have htaken : s.taken bytes.length = bytes.length := by
    simp only [taken, h]
    omega
  simp [write, htaken]

/-- Of what it does not leave room for, the bytes up to the limit are. -/
theorem write_of_full {limit : Nat} (h : s.limit = some limit) (hle : s.stored.length ≤ limit)
    (hfull : limit < s.stored.length + bytes.length) :
    s.write bytes =
      (some s.refusal.cause, { s with stored := (s.stored ++ bytes).take limit }) := by
  have htaken : s.taken bytes.length = limit - s.stored.length := by
    simp only [taken, h]
    omega
  have hlt : limit - s.stored.length < bytes.length := by omega
  simp [write, htaken, hlt, List.take_append, List.take_of_length_le hle]

/-- The one sink has stored what the other has and perhaps more, with the same
limit. -/
structure Takes (s s' : Sink) : Prop where
  limit : s'.limit = s.limit
  stored : s.stored <+: s'.stored

theorem Takes.refl (s : Sink) : s.Takes s := ⟨rfl, List.prefix_refl _⟩

theorem Takes.trans {s s₁ s' : Sink} (h : s.Takes s₁) (h' : s₁.Takes s') : s.Takes s' :=
  ⟨h'.limit.trans h.limit, h.stored.trans h'.stored⟩

theorem Takes.write (s : Sink) (bytes : List UInt8) : s.Takes (s.write bytes).2 :=
  ⟨rfl, List.prefix_append _ _⟩

end Sink

/-- What printing a value writes. -/
def Value.written (v : Value) : List UInt8 := utf8 (v.display ++ "\n")

namespace Machine

/-- The machine with a sink that holds only so many bytes in all. -/
def limited (limit : Nat) (refusal : Sink.Refusal) (m : Machine Sink) : Machine Sink :=
  { m with sink := { m.sink with limit := some limit, refusal } }

/-- The limited machine after the refused print of a value, back in a frame. -/
def cutOff (limit : Nat) (refusal : Sink.Refusal) (v : Value) (frame : Nat) (m : Machine Sink) :
    Machine Sink :=
  { m with
    current := frame
    sink := { m.sink with
      stored := (m.sink.stored ++ v.written).take limit, limit := some limit, refusal } }

/-- Printing a value here writes the byte before which `k` are stored. -/
def Crosses (m : Machine Sink) (k : Nat) (v : Value) : Prop :=
  m.sink.stored.length ≤ k ∧ k < m.sink.stored.length + v.written.length

/-- A run comes back to its frame, and adds to what is stored. -/
structure Stores (m m' : Machine Sink) : Prop where
  current : m'.current = m.current
  sink : m.sink.Takes m'.sink

theorem stores_steady : Steady Stores where
  refl m := ⟨rfl, .refl m.sink⟩
  trans h h' := ⟨h'.current.trans h.current, h.sink.trans h'.sink⟩
  define m _ _ _ := ⟨rfl, .refl m.sink⟩
  write m bytes := ⟨rfl, .write m.sink bytes⟩
  flush _ := ⟨rfl, rfl, List.prefix_refl _⟩
  leaving h := ⟨rfl, h.sink⟩

end Machine

/-! ## Runs that fit -/

namespace Run

variable {α β : Type}

/-- A run that stores, and to which a limit that it stays within makes no
difference. -/
structure Fits (x : Run Sink α) : Prop where
  moves : x.Moves Machine.Stores
  within : ∀ {m m' : Machine Sink} {r : Except RuntimeError α}, m.sink.limit = none →
      x.Ends m r m' →
    ∀ {limit : Nat} (refusal : Sink.Refusal), m'.sink.stored.length ≤ limit →
      x.Ends (m.limited limit refusal) r (m'.limited limit refusal)

theorem Fits.bind {x : Run Sink α} {f : α → Run Sink β} (hx : x.Fits) (hf : ∀ a, (f a).Fits) :
    (x >>= f).Fits where
  moves := hx.moves.bind Machine.stores_steady.toExecSteady fun a => (hf a).moves
  within := by
    intro m m' r hm h limit refusal hlimit
    rcases h.bind_cases with ⟨a, m₁, hends, h⟩ | ⟨e, hends, rfl⟩
    · have hm₁ : m₁.sink.limit = none := (hx.moves.of_ends hends).sink.limit.trans hm
      have hgrown := ((hf a).moves.of_ends h).sink.stored.length_le
      have hfirst := hx.within hm hends refusal (hgrown.trans hlimit)
      exact hfirst.bind ((hf a).within hm₁ h refusal hlimit)
    · exact (hx.within hm hends refusal hlimit).fault

theorem fits_pure (a : α) : (pure a : Run Sink α).Fits where
  moves := Moves.pure Machine.stores_steady.toExecSteady a
  within := by
    intro m m' r _ h limit refusal _
    obtain ⟨rfl, rfl⟩ := ends_pure.mp h
    exact ends_pure.mpr ⟨rfl, rfl⟩

theorem fits_ofExcept (x : Except RuntimeError α) : (ofExcept x).Fits where
  moves := Moves.ofExcept Machine.stores_steady.toExecSteady x
  within := by
    intro m m' r _ h limit refusal _
    obtain ⟨rfl, rfl⟩ := ends_ofExcept.mp h
    exact ends_ofExcept.mpr ⟨rfl, rfl⟩

theorem fits_lookup (name : Token) : (lookup name).Fits where
  moves := Moves.lookup Machine.stores_steady.toExecSteady name
  within := by
    intro m m' r _ h limit refusal _
    obtain ⟨rfl, hr⟩ := ends_lookup.mp h
    exact ends_lookup.mpr ⟨rfl, hr⟩

theorem fits_assign (name : Token) (value : Value) : (assign name value).Fits where
  moves := Moves.assign Machine.stores_steady.toExecSteady name value
  within := by
    intro m m' r _ h limit refusal _
    cases r with
    | ok =>
      obtain ⟨i, hi, rfl⟩ := assign_eq_ok.mp h
      exact assign_eq_ok.mpr ⟨i, hi, rfl⟩
    | error e =>
      obtain ⟨hnone, rfl, rfl⟩ := assign_eq_error.mp h
      exact assign_eq_error.mpr ⟨hnone, rfl, rfl⟩

theorem fits_define (name : Token) (value : Value) : (define name value).Fits where
  moves := Moves.define Machine.stores_steady.toExecSteady name value
  within := by
    intro m m' r _ h limit refusal _
    obtain ⟨rfl, rfl⟩ := ends_define.mp h
    exact ends_define.mpr ⟨rfl, rfl⟩

/-- An unlimited sink takes all of a value. -/
theorem ends_print_of_unlimited {v : Value} {m m' : Machine Sink} {r : Except RuntimeError Unit}
    (hm : m.sink.limit = none) : (print v).Ends m r m' ↔ r = .ok () ∧
      m' = { m with sink := { m.sink with stored := m.sink.stored ++ v.written } } := by
  have hwrite : Writer.write m.sink (utf8 (v.display ++ "\n")) = _ := Sink.write_of_unlimited hm
  rw [print, ends_onSink, hwrite]
  simp [eq_comm, Value.written]

theorem fits_print (v : Value) : (print v).Fits where
  moves := Moves.onSink fun m => Machine.stores_steady.write m v.written
  within := by
    intro m m' r hm h limit refusal hlimit
    obtain ⟨rfl, rfl⟩ := (ends_print_of_unlimited hm).mp h
    have hroom : m.sink.stored.length + v.written.length ≤ limit := by simpa using hlimit
    exact ends_onSink.mpr (.inl ⟨_, Sink.write_of_room rfl hroom, rfl, rfl⟩)

theorem fits_flush : flush.Fits where
  moves := Moves.onSink Machine.stores_steady.flush
  within := by
    intro m m' r _ h limit refusal _
    have hflush : Writer.flush (m.limited limit refusal).sink =
        ((Writer.flush m.sink).1,
          { (Writer.flush m.sink).2 with limit := some limit, refusal }) := rfl
    refine ends_onSink.mpr ((ends_onSink.mp h).imp ?_ ?_)
    · rintro ⟨sink, hsink, rfl, rfl⟩
      rw [hflush, hsink]
      exact ⟨_, rfl, rfl, rfl⟩
    · rintro ⟨cause, sink, hsink, rfl, rfl⟩
      rw [hflush, hsink]
      exact ⟨cause, _, rfl, rfl, rfl⟩

theorem Fits.inBlock {body : Run Sink Unit} (h : body.Fits) (count : Nat) :
    (inBlock count body).Fits where
  moves := h.moves.inBlock Machine.stores_steady.toExecSteady count
  within := by
    intro m m' r hm hends limit refusal hlimit
    obtain ⟨m₁, hbody, rfl⟩ := ends_inBlock.mp hends
    have hlimited := h.within (m := m.entering count) hm hbody refusal hlimit
    exact ends_inBlock.mpr ⟨_, hlimited, rfl⟩

/-- Whatever is executed fits a limit that it stays within. -/
theorem fits_closed : Closed fun _ x => x.Fits where
  pure := fits_pure
  bind := Fits.bind
  ofExcept := fits_ofExcept
  lookup := fits_lookup
  assign := fits_assign
  define := fits_define
  print := fits_print
  inBlock := Fits.inBlock

/-- A run that leaves the sink alone. -/
def Silent (x : Run Sink α) : Prop := ∀ m r m', x.Ends m r m' → m'.sink = m.sink

/-- Only statements print. -/
theorem silent_evalClosed : EvalClosed fun _ x => x.Silent where
  pure := by
    intro α a m r m' h
    rw [(ends_pure.mp h).2]
  bind := by
    intro α β x f hx hf m r m' h
    rcases h.bind_cases with ⟨a, m₁, hends, h⟩ | ⟨e, hends, -⟩
    · exact (hf a _ _ _ h).trans (hx _ _ _ hends)
    · exact hx _ _ _ hends
  ofExcept := by
    intro α x m r m' h
    rw [(ends_ofExcept.mp h).2]
  lookup := by
    intro name m r m' h
    rw [(ends_lookup.mp h).1]
  assign := by
    intro name value m r m' h
    cases r with
    | ok =>
      obtain ⟨i, -, rfl⟩ := assign_eq_ok.mp h
      rfl
    | error e => rw [(assign_eq_error.mp h).2.2]

end Run

open Run Machine

namespace Expr

variable {e : Expr} {m m' : Machine Sink} {r : Except RuntimeError Value}

theorem eval_sink (h : e.eval.Ends m r m') : m'.sink = m.sink :=
  e.eval_of_closed silent_evalClosed m r m' h

theorem eval_stores (h : e.eval.Ends m r m') : m.Stores m' :=
  (e.eval_of_closed fits_closed.toEvalClosed).moves.of_ends h

end Expr

/-! ## The prints of a run -/

namespace Stmt

mutual

/-- `s.Prints m v m'`: executing `s` from `m` comes to printing `v`, in the
machine `m'`. -/
inductive Prints : Stmt → Machine Sink → Value → Machine Sink → Prop
  | print {e m v m'} : e.eval.Ends m (.ok v) m' → Prints (.print e) m v m'
  | block {body m v m'} : BodyPrints body (m.entering body.length) v m' →
      Prints (.block body) m v m'
  | ifThen {c s m u m₁ v m'} : c.eval.Ends m (.ok u) m₁ → u.isTruthy = true →
      Prints s m₁ v m' → Prints (.ifThen c s) m v m'
  | thenBranch {c s s' m u m₁ v m'} : c.eval.Ends m (.ok u) m₁ → u.isTruthy = true →
      Prints s m₁ v m' → Prints (.ifElse c s s') m v m'
  | elseBranch {c s s' m u m₁ v m'} : c.eval.Ends m (.ok u) m₁ → u.isTruthy = false →
      Prints s' m₁ v m' → Prints (.ifElse c s s') m v m'

/-- The same of statements that follow each other, up to the first that
fails. -/
inductive BodyPrints : List Stmt → Machine Sink → Value → Machine Sink → Prop
  | head {s ss m v m'} : Prints s m v m' → BodyPrints (s :: ss) m v m'
  | tail {s ss m m₁ v m'} : s.exec.Ends m (.ok ()) m₁ → BodyPrints ss m₁ v m' →
      BodyPrints (s :: ss) m v m'

end

theorem exec_fits (s : Stmt) : s.exec.Fits := s.exec_of_closed fits_closed

theorem execAll_fits (ss : List Stmt) : (execAll ss).Fits := execAll_of_closed fits_closed ss

mutual

theorem Prints.takes : ∀ {s : Stmt} {m m₁ : Machine Sink} {v : Value}, s.Prints m v m₁ →
    m.sink.Takes m₁.sink
  | _, _, _, _, .print he => (Expr.eval_stores he).sink
  | _, _, _, _, .block hbody => hbody.takes
  | _, _, _, _, .ifThen hc _ hs | _, _, _, _, .thenBranch hc _ hs
  | _, _, _, _, .elseBranch hc _ hs => (Expr.eval_stores hc).sink.trans hs.takes

/-- What was stored before a print still is when it is reached. -/
theorem BodyPrints.takes : ∀ {ss : List Stmt} {m m₁ : Machine Sink} {v : Value},
    BodyPrints ss m v m₁ →
    m.sink.Takes m₁.sink
  | _, _, _, _, .head hs => hs.takes
  | _, _, _, _, .tail hs hss => ((exec_fits _).moves.of_ends hs).sink.trans hss.takes

end

mutual

theorem Prints.stored : ∀ {s : Stmt} {m m₁ m' : Machine Sink} {v : Value}
    {r : Except RuntimeError Unit},
    s.Prints m v m₁ → m.sink.limit = none → s.exec.Ends m r m' →
    m₁.sink.stored ++ v.written <+: m'.sink.stored
  | _, _, _, _, _, _, .print he, hm, h => by
    rw [exec] at h
    rcases h.bind_cases with ⟨u, m₂, hu, h⟩ | ⟨e, hfault, -⟩
    · obtain ⟨hvalue, rfl⟩ := he.unique hu
      cases hvalue
      obtain ⟨-, rfl⟩ :=
        (ends_print_of_unlimited ((Expr.eval_stores he).sink.limit.trans hm)).mp h
      exact List.prefix_refl _
    · cases (he.unique hfault).1
  | _, _, _, _, _, _, .block hbody, hm, h => by
    rw [exec] at h
    obtain ⟨m₂, hends, rfl⟩ := ends_inBlock.mp h
    have hstored := hbody.stored hm hends
    exact hstored
  | _, _, _, _, _, _, .ifThen hc htruthy hs, hm, h
  | _, _, _, _, _, _, .thenBranch hc htruthy hs, hm, h => by
    rw [exec] at h
    rcases h.bind_cases with ⟨u, m₂, hu, h⟩ | ⟨e, hfault, -⟩
    · obtain ⟨hvalue, rfl⟩ := hc.unique hu
      cases hvalue
      rw [if_pos htruthy] at h
      exact hs.stored ((Expr.eval_stores hc).sink.limit.trans hm) h
    · cases (hc.unique hfault).1
  | _, _, _, _, _, _, .elseBranch hc hfalsy hs, hm, h => by
    rw [exec] at h
    rcases h.bind_cases with ⟨u, m₂, hu, h⟩ | ⟨e, hfault, -⟩
    · obtain ⟨hvalue, rfl⟩ := hc.unique hu
      cases hvalue
      rw [if_neg (by simp [hfalsy])] at h
      exact hs.stored ((Expr.eval_stores hc).sink.limit.trans hm) h
    · cases (hc.unique hfault).1

/-- On an unlimited sink, what a print that is reached writes is stored. -/
theorem BodyPrints.stored : ∀ {ss : List Stmt} {m m₁ m' : Machine Sink} {v : Value}
    {r : Except RuntimeError Unit}, BodyPrints ss m v m₁ → m.sink.limit = none →
    (execAll ss).Ends m r m' → m₁.sink.stored ++ v.written <+: m'.sink.stored
  | _, _, _, _, _, _, .head hs, hm, h => by
    rw [execAll] at h
    rcases h.bind_cases with ⟨_, m₂, hends, h⟩ | ⟨e, hends, -⟩
    · have hlater := ((execAll_fits _).moves.of_ends h).sink.stored
      exact (hs.stored hm hends).trans hlater
    · exact hs.stored hm hends
  | _, _, _, _, _, _, .tail hs hss, hm, h => by
    rw [execAll] at h
    rcases h.bind_cases with ⟨_, m₂, hends, h⟩ | ⟨e, hends, -⟩
    · obtain ⟨-, rfl⟩ := hs.unique hends
      exact hss.stored (((exec_fits _).moves.of_ends hs).sink.limit.trans hm) h
    · cases (hs.unique hends).1

end

/-! ## The print that does not fit -/

mutual

theorem exists_prints {k : Nat} : ∀ {s : Stmt} {m m' : Machine Sink} {r : Except RuntimeError Unit},
    m.sink.limit = none → s.exec.Ends m r m' → m.sink.stored.length ≤ k →
    k < m'.sink.stored.length → ∃ v m₁, s.Prints m v m₁ ∧ m₁.Crosses k v
  | .expression e, m, m', r, _, h, hle, hlt => by
    rw [exec] at h
    have hsink : m'.sink = m.sink := by
      rcases h.bind_cases with ⟨v, m₁, hv, h⟩ | ⟨fault, hfault, -⟩
      · rw [(ends_pure.mp h).2, Expr.eval_sink hv]
      · exact Expr.eval_sink hfault
    rw [hsink] at hlt
    omega
  | .print e, m, m', r, hm, h, hle, hlt => by
    rw [exec] at h
    rcases h.bind_cases with ⟨v, m₁, hv, h⟩ | ⟨fault, hfault, -⟩
    · have hsink := Expr.eval_sink hv
      obtain ⟨-, rfl⟩ := (ends_print_of_unlimited (hsink ▸ hm)).mp h
      refine ⟨v, m₁, .print hv, by rwa [hsink], ?_⟩
      simpa using hlt
    · rw [Expr.eval_sink hfault] at hlt
      omega
  | .varDecl name none, m, m', r, _, h, hle, hlt => by
    rw [exec] at h
    obtain ⟨-, rfl⟩ := ends_define.mp h
    exact absurd hlt (Nat.not_lt.mpr hle)
  | .varDecl name (some e), m, m', r, _, h, hle, hlt => by
    rw [exec] at h
    have hsink : m'.sink = m.sink := by
      rcases h.bind_cases with ⟨v, m₁, hv, h⟩ | ⟨fault, hfault, -⟩
      · obtain ⟨-, rfl⟩ := ends_define.mp h
        have hvalue := Expr.eval_sink hv
        exact hvalue
      · exact Expr.eval_sink hfault
    rw [hsink] at hlt
    omega
  | .block body, m, m', r, hm, h, hle, hlt => by
    rw [exec] at h
    obtain ⟨m₁, hbody, rfl⟩ := ends_inBlock.mp h
    obtain ⟨v, m₂, hprints, hcrosses⟩ := exists_bodyPrints (m := m.entering _) hm hbody hle hlt
    exact ⟨v, m₂, .block hprints, hcrosses⟩
  | .ifThen c s, m, m', r, hm, h, hle, hlt => by
    rw [exec] at h
    rcases h.bind_cases with ⟨u, m₁, hu, h⟩ | ⟨fault, hfault, -⟩
    · have hsink := Expr.eval_sink hu
      split at h
      · next htruthy =>
        obtain ⟨v, m₂, hprints, hcrosses⟩ := exists_prints (hsink ▸ hm) h (hsink ▸ hle) hlt
        exact ⟨v, m₂, .ifThen hu htruthy hprints, hcrosses⟩
      · rw [(ends_pure.mp h).2, hsink] at hlt
        omega
    · rw [Expr.eval_sink hfault] at hlt
      omega
  | .ifElse c s s', m, m', r, hm, h, hle, hlt => by
    rw [exec] at h
    rcases h.bind_cases with ⟨u, m₁, hu, h⟩ | ⟨fault, hfault, -⟩
    · have hsink := Expr.eval_sink hu
      split at h
      · next htruthy =>
        obtain ⟨v, m₂, hprints, hcrosses⟩ := exists_prints (hsink ▸ hm) h (hsink ▸ hle) hlt
        exact ⟨v, m₂, .thenBranch hu htruthy hprints, hcrosses⟩
      · next hfalsy =>
        obtain ⟨v, m₂, hprints, hcrosses⟩ := exists_prints (hsink ▸ hm) h (hsink ▸ hle) hlt
        exact ⟨v, m₂, .elseBranch hu (Bool.eq_false_iff.mpr hfalsy) hprints, hcrosses⟩
    · rw [Expr.eval_sink hfault] at hlt
      omega

/-- Each byte that is stored is written by a print. -/
theorem exists_bodyPrints {k : Nat} : ∀ {ss : List Stmt} {m m' : Machine Sink}
    {r : Except RuntimeError Unit}, m.sink.limit = none → (execAll ss).Ends m r m' →
    m.sink.stored.length ≤ k → k < m'.sink.stored.length →
    ∃ v m₁, BodyPrints ss m v m₁ ∧ m₁.Crosses k v
  | [], m, m', r, _, h, hle, hlt => by
    rw [execAll] at h
    obtain ⟨-, rfl⟩ := ends_pure.mp h
    omega
  | s :: ss, m, m', r, hm, h, hle, hlt => by
    rw [execAll] at h
    rcases h.bind_cases with ⟨_, m₁, hs, h⟩ | ⟨fault, hfault, -⟩
    · by_cases hfirst : k < m₁.sink.stored.length
      · obtain ⟨v, m₂, hprints, hcrosses⟩ := exists_prints hm hs hle hfirst
        exact ⟨v, m₂, .head hprints, hcrosses⟩
      · have hm₁ : m₁.sink.limit = none := ((exec_fits s).moves.of_ends hs).sink.limit.trans hm
        obtain ⟨v, m₂, hprints, hcrosses⟩ :=
          exists_bodyPrints hm₁ h (Nat.not_lt.mp hfirst) hlt
        exact ⟨v, m₂, .tail hs hprints, hcrosses⟩
    · obtain ⟨v, m₂, hprints, hcrosses⟩ := exists_prints hm hfault hle hlt
      exact ⟨v, m₂, .head hprints, hcrosses⟩

end

section Refused

variable {limit : Nat} (refusal : Sink.Refusal)

/-- Evaluation up to a print that is reached fits the limit, if what is stored
there does. -/
theorem eval_limited {e : Expr} {m m₁ : Machine Sink} {u : Value} (hm : m.sink.limit = none)
    (he : e.eval.Ends m (.ok u) m₁) (hle : m₁.sink.stored.length ≤ limit) :
    e.eval.Ends (m.limited limit refusal) (.ok u) (m₁.limited limit refusal) :=
  (e.eval_of_closed fits_closed.toEvalClosed).within hm he refusal hle

mutual

theorem Prints.refused : ∀ {s : Stmt} {m m₁ : Machine Sink} {v : Value}, s.Prints m v m₁ →
    m.sink.limit = none → m₁.Crosses limit v →
    s.exec.Ends (m.limited limit refusal) (.error (.output refusal.cause))
      (m₁.cutOff limit refusal v m.current)
  | _, m, m₁, v, .print he, hm, hcrosses => by
    have hwrite : Writer.write (m₁.limited limit refusal).sink v.written = _ :=
      Sink.write_of_full rfl hcrosses.1 hcrosses.2
    rw [exec, ← (Expr.eval_stores he).current]
    exact (eval_limited refusal hm he hcrosses.1).bind
      (ends_onSink.mpr (.inr ⟨_, _, hwrite, rfl, rfl⟩))
  | _, m, m₁, v, .block hbody, hm, hcrosses => by
    have hrefused := hbody.refused hm hcrosses
    rw [exec]
    exact ends_inBlock.mpr ⟨_, hrefused, rfl⟩
  | _, m, m₁, v, .ifThen hc htruthy hs, hm, hcrosses
  | _, m, m₁, v, .thenBranch hc htruthy hs, hm, hcrosses => by
    have hstores := Expr.eval_stores hc
    have hle := hs.takes.stored.length_le.trans hcrosses.1
    have hrefused := hs.refused (hstores.sink.limit.trans hm) hcrosses
    rw [hstores.current] at hrefused
    rw [exec]
    refine (eval_limited refusal hm hc hle).bind ?_
    rw [if_pos htruthy]
    exact hrefused
  | _, m, m₁, v, .elseBranch hc hfalsy hs, hm, hcrosses => by
    have hstores := Expr.eval_stores hc
    have hle := hs.takes.stored.length_le.trans hcrosses.1
    have hrefused := hs.refused (hstores.sink.limit.trans hm) hcrosses
    rw [hstores.current] at hrefused
    rw [exec]
    refine (eval_limited refusal hm hc hle).bind ?_
    rw [if_neg (by simp [hfalsy])]
    exact hrefused

/-- The print that does not fit is where execution on the limited sink ends,
with the frames as they are there. -/
theorem BodyPrints.refused : ∀ {ss : List Stmt} {m m₁ : Machine Sink} {v : Value},
    BodyPrints ss m v m₁ → m.sink.limit = none → m₁.Crosses limit v →
    (execAll ss).Ends (m.limited limit refusal) (.error (.output refusal.cause))
      (m₁.cutOff limit refusal v m.current)
  | _, m, m₁, v, .head hs, hm, hcrosses => by
    rw [execAll]
    exact (hs.refused hm hcrosses).fault
  | _, m, m₁, v, .tail hs hss, hm, hcrosses => by
    have hstores := (exec_fits _).moves.of_ends hs
    have hle := hss.takes.stored.length_le.trans hcrosses.1
    have hrefused := hss.refused (hstores.sink.limit.trans hm) hcrosses
    rw [hstores.current] at hrefused
    rw [execAll]
    exact ((exec_fits _).within hm hs refusal hle).bind hrefused

end

end Refused

end Stmt

/-! ## Programs -/

theorem Stmt.interpret_fits (ss : List Stmt) : (interpret ss).Fits := by
  rw [interpret]
  exact (execAll_fits ss).bind fun _ => fits_flush

namespace Machine

theorem interpret_of_ends {m m' : Machine Sink} {ss : List Stmt} {r : Except RuntimeError Unit}
    (h : (Stmt.interpret ss).Ends m r m') : m.interpret ss = (r, m') := by
  cases r with
  | ok => exact interpret_eq_ok.mpr h
  | error e => exact interpret_eq_error.mpr h

/-- Everything stored at the end was stored by the statements. -/
theorem exists_execAll_ends (m : Machine Sink) (ss : List Stmt) :
    ∃ r m', (Stmt.execAll ss).Ends m r m' ∧ m'.sink.stored = (m.interpret ss).2.sink.stored := by
  cases hss : Stmt.execAll ss m with
  | ok _ m₁ =>
    rw [interpret_of_execAll_ok_sink hss]
    exact ⟨.ok (), m₁, hss, rfl⟩
  | error e m₁ =>
    rw [interpret_of_execAll_error hss]
    exact ⟨.error e, m₁, hss, rfl⟩

/-- The machine with a sink that takes everything. -/
def unlimited (m : Machine Sink) : Machine Sink := { m with sink := { m.sink with limit := none } }

/-- The machine with a sink that takes `room` bytes more and then turns writes
down. -/
def filling (room : Nat) (refusal : Sink.Refusal) (m : Machine Sink) : Machine Sink :=
  m.unlimited.limited (m.sink.stored.length + room) refusal

section

variable (m : Machine Sink) (room : Nat) (refusal : Sink.Refusal) (ss : List Stmt)

theorem exists_written :
    ∃ written, (m.unlimited.interpret ss).2.sink.stored = m.sink.stored ++ written := by
  have hends := m.unlimited.interpret_ends ss
  obtain ⟨written, hwritten⟩ := ((Stmt.interpret_fits ss).moves.of_ends hends).sink.stored
  exact ⟨written, hwritten.symm⟩

variable {m room ss} {written : List UInt8}
  (hwritten : (m.unlimited.interpret ss).2.sink.stored = m.sink.stored ++ written)

include hwritten

theorem interpret_of_room (hroom : written.length ≤ room) :
    (m.filling room refusal).interpret ss = ((m.unlimited.interpret ss).1,
      (m.unlimited.interpret ss).2.limited (m.sink.stored.length + room) refusal) := by
  have hlength : (m.unlimited.interpret ss).2.sink.stored.length ≤
      m.sink.stored.length + room := by
    rw [hwritten, List.length_append]
    omega
  have hends := m.unlimited.interpret_ends ss
  exact interpret_of_ends ((Stmt.interpret_fits ss).within rfl hends refusal hlength)

/-- Without room for everything, some print does not fit. -/
theorem exists_crosses (hfull : room < written.length) :
    ∃ v m₁, Stmt.BodyPrints ss m.unlimited v m₁ ∧
      m₁.Crosses (m.sink.stored.length + room) v := by
  obtain ⟨r, m', hexec, hsame⟩ := m.unlimited.exists_execAll_ends ss
  have hle : m.unlimited.sink.stored.length ≤ m.sink.stored.length + room :=
    Nat.le_add_right _ _
  have hlt : m.sink.stored.length + room < m'.sink.stored.length := by
    rw [hsame, hwritten, List.length_append]
    omega
  exact Stmt.exists_bodyPrints rfl hexec hle hlt

/-- What is stored up to the limit when a print does not fit is the first part
of what is stored in the end. -/
theorem take_of_crosses {v : Value} {m₁ : Machine Sink}
    (hprints : Stmt.BodyPrints ss m.unlimited v m₁)
    (hcrosses : m₁.Crosses (m.sink.stored.length + room) v) :
    (m₁.sink.stored ++ v.written).take (m.sink.stored.length + room) =
      m.sink.stored ++ written.take room := by
  obtain ⟨r, m', hexec, hsame⟩ := m.unlimited.exists_execAll_ends ss
  obtain ⟨later, hlater⟩ := hprints.stored rfl hexec
  have hlength : m.sink.stored.length + room ≤ (m₁.sink.stored ++ v.written).length := by
    rw [List.length_append]
    exact Nat.le_of_lt hcrosses.2
  calc (m₁.sink.stored ++ v.written).take (m.sink.stored.length + room)
      = (m₁.sink.stored ++ v.written ++ later).take (m.sink.stored.length + room) :=
        (List.take_append_of_le_length hlength).symm
    _ = (m.sink.stored ++ written).take (m.sink.stored.length + room) := by
        rw [hlater, hsame, hwritten]
    _ = m.sink.stored ++ written.take room := List.take_length_add_append room

omit hwritten in
/-- The print that does not fit ends the run, before its flush. -/
theorem interpret_of_crosses {v : Value} {m₁ : Machine Sink}
    (hprints : Stmt.BodyPrints ss m.unlimited v m₁)
    (hcrosses : m₁.Crosses (m.sink.stored.length + room) v) :
    (m.filling room refusal).interpret ss = (.error (.output refusal.cause),
        m₁.cutOff (m.sink.stored.length + room) refusal v m.current) ∧
      m₁.sink.flushes = m.sink.flushes := by
  have hrefused := hprints.refused refusal rfl hcrosses
  have hwrote := (execAll_moves_wrote ss).of_ends hrefused
  have hflushes := hwrote.map_eq (f := Sink.flushes) fun _ _ => rfl
  exact ⟨interpret_of_ends hrefused.fault, hflushes⟩

end

/-- **A sink that fills up yields a prefix.** Let the statements write
`written` from a machine whose sink takes everything, and let another sink,
which has stored the same before, take only `room` bytes more. If `written`
fits, both runs end the same way, with the same bytes stored, the same frames
and as many flushes. If it does not, the second run stores the first `room`
bytes of it and ends with the refusal of the sink, in the frame it started in
and without a flush; there is a print in the first run that writes the next
byte, and the frames are as they were when it was reached. -/
theorem interpret_cut_short (m : Machine Sink) (room : Nat) (refusal : Sink.Refusal)
    (ss : List Stmt) :
    ∃ written, (m.unlimited.interpret ss).2.sink.stored = m.sink.stored ++ written ∧
      (written.length ≤ room →
        ((m.filling room refusal).interpret ss).1 = (m.unlimited.interpret ss).1 ∧
        ((m.filling room refusal).interpret ss).2.sink.stored = m.sink.stored ++ written ∧
        ((m.filling room refusal).interpret ss).2.sink.flushes =
          (m.unlimited.interpret ss).2.sink.flushes ∧
        ((m.filling room refusal).interpret ss).2.scopes = (m.unlimited.interpret ss).2.scopes ∧
        ((m.filling room refusal).interpret ss).2.current =
          (m.unlimited.interpret ss).2.current) ∧
      (room < written.length →
        ((m.filling room refusal).interpret ss).1 = .error (.output refusal.cause) ∧
        ((m.filling room refusal).interpret ss).2.sink.stored =
          m.sink.stored ++ written.take room ∧
        ((m.filling room refusal).interpret ss).2.sink.flushes = m.sink.flushes ∧
        ((m.filling room refusal).interpret ss).2.current = m.current ∧
        (∃ v m₁, Stmt.BodyPrints ss m.unlimited v m₁ ∧
          m₁.Crosses (m.sink.stored.length + room) v) ∧
        ∀ v m₁, Stmt.BodyPrints ss m.unlimited v m₁ →
          m₁.Crosses (m.sink.stored.length + room) v →
          ((m.filling room refusal).interpret ss).2.scopes = m₁.scopes) := by
  obtain ⟨written, hwritten⟩ := m.exists_written ss
  refine ⟨written, hwritten, fun hroom => ?_, fun hfull => ?_⟩
  · rw [interpret_of_room refusal hwritten hroom]
    exact ⟨rfl, hwritten, rfl, rfl, rfl⟩
  · obtain ⟨v, m₁, hprints, hcrosses⟩ := exists_crosses hwritten hfull
    obtain ⟨hends, hflushes⟩ := interpret_of_crosses refusal hprints hcrosses
    refine ⟨by rw [hends], ?_, ?_, by rw [hends]; rfl, ⟨v, m₁, hprints, hcrosses⟩, ?_⟩
    · rw [hends]
      exact take_of_crosses hwritten hprints hcrosses
    · rw [hends]
      exact hflushes
    · intro v' m₂ hprints' hcrosses'
      rw [(interpret_of_crosses refusal hprints' hcrosses').1]
      rfl

/-- A block that assigns to a name around it between two prints. -/
def printingTwice : List Stmt :=
  let a : Token := ⟨.identifier, "a", none, 1⟩
  [.varDecl a none,
    .block [.print (.literal (.text "ab")), .expression (.assign a (.literal (.bool true))),
      .print (.literal (.text "cd")), .expression (.assign a (.literal (.bool false)))]]

/-- With room for four bytes of six, the second print is cut short and the
assignment after it is not made. -/
theorem interpret_cut_short_of_block :
    let m := initial Sink.unlimited
    let cut := (m.filling 4 .takesNothing).interpret printingTwice
    (m.unlimited.interpret printingTwice).2.sink.stored = utf8 "ab\ncd\n" ∧
      cut.1 = .error (.output "failed to write whole buffer") ∧
      cut.2.sink.stored = utf8 "ab\nc" ∧ cut.2.sink.flushes = 0 ∧ cut.2.current = 0 ∧
      cut.2.scopes.local? "a" 0 = some (.bool true) := by
  intro m cut
  obtain ⟨written, hwritten, -, hcut⟩ := interpret_cut_short m 4 .takesNothing printingTwice
  have hall : (m.unlimited.interpret printingTwice).2.sink.stored = utf8 "ab\ncd\n" := by
    decide +kernel
  obtain rfl : utf8 "ab\ncd\n" = written := hall.symm.trans hwritten
  obtain ⟨hresult, hstored, hflushes, hcurrent, -⟩ := hcut (by decide +kernel)
  exact ⟨hall, hresult, hstored.trans (by decide +kernel), hflushes, hcurrent, by decide +kernel⟩

end Machine

end Lox

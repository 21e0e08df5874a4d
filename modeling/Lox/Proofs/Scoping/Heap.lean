/-
Scopes as a heap that handles point into. Frames are made, handles are
cloned, and names are bound, read and assigned to through any of them, in
any order (`Heap.Reached`); a change through one handle is seen through all
that lead to the changed frame.

Where a name is found is said here by following links one by one
(`Scopes.Walk`, `Scopes.FirstMet`), and what an update does by naming the one
binding that differs after it (`Scopes.BoundTo`). In every heap that is
reached, reading and assigning go by the first frame met that binds the name
(`Heap.nearest_binding`).
-/
import Lox.Proofs.Scoping.Store

namespace Lox

namespace Scopes

variable {s s' : Scopes}

/-! ## Walking outward -/

/-- The frames met in following links from a frame to one that nothing
encloses. -/
inductive Walk (s : Scopes) : Nat → List Nat → Prop
  | last {f} : s.enclosing? f = none → Walk s f [f]
  | link {f e walk} : s.enclosing? f = some e → Walk s e walk → Walk s f (f :: walk)

/-- From every frame there is a walk, for a link leads to an older frame. -/
theorem walk_chain (s : Scopes) (f : Nat) : s.Walk f (s.chain f) := by
  induction f using Nat.strongRecOn with
  | ind f ih =>
    cases he : s.enclosing? f with
    | none =>
      rw [chain_of_none he]
      exact .last he
    | some e =>
      rw [chain_of_some he]
      exact .link he (ih e (enclosing?_lt he))

/-- There is only one. -/
theorem Walk.eq_chain {f : Nat} {walk : List Nat} (h : s.Walk f walk) : walk = s.chain f := by
  induction h with
  | last he => rw [chain_of_none he]
  | link he _ ih => rw [chain_of_some he, ih]

/-- Walking outward from `f`, the first frame met that binds `x` is `i`. -/
def FirstMet (s : Scopes) (f : Nat) (x : String) (i : Nat) : Prop :=
  ∃ inner outer, s.Walk f (inner ++ i :: outer) ∧ (∀ j ∈ inner, s.local? x j = none) ∧
    (s.local? x i).isSome = true

theorem firstMet_iff {f i : Nat} {x : String} : s.FirstMet f x i ↔ s.binder? f x = some i := by
  rw [binder?, List.find?_eq_some_iff_append]
  constructor
  · rintro ⟨inner, outer, hwalk, hinner, hi⟩
    exact ⟨hi, inner, outer, hwalk.eq_chain.symm, fun j hj => by simp [hinner j hj]⟩
  · rintro ⟨hi, inner, outer, hchain, hinner⟩
    refine ⟨inner, outer, hchain ▸ s.walk_chain f, fun j hj => ?_, hi⟩
    simpa using hinner j hj

theorem binder?_eq_none_iff {f : Nat} {x : String} :
    s.binder? f x = none ↔ ∀ walk, s.Walk f walk → ∀ i ∈ walk, s.local? x i = none := by
  rw [binder?, List.find?_eq_none]
  constructor
  · intro hnone walk hwalk i hi
    rw [hwalk.eq_chain] at hi
    simpa using hnone i hi
  · intro hnone i hi
    simp [hnone _ (s.walk_chain f) i hi]

/-! ## Changing one binding -/

/-- `s'` has the frames and links of `s` and the same bindings, but for `x` in
frame `i`, which is bound to `v`. -/
structure BoundTo (s : Scopes) (i : Nat) (x : String) (v : Value) (s' : Scopes) : Prop where
  frames : s'.frames.length = s.frames.length
  links : ∀ j, s'.enclosing? j = s.enclosing? j
  value : s'.local? x i = some v
  others : ∀ j y, ¬ (j = i ∧ y = x) → s'.local? y j = s.local? y j

theorem boundTo_define {i : Nat} (h : i < s.frames.length) (x : String) (v : Value) :
    s.BoundTo i x v (s.define i x v) where
  frames := length_define s i x v
  links := enclosing?_define s i x v
  value := local?_define_self h x v
  others _ _ hne := local?_define_of_ne hne v

namespace BoundTo

variable {i : Nat} {x : String} {v : Value}

/-- If the name was bound there before, every frame binds the names it bound,
so every name is found where it was found. -/
theorem binder? (h : s.BoundTo i x v s') (hbound : (s.local? x i).isSome = true) (g : Nat)
    (y : String) : s'.binder? g y = s.binder? g y := by
  have hnames : ∀ j, (s'.local? y j).isSome = (s.local? y j).isSome := by
    intro j
    by_cases hsame : j = i ∧ y = x
    · obtain ⟨rfl, rfl⟩ := hsame
      rw [h.value, hbound, Option.isSome_some]
    · rw [h.others j y hsame]
  have hchain : s'.chain g = s.chain g := chain_congr fun j _ => h.links j
  simp only [Scopes.binder?, hchain, hnames]

theorem get?_of_not_met (h : s.BoundTo i x v s') (hbound : (s.local? x i).isSome = true) {g : Nat}
    {y : String} (hnot : ¬ (y = x ∧ s.binder? g x = some i)) : s'.get? g y = s.get? g y := by
  rw [get?_eq, get?_eq, h.binder? hbound]
  refine Option.bind_congr fun j hj => h.others j y ?_
  rintro ⟨rfl, rfl⟩
  exact hnot ⟨rfl, hj⟩

end BoundTo

end Scopes

/-- Scopes with the handles given out so far, each the number of the frame it
points at. -/
structure Heap where
  scopes : Scopes
  handles : List Nat

namespace Heap

/-! ## What can be done with handles -/

/-- A global frame with nothing bound, and a handle to it. -/
def initial : Heap := ⟨.initial, [0]⟩

/-- What is done, and the frame it is done to. -/
inductive Operation where
  /-- A new frame that nothing encloses. -/
  | fresh
  /-- A new frame inside another. -/
  | nest (frame : Nat)
  | clone (frame : Nat)
  | define (frame : Nat) (name : String) (value : Value)
  | get (frame : Nat) (name : Token)
  | assign (frame : Nat) (name : Token) (value : Value)

/-- The frame to which an operation needs a handle. -/
def Operation.frame? : Operation → Option Nat
  | .fresh => none
  | .nest f | .clone f | .define f _ _ | .get f _ | .assign f _ _ => some f

/-- The answer of an operation, a value if one is read, and the heap after it. -/
def perform (h : Heap) : Operation → Except RuntimeError (Option Value) × Heap
  | .fresh => (.ok none, ⟨h.scopes.fresh.1, h.handles ++ [h.scopes.fresh.2]⟩)
  | .nest f => (.ok none, ⟨(h.scopes.nest f).1, h.handles ++ [(h.scopes.nest f).2]⟩)
  | .clone f => (.ok none, ⟨h.scopes, h.handles ++ [f]⟩)
  | .define f x v => (.ok none, ⟨h.scopes.define f x v, h.handles⟩)
  | .get f name => ((h.scopes.get f name.lexeme name.line).map some, h)
  | .assign f name v =>
    match h.scopes.assign f name.lexeme name.line v with
    | .ok scopes => (.ok none, ⟨scopes, h.handles⟩)
    | .error e => (.error e, h)

/-- The heaps that operations through handles lead to. -/
inductive Reached : Heap → Prop
  | initial : Reached initial
  | perform {h : Heap} {op : Operation} : Reached h → (∀ f ∈ op.frame?, f ∈ h.handles) →
      Reached (h.perform op).2

/-- Every handle points at a frame. -/
def Held (h : Heap) : Prop := ∀ f ∈ h.handles, f < h.scopes.frames.length

theorem Held.perform {h : Heap} (hheld : h.Held) {op : Operation}
    (hop : ∀ f ∈ op.frame?, f ∈ h.handles) : (h.perform op).2.Held := by
  intro f hf
  cases op with
  | fresh =>
    simp only [Heap.perform, Scopes.fresh, List.mem_append, List.mem_singleton,
      List.length_append, List.length_singleton] at hf ⊢
    rcases hf with hf | rfl
    · exact Nat.lt_succ_of_lt (hheld f hf)
    · exact Nat.lt_succ_self _
  | nest e =>
    have he := hheld e (hop e rfl)
    simp only [Heap.perform, List.mem_append, List.mem_singleton] at hf ⊢
    rw [Scopes.length_nest]
    rcases hf with hf | rfl
    · exact Nat.lt_succ_of_lt (hheld f hf)
    · rw [(Scopes.frames_nest he).2]
      exact Nat.lt_succ_self _
  | clone g =>
    simp only [Heap.perform, List.mem_append, List.mem_singleton] at hf ⊢
    rcases hf with hf | rfl
    · exact hheld f hf
    · exact hheld f (hop f rfl)
  | define g x v =>
    simp only [Heap.perform, Scopes.length_define] at hf ⊢
    exact hheld f hf
  | get g name => exact hheld f hf
  | assign g name v =>
    simp only [Heap.perform] at hf ⊢
    split at hf
    · next scopes hassign =>
      obtain ⟨i, -, rfl⟩ := Scopes.assign_eq_ok.mp hassign
      simp only [Scopes.length_define]
      exact hheld f hf
    · exact hheld f hf

theorem Reached.held {h : Heap} (hreached : h.Reached) : h.Held := by
  induction hreached with
  | initial =>
    intro f hf
    rw [List.mem_singleton.mp hf]
    decide
  | perform _ hop ih => exact ih.perform hop

/-! ## Reading and assigning -/

section

variable {h : Heap} {f i : Nat} {name : Token}

theorem perform_get_of_bound {v : Value} (hmet : h.scopes.binder? f name.lexeme = some i)
    (hv : h.scopes.local? name.lexeme i = some v) :
    h.perform (.get f name) = (.ok (some v), h) := by
  have hget : h.scopes.get f name.lexeme name.line = .ok v := by
    rw [Scopes.get_eq_ok, Scopes.get?_eq, hmet]
    exact hv
  rw [perform, hget]
  rfl

theorem perform_get_of_unbound (hunmet : h.scopes.binder? f name.lexeme = none) :
    h.perform (.get f name) = (.error (.undefinedVariable name.lexeme name.line), h) := by
  rw [perform, Scopes.get_eq_error.mpr ⟨hunmet, rfl⟩]
  rfl

theorem perform_assign_of_bound (hmet : h.scopes.binder? f name.lexeme = some i) (v : Value) :
    h.perform (.assign f name v) = (.ok none, ⟨h.scopes.define i name.lexeme v, h.handles⟩) := by
  rw [perform, Scopes.assign_eq_ok.mpr ⟨i, hmet, rfl⟩]

theorem perform_assign_of_unbound (hunmet : h.scopes.binder? f name.lexeme = none) (v : Value) :
    h.perform (.assign f name v) =
      (.error (.undefinedVariable name.lexeme name.line), h) := by
  rw [perform, Scopes.assign_eq_error.mpr ⟨hunmet, rfl⟩]

/-- An assignment fails exactly where reading the name fails, and with the
same report. -/
theorem perform_assign_eq_error_iff {v : Value} {e : RuntimeError} :
    (h.perform (.assign f name v)).1 = .error e ↔ (h.perform (.get f name)).1 = .error e := by
  cases hb : h.scopes.binder? f name.lexeme with
  | none => rw [perform_assign_of_unbound hb, perform_get_of_unbound hb]
  | some i =>
    obtain ⟨old, hold⟩ := Option.isSome_iff_exists.mp (Scopes.isSome_local?_of_binder? hb)
    rw [perform_assign_of_bound hb, perform_get_of_bound hb hold]
    exact ⟨nofun, nofun⟩

theorem perform_assign_of_error {v : Value} {e : RuntimeError}
    (herror : (h.perform (.assign f name v)).1 = .error e) :
    (h.perform (.assign f name v)).2 = h := by
  cases hb : h.scopes.binder? f name.lexeme with
  | none => rw [perform_assign_of_unbound hb]
  | some i =>
    rw [perform_assign_of_bound hb] at herror
    cases herror

/-- What is read hangs only on the value that the scopes have for the name. -/
theorem perform_get_congr {h' : Heap} (hvalue : h'.scopes.get? f name.lexeme =
    h.scopes.get? f name.lexeme) :
    (h'.perform (.get f name)).1 = (h.perform (.get f name)).1 := by
  rw [perform, perform, Scopes.get, Scopes.get, hvalue]

end

/-- **Names are read and assigned to where they are bound nearest.** In every
heap that is reached:

The walk outward from a frame ends, in one way only, and meets no frame twice.

A name is read from the first frame met that binds it, and is reported as
undefined if none does. It is assigned to in that frame, and there only; if
there is none, the report is the same and the heap stays as it is. So after
an assignment the new value is read through those handles from which the name
is first met in that frame, and no other reading has changed.

Binding a name in a frame changes nothing else. -/
theorem nearest_binding {h : Heap} (hreached : h.Reached) :
    (∀ f, f < h.scopes.frames.length → ∃ walk, h.scopes.Walk f walk ∧
      (∀ other, h.scopes.Walk f other → other = walk) ∧ walk.Nodup ∧
      ∀ i ∈ walk, i < h.scopes.frames.length) ∧
    (∀ f ∈ h.handles, ∀ name : Token,
      (∀ i v, h.scopes.FirstMet f name.lexeme i → h.scopes.local? name.lexeme i = some v →
        h.perform (.get f name) = (.ok (some v), h)) ∧
      ((∀ walk, h.scopes.Walk f walk → ∀ i ∈ walk, h.scopes.local? name.lexeme i = none) →
        h.perform (.get f name) = (.error (.undefinedVariable name.lexeme name.line), h)) ∧
      ∀ v,
        (∀ e, (h.perform (.assign f name v)).1 = .error e ↔
          (h.perform (.get f name)).1 = .error e) ∧
        (∀ e, (h.perform (.assign f name v)).1 = .error e →
          (h.perform (.assign f name v)).2 = h) ∧
        ∀ i, h.scopes.FirstMet f name.lexeme i →
          ∃ h', h.perform (.assign f name v) = (.ok none, h') ∧ h'.handles = h.handles ∧
            h.scopes.BoundTo i name.lexeme v h'.scopes ∧
            ∀ g ∈ h.handles, ∀ other : Token,
              (other.lexeme = name.lexeme ∧ h.scopes.FirstMet g name.lexeme i →
                (h'.perform (.get g other)).1 = .ok (some v)) ∧
              (¬ (other.lexeme = name.lexeme ∧ h.scopes.FirstMet g name.lexeme i) →
                (h'.perform (.get g other)).1 = (h.perform (.get g other)).1)) ∧
    ∀ f ∈ h.handles, ∀ x v,
      ∃ h', h.perform (.define f x v) = (.ok none, h') ∧ h'.handles = h.handles ∧
        h.scopes.BoundTo f x v h'.scopes := by
  refine ⟨fun f hf => ?_, fun f hf name => ⟨fun i v hmet hv => ?_, fun hunmet => ?_,
    fun v => ⟨fun e => ?_, fun e herror => ?_, fun i hmet => ?_⟩⟩, fun f hf x v => ?_⟩
  · exact ⟨h.scopes.chain f, h.scopes.walk_chain f, fun other hother => hother.eq_chain,
      h.scopes.nodup_chain f, fun i hi => Nat.lt_of_le_of_lt (Scopes.le_of_mem_chain hi) hf⟩
  · exact perform_get_of_bound (Scopes.firstMet_iff.mp hmet) hv
  · exact perform_get_of_unbound (Scopes.binder?_eq_none_iff.mpr hunmet)
  · exact perform_assign_eq_error_iff
  · exact perform_assign_of_error herror
  · rw [Scopes.firstMet_iff] at hmet
    have hbound := Scopes.isSome_local?_of_binder? hmet
    have hto := Scopes.boundTo_define (Scopes.lt_of_isSome_local? hbound) name.lexeme v
    refine ⟨_, perform_assign_of_bound hmet v, rfl, hto, fun g hg other => ⟨?_, fun hnot => ?_⟩⟩
    · rintro ⟨hother, hg⟩
      rw [Scopes.firstMet_iff, ← hother] at hg
      rw [← hother] at hto hbound ⊢
      exact congrArg Prod.fst (perform_get_of_bound ((hto.binder? hbound g _).trans hg) hto.value)
    · rw [Scopes.firstMet_iff] at hnot
      exact perform_get_congr (hto.get?_of_not_met hbound hnot)
  · exact ⟨_, rfl, rfl, Scopes.boundTo_define (hreached.held f hf) x v⟩

/-- Two frames inside the global one, of which the second binds the name again,
and one more inside the first. -/
def siblings : Heap :=
  [.define 0 "a" (.bool true), .nest 0, .nest 0, .define 2 "a" .nil, .nest 1].foldl
    (fun h op => (h.perform op).2) initial

/-- An assignment from the innermost frame goes to the global one, and is seen
from the frame between but not from its sibling. -/
theorem nearest_binding_of_siblings :
    let a : Token := ⟨.identifier, "a", none, 7⟩
    siblings.Reached ∧ ∃ h', siblings.perform (.assign 3 a (.bool false)) = (.ok none, h') ∧
      siblings.scopes.BoundTo 0 "a" (.bool false) h'.scopes ∧
      (h'.perform (.get 1 a)).1 = .ok (some (.bool false)) ∧
      (h'.perform (.get 2 a)).1 = .ok (some .nil) := by
  intro a
  have hreached : siblings.Reached :=
    .perform (.perform (.perform (.perform (.perform .initial (by decide)) (by decide)) (by decide))
      (by decide)) (by decide)
  have hmet : ∀ f ∈ [1, 3], siblings.scopes.FirstMet f "a" 0 := by
    intro f hf
    rw [Scopes.firstMet_iff]
    revert f
    decide +kernel
  have hsibling : ¬ siblings.scopes.FirstMet 2 "a" 0 := by
    rw [Scopes.firstMet_iff]
    decide +kernel
  obtain ⟨-, hnames, -⟩ := nearest_binding hreached
  obtain ⟨-, -, hassign⟩ := hnames 3 (by decide) a
  obtain ⟨h', hperform, -, hto, hread⟩ := (hassign (.bool false)).2.2 0 (hmet 3 (by decide))
  refine ⟨hreached, h', hperform, hto, (hread 1 (by decide) a).1 ⟨rfl, hmet 1 (by decide)⟩, ?_⟩
  rw [(hread 2 (by decide) a).2 fun hseen => hsibling hseen.2]
  decide +kernel

end Heap

end Lox

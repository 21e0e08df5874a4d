/-
Scopes seen from one frame as a store: the bindings of the frames on the
walk outward, as finite maps (`Scopes.store`). Each operation on scopes is
the operation on stores of the same meaning. Binding and assigning change
one map, for a walk never meets a frame twice; a new frame puts an empty map
in front.

Frames are only ever added and their links never changed (`Scopes.Grows`), so
a walk that was there stays the same.
-/
import Lox.Proofs.Machine.BigStep
import Lox.Proofs.Scoping.Agreement

namespace Lox

open BigStep

/-- Bindings as a finite map. -/
def Bindings.scope (b : Bindings) : Scope :=
  (b.map fun p => (⟨p.1, p.2⟩ : Σ _ : String, Value)).toFinmap

theorem Bindings.lookup_scope (b : Bindings) (x : String) : b.scope.lookup x = b.lookup x := by
  rw [scope, Finmap.dlookup_list_toFinmap]
  induction b with
  | nil => rfl
  | cons p rest ih =>
    obtain ⟨name, value⟩ := p
    rw [List.map_cons, List.lookup_cons]
    by_cases h : x = name
    · subst h
      simp
    · rw [List.dlookup_cons_ne _ _ h, ih, beq_eq_false_iff_ne.mpr h]

namespace Scopes

/-! ## Frames as finite maps -/

/-- The bindings of a frame. -/
def scope (s : Scopes) (i : Nat) : Scope := (s.frames[i]?.map fun f => f.bindings.scope).getD ∅

theorem lookup_scope (s : Scopes) (i : Nat) (x : String) : (s.scope i).lookup x = s.local? x i := by
  rw [scope, local?]
  cases s.frames[i]? with
  | none => rfl
  | some f => exact f.bindings.lookup_scope x

theorem mem_scope {s : Scopes} {i : Nat} {x : String} :
    x ∈ s.scope i ↔ (s.local? x i).isSome = true := by
  rw [← Finmap.lookup_isSome, lookup_scope]

theorem scope_define_self {s : Scopes} {i : Nat} (h : i < s.frames.length) (x : String)
    (v : Value) : (s.define i x v).scope i = (s.scope i).insert x v := by
  refine Finmap.ext_lookup fun y => ?_
  rw [lookup_scope]
  by_cases hy : y = x
  · subst hy
    rw [local?_define_self h, Finmap.lookup_insert]
  · rw [local?_define_of_ne (fun hsame => hy hsame.2), Finmap.lookup_insert_of_ne _ hy, lookup_scope]

theorem scope_define_of_ne {s : Scopes} {i j : Nat} (h : j ≠ i) (x : String) (v : Value) :
    (s.define i x v).scope j = s.scope j := by
  refine Finmap.ext_lookup fun y => ?_
  rw [lookup_scope, lookup_scope, local?_define_of_ne fun hsame => h hsame.1]

/-! ## Walks as stores -/

/-- The bindings of the frames on the walk outward. -/
def store (s : Scopes) (frame : Nat) : Store := (s.chain frame).map s.scope

theorem value?_map_scope (s : Scopes) (x : String) (frames : List Nat) :
    Store.value? x (frames.map s.scope) =
      (frames.find? fun i => (s.local? x i).isSome).bind (s.local? x) := by
  induction frames with
  | nil => rfl
  | cons i frames ih =>
    rw [List.map_cons, Store.value?, List.find?_cons]
    cases hi : (s.local? x i).isSome with
    | true =>
      rw [if_pos (mem_scope.mpr hi), lookup_scope]
      rfl
    | false =>
      rw [if_neg (by rw [mem_scope, hi]; decide), ih]

/-- Reading a name. -/
theorem value?_store (s : Scopes) (frame : Nat) (x : String) :
    (s.store frame).value? x = s.get? frame x := by
  rw [get?_eq]
  exact value?_map_scope s x (s.chain frame)

theorem value?_store_eq_none {s : Scopes} {frame : Nat} {x : String} :
    (s.store frame).value? x = none ↔ s.binder? frame x = none := by
  rw [value?_store, get?_eq]
  cases hb : s.binder? frame x with
  | none => simp
  | some i =>
    have hbound := isSome_local?_of_binder? hb
    simp [Option.isSome_iff_ne_none.mp hbound]

/-- A walk never meets a frame twice. -/
theorem nodup_chain (s : Scopes) (frame : Nat) : (s.chain frame).Nodup := by
  induction frame using Nat.strongRecOn with
  | ind frame ih =>
    cases he : s.enclosing? frame with
    | none =>
      rw [chain_of_none he]
      exact List.nodup_singleton frame
    | some e =>
      have hchain := chain_of_some he
      rw [hchain, List.nodup_cons]
      exact ⟨fun hmem => ne_of_mem_tail_chain hchain hmem rfl, ih e (enclosing?_lt he)⟩

theorem map_scope_define {s : Scopes} {i : Nat} {frames : List Nat} (h : i ∉ frames) (x : String)
    (v : Value) : frames.map (s.define i x v).scope = frames.map s.scope := by
  refine List.map_congr_left fun j hj => scope_define_of_ne (fun hji => ?_) x v
  exact h (hji ▸ hj)

theorem rebind?_map_scope (s : Scopes) (x : String) (v : Value) {frames : List Nat}
    (h : frames.Nodup) : Store.rebind? x v (frames.map s.scope) =
      (frames.find? fun i => (s.local? x i).isSome).map
        fun i => frames.map (s.define i x v).scope := by
  induction frames with
  | nil => rfl
  | cons i frames ih =>
    rw [List.nodup_cons] at h
    rw [List.map_cons, Store.rebind?, List.find?_cons]
    cases hi : (s.local? x i).isSome with
    | true =>
      rw [if_pos (mem_scope.mpr hi), Option.map_some, List.map_cons,
        scope_define_self (lt_of_isSome_local? hi), map_scope_define h.1]
    | false =>
      rw [if_neg (by rw [mem_scope, hi]; decide), ih h.2, Option.map_map]
      refine Option.map_congr fun j hj => ?_
      -- The frame found is further out, so this one keeps its bindings.
      have hne : i ≠ j := fun hij => h.1 (hij ▸ List.mem_of_find?_eq_some hj)
      rw [Function.comp, List.map_cons, scope_define_of_ne hne]

/-- Assigning to a name. -/
theorem rebind?_store (s : Scopes) (frame : Nat) (x : String) (v : Value) :
    (s.store frame).rebind? x v =
      (s.binder? frame x).map fun i => (s.define i x v).store frame := by
  rw [store, rebind?_map_scope s x v (s.nodup_chain frame), binder?]
  refine Option.map_congr fun i _ => ?_
  rw [store, chain_define]

theorem chain_eq_cons (s : Scopes) (frame : Nat) : ∃ rest, s.chain frame = frame :: rest := by
  obtain ⟨rest, hrest⟩ := List.head?_eq_some_iff.mp (s.head?_chain frame)
  exact ⟨rest, hrest⟩

/-- Declaring a name. -/
theorem bind_store {s : Scopes} {frame : Nat} (h : frame < s.frames.length) (x : String)
    (v : Value) : (s.store frame).bind x v = (s.define frame x v).store frame := by
  obtain ⟨rest, hrest⟩ := s.chain_eq_cons frame
  have hnodup := s.nodup_chain frame
  rw [hrest, List.nodup_cons] at hnodup
  rw [store, store, chain_define, hrest, List.map_cons, List.map_cons, scope_define_self h,
    map_scope_define hnodup.1]
  rfl

/-! ## Making frames -/

/-- No frame is lost and no link changed. -/
structure Grows (s s' : Scopes) : Prop where
  frames : s.frames.length ≤ s'.frames.length
  links : ∀ i, i < s.frames.length → s'.enclosing? i = s.enclosing? i

namespace Grows

theorem refl (s : Scopes) : s.Grows s := ⟨Nat.le_refl _, fun _ _ => rfl⟩

theorem trans {s s₁ s' : Scopes} (h : s.Grows s₁) (h' : s₁.Grows s') : s.Grows s' := by
  refine ⟨Nat.le_trans h.frames h'.frames, fun i hi => ?_⟩
  rw [h'.links i (Nat.lt_of_lt_of_le hi h.frames), h.links i hi]

theorem define (s : Scopes) (frame : Nat) (x : String) (v : Value) :
    s.Grows (s.define frame x v) :=
  ⟨Nat.le_of_eq (length_define s frame x v).symm, fun i _ => enclosing?_define s frame x v i⟩

theorem nest (s : Scopes) (e : Nat) : s.Grows (s.nest e).1 := by
  refine ⟨by rw [length_nest]; omega, fun i hi => ?_⟩
  rw [Scopes.nest]
  split <;> simp only [fresh, enclosing?, List.getElem?_append_left hi]

/-- The walk from a frame that was there is the same. -/
theorem chain {s s' : Scopes} (h : s.Grows s') {frame : Nat} (hframe : frame < s.frames.length) :
    s'.chain frame = s.chain frame :=
  chain_congr fun i hi => h.links i (Nat.lt_of_le_of_lt hi hframe)

end Grows

theorem scope_nest_new {s : Scopes} {e : Nat} (h : e < s.frames.length) :
    (s.nest e).1.scope s.frames.length = ∅ := by
  refine Finmap.ext_lookup fun x => ?_
  rw [lookup_scope, local?_nest_new h, Finmap.lookup_empty]

theorem scope_nest_old {s : Scopes} {e i : Nat} (h : e < s.frames.length)
    (hi : i < s.frames.length) : (s.nest e).1.scope i = s.scope i := by
  refine Finmap.ext_lookup fun x => ?_
  rw [lookup_scope, lookup_scope, local?_nest_old h hi]

/-- Entering a block. -/
theorem store_nest {s : Scopes} {e : Nat} (h : e < s.frames.length) :
    (s.nest e).1.store (s.nest e).2 = ∅ :: s.store e := by
  rw [(frames_nest h).2, store, chain_nest h, List.map_cons, scope_nest_new h, store]
  refine congrArg (∅ :: ·) (List.map_congr_left fun i hi => ?_)
  exact scope_nest_old h (Nat.lt_of_le_of_lt (le_of_mem_chain hi) h)

/-- Leaving it: whatever its body has done, the frames around it are those
of before, with the bindings they have now. -/
theorem tail_store_of_grows {s s' : Scopes} {e : Nat} (h : e < s.frames.length)
    (hgrows : (s.nest e).1.Grows s') : (s'.store (s.nest e).2).tail = s'.store e := by
  have hnew : s.frames.length < (s.nest e).1.frames.length := by
    rw [length_nest]
    omega
  have hinner : s'.chain s.frames.length = s.frames.length :: s.chain e := by
    rw [hgrows.chain hnew, chain_nest h]
  have houter : s'.chain e = s.chain e := ((Grows.nest s e).trans hgrows).chain h
  rw [(frames_nest h).2, store, store, hinner, houter, List.map_cons, List.tail_cons]

end Scopes

end Lox

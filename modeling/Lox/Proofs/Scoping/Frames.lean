/-
Reading and assigning go outward from frame to frame, so what they find is
told by the walk outward as a whole (`Scopes.chain`): the first frame on it
that binds the name (`Scopes.get?_eq`, `Scopes.assign?_eq`).

How each operation on scopes changes these walks and what the frames bind
(`Scopes.local?`): binding a name changes no walk and one binding, and a new
frame stands at the head of a walk that was there before.
-/
import Lox.Machine.Scope

namespace Lox.Scopes

/-! ## Walks -/

/-- The frames met on the walk outward from a frame, itself first. -/
def chain (s : Scopes) (frame : Nat) : List Nat :=
  match _h : s.enclosing? frame with
  | some e => frame :: s.chain e
  | none => [frame]
termination_by frame
decreasing_by exact enclosing?_lt _h

/-- The first frame on the walk outward that binds a name. -/
def binder? (s : Scopes) (frame : Nat) (name : String) : Option Nat :=
  (s.chain frame).find? fun i => (s.local? name i).isSome

theorem chain_of_some {s : Scopes} {frame e : Nat} (h : s.enclosing? frame = some e) :
    s.chain frame = frame :: s.chain e := by
  rw [chain]
  split
  · next e' h' =>
    rw [h] at h'
    cases h'
    rfl
  · next h' =>
    rw [h] at h'
    cases h'

theorem chain_of_none {s : Scopes} {frame : Nat} (h : s.enclosing? frame = none) :
    s.chain frame = [frame] := by
  rw [chain]
  split
  · next e' h' =>
    rw [h] at h'
    cases h'
  · rfl

theorem binder?_of_isSome {s : Scopes} {frame : Nat} {name : String}
    (h : (s.local? name frame).isSome = true) : s.binder? frame name = some frame := by
  rw [binder?]
  cases he : s.enclosing? frame with
  | some e => rw [chain_of_some he, List.find?_cons, h]
  | none => rw [chain_of_none he, List.find?_cons, h]

theorem binder?_of_none {s : Scopes} {frame : Nat} {name : String}
    (h : s.local? name frame = none) :
    s.binder? frame name = (s.enclosing? frame).bind fun e => s.binder? e name := by
  rw [binder?]
  cases he : s.enclosing? frame with
  | some e =>
    rw [chain_of_some he, List.find?_cons_of_neg (by simp [h])]
    rfl
  | none =>
    rw [chain_of_none he, List.find?_cons_of_neg (by simp [h])]
    rfl

/-- The value read is the one that the first frame on the walk to bind the
name binds it to. -/
theorem get?_eq (s : Scopes) (frame : Nat) (name : String) :
    s.get? frame name = (s.binder? frame name).bind (s.local? name) := by
  fun_induction get? s frame name with
  | case1 frame value h => rw [binder?_of_isSome (by simp [h]), Option.bind_some, h]
  | case2 frame h e he ih => rw [binder?_of_none h, he, ih, Option.bind_some]
  | case3 frame h he => rw [binder?_of_none h, he]; rfl

/-- An assignment binds the name in the first frame on the walk that binds it. -/
theorem assign?_eq (s : Scopes) (frame : Nat) (name : String) (value : Value) :
    s.assign? frame name value =
      (s.binder? frame name).map fun i => s.define i name value := by
  fun_induction assign? s frame name value with
  | case1 frame bound h => rw [binder?_of_isSome (by simp [h]), Option.map_some]
  | case2 frame h e he ih => rw [binder?_of_none h, he, ih, Option.bind_some]
  | case3 frame h he => rw [binder?_of_none h, he]; rfl

/-- A walk begins with the frame it is from. -/
theorem head?_chain (s : Scopes) (frame : Nat) : (s.chain frame).head? = some frame := by
  cases h : s.enclosing? frame with
  | some e => rw [chain_of_some h, List.head?_cons]
  | none => rw [chain_of_none h, List.head?_cons]

/-- Nothing encloses the oldest frame. -/
theorem chain_zero (s : Scopes) : s.chain 0 = [0] := by
  cases h : s.enclosing? 0 with
  | some e => exact absurd (enclosing?_lt h) (Nat.not_lt_zero e)
  | none => exact chain_of_none h

/-- A walk meets only frames up to the one it is from, so only their links
matter to it. -/
theorem chain_congr {s s' : Scopes} {frame : Nat}
    (h : ∀ i, i ≤ frame → s'.enclosing? i = s.enclosing? i) : s'.chain frame = s.chain frame := by
  induction frame using Nat.strongRecOn with
  | ind frame ih =>
    have hframe := h frame (Nat.le_refl frame)
    cases he : s.enclosing? frame with
    | none => rw [chain_of_none he, chain_of_none (hframe.trans he)]
    | some e =>
      have hlt := enclosing?_lt he
      rw [chain_of_some he, chain_of_some (hframe.trans he), ih e hlt]
      intro i hi
      exact h i (Nat.le_trans hi (Nat.le_of_lt hlt))

/-! ## Binding a name -/

theorem enclosing?_define (s : Scopes) (frame : Nat) (name : String) (value : Value) (i : Nat) :
    (s.define frame name value).enclosing? i = s.enclosing? i := by
  simp only [enclosing?, define, List.getElem?_modify]
  cases s.frames[i]? with
  | none => rfl
  | some f =>
    simp only [Option.map_eq_map, Option.map_some, Option.bind_some]
    split <;> rfl

theorem chain_define (s : Scopes) (frame : Nat) (name : String) (value : Value) (i : Nat) :
    (s.define frame name value).chain i = s.chain i :=
  chain_congr fun j _ => enclosing?_define s frame name value j

theorem length_define (s : Scopes) (frame : Nat) (name : String) (value : Value) :
    (s.define frame name value).frames.length = s.frames.length := by
  simp only [define, List.length_modify]

theorem local?_define_self {s : Scopes} {frame : Nat} (h : frame < s.frames.length)
    (name : String) (value : Value) :
    (s.define frame name value).local? name frame = some value := by
  simp only [local?, define, List.getElem?_modify, List.getElem?_eq_getElem h, if_true]
  exact Bindings.lookup_insert_self name value _

theorem local?_define_of_ne {s : Scopes} {frame i : Nat} {name x : String}
    (h : ¬ (i = frame ∧ x = name)) (value : Value) :
    (s.define frame name value).local? x i = s.local? x i := by
  simp only [local?, define, List.getElem?_modify]
  cases s.frames[i]? with
  | none => rfl
  | some f =>
    simp only [Option.map_eq_map, Option.map_some, Option.bind_some]
    split
    · next hi =>
      have hx : x ≠ name := fun hx => h ⟨hi.symm, hx⟩
      exact Bindings.lookup_insert_of_ne hx value _
    · rfl

/-- Binding a name in a frame adds that name to those the frame binds. -/
theorem isSome_local?_define {s : Scopes} {frame : Nat} (h : frame < s.frames.length)
    (name : String) (value : Value) (x : String) (i : Nat) :
    ((s.define frame name value).local? x i).isSome = true ↔
      (i = frame ∧ x = name) ∨ (s.local? x i).isSome = true := by
  by_cases hsame : i = frame ∧ x = name
  · obtain ⟨rfl, rfl⟩ := hsame
    rw [local?_define_self h]
    simp
  · rw [local?_define_of_ne hsame]
    simp [hsame]

/-! ## Assigning to a name -/

theorem lt_of_isSome_local? {s : Scopes} {x : String} {i : Nat}
    (h : (s.local? x i).isSome = true) : i < s.frames.length := by
  rw [local?, Option.isSome_iff_exists] at h
  obtain ⟨v, hv⟩ := h
  obtain ⟨f, hf, -⟩ := Option.bind_eq_some_iff.mp hv
  exact (List.getElem?_eq_some_iff.mp hf).1

theorem isSome_local?_of_binder? {s : Scopes} {frame i : Nat} {name : String}
    (h : s.binder? frame name = some i) : (s.local? name i).isSome = true := by
  rw [binder?] at h
  simpa using List.find?_some h

theorem get_eq_ok {s : Scopes} {frame : Nat} {name : String} {value : Value} (line : Nat) :
    s.get frame name line = .ok value ↔ s.get? frame name = some value := by
  unfold get
  cases s.get? frame name <;> simp

/-- Reading a name fails exactly if no frame on the walk binds it. -/
theorem get_eq_error {s : Scopes} {frame line : Nat} {name : String} {e : RuntimeError} :
    s.get frame name line = .error e ↔
      s.binder? frame name = none ∧ e = .undefinedVariable name line := by
  rw [get, get?_eq]
  cases hb : s.binder? frame name with
  | none => simp [eq_comm]
  | some i =>
    obtain ⟨v, hv⟩ := Option.isSome_iff_exists.mp (isSome_local?_of_binder? hb)
    simp [hv]

/-- An assignment binds the name where it is bound already. -/
theorem assign_eq_ok {s s' : Scopes} {frame line : Nat} {name : String} {value : Value} :
    s.assign frame name line value = .ok s' ↔
      ∃ i, s.binder? frame name = some i ∧ s' = s.define i name value := by
  rw [assign, assign?_eq]
  cases s.binder? frame name <;> simp [eq_comm]

/-- An assignment fails exactly where reading the name fails. -/
theorem assign_eq_error {s : Scopes} {frame line : Nat} {name : String} {value : Value}
    {e : RuntimeError} :
    s.assign frame name line value = .error e ↔
      s.binder? frame name = none ∧ e = .undefinedVariable name line := by
  rw [assign, assign?_eq]
  cases s.binder? frame name <;> simp [eq_comm]

/-- Rebinding a bound name changes no frame's names. -/
theorem isSome_local?_rebind {s : Scopes} {i : Nat} {name : String}
    (h : (s.local? name i).isSome = true) (value : Value) (x : String) (j : Nat) :
    ((s.define i name value).local? x j).isSome = true ↔ (s.local? x j).isSome = true := by
  rw [isSome_local?_define (lt_of_isSome_local? h)]
  constructor
  · intro hx
    rcases hx with ⟨rfl, rfl⟩ | hx
    · exact h
    · exact hx
  · exact .inr

/-! ## Making a frame -/

theorem frames_nest {s : Scopes} {e : Nat} (h : e < s.frames.length) :
    (s.nest e).1.frames = s.frames ++ [⟨[], some e⟩] ∧ (s.nest e).2 = s.frames.length := by
  rw [nest, dif_pos h]
  exact ⟨rfl, rfl⟩

theorem length_nest (s : Scopes) (e : Nat) :
    (s.nest e).1.frames.length = s.frames.length + 1 := by
  rw [nest]
  split <;> simp [fresh]

theorem enclosing?_nest_old {s : Scopes} {e i : Nat} (h : e < s.frames.length)
    (hi : i < s.frames.length) : (s.nest e).1.enclosing? i = s.enclosing? i := by
  rw [enclosing?, enclosing?, (frames_nest h).1, List.getElem?_append_left hi]

theorem enclosing?_nest_new {s : Scopes} {e : Nat} (h : e < s.frames.length) :
    (s.nest e).1.enclosing? s.frames.length = some e := by
  rw [enclosing?, (frames_nest h).1, List.getElem?_append_right (Nat.le_refl _), Nat.sub_self]
  rfl

/-- The walk from a new frame goes on as the walk from the frame around it. -/
theorem chain_nest {s : Scopes} {e : Nat} (h : e < s.frames.length) :
    (s.nest e).1.chain s.frames.length = s.frames.length :: s.chain e := by
  rw [chain_of_some (enclosing?_nest_new h)]
  have hold : (s.nest e).1.chain e = s.chain e :=
    chain_congr fun i hi => enclosing?_nest_old h (Nat.lt_of_le_of_lt hi h)
  rw [hold]

theorem local?_nest_old {s : Scopes} {e i : Nat} (h : e < s.frames.length)
    (hi : i < s.frames.length) (x : String) : (s.nest e).1.local? x i = s.local? x i := by
  rw [local?, local?, (frames_nest h).1, List.getElem?_append_left hi]

/-- A new frame binds nothing. -/
theorem local?_nest_new {s : Scopes} {e : Nat} (h : e < s.frames.length) (x : String) :
    (s.nest e).1.local? x s.frames.length = none := by
  rw [local?, (frames_nest h).1, List.getElem?_append_right (Nat.le_refl _), Nat.sub_self]
  rfl

theorem local?_of_length_le {s : Scopes} {i : Nat} (h : s.frames.length ≤ i) (x : String) :
    s.local? x i = none := by
  rw [local?, List.getElem?_eq_none h]
  rfl

/-- So making a frame changes no binding. -/
theorem local?_nest {s : Scopes} {e : Nat} (h : e < s.frames.length) (x : String) (i : Nat) :
    (s.nest e).1.local? x i = s.local? x i := by
  rcases Nat.lt_trichotomy i s.frames.length with hi | rfl | hi
  · exact local?_nest_old h hi x
  · rw [local?_nest_new h, local?_of_length_le (Nat.le_refl _)]
  · rw [local?_of_length_le (by rw [length_nest]; omega), local?_of_length_le (by omega)]

end Lox.Scopes

/-
Scopes: frames of bindings, each linked to the frame that encloses it.

Frames are numbered as they are made and never removed, so whoever knows a
frame's number shares the frame. A frame is made inside an older one, so
links lead to smaller numbers and every walk outward ends.
-/
import Lox.Value
import Lox.Machine.RuntimeError

namespace Lox

/-- Bindings of one frame; each name is bound at most once. -/
abbrev Bindings := List (String × Value)

namespace Bindings

/-- Binds a name, in place of an older binding of it. -/
def insert (name : String) (value : Value) : Bindings → Bindings
  | [] => [(name, value)]
  | (n, v) :: rest => if n = name then (n, value) :: rest else (n, v) :: insert name value rest

theorem lookup_insert_self (name : String) (value : Value) (b : Bindings) :
    (b.insert name value).lookup name = some value := by
  induction b with
  | nil => simp [insert]
  | cons p rest ih =>
    obtain ⟨n, v⟩ := p
    by_cases h : n = name
    · simp [insert, h]
    · simp [insert, h, List.lookup_cons, beq_eq_false_iff_ne.mpr (Ne.symm h), ih]

theorem lookup_insert_of_ne {name other : String} (h : other ≠ name) (value : Value)
    (b : Bindings) : (b.insert name value).lookup other = b.lookup other := by
  induction b with
  | nil => simp [insert, List.lookup_cons, beq_eq_false_iff_ne.mpr h]
  | cons p rest ih =>
    obtain ⟨n, v⟩ := p
    by_cases hn : n = name
    · subst hn; simp [insert, List.lookup_cons, beq_eq_false_iff_ne.mpr h]
    · simp only [insert, hn, if_false, List.lookup_cons, ih]

end Bindings

/-- The names bound in one block, and the frame of the block around it. -/
structure Frame where
  /-- What its block has declared. -/
  bindings : Bindings
  /-- The frame around it; the global frame has none. -/
  enclosing : Option Nat
deriving DecidableEq

/-- The frame with a name bound, in place of what it was bound to. -/
def Frame.define (name : String) (value : Value) (f : Frame) : Frame :=
  { f with bindings := f.bindings.insert name value }

/-- Every link leads to an older frame. -/
def Linked (frames : List Frame) : Prop :=
  ∀ (i : Nat) (frame : Frame) (e : Nat),
    frames[i]? = some frame → frame.enclosing = some e → e < i

/-- All frames there ever were, the oldest first. A frame is known by its place. -/
structure Scopes where
  /-- The frames by their numbers. -/
  frames : List Frame
  /-- So a walk outward comes to an end. -/
  linked : Linked frames

namespace Scopes

/-- One frame, the global one, with nothing bound. -/
def initial : Scopes := ⟨[⟨[], none⟩], by
  intro i frame e hf he
  cases i <;> simp at hf
  subst hf
  cases he⟩

/-! ## Making frames -/

theorem linked_append {frames : List Frame} {new : Frame} (linked : Linked frames)
    (link : ∀ e, new.enclosing = some e → e < frames.length) : Linked (frames ++ [new]) := by
  intro i frame e hf he
  rcases Nat.lt_trichotomy i frames.length with h | h | h
  · rw [List.getElem?_append_left h] at hf
    exact linked i frame e hf he
  · subst h
    simp at hf
    subst hf
    exact link e he
  · rw [List.getElem?_append_right (Nat.le_of_lt h)] at hf
    obtain ⟨k, hk⟩ := Nat.exists_eq_add_of_lt h
    simp [hk, Nat.add_assoc] at hf

/-- A new frame that nothing encloses, and its number. -/
def fresh (s : Scopes) : Scopes × Nat :=
  (⟨s.frames ++ [⟨[], none⟩], linked_append s.linked (by simp)⟩, s.frames.length)

/-- A new frame enclosed by frame `e`, and its number. If there is no frame
`e`, nothing encloses the new one. -/
def nest (s : Scopes) (e : Nat) : Scopes × Nat :=
  if h : e < s.frames.length then
    (⟨s.frames ++ [⟨[], some e⟩],
      linked_append s.linked (by intro e' he; cases he; exact h)⟩, s.frames.length)
  else s.fresh

/-! ## Reading and writing -/

/-- Binds a name in a frame itself. -/
def define (s : Scopes) (frame : Nat) (name : String) (value : Value) : Scopes :=
  ⟨s.frames.modify frame (Frame.define name value), by
    intro i f e hf he
    rw [List.getElem?_modify] at hf
    obtain ⟨g, hg, rfl⟩ := Option.map_eq_some_iff.mp hf
    refine s.linked i g e hg ?_
    split at he <;> exact he⟩

/-- The frame around a frame, if there is one. -/
def enclosing? (s : Scopes) (frame : Nat) : Option Nat :=
  s.frames[frame]?.bind Frame.enclosing

theorem enclosing?_lt {s : Scopes} {frame e : Nat} (h : s.enclosing? frame = some e) :
    e < frame := by
  obtain ⟨f, hf, he⟩ := Option.bind_eq_some_iff.mp h
  exact s.linked frame f e hf he

/-- What a name is bound to in a frame itself. -/
def local? (s : Scopes) (name : String) (frame : Nat) : Option Value :=
  s.frames[frame]?.bind fun f => f.bindings.lookup name

/-- The value of a name, seen from a frame: what the frame itself binds it to,
or else its value seen from the frame around it. -/
def get? (s : Scopes) (frame : Nat) (name : String) : Option Value :=
  match s.local? name frame with
  | some value => some value
  | none =>
    match _h : s.enclosing? frame with
    | some e => s.get? e name
    | none => none
termination_by frame
decreasing_by exact enclosing?_lt _h

/-- Gives a name another value in the frame itself, if that binds it, or else
from the frame around it; never binds a name. -/
def assign? (s : Scopes) (frame : Nat) (name : String) (value : Value) : Option Scopes :=
  match s.local? name frame with
  | some _ => some (s.define frame name value)
  | none =>
    match _h : s.enclosing? frame with
    | some e => s.assign? e name value
    | none => none
termination_by frame
decreasing_by exact enclosing?_lt _h

/-- The value of a name, or the fault that it has none. -/
def get (s : Scopes) (frame : Nat) (name : String) (line : Nat) : Except RuntimeError Value :=
  match s.get? frame name with
  | some value => .ok value
  | none => .error (.undefinedVariable name line)

/-- The scopes after an assignment, or the fault that the name is unbound. -/
def assign (s : Scopes) (frame : Nat) (name : String) (line : Nat) (value : Value) :
    Except RuntimeError Scopes :=
  match s.assign? frame name value with
  | some s' => .ok s'
  | none => .error (.undefinedVariable name line)

end Scopes

end Lox

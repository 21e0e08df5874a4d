/-
Scopes as the text of a program shows them, and the names a run looks up.

A static scope lists the names its block has declared so far; `occurrences`
gives every name that is read or assigned in some statements with the scopes
around it, from the text alone.

`Stmt.Reaches` says what a run looks up and where: it follows execution to a
name, and keeps beside the static scopes the frames the blocks run in. A
name that is reached stands in the text with the same scopes
(`BodyReaches.mem_occurrences`).
-/
import Lox.Proofs.Machine.Run

namespace Lox

/-- The names declared so far by each block around a place, innermost first
and those of the whole program last. -/
abbrev Static := List (List String)

namespace Static

/-- The scopes after a declaration in the innermost block. -/
def declare (name : String) : Static → Static
  | [] => []
  | names :: outer => (name :: names) :: outer

/-- The scopes after a statement: only a declaration that stands directly in
the block changes them. -/
def after (scopes : Static) : Stmt → Static
  | .varDecl name _ => scopes.declare name.lexeme
  | _ => scopes

/-- Whether some block around has declared a name. -/
def Binds (scopes : Static) (name : String) : Prop := ∃ names ∈ scopes, name ∈ names

instance (scopes : Static) (name : String) : Decidable (scopes.Binds name) :=
  inferInstanceAs (Decidable (∃ names ∈ scopes, name ∈ names))

/-- The frame of the innermost block that has declared a name, given the
frames of the blocks. -/
def frame? : Static → List Nat → String → Option Nat
  | names :: outer, frame :: frames, name =>
    if name ∈ names then some frame else frame? outer frames name
  | _, _, _ => none

end Static

/-- A name where it is read or assigned, with the scopes around it. -/
structure Occurrence where
  name : Token
  scopes : Static
deriving DecidableEq

/-- The names read or assigned in an expression. -/
def Expr.names : Expr → List Token
  | .literal _ => []
  | .grouping inner => inner.names
  | .unary _ operand => operand.names
  | .binary left _ right | .logical left _ right => left.names ++ right.names
  | .var name => [name]
  | .assign name value => name :: value.names

namespace Stmt

mutual

/-- The names read or assigned in a statement. A name in an initializer
stands outside the declaration's own scope. -/
def occurrences (scopes : Static) : Stmt → List Occurrence
  | .expression e | .print e | .varDecl _ (some e) => e.names.map (⟨·, scopes⟩)
  | .varDecl _ none => []
  | .block body => bodyOccurrences ([] :: scopes) body
  | .ifThen condition thenBranch =>
    condition.names.map (⟨·, scopes⟩) ++ thenBranch.occurrences scopes
  | .ifElse condition thenBranch elseBranch =>
    condition.names.map (⟨·, scopes⟩) ++ thenBranch.occurrences scopes ++
      elseBranch.occurrences scopes

/-- The names read or assigned in statements that follow each other. -/
def bodyOccurrences (scopes : Static) : List Stmt → List Occurrence
  | [] => []
  | s :: ss => s.occurrences scopes ++ bodyOccurrences (scopes.after s) ss

end

end Stmt

/-! ## What a run looks up -/

section

variable {W : Type}

/-- `e.Reaches m name m'`: evaluating `e` from `m` comes to reading or
assigning `name`, in the machine `m'`. -/
inductive Expr.Reaches : Expr → Machine W → Token → Machine W → Prop
  | grouping {inner m name m'} : Reaches inner m name m' → Reaches (.grouping inner) m name m'
  | unary {operator operand m name m'} : Reaches operand m name m' →
      Reaches (.unary operator operand) m name m'
  | binaryLeft {left operator right m name m'} : Reaches left m name m' →
      Reaches (.binary left operator right) m name m'
  | binaryRight {left operator right m a m₁ name m'} : left.eval m = .ok a m₁ →
      Reaches right m₁ name m' → Reaches (.binary left operator right) m name m'
  | logicalLeft {left operator right m name m'} : Reaches left m name m' →
      Reaches (.logical left operator right) m name m'
  | logicalRight {left operator right m a m₁ name m'} : left.eval m = .ok a m₁ →
      Operator.decides operator a = false → Reaches right m₁ name m' →
      Reaches (.logical left operator right) m name m'
  | var {name m} : Reaches (.var name) m name m
  | value {target value m name m'} : Reaches value m name m' →
      Reaches (.assign target value) m name m'
  | target {target value m v m'} : value.eval m = .ok v m' →
      Reaches (.assign target value) m target m'

/-- A name a run looks up: the scopes around it in the text, the frames of
the blocks around it, innermost first, and the machine at that moment. -/
structure Lookup (W : Type) where
  /-- The name itself. -/
  name : Token
  /-- What the text has declared around it so far. -/
  scopes : Static
  /-- The frame of each block around it. -/
  frames : List Nat
  /-- The machine that looks it up. -/
  machine : Machine W

/-- The frame in which the name is found, if any. -/
def Lookup.found (l : Lookup W) : Option Nat :=
  l.machine.scopes.binder? l.machine.current l.name.lexeme

/-- The frame in which the text says the name is to be found, if any. -/
def Lookup.expected (l : Lookup W) : Option Nat := l.scopes.frame? l.frames l.name.lexeme

variable [Writer W]

mutual

/-- `s.Reaches scopes frames m l`: executing `s` from `m`, inside blocks with
these scopes and frames, comes to the lookup `l`. -/
inductive Stmt.Reaches : Static → List Nat → Stmt → Machine W → Lookup W → Prop
  | expression {scopes frames e m name m'} : e.Reaches m name m' →
      Reaches scopes frames (.expression e) m ⟨name, scopes, frames, m'⟩
  | print {scopes frames e m name m'} : e.Reaches m name m' →
      Reaches scopes frames (.print e) m ⟨name, scopes, frames, m'⟩
  | initializer {scopes frames x e m name m'} : e.Reaches m name m' →
      Reaches scopes frames (.varDecl x (some e)) m ⟨name, scopes, frames, m'⟩
  /-- A block runs in a frame of its own, with nothing declared. -/
  | block {scopes frames body m l} :
      BodyReaches ([] :: scopes) ((m.entering body.length).current :: frames) body
        (m.entering body.length) l →
      Reaches scopes frames (.block body) m l
  | ifThenCondition {scopes frames c s m name m'} : c.Reaches m name m' →
      Reaches scopes frames (.ifThen c s) m ⟨name, scopes, frames, m'⟩
  | ifThenBranch {scopes frames c s m v m₁ l} : c.eval m = .ok v m₁ → v.isTruthy = true →
      Reaches scopes frames s m₁ l → Reaches scopes frames (.ifThen c s) m l
  | ifElseCondition {scopes frames c s s' m name m'} : c.Reaches m name m' →
      Reaches scopes frames (.ifElse c s s') m ⟨name, scopes, frames, m'⟩
  | thenBranch {scopes frames c s s' m v m₁ l} : c.eval m = .ok v m₁ → v.isTruthy = true →
      Reaches scopes frames s m₁ l → Reaches scopes frames (.ifElse c s s') m l
  | elseBranch {scopes frames c s s' m v m₁ l} : c.eval m = .ok v m₁ → v.isTruthy = false →
      Reaches scopes frames s' m₁ l → Reaches scopes frames (.ifElse c s s') m l

/-- The same of statements that follow each other: one is reached if those
before it ended without a fault. -/
inductive Stmt.BodyReaches : Static → List Nat → List Stmt → Machine W → Lookup W → Prop
  | head {scopes frames s ss m l} : Stmt.Reaches scopes frames s m l →
      BodyReaches scopes frames (s :: ss) m l
  | tail {scopes frames s ss m m₁ l} : s.exec m = .ok () m₁ →
      BodyReaches (scopes.after s) frames ss m₁ l → BodyReaches scopes frames (s :: ss) m l

end

/-! ## Lookups stand in the text -/

omit [Writer W] in
theorem Expr.Reaches.mem_names {e : Expr} {m m' : Machine W} {name : Token}
    (h : e.Reaches m name m') : name ∈ e.names := by
  induction h with
  | grouping _ ih | unary _ ih => exact ih
  | binaryLeft _ ih | logicalLeft _ ih => exact List.mem_append_left _ ih
  | binaryRight _ _ ih | logicalRight _ _ _ ih => exact List.mem_append_right _ ih
  | var => exact List.mem_singleton_self _
  | value _ ih => exact List.mem_cons_of_mem _ ih
  | target => exact List.mem_cons_self

omit [Writer W] in
theorem Expr.Reaches.mem_map_names {e : Expr} {m m' : Machine W} {name : Token}
    (h : e.Reaches m name m') (scopes : Static) :
    ⟨name, scopes⟩ ∈ e.names.map (Occurrence.mk · scopes) :=
  List.mem_map_of_mem h.mem_names

namespace Stmt

mutual

theorem Reaches.mem_occurrences : ∀ {scopes : Static} {frames : List Nat} {s : Stmt}
    {m : Machine W} {l : Lookup W}, s.Reaches scopes frames m l →
    ⟨l.name, l.scopes⟩ ∈ s.occurrences scopes
  | _, _, _, _, _, .expression h | _, _, _, _, _, .print h | _, _, _, _, _, .initializer h => by
    rw [occurrences]
    exact h.mem_map_names _
  | _, _, _, _, _, .block h => by
    rw [occurrences]
    exact h.mem_occurrences
  | _, _, _, _, _, .ifThenCondition h => by
    rw [occurrences]
    exact List.mem_append_left _ (h.mem_map_names _)
  | _, _, _, _, _, .ifThenBranch _ _ h => by
    rw [occurrences]
    exact List.mem_append_right _ h.mem_occurrences
  | _, _, _, _, _, .ifElseCondition h => by
    rw [occurrences]
    exact List.mem_append_left _ (List.mem_append_left _ (h.mem_map_names _))
  | _, _, _, _, _, .thenBranch _ _ h => by
    rw [occurrences]
    exact List.mem_append_left _ (List.mem_append_right _ h.mem_occurrences)
  | _, _, _, _, _, .elseBranch _ _ h => by
    rw [occurrences]
    exact List.mem_append_right _ h.mem_occurrences

/-- A name that is looked up stands in the text, with the same scopes. -/
theorem BodyReaches.mem_occurrences : ∀ {scopes : Static} {frames : List Nat} {ss : List Stmt}
    {m : Machine W} {l : Lookup W}, BodyReaches scopes frames ss m l →
    ⟨l.name, l.scopes⟩ ∈ bodyOccurrences scopes ss
  | _, _, _, _, _, .head h => by
    rw [bodyOccurrences]
    exact List.mem_append_left _ h.mem_occurrences
  | _, _, _, _, _, .tail _ h => by
    rw [bodyOccurrences]
    exact List.mem_append_right _ h.mem_occurrences

end

end Stmt

end

end Lox

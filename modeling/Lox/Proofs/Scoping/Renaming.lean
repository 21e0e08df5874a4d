/-
Names have no meaning beyond their identity. Renaming every name of some
statements, and every name bound in the frames they run in, changes no more
than the names: the run prints the same, ends the same way, with the name in
its fault renamed, and leaves the renamed frames
(`Machine.interpret_renamed`).

The renaming must keep different names apart. Then it passes through each
operation on scopes, and from there through every run (`Run.Renames`).
-/
import Lox.Proofs.Machine.Run
import Mathlib.Control.Monad.Basic
import Mathlib.Logic.Equiv.Basic

namespace Lox

/-! ## Other names -/

/-- A name token with another name. -/
def Token.rename (r : String → String) (t : Token) : Token := { t with lexeme := r t.lexeme }

/-- The names read and assigned are renamed; operators keep their text. -/
def Expr.rename (r : String → String) : Expr → Expr
  | .literal value => .literal value
  | .grouping inner => .grouping (inner.rename r)
  | .unary operator operand => .unary operator (operand.rename r)
  | .binary left operator right => .binary (left.rename r) operator (right.rename r)
  | .logical left operator right => .logical (left.rename r) operator (right.rename r)
  | .var name => .var (name.rename r)
  | .assign name value => .assign (name.rename r) (value.rename r)

namespace Stmt

mutual

/-- Every name in the statement is renamed, declared ones too. -/
def rename (r : String → String) : Stmt → Stmt
  | .expression e => .expression (e.rename r)
  | .print e => .print (e.rename r)
  | .varDecl name initializer => .varDecl (name.rename r) (initializer.map (Expr.rename r))
  | .block body => .block (renameBody r body)
  | .ifThen condition thenBranch => .ifThen (condition.rename r) (thenBranch.rename r)
  | .ifElse condition thenBranch elseBranch =>
    .ifElse (condition.rename r) (thenBranch.rename r) (elseBranch.rename r)

/-- The same of statements one after another. -/
def renameBody (r : String → String) : List Stmt → List Stmt
  | [] => []
  | s :: ss => s.rename r :: renameBody r ss

end

theorem length_renameBody (r : String → String) (ss : List Stmt) :
    (renameBody r ss).length = ss.length := by
  induction ss with
  | nil => rw [renameBody]
  | cons s ss ih => rw [renameBody, List.length_cons, List.length_cons, ih]

end Stmt

/-- The fault of another name, if it is about one. -/
def RuntimeError.rename (r : String → String) : RuntimeError → RuntimeError
  | .undefinedVariable name line => .undefinedVariable (r name) line
  | e => e

/-- Operators name no variable in their faults. -/
theorem Operator.unary_rename (r : String → String) {operator : Token} {v : Value}
    {e : RuntimeError} (h : unary operator v = .error e) : e.rename r = e := by
  rcases unary_eq_error h with rfl | ⟨rfl, -⟩ <;> rfl

theorem Operator.binary_rename (r : String → String) {a b : Value} {operator : Token}
    {e : RuntimeError} (h : binary a operator b = .error e) : e.rename r = e := by
  rcases binary_eq_error h with rfl | rfl | ⟨rfl, -⟩ <;> rfl

/-- The same values under other names. -/
def Bindings.rename (r : String → String) (b : Bindings) : Bindings :=
  b.map fun (name, value) => (r name, value)

/-- The frame with every bound name renamed. -/
def Frame.rename (r : String → String) (f : Frame) : Frame :=
  { f with bindings := f.bindings.rename r }

/-- Every bound name renamed, the frames linked as they were. -/
def Scopes.rename (r : String → String) (s : Scopes) : Scopes :=
  ⟨s.frames.map (Frame.rename r), by
    intro i f e hf he
    rw [List.getElem?_map] at hf
    obtain ⟨g, hg, rfl⟩ := Option.map_eq_some_iff.mp hf
    exact s.linked i g e hg he⟩

/-- The machine with every bound name renamed. -/
def Machine.rename {W : Type} (r : String → String) (m : Machine W) : Machine W :=
  { m with scopes := m.scopes.rename r }

section Injective

variable {r : String → String} (hr : Function.Injective r)

/-! ## Scopes -/

namespace Bindings

include hr

theorem lookup_rename (x : String) (b : Bindings) : (b.rename r).lookup (r x) = b.lookup x := by
  induction b with
  | nil => rfl
  | cons p rest ih =>
    obtain ⟨n, v⟩ := p
    have hsame : (r x == r n) = (x == n) := by
      rw [Bool.eq_iff_iff, beq_iff_eq, beq_iff_eq, hr.eq_iff]
    simp only [rename] at ih
    simp only [rename, List.map_cons, List.lookup_cons, hsame, ih]

theorem insert_rename (x : String) (v : Value) (b : Bindings) :
    (b.rename r).insert (r x) v = (b.insert x v).rename r := by
  induction b with
  | nil => rfl
  | cons p rest ih =>
    obtain ⟨n, w⟩ := p
    simp only [rename, List.map_cons, insert, hr.eq_iff] at ih ⊢
    by_cases h : n = x
    · simp only [h, if_true, List.map_cons]
    · simp only [h, if_false, List.map_cons, ih]

end Bindings

namespace Scopes

theorem enclosing?_rename (r : String → String) (s : Scopes) (i : Nat) :
    (s.rename r).enclosing? i = s.enclosing? i := by
  simp only [enclosing?, rename, List.getElem?_map]
  cases s.frames[i]? <;> rfl

theorem chain_rename (r : String → String) (s : Scopes) (i : Nat) :
    (s.rename r).chain i = s.chain i :=
  chain_congr fun j _ => enclosing?_rename r s j

/-- Frames are made with nothing bound, so there is nothing to rename. -/
theorem nest_rename (r : String → String) (s : Scopes) (i : Nat) :
    (s.rename r).nest i = ((s.nest i).1.rename r, (s.nest i).2) := by
  by_cases h : i < s.frames.length
  · simp [nest, rename, h, Frame.rename, Bindings.rename]
  · simp [nest, fresh, rename, h, Frame.rename, Bindings.rename]

include hr

theorem local?_rename (s : Scopes) (x : String) (i : Nat) :
    (s.rename r).local? (r x) i = s.local? x i := by
  simp only [local?, rename, List.getElem?_map]
  cases s.frames[i]? with
  | none => rfl
  | some f => exact Bindings.lookup_rename hr x f.bindings

theorem binder?_rename (s : Scopes) (i : Nat) (x : String) :
    (s.rename r).binder? i (r x) = s.binder? i x := by
  simp only [binder?, chain_rename, local?_rename hr]

theorem get_rename (s : Scopes) (i : Nat) (x : String) (line : Nat) :
    (s.rename r).get i (r x) line = (s.get i x line).mapError (RuntimeError.rename r) := by
  have hget : (s.rename r).get? i (r x) = s.get? i x := by
    rw [get?_eq, get?_eq, binder?_rename hr]
    cases s.binder? i x with
    | none => rfl
    | some j => exact local?_rename hr s x j
  rw [get, get, hget]
  cases s.get? i x <;> rfl

theorem define_rename (s : Scopes) (i : Nat) (x : String) (v : Value) :
    (s.rename r).define i (r x) v = (s.define i x v).rename r := by
  simp only [define, rename, mk.injEq]
  refine List.ext_getElem? fun j => ?_
  simp only [List.getElem?_modify, List.getElem?_map, Option.map_eq_map, Option.map_map]
  congr 1
  funext f
  by_cases h : i = j
  · simp only [h, Function.comp_apply, if_true, Frame.define, Frame.rename,
      Bindings.insert_rename hr]
  · simp only [h, Function.comp_apply, if_false]

theorem assign?_rename (s : Scopes) (i : Nat) (x : String) (v : Value) :
    (s.rename r).assign? i (r x) v = (s.assign? i x v).map (rename r) := by
  rw [assign?_eq, assign?_eq, binder?_rename hr]
  cases s.binder? i x with
  | none => rfl
  | some j => exact congrArg some (define_rename hr s j x v)

end Scopes

/-! ## Runs -/

variable {W : Type}

namespace Run

variable {α β : Type}

/-- How a run ends under other names. -/
def endRename (r : String → String) :
    EStateM.Result RuntimeError (Machine W) α → EStateM.Result RuntimeError (Machine W) α
  | .ok a m => .ok a (m.rename r)
  | .error e m => .error (e.rename r) (m.rename r)

/-- From a renamed machine, `y` does what `x` does from the machine. -/
def Renames (r : String → String) (x y : Run W α) : Prop :=
  ∀ m : Machine W, y (m.rename r) = endRename r (x m)

theorem Renames.bind {x y : Run W α} {f g : α → Run W β} (hxy : Renames r x y)
    (hfg : ∀ a, Renames r (f a) (g a)) : Renames r (x >>= f) (y >>= g) := by
  intro m
  change EStateM.bind y g (m.rename r) = endRename r (EStateM.bind x f m)
  unfold EStateM.bind
  rw [hxy m]
  cases x m with
  | ok a m₁ => exact hfg a m₁
  | error e m₁ => rfl

theorem renames_pure (a : α) : Renames (W := W) r (pure a) (pure a) := fun _ => rfl

theorem renames_ofExcept {x : Except RuntimeError α}
    (h : ∀ e, x = .error e → e.rename r = e) :
    Renames (W := W) r (ofExcept x) (ofExcept x) := by
  intro m
  cases x with
  | ok a => rfl
  | error e =>
    change EStateM.Result.error e (m.rename r) = .error (e.rename r) (m.rename r)
    rw [h e rfl]

/-- What the sink takes does not hang on names, nor does its refusal. -/
theorem renames_onSink (operation : W → Option String × W) :
    Renames r (onSink operation) (onSink operation) := by
  intro m
  simp only [onSink, Machine.rename]
  rcases operation m.sink with ⟨_ | cause, sink⟩ <;> rfl

theorem Renames.inBlock {x y : Run W Unit} (h : Renames r x y) (count : Nat) :
    Renames r (inBlock count x) (inBlock count y) := by
  intro m
  have hentering : (m.rename r).entering count = (m.entering count).rename r := by
    simp only [Machine.entering, Machine.rename, Scopes.nest_rename]
  rw [inBlock_apply, inBlock_apply, hentering, h]
  cases x (m.entering count) <;> rfl

include hr

theorem renames_lookup (name : Token) :
    Renames (W := W) r (lookup name) (lookup (name.rename r)) := by
  intro m
  simp only [lookup, Machine.rename, Token.rename, Scopes.get_rename hr]
  cases m.scopes.get m.current name.lexeme name.line <;> rfl

theorem renames_assign (name : Token) (value : Value) :
    Renames (W := W) r (assign name value) (assign (name.rename r) value) := by
  intro m
  simp only [assign, Scopes.assign, Machine.rename, Token.rename, Scopes.assign?_rename hr]
  cases m.scopes.assign? m.current name.lexeme value <;> rfl

theorem renames_define (name : Token) (value : Value) :
    Renames (W := W) r (define name value) (define (name.rename r) value) := by
  intro m
  simp only [define, Machine.rename, Token.rename, Scopes.define_rename hr]
  rfl

end Run

/-! ## Trees -/

open Run

include hr in
theorem Expr.eval_rename (e : Expr) : Renames (W := W) r e.eval (e.rename r).eval := by
  induction e with
  | literal value =>
    rw [rename, eval]
    exact renames_pure value
  | grouping inner ih =>
    rw [rename, eval, eval]
    exact ih
  | unary operator operand ih =>
    rw [rename, eval, eval]
    exact ih.bind fun v => renames_ofExcept fun e he => Operator.unary_rename r he
  | binary left operator right ihleft ihright =>
    rw [rename, eval, eval]
    exact ihleft.bind fun a => ihright.bind fun b =>
      renames_ofExcept fun e he => Operator.binary_rename r he
  | logical left operator right ihleft ihright =>
    rw [rename, eval, eval]
    refine ihleft.bind fun a => ?_
    split
    · exact renames_pure a
    · exact ihright
  | var name =>
    rw [rename, eval, eval]
    exact renames_lookup hr name
  | assign name value ih =>
    rw [rename, eval, eval]
    exact ih.bind fun v => (renames_assign hr name v).bind fun _ => renames_pure v

variable [Writer W]

namespace Stmt

mutual

theorem exec_rename (hr : Function.Injective r) : ∀ s : Stmt,
    Renames (W := W) r s.exec (s.rename r).exec
  | .expression e => by
    rw [rename, exec, exec]
    exact (e.eval_rename hr).bind fun _ => renames_pure ()
  | .print e => by
    rw [rename, exec, exec]
    exact (e.eval_rename hr).bind fun v => renames_onSink _
  | .varDecl name none => by
    rw [rename, Option.map_none, exec, exec]
    exact renames_define hr name .nil
  | .varDecl name (some e) => by
    rw [rename, Option.map_some, exec, exec]
    exact (e.eval_rename hr).bind (renames_define hr name)
  | .block body => by
    rw [rename, exec, exec, length_renameBody]
    exact (execAll_rename hr body).inBlock body.length
  | .ifThen condition thenBranch => by
    rw [rename, exec, exec]
    refine (condition.eval_rename hr).bind fun v => ?_
    split
    · exact exec_rename hr thenBranch
    · exact renames_pure ()
  | .ifElse condition thenBranch elseBranch => by
    rw [rename, exec, exec]
    refine (condition.eval_rename hr).bind fun v => ?_
    split
    · exact exec_rename hr thenBranch
    · exact exec_rename hr elseBranch

theorem execAll_rename (hr : Function.Injective r) : ∀ ss : List Stmt,
    Renames (W := W) r (execAll ss) (execAll (renameBody r ss))
  | [] => by
    rw [renameBody, execAll]
    exact renames_pure ()
  | s :: ss => by
    rw [renameBody, execAll, execAll]
    exact (exec_rename hr s).bind fun _ => execAll_rename hr ss

end

theorem interpret_rename (hr : Function.Injective r) (ss : List Stmt) :
    Renames (W := W) r (interpret ss) (interpret (renameBody r ss)) := by
  rw [interpret, interpret]
  exact (execAll_rename hr ss).bind fun _ => renames_onSink Writer.flush

end Stmt

/-! ## Programs -/

namespace Machine

/-- **Names mean nothing but themselves.** Let `r` give different names
different names. From a machine with every bound name renamed by `r`, the
statements with every name renamed by `r` end as the statements do from the
machine itself, an undefined name in their fault renamed. Whatever they print
to, it is left the same, with the same bytes printed and flushed as often; the
same frame is current, and the frames are those of the original run with every
bound name renamed. -/
theorem interpret_renamed (hr : Function.Injective r) (m : Machine W) (ss : List Stmt) :
    ((m.rename r).interpret (Stmt.renameBody r ss)).1 =
        (m.interpret ss).1.mapError (RuntimeError.rename r) ∧
      ((m.rename r).interpret (Stmt.renameBody r ss)).2.sink = (m.interpret ss).2.sink ∧
      ((m.rename r).interpret (Stmt.renameBody r ss)).2.current = (m.interpret ss).2.current ∧
      ((m.rename r).interpret (Stmt.renameBody r ss)).2.scopes =
        (m.interpret ss).2.scopes.rename r := by
  have hends := Stmt.interpret_rename hr ss m
  unfold interpret
  rw [hends]
  cases Stmt.interpret ss m with
  | ok _ m' => exact ⟨rfl, rfl, rfl, rfl⟩
  | error e m' => exact ⟨rfl, rfl, rfl, rfl⟩

/-- A name declared twice, in a block and around it, and one that is not
declared at all. -/
def shadowing : List Stmt :=
  let a : Token := ⟨.identifier, "a", none, 1⟩
  let inner : Token := ⟨.identifier, "a", none, 2⟩
  let c : Token := ⟨.identifier, "c", none, 3⟩
  [.varDecl a (some (.literal (.bool true))), .block [.varDecl inner none, .print (.var inner)],
    .print (.var a), .print (.var c)]

/-- With the two names exchanged, the other one is undefined. -/
theorem interpret_renamed_of_swap :
    let r : String → String := Equiv.swap "a" "c"
    let m := initial Sink.unlimited
    let renamed := (m.rename r).interpret (Stmt.renameBody r shadowing)
    Function.Injective r ∧ (m.interpret shadowing).1 = .error (.undefinedVariable "c" 3) ∧
      renamed.1 = .error (.undefinedVariable "a" 3) ∧
      renamed.2.sink.stored = utf8 "nil\ntrue\n" ∧
      renamed.2.scopes.local? "c" 0 = some (.bool true) ∧
      renamed.2.scopes.local? "a" 0 = none := by
  intro r m renamed
  have hr : Function.Injective r := (Equiv.swap "a" "c").injective
  obtain ⟨hresult, hsink, -, hscopes⟩ := interpret_renamed hr m shadowing
  refine ⟨hr, by decide +kernel, hresult.trans (by decide +kernel), ?_, ?_, ?_⟩
  · exact (congrArg Sink.stored hsink).trans (by decide +kernel)
  · exact (congrArg (Scopes.local? · "c" 0) hscopes).trans (by decide +kernel)
  · exact (congrArg (Scopes.local? · "a" 0) hscopes).trans (by decide +kernel)

end Machine

end Injective

end Lox

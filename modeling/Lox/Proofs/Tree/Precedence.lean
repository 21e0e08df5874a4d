/-
Precedence in trees. Reading joins operands level by level, from the loosest
operators to the tightest, and this can be seen from the tree alone: each node
holds operands that bind as tightly as its operator asks (`Expr.Ranked`), an
assignment is nobody's operand, no declaration stands directly under an `if`,
and what names a variable is a name (`Stmt.Proper`).

The statements read are derived from some of the tokens, whatever was reported
of the others, so this holds of all of them (`Program.statements_ranked`).
-/
import Lox.Proofs.Machine.Supported
import Lox.Proofs.Scoping.Agreement

namespace Lox

/-! ## How tightly expressions bind -/

/-- The place of a level in the order from loosest to tightest. -/
def Level.rank : Level → Nat
  | .or => 0
  | .and => 1
  | .equality => 2
  | .comparison => 3
  | .term => 4
  | .factor => 5

namespace Expr

/-- A single operand, with its signs: it binds tighter than any level. -/
def Single : Expr → Prop
  | .unary _ _ | .literal _ | .var _ | .grouping _ => True
  | _ => False

/-- The expression is a single operand, or joins two at the place `rank` or
further on in the order of levels. -/
def Binds (rank : Nat) : Expr → Prop
  | .binary _ operator _ | .logical _ operator _ =>
    ∃ level : Level, level.Terminal operator.kind ∧ rank ≤ level.rank
  | e => e.Single

/-- The operator is one of the level and of no other, what stands before it
binds as tightly as the level or tighter, and what stands after it tighter. -/
structure Joins (level : Level) (left : Expr) (operator : Token) (right : Expr) : Prop where
  kind : level.Terminal operator.kind
  only : ∀ level' : Level, level'.Terminal operator.kind → level' = level
  before : left.Binds level.rank
  after : right.Binds (level.rank + 1)

/-- The operator of a node fits its form and its operands, and what names a
variable is a name. -/
def Ranked : Expr → Prop
  | .unary operator operand => (operator.kind = .bang ∨ operator.kind = .minus) ∧ operand.Single
  | .binary left operator right =>
    ∃ level, Joins level left operator right ∧ level ≠ .or ∧ level ≠ .and
  | .logical left operator right =>
    ∃ level, Joins level left operator right ∧ (level = .or ∨ level = .and)
  | .var name | .assign name _ => name.kind = .identifier
  | .literal _ | .grouping _ => True

/-- The expressions that the operator of a node is applied to. The others that
a node holds, in parentheses or to be assigned, stand for themselves. -/
def operands : Expr → List Expr
  | .unary _ operand => [operand]
  | .binary left _ right | .logical left _ right => [left, right]
  | _ => []

theorem Single.binds {e : Expr} (h : e.Single) (rank : Nat) : e.Binds rank := by
  cases e with
  | binary | logical => cases h
  | _ => exact h

theorem Binds.mono {e : Expr} {rank rank' : Nat} (h : e.Binds rank') (hle : rank ≤ rank') :
    e.Binds rank := by
  cases e with
  | binary | logical =>
    obtain ⟨level, hoperator, hrank⟩ := h
    exact ⟨level, hoperator, Nat.le_trans hle hrank⟩
  | _ => exact h

theorem Binds.ne_assign {e : Expr} {rank : Nat} (h : e.Binds rank) (name : Token) (value : Expr) :
    e ≠ .assign name value := by
  rintro rfl
  exact h

/-- No operand of a node that fits is an assignment. -/
theorem Ranked.operands_ne_assign {e : Expr} (h : e.Ranked) :
    ∀ operand ∈ e.operands, ∀ name value, operand ≠ .assign name value := by
  intro operand hoperand
  cases e with
  | unary operator e =>
    rw [List.mem_singleton.mp hoperand]
    exact (h.2.binds 0).ne_assign
  | binary left operator right | logical left operator right =>
    obtain ⟨level, hjoins, -⟩ := h
    simp only [operands, List.mem_cons, List.not_mem_nil, or_false] at hoperand
    rcases hoperand with rfl | rfl
    · exact hjoins.before.ne_assign
    · exact hjoins.after.ne_assign
  | literal | grouping | var | assign => cases hoperand

end Expr

/-- What binds tightly enough to be derived from a rule. -/
def Rule.Admits : Rule → Expr → Prop
  | .assignment, _ => True
  | .level l, e => e.Binds l.rank
  | .unary, e | .primary, e => e.Single

theorem Level.binds_of_operand {level : Level} {e : Expr} (h : level.operand.Admits e) :
    e.Binds (level.rank + 1) := by
  cases level with
  | factor => exact h.binds _
  | _ => exact h

theorem Level.Node.binds {level : Level} {node : Expr → Token → Expr → Expr} {operator : Token}
    (hnode : level.Node node) (h : level.Terminal operator.kind) (left right : Expr) :
    (node left operator right).Binds level.rank := by
  cases hnode <;> exact ⟨_, h, Nat.le_refl _⟩

theorem Level.Node.ranked {level : Level} {node : Expr → Token → Expr → Expr} {left right : Expr}
    {operator : Token} (hnode : level.Node node) (h : Expr.Joins level left operator right) :
    (node left operator right).Ranked := by
  cases hnode with
  | or => exact ⟨.or, h, .inl rfl⟩
  | and => exact ⟨.and, h, .inr rfl⟩
  | equality | comparison | term | factor => exact ⟨_, h, by decide, by decide⟩

namespace Grammar

/-- What is derived from a rule binds as tightly as the rule asks. -/
theorem Derives.admits {rule : Rule} {ts : List Token} {e : Expr} (h : Derives rule ts e) :
    rule.Admits e := by
  induction h with
  | assign | unassigned => trivial
  | operand _ ih => exact (Level.binds_of_operand ih).mono (Nat.le_succ _)
  | join _ hoperator hnode => exact hnode.binds hoperator _ _
  | unsigned _ ih => exact ih
  | sign | number | string | kwTrue | kwFalse | kwNil | name | group => trivial

/-- Every node of what is derived fits. -/
theorem Derives.ranked {rule : Rule} {ts : List Token} {e : Expr} (h : Derives rule ts e) :
    ∀ node ∈ e.nodes, node.Ranked := by
  induction h with
  | assign hname _ _ ih => exact List.forall_mem_cons.mpr ⟨hname, ih⟩
  | group _ _ _ ih => exact List.forall_mem_cons.mpr ⟨trivial, ih⟩
  | unassigned _ ih | operand _ ih | unsigned _ ih => exact ih
  | join hleft hoperator hnode hright ihleft ihright =>
    have hjoins := hnode.ranked ⟨hoperator, fun _ hoperator' => hoperator'.level_eq hoperator,
      hleft.admits, Level.binds_of_operand hright.admits⟩
    rw [nodes_join hnode]
    exact List.forall_mem_cons.mpr ⟨hjoins, List.forall_mem_append.mpr ⟨ihleft, ihright⟩⟩
  | sign hsign hoperand ih => exact List.forall_mem_cons.mpr ⟨⟨hsign, hoperand.admits⟩, ih⟩
  | name hname => exact List.forall_mem_singleton.mpr hname
  | number | string | kwTrue | kwFalse | kwNil => exact List.forall_mem_singleton.mpr trivial

end Grammar

/-! ## Statements -/

namespace Stmt

mutual

/-- A statement and those in it, at any depth. -/
def parts : Stmt → List Stmt
  | .expression e => [.expression e]
  | .print e => [.print e]
  | .varDecl name initializer => [.varDecl name initializer]
  | .block body => .block body :: bodyParts body
  | .ifThen condition thenBranch => .ifThen condition thenBranch :: thenBranch.parts
  | .ifElse condition thenBranch elseBranch =>
    .ifElse condition thenBranch elseBranch :: (thenBranch.parts ++ elseBranch.parts)

/-- The same of statements one after another. -/
def bodyParts : List Stmt → List Stmt
  | [] => []
  | s :: ss => s.parts ++ bodyParts ss

end

/-- What is declared is a name, and no branch is a declaration. -/
def Proper : Stmt → Prop
  | .varDecl name _ => name.kind = .identifier
  | .ifThen _ thenBranch => thenBranch.isDeclaration = false
  | .ifElse _ thenBranch elseBranch =>
    thenBranch.isDeclaration = false ∧ elseBranch.isDeclaration = false
  | _ => True

end Stmt

namespace Grammar

mutual

theorem DerivesStatement.proper : ∀ {ts : List Token} {s : Stmt}, DerivesStatement ts s →
    ∀ part ∈ s.parts, part.Proper
  | _, _, .ifThen _ _ _ _ hs => by
    rw [Stmt.parts]
    exact List.forall_mem_cons.mpr ⟨hs.not_isDeclaration, hs.proper⟩
  | _, _, .ifElse _ _ _ _ hs _ hs' => by
    rw [Stmt.parts]
    exact List.forall_mem_cons.mpr ⟨⟨hs.not_isDeclaration, hs'.not_isDeclaration⟩,
      List.forall_mem_append.mpr ⟨hs.proper, hs'.proper⟩⟩
  | _, _, .print _ _ _ | _, _, .expression _ _ => by
    rw [Stmt.parts]
    exact List.forall_mem_singleton.mpr trivial
  | _, _, .block _ hbody _ => by
    rw [Stmt.parts]
    exact List.forall_mem_cons.mpr ⟨trivial, hbody.proper⟩

theorem DerivesDeclaration.proper : ∀ {ts : List Token} {s : Stmt}, DerivesDeclaration ts s →
    ∀ part ∈ s.parts, part.Proper
  | _, _, .bare _ hname _ | _, _, .initialized _ hname _ _ _ => by
    rw [Stmt.parts]
    exact List.forall_mem_singleton.mpr hname
  | _, _, .statement hs => hs.proper

theorem DerivesBody.proper : ∀ {ts : List Token} {ss : List Stmt}, DerivesBody ts ss →
    ∀ part ∈ Stmt.bodyParts ss, part.Proper
  | _, _, .nil => by
    rw [Stmt.bodyParts]
    exact List.forall_mem_nil _
  | _, _, .cons hd hbody => by
    rw [Stmt.bodyParts]
    exact List.forall_mem_append.mpr ⟨hd.proper, hbody.proper⟩

end

end Grammar

/-- **Every tree that is read respects precedence.** For every token sequence,
whatever is reported of it, and at any depth of the statements read: the
operator of each node is one of a single level, or a sign, and its operands
bind as tightly as it asks; none of them is an assignment, which is so always
a whole expression; names are names; and no branch of an `if` is a
declaration. -/
theorem Program.statements_ranked (tokens : List Token) :
    (∀ node ∈ Stmt.bodyNodes (ofTokens tokens).statements,
      node.Ranked ∧ ∀ operand ∈ node.operands, ∀ name value, operand ≠ .assign name value) ∧
    ∀ s ∈ Stmt.bodyParts (ofTokens tokens).statements, s.Proper := by
  obtain ⟨us, -, hderives, -⟩ := exists_derives tokens
  have hranked : ∀ node ∈ Stmt.bodyNodes (ofTokens tokens).statements, node.Ranked :=
    hderives.forall_nodes fun _ _ he => he.ranked
  exact ⟨fun node hnode => ⟨hranked node hnode, (hranked node hnode).operands_ne_assign⟩,
    hderives.proper⟩

end Lox

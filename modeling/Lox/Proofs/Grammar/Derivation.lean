/-
The grammar as a relation between tokens and trees, with no reading order:
`Derives rule ts e` says that the tokens `ts`, all of them, follow from a
rule for expressions with the tree `e`, and likewise for statements,
declarations and runs of declarations. The operators of each level and the node
that they make are listed one by one (`Level.Terminal`, `Level.Node`), apart
from the table that reading goes by; `Level.terminal_iff` and
`Level.Node.eq_join` say that the two agree.

The rules leave open which `if` an `else` belongs to. A tree in which every
`else` belongs to the nearest `if` that can take it is told apart by
`Stmt.elseNearest`.
-/
import Lox.Grammar.Program

namespace Lox

/-- The rules for expressions, from loosest to tightest. -/
inductive Rule where
  | assignment
  | level (level : Level)
  | unary
  | primary
deriving DecidableEq

namespace Level

/-- The rule for the operands of a level. -/
def operand : Level → Rule
  | .or => .level .and
  | .and => .level .equality
  | .equality => .level .comparison
  | .comparison => .level .term
  | .term => .level .factor
  | .factor => .unary

/-- The terminals that stand between the operands of each level. -/
inductive Terminal : Level → Token.Kind → Prop
  | or : Terminal .or .kwOr
  | and : Terminal .and .kwAnd
  | bangEqual : Terminal .equality .bangEqual
  | equalEqual : Terminal .equality .equalEqual
  | greater : Terminal .comparison .greater
  | greaterEqual : Terminal .comparison .greaterEqual
  | less : Terminal .comparison .less
  | lessEqual : Terminal .comparison .lessEqual
  | minus : Terminal .term .minus
  | plus : Terminal .term .plus
  | slash : Terminal .factor .slash
  | star : Terminal .factor .star

/-- The node that joins the operands of each level: `or` and `and` may leave
their right operand alone, and have a node of their own. -/
inductive Node : Level → (Expr → Token → Expr → Expr) → Prop
  | or : Node .or .logical
  | and : Node .and .logical
  | equality : Node .equality .binary
  | comparison : Node .comparison .binary
  | term : Node .term .binary
  | factor : Node .factor .binary

variable {level : Level} {kind : Token.Kind}

theorem Terminal.mem_operators (h : level.Terminal kind) : kind ∈ level.operators := by
  cases h <;> decide

/-- Reading goes by the same operators. -/
theorem terminal_iff : level.Terminal kind ↔ kind ∈ level.operators := by
  constructor
  · exact Terminal.mem_operators
  · intro h
    cases level <;> simp only [operators, List.mem_cons, List.not_mem_nil, or_false] at h
    case or | and =>
      subst h
      constructor
    case equality | term | factor => rcases h with rfl | rfl <;> constructor
    case comparison => rcases h with rfl | rfl | rfl | rfl <;> constructor

/-- An operator belongs to one level. -/
theorem Terminal.level_eq {level' : Level} (h : level.Terminal kind) (h' : level'.Terminal kind) :
    level = level' := by
  cases h <;> cases h' <;> rfl

theorem node_join (level : Level) : level.Node level.join := by
  cases level <;> constructor

/-- Reading makes the same nodes. -/
theorem Node.eq_join {node : Expr → Token → Expr → Expr} (h : level.Node node) :
    node = level.join := by
  cases h <;> rfl

end Level

namespace Grammar

/-- Tokens that follow from a rule for expressions, with their tree. -/
inductive Derives : Rule → List Token → Expr → Prop
  /-- `assignment → IDENTIFIER "=" assignment` -/
  | assign {name equals ts value} : name.kind = .identifier → equals.kind = .equal →
      Derives .assignment ts value →
      Derives .assignment (name :: equals :: ts) (.assign name value)
  /-- `assignment → or` -/
  | unassigned {ts e} : Derives (.level .or) ts e → Derives .assignment ts e
  /-- `or → and`, `and → equality` and so on: no operator of the level. -/
  | operand {level ts e} : Derives level.operand ts e → Derives (.level level) ts e
  /-- `or → and ( "or" and )*` and its siblings, the last operator and its
  operand taken off: what stands before them is the left operand. -/
  | join {level node us left operator vs right} : Derives (.level level) us left →
      level.Terminal operator.kind → level.Node node → Derives level.operand vs right →
      Derives (.level level) (us ++ operator :: vs) (node left operator right)
  /-- `unary → ( "!" | "-" ) unary` -/
  | sign {operator ts e} : operator.kind = .bang ∨ operator.kind = .minus → Derives .unary ts e →
      Derives .unary (operator :: ts) (.unary operator e)
  /-- `unary → primary` -/
  | unsigned {ts e} : Derives .primary ts e → Derives .unary ts e
  | number {t n} : t.kind = .number → t.literal = some (.number n) →
      Derives .primary [t] (.literal (.number n))
  | string {t s} : t.kind = .string → t.literal = some (.text s) →
      Derives .primary [t] (.literal (.text s))
  | kwTrue {t} : t.kind = .kwTrue → Derives .primary [t] (.literal (.bool true))
  | kwFalse {t} : t.kind = .kwFalse → Derives .primary [t] (.literal (.bool false))
  | kwNil {t} : t.kind = .kwNil → Derives .primary [t] (.literal .nil)
  | name {t} : t.kind = .identifier → Derives .primary [t] (.var t)
  /-- `primary → "(" expression ")"` -/
  | group {left ts right e} : left.kind = .leftParen → Derives .assignment ts e →
      right.kind = .rightParen → Derives .primary (left :: ts ++ [right]) (.grouping e)

mutual

/-- Tokens that are a statement. -/
inductive DerivesStatement : List Token → Stmt → Prop
  /-- `ifStmt → "if" "(" expression ")" statement` -/
  | ifThen {t left cs right ts c s} : t.kind = .kwIf → left.kind = .leftParen →
      Derives .assignment cs c → right.kind = .rightParen → DerivesStatement ts s →
      DerivesStatement (t :: left :: cs ++ right :: ts) (.ifThen c s)
  /-- `ifStmt → "if" "(" expression ")" statement "else" statement` -/
  | ifElse {t left cs right ts e us c s s'} : t.kind = .kwIf → left.kind = .leftParen →
      Derives .assignment cs c → right.kind = .rightParen → DerivesStatement ts s →
      e.kind = .kwElse → DerivesStatement us s' →
      DerivesStatement (t :: left :: cs ++ right :: ts ++ e :: us) (.ifElse c s s')
  /-- `printStmt → "print" expression ";"` -/
  | print {t ts semi e} : t.kind = .kwPrint → Derives .assignment ts e → semi.kind = .semicolon →
      DerivesStatement (t :: ts ++ [semi]) (.print e)
  /-- `block → left brace, declaration*, right brace` -/
  | block {left ts right ss} : left.kind = .leftBrace → DerivesBody ts ss →
      right.kind = .rightBrace → DerivesStatement (left :: ts ++ [right]) (.block ss)
  /-- `exprStmt → expression ";"` -/
  | expression {ts semi e} : Derives .assignment ts e → semi.kind = .semicolon →
      DerivesStatement (ts ++ [semi]) (.expression e)

/-- Tokens that are a declaration. -/
inductive DerivesDeclaration : List Token → Stmt → Prop
  /-- `varDecl → "var" IDENTIFIER ";"` -/
  | bare {t name semi} : t.kind = .kwVar → name.kind = .identifier → semi.kind = .semicolon →
      DerivesDeclaration [t, name, semi] (.varDecl name none)
  /-- `varDecl → "var" IDENTIFIER "=" expression ";"` -/
  | initialized {t name equals ts semi e} : t.kind = .kwVar → name.kind = .identifier →
      equals.kind = .equal → Derives .assignment ts e → semi.kind = .semicolon →
      DerivesDeclaration (t :: name :: equals :: ts ++ [semi]) (.varDecl name (some e))
  | statement {ts s} : DerivesStatement ts s → DerivesDeclaration ts s

/-- Tokens that are any number of declarations, one after another; those of
a whole program stand before its end mark. -/
inductive DerivesBody : List Token → List Stmt → Prop
  | nil : DerivesBody [] []
  | cons {ts us s ss} : DerivesDeclaration ts s → DerivesBody us ss →
      DerivesBody (ts ++ us) (s :: ss)

end

end Grammar

/-! ## Which `if` an `else` belongs to -/

namespace Stmt

/-- Whether an `else` after the statement could belong to an `if` in it. -/
def endsOpen : Stmt → Bool
  | .ifThen _ _ => true
  | .ifElse _ _ elseBranch => elseBranch.endsOpen
  | _ => false

mutual

/-- Whether every `else` belongs to the nearest `if` that can take it: what
stands between an `if` and its `else` leaves no other `if` open. -/
def elseNearest : Stmt → Bool
  | .block body => bodyElseNearest body
  | .ifThen _ thenBranch => thenBranch.elseNearest
  | .ifElse _ thenBranch elseBranch =>
    !thenBranch.endsOpen && thenBranch.elseNearest && elseBranch.elseNearest
  | _ => true

/-- The same of statements one after another. -/
def bodyElseNearest : List Stmt → Bool
  | [] => true
  | s :: ss => s.elseNearest && bodyElseNearest ss

end

end Stmt

/-! ## First tokens -/

/-- The kinds an expression may begin with. -/
def Token.Kind.startsExpression (kind : Token.Kind) : Bool :=
  kind.isAtom || kind == .leftParen || kind == .bang || kind == .minus

/-- The kinds a declaration may begin with. -/
def Token.Kind.startsDeclaration (kind : Token.Kind) : Bool :=
  kind.startsExpression || kind == .kwVar || kind == .kwIf || kind == .kwPrint || kind == .leftBrace

namespace Grammar

theorem Derives.head {rule : Rule} {ts : List Token} {e : Expr} (h : Derives rule ts e) :
    ∃ t more, ts = t :: more ∧ t.kind.startsExpression = true := by
  induction h with
  | assign hn => exact ⟨_, _, rfl, by rw [hn]; rfl⟩
  | unassigned _ ih | operand _ ih | unsigned _ ih => exact ih
  | join _ _ _ _ ih =>
    obtain ⟨t, more, rfl, ht⟩ := ih
    exact ⟨t, _, rfl, ht⟩
  | sign ho => exact ⟨_, _, rfl, by rcases ho with ho | ho <;> rw [ho] <;> rfl⟩
  | number hk | string hk | kwTrue hk | kwFalse hk | kwNil hk | name hk | group hk =>
    exact ⟨_, _, rfl, by rw [hk]; rfl⟩

theorem DerivesStatement.head {ts : List Token} {s : Stmt} (h : DerivesStatement ts s) :
    ∃ t more, ts = t :: more ∧ t.kind.startsDeclaration = true ∧ t.kind ≠ .kwVar := by
  cases h with
  | ifThen hk | ifElse hk | print hk | block hk => exact ⟨_, _, rfl, by rw [hk]; decide⟩
  | expression he =>
    obtain ⟨t, more, rfl, ht⟩ := he.head
    refine ⟨t, _, rfl, by simp [Token.Kind.startsDeclaration, ht], fun hk => ?_⟩
    rw [hk] at ht
    cases ht

theorem DerivesDeclaration.head {ts : List Token} {s : Stmt} (h : DerivesDeclaration ts s) :
    ∃ t more, ts = t :: more ∧ t.kind.startsDeclaration = true := by
  cases h with
  | bare hk | initialized hk => exact ⟨_, _, rfl, by rw [hk]; rfl⟩
  | statement hs =>
    obtain ⟨t, more, hts, ht, -⟩ := hs.head
    exact ⟨t, more, hts, ht⟩

/-- Only a name by itself is derived with the tree of a name. -/
theorem Derives.eq_of_var {rule : Rule} {ts : List Token} {name : Token}
    (h : Derives rule ts (.var name)) : ts = [name] ∧ name.kind = .identifier := by
  generalize he : Expr.var name = e at h
  induction h with
  | unassigned _ ih | operand _ ih | unsigned _ ih => exact ih he
  | join _ _ hnode => cases hnode <;> cases he
  | name hk =>
    cases he
    exact ⟨rfl, hk⟩
  | _ => cases he

end Grammar

end Lox

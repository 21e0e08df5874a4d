/-
Statements, their written form, and their decidable equality.
-/
import Lox.Tree.Expr

namespace Lox

/-- A statement. -/
inductive Stmt where
  /-- An expression for its effects. -/
  | expression (e : Expr)
  | print (e : Expr)
  /-- A declaration; without an initializer the name is bound to nil. -/
  | varDecl (name : Token) (initializer : Option Expr)
  /-- Statements in order, in a scope of their own. -/
  | block (body : List Stmt)
  | ifThen (condition : Expr) (thenBranch : Stmt)
  | ifElse (condition : Expr) (thenBranch elseBranch : Stmt)

namespace Stmt

/-! ## Written form -/

mutual

/-- The written form of a statement: its keyword first, in parentheses. -/
def text : Stmt → String
  | .expression e => "(; " ++ e.text ++ ")"
  | .print e => "(print " ++ e.text ++ ")"
  | .varDecl name (some e) => "(var " ++ name.lexeme ++ " " ++ e.text ++ ")"
  | .varDecl name none => "(var " ++ name.lexeme ++ ")"
  | .block body => "(block" ++ bodyText body ++ ")"
  | .ifThen condition thenBranch => "(if " ++ condition.text ++ " " ++ thenBranch.text ++ ")"
  | .ifElse condition thenBranch elseBranch =>
    "(if " ++ condition.text ++ " " ++ thenBranch.text ++ " " ++ elseBranch.text ++ ")"

/-- The statements of a block, a space before each. -/
def bodyText : List Stmt → String
  | [] => ""
  | s :: ss => " " ++ s.text ++ bodyText ss

end

/-! ## Equality -/

mutual

/-- Whether two statements are the same tree, tokens included. -/
def same : Stmt → Stmt → Bool
  | .expression e, .expression f => e == f
  | .print e, .print f => e == f
  | .varDecl x e, .varDecl y f => x == y && e == f
  | .block ss, .block ts => sameBody ss ts
  | .ifThen c s, .ifThen d t => c == d && s.same t
  | .ifElse c s s', .ifElse d t t' => c == d && s.same t && s'.same t'
  | _, _ => false

/-- The same of statements one after another. -/
def sameBody : List Stmt → List Stmt → Bool
  | [], [] => true
  | s :: ss, t :: ts => s.same t && sameBody ss ts
  | _, _ => false

end

mutual

theorem same_iff : ∀ s t : Stmt, s.same t = true ↔ s = t
  | .expression _, t | .print _, t | .varDecl _ _, t => by cases t <;> simp [same]
  | .block ss, t => by
    cases t <;> simp [same]
    exact sameBody_iff ss _
  | .ifThen _ s, t => by
    cases t <;> simp [same]
    exact fun _ => same_iff s _
  | .ifElse _ s s', t => by
    cases t <;> simp [same, and_assoc]
    exact fun _ => and_congr (same_iff s _) (same_iff s' _)

theorem sameBody_iff : ∀ ss ts : List Stmt, sameBody ss ts = true ↔ ss = ts
  | [], ts => by cases ts <;> simp [sameBody]
  | s :: ss, ts => by
    cases ts <;> simp [sameBody]
    exact and_congr (same_iff s _) (sameBody_iff ss _)

end

instance : DecidableEq Stmt := fun s t => decidable_of_iff _ (same_iff s t)

end Stmt

end Lox

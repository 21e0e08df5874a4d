/-
The tokens that a tree keeps: of each operator and each name, the token it was
read from. Listed in the order of the text (`Expr.tokens`, `Stmt.tokens`), the
tokens of the statements read stand in the same order among those that were
given, each at a place of its own (`Program.tokens_in_place`). So recovery
neither repeats a token nor takes one up again.
-/
import Mathlib.Data.List.NodupEquivFin
import Mathlib.Data.List.TakeWhile
import Lox.Proofs.Grammar.Acceptance
import Lox.Source.Scan

namespace Lox

/-- The operators and names of an expression, from left to right. -/
def Expr.tokens : Expr → List Token
  | .literal _ => []
  | .grouping inner => inner.tokens
  | .unary operator operand => operator :: operand.tokens
  | .binary left operator right | .logical left operator right =>
    left.tokens ++ operator :: right.tokens
  | .var name => [name]
  | .assign name value => name :: value.tokens

namespace Stmt

mutual

/-- The operators and names of a statement, from left to right. -/
def tokens : Stmt → List Token
  | .expression e | .print e => e.tokens
  | .varDecl name none => [name]
  | .varDecl name (some e) => name :: e.tokens
  | .block body => bodyTokens body
  | .ifThen condition thenBranch => condition.tokens ++ thenBranch.tokens
  | .ifElse condition thenBranch elseBranch =>
    condition.tokens ++ thenBranch.tokens ++ elseBranch.tokens

/-- The same of statements one after another. -/
def bodyTokens : List Stmt → List Token
  | [] => []
  | s :: ss => s.tokens ++ bodyTokens ss

end

end Stmt

/-! ## Derived trees -/

namespace Grammar

theorem Derives.tokens_sublist {rule : Rule} {ts : List Token} {e : Expr} (h : Derives rule ts e) :
    e.tokens.Sublist ts := by
  induction h with
  | assign _ _ _ ih => exact (ih.cons _).cons_cons _
  | unassigned _ ih | operand _ ih | unsigned _ ih => exact ih
  | join _ _ hnode _ ihleft ihright =>
    cases hnode <;> exact ihleft.append (ihright.cons_cons _)
  | sign _ _ ih => exact ih.cons_cons _
  | number | string | kwTrue | kwFalse | kwNil => exact List.nil_sublist _
  | name => exact List.Sublist.refl _
  | group _ _ _ ih => exact (ih.trans (List.sublist_append_left _ _)).cons _

mutual

theorem DerivesStatement.tokens_sublist : ∀ {ts : List Token} {s : Stmt}, DerivesStatement ts s →
    s.tokens.Sublist ts
  | _, _, .ifThen _ _ hc _ hs => by
    rw [Stmt.tokens]
    exact ((hc.tokens_sublist.append (hs.tokens_sublist.cons _)).cons _).cons _
  | _, _, .ifElse _ _ hc _ hs _ hs' => by
    rw [Stmt.tokens]
    refine List.Sublist.append ?_ (hs'.tokens_sublist.cons _)
    exact ((hc.tokens_sublist.append (hs.tokens_sublist.cons _)).cons _).cons _
  | _, _, .print _ he _ => by
    rw [Stmt.tokens]
    exact (he.tokens_sublist.trans (List.sublist_append_left _ _)).cons _
  | _, _, .block _ hbody _ => by
    rw [Stmt.tokens]
    exact (hbody.tokens_sublist.trans (List.sublist_append_left _ _)).cons _
  | _, _, .expression he _ => by
    rw [Stmt.tokens]
    exact he.tokens_sublist.trans (List.sublist_append_left _ _)

theorem DerivesDeclaration.tokens_sublist : ∀ {ts : List Token} {s : Stmt},
    DerivesDeclaration ts s → s.tokens.Sublist ts
  | _, _, .bare _ _ _ => by
    rw [Stmt.tokens]
    exact ((List.nil_sublist _).cons_cons _).cons _
  | _, _, @DerivesDeclaration.initialized _ _ _ ts semi e _ _ _ he _ => by
    rw [Stmt.tokens]
    have hvalue : e.tokens.Sublist (ts ++ [semi]) :=
      he.tokens_sublist.trans (List.sublist_append_left _ _)
    exact ((hvalue.cons _).cons_cons _).cons _
  | _, _, .statement hs => hs.tokens_sublist

theorem DerivesBody.tokens_sublist : ∀ {ts : List Token} {ss : List Stmt}, DerivesBody ts ss →
    (Stmt.bodyTokens ss).Sublist ts
  | _, _, .nil => by
    rw [Stmt.bodyTokens]
  | _, _, .cons hd hbody => by
    rw [Stmt.bodyTokens]
    exact hd.tokens_sublist.append hbody.tokens_sublist

end

end Grammar

namespace Program

theorem tokens_sublist (tokens : List Token) :
    (Stmt.bodyTokens (ofTokens tokens).statements).Sublist (significant tokens) := by
  obtain ⟨us, hsublist, hderives, -⟩ := exists_derives tokens
  exact hderives.tokens_sublist.trans hsublist

/-- A significant token stands at its place among all, and no end mark stands
up to there. -/
theorem getElem?_significant {tokens : List Token} {i : Nat} {t : Token}
    (h : (significant tokens)[i]? = some t) :
    tokens[i]? = some t ∧ ∀ j ≤ i, ∀ u, tokens[j]? = some u → u.kind ≠ .eof := by
  have hplaces : ∀ j (hj : j < (significant tokens).length), tokens[j]? = some (significant tokens)[j] :=
    List.prefix_iff_getElem?.mp (List.takeWhile_prefix _)
  obtain ⟨hi, rfl⟩ := List.getElem?_eq_some_iff.mp h
  refine ⟨hplaces i hi, fun j hj u hu => ?_⟩
  have hj := Nat.lt_of_le_of_lt hj hi
  rw [hplaces j hj, Option.some.injEq] at hu
  have hmem : u ∈ significant tokens := hu ▸ List.getElem_mem hj
  simpa using List.mem_takeWhile_imp hmem

/-- **Reading invents, repeats and reorders nothing.** For every token
sequence, whatever is reported of it: each operator and each name in the
statements read, taken from left to right, is a token of the sequence before
its first end mark, the same in kind, text, literal and line; and of two of
them, the later one stands at a later place. -/
theorem tokens_in_place (tokens : List Token) :
    ∃ place : Nat → Nat, StrictMono place ∧
      ∀ i t, (Stmt.bodyTokens (ofTokens tokens).statements)[i]? = some t →
        tokens[place i]? = some t ∧
          ∀ j ≤ place i, ∀ u, tokens[j]? = some u → u.kind ≠ .eof := by
  obtain ⟨place, hplace⟩ :=
    List.sublist_iff_exists_orderEmbedding_getElem?_eq.mp (tokens_sublist tokens)
  refine ⟨place, place.strictMono, fun i t ht => getElem?_significant ?_⟩
  rw [← hplace, ht]

/-- A value that nothing takes and a statement that is given up are left out
with their tokens. -/
example :
    (Stmt.bodyTokens (ofTokens (Scan.ofSource "a + b = c; print; d = -e;").tokens).statements).map
      Token.lexeme = ["a", "+", "b", "d", "-", "e"] := by
  decide +kernel

end Program

end Lox

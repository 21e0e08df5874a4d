/-
The grammar against other line numbers and against programs in a row:
derivations look at kinds and literals only, so relined tokens are derived
with the relined tree (`DerivesBody.reline`), and the declarations of two
token sequences are those of the one and then the other
(`DerivesBody.append`). In both, an `else` stays with its `if`.
-/
import Lox.Proofs.Grammar.Derivation
import Lox.Proofs.Tree.Reline

namespace Lox

theorem Level.join_reline (f : Nat → Nat) (level : Level) (left : Expr) (operator : Token)
    (right : Expr) : (level.join left operator right).reline f =
      level.join (left.reline f) (operator.reline f) (right.reline f) := by
  cases level <;> rfl

namespace Grammar

theorem Derives.reline (f : Nat → Nat) {rule : Rule} {ts : List Token} {e : Expr}
    (h : Derives rule ts e) : Derives rule (ts.map (Token.reline f)) (e.reline f) := by
  induction h with
  | assign hname hequals _ ih => exact .assign hname hequals ih
  | unassigned _ ih => exact .unassigned ih
  | operand _ ih => exact .operand ih
  | @join level _ _ _ _ _ _ _ hoperator hnode _ ihleft ihright =>
    rw [hnode.eq_join, List.map_append, List.map_cons, Level.join_reline]
    exact .join ihleft hoperator level.node_join ihright
  | sign hoperator _ ih => exact .sign hoperator ih
  | unsigned _ ih => exact .unsigned ih
  | number hkind hliteral => exact .number hkind hliteral
  | string hkind hliteral => exact .string hkind hliteral
  | kwTrue hkind => exact .kwTrue hkind
  | kwFalse hkind => exact .kwFalse hkind
  | kwNil hkind => exact .kwNil hkind
  | name hkind => exact .name hkind
  | group hleft _ hright ih =>
    rw [List.map_append, List.map_cons]
    exact .group hleft ih hright

mutual

theorem DerivesStatement.reline (f : Nat → Nat) : ∀ {ts : List Token} {s : Stmt},
    DerivesStatement ts s → DerivesStatement (ts.map (Token.reline f)) (s.reline f)
  | _, _, .ifThen ht hleft hc hright hs => by
    simp only [List.map_append, List.map_cons, Stmt.reline]
    exact .ifThen ht hleft (hc.reline f) hright (hs.reline f)
  | _, _, .ifElse ht hleft hc hright hs he hs' => by
    simp only [List.map_append, List.map_cons, Stmt.reline]
    exact .ifElse ht hleft (hc.reline f) hright (hs.reline f) he (hs'.reline f)
  | _, _, .print ht he hsemi => by
    simp only [List.map_append, List.map_cons, List.map_nil, Stmt.reline]
    exact .print ht (he.reline f) hsemi
  | _, _, .block hleft hbody hright => by
    simp only [List.map_append, List.map_cons, List.map_nil, Stmt.reline]
    exact .block hleft (hbody.reline f) hright
  | _, _, .expression he hsemi => by
    simp only [List.map_append, List.map_cons, List.map_nil, Stmt.reline]
    exact .expression (he.reline f) hsemi

theorem DerivesDeclaration.reline (f : Nat → Nat) : ∀ {ts : List Token} {s : Stmt},
    DerivesDeclaration ts s → DerivesDeclaration (ts.map (Token.reline f)) (s.reline f)
  | _, _, .bare ht hname hsemi => by
    simp only [List.map_cons, List.map_nil, Stmt.reline, Option.map_none]
    exact .bare ht hname hsemi
  | _, _, .initialized ht hname hequals he hsemi => by
    simp only [List.map_append, List.map_cons, List.map_nil, Stmt.reline, Option.map_some]
    exact .initialized ht hname hequals (he.reline f) hsemi
  | _, _, .statement hs => .statement (hs.reline f)

/-- Relined tokens are derived with the relined statements. -/
theorem DerivesBody.reline (f : Nat → Nat) : ∀ {ts : List Token} {ss : List Stmt},
    DerivesBody ts ss → DerivesBody (ts.map (Token.reline f)) (Stmt.relineBody f ss)
  | _, _, .nil => by
    rw [Stmt.relineBody]
    exact .nil
  | _, _, .cons hd hbody => by
    rw [List.map_append, Stmt.relineBody]
    exact .cons (hd.reline f) (hbody.reline f)

end

theorem DerivesBody.append : ∀ {ts us : List Token} {ss rs : List Stmt}, DerivesBody ts ss →
    DerivesBody us rs → DerivesBody (ts ++ us) (ss ++ rs)
  | _, _, _, _, .nil, h => h
  | _, _, _, _, .cons hd hbody, h => by
    rw [List.append_assoc]
    exact .cons hd (hbody.append h)

end Grammar

namespace Stmt

theorem endsOpen_reline (f : Nat → Nat) : ∀ s : Stmt, (s.reline f).endsOpen = s.endsOpen
  | .expression _ | .print _ | .varDecl _ _ | .block _ | .ifThen _ _ => by
    simp only [reline, endsOpen]
  | .ifElse _ _ elseBranch => by
    simp only [reline, endsOpen]
    exact endsOpen_reline f elseBranch

mutual

theorem elseNearest_reline (f : Nat → Nat) : ∀ s : Stmt,
    (s.reline f).elseNearest = s.elseNearest
  | .expression _ | .print _ | .varDecl _ _ => by simp only [reline, elseNearest]
  | .block body => by
    simp only [reline, elseNearest]
    exact bodyElseNearest_reline f body
  | .ifThen _ thenBranch => by
    simp only [reline, elseNearest]
    exact elseNearest_reline f thenBranch
  | .ifElse _ thenBranch elseBranch => by
    simp only [reline, elseNearest]
    rw [endsOpen_reline f thenBranch, elseNearest_reline f thenBranch,
      elseNearest_reline f elseBranch]

theorem bodyElseNearest_reline (f : Nat → Nat) : ∀ ss : List Stmt,
    bodyElseNearest (relineBody f ss) = bodyElseNearest ss
  | [] => by rw [relineBody]
  | s :: ss => by
    simp only [relineBody, bodyElseNearest]
    rw [elseNearest_reline f s, bodyElseNearest_reline f ss]

end

theorem bodyElseNearest_append (ss rs : List Stmt) :
    bodyElseNearest (ss ++ rs) = (bodyElseNearest ss && bodyElseNearest rs) := by
  induction ss with
  | nil => rw [List.nil_append, bodyElseNearest, Bool.true_and]
  | cons s ss ih => rw [List.cons_append, bodyElseNearest, bodyElseNearest, ih, Bool.and_assoc]

end Stmt

end Lox

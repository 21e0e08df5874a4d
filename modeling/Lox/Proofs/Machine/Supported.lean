/-
Every operator that reading puts into a tree is one the machine has a rule
for (`Program.interpret_supported`), whatever the tokens were and whatever
was reported of them: the tree is derived from some of the tokens
(`Program.exists_derives`), and the grammar joins operands by no other
operators.

Only a tree built by hand can come to an operator without a rule: if each of
its nodes has one, executing it never does (`Stmt.execAll_supported`).
-/
import Lox.Proofs.Grammar.Acceptance
import Lox.Proofs.Machine.Run

namespace Lox

/-! ## Nodes and their rules -/

namespace Expr

/-- The nodes of an expression, itself first. -/
def nodes : Expr → List Expr
  | .literal value => [.literal value]
  | .grouping inner => .grouping inner :: inner.nodes
  | .unary operator operand => .unary operator operand :: operand.nodes
  | .binary left operator right => .binary left operator right :: (left.nodes ++ right.nodes)
  | .logical left operator right => .logical left operator right :: (left.nodes ++ right.nodes)
  | .var name => [.var name]
  | .assign name value => .assign name value :: value.nodes

/-- The operator of the node, if it has one, is one the machine knows there. -/
def HasRule : Expr → Prop
  | .unary operator _ => operator.kind = .bang ∨ operator.kind = .minus
  | .binary _ operator _ => operator.kind ∈ Operator.joining
  | .logical _ operator _ => operator.kind = .kwAnd ∨ operator.kind = .kwOr
  | _ => True

end Expr

namespace Stmt

mutual

/-- The nodes of the expressions in a statement, at any depth. -/
def nodes : Stmt → List Expr
  | .expression e | .print e | .varDecl _ (some e) => e.nodes
  | .varDecl _ none => []
  | .block body => bodyNodes body
  | .ifThen condition thenBranch => condition.nodes ++ thenBranch.nodes
  | .ifElse condition thenBranch elseBranch =>
    condition.nodes ++ thenBranch.nodes ++ elseBranch.nodes

/-- The same of statements one after another. -/
def bodyNodes : List Stmt → List Expr
  | [] => []
  | s :: ss => s.nodes ++ bodyNodes ss

end

end Stmt

/-! ## Derived trees -/

namespace Grammar

/-- What two operands of a level are joined by has a rule. -/
theorem hasRule_join {level : Level} {node : Expr → Token → Expr → Expr} {operator : Token}
    (hnode : level.Node node) (h : level.Terminal operator.kind) (left right : Expr) :
    (node left operator right).HasRule := by
  have hlogical : ∀ level ∈ [Level.or, .and], ∀ kind ∈ level.operators,
      kind = .kwAnd ∨ kind = .kwOr := by decide
  have hbinary : ∀ level ∈ [Level.equality, .comparison, .term, .factor],
      ∀ kind ∈ level.operators, kind ∈ Operator.joining := by decide
  cases hnode with
  | or | and => exact hlogical _ (by decide) _ h.mem_operators
  | equality | comparison | term | factor => exact hbinary _ (by decide) _ h.mem_operators

theorem nodes_join {level : Level} {node : Expr → Token → Expr → Expr} (hnode : level.Node node)
    (left : Expr) (operator : Token) (right : Expr) :
    (node left operator right).nodes = node left operator right :: (left.nodes ++ right.nodes) := by
  cases hnode <;> rfl

/-- A derived expression has only nodes with rules. -/
theorem Derives.hasRule {rule : Rule} {ts : List Token} {e : Expr} (h : Derives rule ts e) :
    ∀ node ∈ e.nodes, node.HasRule := by
  induction h with
  | assign _ _ _ ih | group _ _ _ ih => exact List.forall_mem_cons.mpr ⟨trivial, ih⟩
  | unassigned _ ih | operand _ ih | unsigned _ ih => exact ih
  | join _ hoperator hnode _ ihleft ihright =>
    rw [nodes_join hnode]
    exact List.forall_mem_cons.mpr
      ⟨hasRule_join hnode hoperator _ _, List.forall_mem_append.mpr ⟨ihleft, ihright⟩⟩
  | sign hsign _ ih => exact List.forall_mem_cons.mpr ⟨hsign, ih⟩
  | number | string | kwTrue | kwFalse | kwNil | name =>
    exact List.forall_mem_singleton.mpr trivial

mutual

theorem DerivesStatement.forall_nodes {P : Expr → Prop}
    (hP : ∀ ts e, Derives .assignment ts e → ∀ node ∈ e.nodes, P node) :
    ∀ {ts : List Token} {s : Stmt}, DerivesStatement ts s → ∀ node ∈ s.nodes, P node
  | _, _, .ifThen _ _ hc _ hs => by
    rw [Stmt.nodes]
    exact List.forall_mem_append.mpr ⟨hP _ _ hc, hs.forall_nodes hP⟩
  | _, _, .ifElse _ _ hc _ hs _ hs' => by
    rw [Stmt.nodes]
    exact List.forall_mem_append.mpr
      ⟨List.forall_mem_append.mpr ⟨hP _ _ hc, hs.forall_nodes hP⟩, hs'.forall_nodes hP⟩
  | _, _, .print _ he _ | _, _, .expression he _ => by
    rw [Stmt.nodes]
    exact hP _ _ he
  | _, _, .block _ hbody _ => by
    rw [Stmt.nodes]
    exact hbody.forall_nodes hP

theorem DerivesDeclaration.forall_nodes {P : Expr → Prop}
    (hP : ∀ ts e, Derives .assignment ts e → ∀ node ∈ e.nodes, P node) :
    ∀ {ts : List Token} {s : Stmt}, DerivesDeclaration ts s → ∀ node ∈ s.nodes, P node
  | _, _, .bare _ _ _ => by
    rw [Stmt.nodes]
    exact List.forall_mem_nil _
  | _, _, .initialized _ _ _ he _ => by
    rw [Stmt.nodes]
    exact hP _ _ he
  | _, _, .statement hs => hs.forall_nodes hP

/-- What holds of the nodes of every derived expression holds of those in
every derived statement. -/
theorem DerivesBody.forall_nodes {P : Expr → Prop}
    (hP : ∀ ts e, Derives .assignment ts e → ∀ node ∈ e.nodes, P node) :
    ∀ {ts : List Token} {ss : List Stmt}, DerivesBody ts ss →
    ∀ node ∈ Stmt.bodyNodes ss, P node
  | _, _, .nil => by
    rw [Stmt.bodyNodes]
    exact List.forall_mem_nil _
  | _, _, .cons hd hbody => by
    rw [Stmt.bodyNodes]
    exact List.forall_mem_append.mpr ⟨hd.forall_nodes hP, hbody.forall_nodes hP⟩

end

theorem DerivesBody.hasRule {ts : List Token} {ss : List Stmt} (h : DerivesBody ts ss) :
    ∀ node ∈ Stmt.bodyNodes ss, node.HasRule :=
  h.forall_nodes fun _ _ he => he.hasRule

end Grammar

/-! ## Runs -/

/-- The fault that an operator has no rule. -/
def RuntimeError.IsUnsupported (e : RuntimeError) : Prop :=
  ∃ operator line, e = .unsupportedOperator operator line

section

variable {W : Type}

namespace Run

variable {α β : Type}

/-- The run never comes to an operator without a rule. -/
def Supported (x : Run W α) : Prop := ∀ m e m', x m = .error e m' → ¬ e.IsUnsupported

theorem Supported.bind {x : Run W α} {f : α → Run W β} (hx : x.Supported)
    (hf : ∀ a, (f a).Supported) : (x >>= f).Supported := by
  intro m e m' h
  rcases bind_eq_error.mp h with h | ⟨a, m₁, -, h⟩
  · exact hx m e m' h
  · exact hf a m₁ e m' h

theorem supported_pure (a : α) : (pure a : Run W α).Supported :=
  fun _ _ _ h => absurd h pure_ne_error

theorem supported_ofExcept {x : Except RuntimeError α}
    (hx : ∀ e, x = .error e → ¬ e.IsUnsupported) : (ofExcept (W := W) x).Supported :=
  fun _ e _ h => hx e (ofExcept_eq_error.mp h).1

theorem supported_lookup (name : Token) : (lookup (W := W) name).Supported := by
  rintro m e m' h ⟨operator, line, rfl⟩
  cases (lookup_eq_error.mp h).2.1

theorem supported_assign (name : Token) (value : Value) :
    (assign (W := W) name value).Supported := by
  rintro m e m' h ⟨operator, line, rfl⟩
  cases (assign_eq_error.mp h).2.1

theorem supported_define (name : Token) (value : Value) :
    (define (W := W) name value).Supported :=
  fun _ _ _ h => absurd h define_ne_error

theorem supported_onSink (operation : W → Option String × W) :
    (onSink operation).Supported := by
  rintro m e m' h ⟨operator, line, rfl⟩
  obtain ⟨cause, -, hcause, -⟩ := onSink_eq_error.mp h
  cases hcause

theorem Supported.inBlock {body : Run W Unit} (h : body.Supported) (count : Nat) :
    (inBlock count body).Supported := by
  intro m e m' hm
  obtain ⟨m₁, hbody, -⟩ := inBlock_eq_error.mp hm
  exact h _ e m₁ hbody

end Run

open Run

/-! ## Execution -/

/-- An expression whose nodes have rules is evaluated by them. -/
theorem Expr.eval_supported {e : Expr} (h : ∀ node ∈ e.nodes, node.HasRule) :
    (e.eval (W := W)).Supported := by
  induction e with
  | literal value =>
    rw [eval]
    exact supported_pure value
  | grouping inner ih =>
    rw [eval]
    exact ih (List.forall_mem_cons.mp h).2
  | unary operator operand ih =>
    obtain ⟨hrule, hoperand⟩ := List.forall_mem_cons.mp h
    rw [eval]
    refine (ih hoperand).bind fun v => ?_
    refine supported_ofExcept fun e he => ?_
    rintro ⟨text, line, rfl⟩
    rcases Operator.unary_eq_error he with he | ⟨-, hbang, hminus⟩
    · cases he
    · exact hrule.elim hbang hminus
  | binary left operator right ihleft ihright =>
    obtain ⟨hrule, hoperands⟩ := List.forall_mem_cons.mp h
    obtain ⟨hleft, hright⟩ := List.forall_mem_append.mp hoperands
    rw [eval]
    refine (ihleft hleft).bind fun a => (ihright hright).bind fun b => ?_
    refine supported_ofExcept fun e he => ?_
    rintro ⟨text, line, rfl⟩
    rcases Operator.binary_eq_error he with he | he | ⟨-, hjoining⟩
    · cases he
    · cases he
    · exact hjoining hrule
  | logical left operator right ihleft ihright =>
    obtain ⟨-, hoperands⟩ := List.forall_mem_cons.mp h
    obtain ⟨hleft, hright⟩ := List.forall_mem_append.mp hoperands
    rw [eval]
    refine (ihleft hleft).bind fun a => ?_
    split
    · exact supported_pure a
    · exact ihright hright
  | var name =>
    rw [eval]
    exact supported_lookup name
  | assign name value ih =>
    rw [eval]
    exact (ih (List.forall_mem_cons.mp h).2).bind fun v =>
      (supported_assign name v).bind fun _ => supported_pure v

variable [Writer W]

namespace Stmt

mutual

theorem exec_supported : ∀ {s : Stmt}, (∀ node ∈ s.nodes, node.HasRule) →
    (s.exec (W := W)).Supported
  | .expression e, h => by
    rw [nodes] at h
    rw [exec]
    exact (Expr.eval_supported h).bind fun _ => supported_pure ()
  | .print e, h => by
    rw [nodes] at h
    rw [exec]
    exact (Expr.eval_supported h).bind fun v => supported_onSink _
  | .varDecl name none, h => by
    rw [exec]
    exact supported_define name .nil
  | .varDecl name (some e), h => by
    rw [nodes] at h
    rw [exec]
    exact (Expr.eval_supported h).bind (supported_define name)
  | .block body, h => by
    rw [nodes] at h
    rw [exec]
    exact (execAll_supported h).inBlock body.length
  | .ifThen c s, h => by
    rw [nodes, List.forall_mem_append] at h
    rw [exec]
    refine (Expr.eval_supported h.1).bind fun v => ?_
    split
    · exact exec_supported h.2
    · exact supported_pure ()
  | .ifElse c s s', h => by
    rw [nodes, List.forall_mem_append, List.forall_mem_append] at h
    rw [exec]
    refine (Expr.eval_supported h.1.1).bind fun v => ?_
    split
    · exact exec_supported h.1.2
    · exact exec_supported h.2

/-- Statements whose nodes have rules are executed by them. -/
theorem execAll_supported : ∀ {ss : List Stmt}, (∀ node ∈ bodyNodes ss, node.HasRule) →
    (execAll (W := W) ss).Supported
  | [], _ => by
    rw [execAll]
    exact supported_pure ()
  | s :: ss, h => by
    rw [bodyNodes, List.forall_mem_append] at h
    rw [execAll]
    exact (exec_supported h.1).bind fun _ => execAll_supported h.2

end

end Stmt

/-! ## Programs -/

/-- **Whatever is read can be executed.** For every token sequence, with or
without faults, and from every machine, whatever it prints to: executing the
statements read never ends for want of a rule for an operator; and every
logical node in them, evaluated or not, has `and` or `or` for its operator. -/
theorem Program.interpret_supported (tokens : List Token) (m : Machine W) :
    (∀ operator line, (m.interpret (ofTokens tokens).statements).1 ≠
      .error (.unsupportedOperator operator line)) ∧
    ∀ left operator right,
      Expr.logical left operator right ∈ Stmt.bodyNodes (ofTokens tokens).statements →
      operator.kind = .kwAnd ∨ operator.kind = .kwOr := by
  obtain ⟨us, -, hderives, -⟩ := exists_derives tokens
  have hrules := hderives.hasRule
  refine ⟨fun operator line h => ?_, fun left operator right hnode => hrules _ hnode⟩
  have hsupported : (Stmt.interpret (W := W) (ofTokens tokens).statements).Supported := by
    rw [Stmt.interpret]
    exact (Stmt.execAll_supported hrules).bind fun _ => supported_onSink _
  have herror := Machine.interpret_eq_error.mp (Prod.ext h rfl)
  exact hsupported m _ _ herror ⟨operator, line, rfl⟩

end

end Lox

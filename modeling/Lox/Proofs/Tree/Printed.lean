/-
The written form of a program determines its tree. Forms are read back into
trees (`Form.expr?`, `Form.stmt?`): a head or a word is the token it is cut
as, and that tells which node it stands for, with how many parts there are.
For the tree of a source this gives the tree again (`Expr.ReadsBack`), except
for lines, which are not written, and for infinite literals, which are written
like a variable named `inf`.
-/
import Lox.Proofs.Session.Concatenation
import Lox.Proofs.Source.Lexeme
import Lox.Proofs.Tree.Form

namespace Lox

/-! ## Infinite literals -/

/-- Whether it is an infinite number, of either sign. -/
def Value.isInfinite : Value → Bool
  | .number (.signed _ m) => m.isInfinite
  | _ => false

/-- The expression with a variable named `inf` for every infinite literal. -/
def Expr.nameInfinite : Expr → Expr
  | .literal value =>
    if value.isInfinite then .var ⟨.identifier, "inf", none, 0⟩ else .literal value
  | .grouping inner => .grouping inner.nameInfinite
  | .unary operator operand => .unary operator operand.nameInfinite
  | .binary left operator right => .binary left.nameInfinite operator right.nameInfinite
  | .logical left operator right => .logical left.nameInfinite operator right.nameInfinite
  | .var name => .var name
  | .assign name value => .assign name value.nameInfinite

namespace Stmt

mutual

/-- The statement with a variable named `inf` for every infinite literal. -/
def nameInfinite : Stmt → Stmt
  | .expression e => .expression e.nameInfinite
  | .print e => .print e.nameInfinite
  | .varDecl name initializer => .varDecl name (initializer.map Expr.nameInfinite)
  | .block body => .block (nameInfiniteBody body)
  | .ifThen condition thenBranch => .ifThen condition.nameInfinite thenBranch.nameInfinite
  | .ifElse condition thenBranch elseBranch =>
    .ifElse condition.nameInfinite thenBranch.nameInfinite elseBranch.nameInfinite

/-- The same of statements one after another. -/
def nameInfiniteBody : List Stmt → List Stmt
  | [] => []
  | s :: ss => s.nameInfinite :: nameInfiniteBody ss

end

end Stmt

/-- What the written form keeps of an expression. -/
def Expr.normal (e : Expr) : Expr := e.nameInfinite.reline fun _ => 0

/-- What the written form keeps of a statement. -/
def Stmt.normal (s : Stmt) : Stmt := s.nameInfinite.reline fun _ => 0

/-- What the written forms keep of statements. -/
def Stmt.normalBody (ss : List Stmt) : List Stmt := relineBody (fun _ => 0) (nameInfiniteBody ss)

/-! ## Reading a form -/

namespace Form

/-- The node of a head that stands before two operands: an assignment, or an
operator between them. -/
def joined (head : Token) (left right : Expr) : Expr :=
  if head.kind = .equal then (Grammar.assignTo left head right).1
  else if head.kind = .kwAnd ∨ head.kind = .kwOr then .logical left head right
  else .binary left head right

/-- The expression with a form. Of the heads with one part, only that of a
grouping is a name. -/
def expr? : Form → Option Expr
  | .quoted s => some (.literal (.text (String.ofList s)))
  | .word w => (Token.ofLexeme? w).bind Expr.ofToken?
  | .node head [x] => do
    let t ← Token.ofLexeme? head
    let operand ← x.expr?
    return if t.kind = .identifier then .grouping operand else .unary t operand
  | .node head [x, y] => do
    let t ← Token.ofLexeme? head
    let left ← x.expr?
    let right ← y.expr?
    return joined t left right
  | .node _ _ => none

/-- The statement with a head of a kind, given its parts and the statements
that these are. Of the heads, only that of a block is a name. -/
def assembled (kind : Token.Kind) (parts : List Form) (statements : List (Option Stmt)) :
    Option Stmt :=
  match kind, parts, statements with
  | .semicolon, [x], _ => x.expr?.map .expression
  | .kwPrint, [x], _ => x.expr?.map .print
  | .kwVar, [.word w], _ => (Token.ofLexeme? w).map (.varDecl · none)
  | .kwVar, [.word w, x], _ => do return .varDecl (← Token.ofLexeme? w) (← x.expr?)
  | .kwIf, [x, _], [_, some s] => x.expr?.map (.ifThen · s)
  | .kwIf, [x, _, _], [_, some s, some s'] => x.expr?.map (.ifElse · s s')
  | .identifier, _, statements => (statements.mapM id).map .block
  | _, _, _ => none

mutual

/-- The statement with a form. -/
def stmt? : Form → Option Stmt
  | .node head parts =>
    (Token.ofLexeme? head).bind fun t => assembled t.kind parts (partStmts parts)
  | _ => none

/-- The statement with each form, for those that are one. -/
def partStmts : List Form → List (Option Stmt)
  | [] => []
  | f :: fs => f.stmt? :: partStmts fs

end

end Form

/-! ## Words of a source -/

open Form

theorem isPlain_of {p : Char → Bool} (hp : [' ', '(', ')', '"'].any p = false) {c : Char}
    (h : p c = true) : isPlain c = true := by
  simp only [isPlain, Bool.and_eq_true, bne_iff_ne, ne_eq]
  refine ⟨⟨⟨?_, ?_⟩, ?_⟩, ?_⟩ <;> rintro rfl <;> simp [h] at hp

theorem isPlain_of_isDigit {c : Char} (h : c.isDigit = true) : isPlain c = true :=
  isPlain_of (by decide) h

theorem isPlain_of_continuesWord {c : Char} (h : Piece.continuesWord c = true) :
    isPlain c = true :=
  isPlain_of (by decide) h

theorem isPlain_of_startsWord {c : Char} (h : Piece.startsWord c = true) : isPlain c = true :=
  isPlain_of (by decide) h

theorem isWord_chars (d : Decimal) : IsWord d.chars := by
  intro c hc
  rcases d.isDigit_or_point_of_mem_chars hc with hdigit | rfl
  · exact isPlain_of_isDigit hdigit
  · rfl

namespace Token.Cut

variable {t : Token}

/-- A name or an operator is written as a word. -/
theorem isWord (h : t.Cut) (hkind : t.kind ∉ [.leftParen, .rightParen, .string, .number]) :
    IsWord t.lexeme.toList := by
  obtain ⟨p, after, hmatches, hlexeme⟩ := h
  rw [Piece.text_eq_of_lexeme? hlexeme]
  have hoperators : ∀ op ∈ Piece.operators, op.2 ∉ [.leftParen, .rightParen, .string, .number] →
      op.1.all isPlain = true := by decide
  cases hmatches with
  | string | whole | fractional =>
    simp only [Piece.lexeme?, Piece.numberRole, Option.some.injEq, Prod.mk.injEq] at hlexeme
    simp [← hlexeme.1] at hkind
  | word hfirst hmore =>
    rw [IsWord, List.forall_mem_cons]
    exact ⟨isPlain_of_startsWord hfirst, fun c hc => isPlain_of_continuesWord (hmore c hc)⟩
  | operator hmem =>
    simp only [Piece.lexeme?, Option.some.injEq, Prod.mk.injEq] at hlexeme
    exact List.all_eq_true.1 (hoperators _ hmem (by rwa [hlexeme.1]))
  | _ => cases hlexeme

/-- A string denotes a text without quotes. -/
theorem quote_not_mem (h : t.Cut) {s : String} (hliteral : t.literal = some (.text s)) :
    '"' ∉ s.toList := by
  obtain ⟨p, after, hmatches, hlexeme⟩ := h
  rw [hliteral] at hlexeme
  cases hmatches with
  | string hbody =>
    simp only [Piece.lexeme?, Option.some.injEq, Prod.mk.injEq, Literal.text.injEq] at hlexeme
    rw [← hlexeme.2.2, String.toList_ofList]
    exact hbody
  | _ => simp [Piece.lexeme?, Piece.numberRole] at hlexeme

/-- A number has no sign. -/
theorem exists_magnitude (h : t.Cut) {n : Binary64} (hliteral : t.literal = some (.number n)) :
    ∃ m, n = .signed false m := by
  obtain ⟨p, after, hmatches, hlexeme⟩ := h
  rw [hliteral] at hlexeme
  cases hmatches with
  | whole | fractional =>
    simp only [Piece.lexeme?, Piece.numberRole, Option.some.injEq, Prod.mk.injEq,
      Literal.number.injEq] at hlexeme
    exact ⟨_, hlexeme.2.2.symm⟩
  | _ => simp [Piece.lexeme?] at hlexeme

end Token.Cut

/-! ## Expressions -/

/-- The written form of the expression can be read back. -/
structure Expr.ReadsBack (e : Expr) : Prop where
  legible : e.form.Legible
  expr? : e.form.expr? = some e.normal
  /-- Nothing is lost that is written. -/
  form_normal : e.normal.form = e.form

namespace Expr

section Normal

variable (inner : Expr) (t : Token)

@[simp] theorem normal_grouping : (grouping inner).normal = .grouping inner.normal := rfl

@[simp] theorem normal_unary :
    (unary t inner).normal = .unary (t.reline fun _ => 0) inner.normal := rfl

@[simp] theorem normal_var : (var t).normal = .var (t.reline fun _ => 0) := rfl

@[simp] theorem normal_assign :
    (assign t inner).normal = .assign (t.reline fun _ => 0) inner.normal := rfl

end Normal

theorem readsBack_var {name : Token} (h : name.Cut) (hkind : name.kind = .identifier) :
    (Expr.var name).ReadsBack where
  legible := h.isWord (by rw [hkind]; decide)
  expr? := by
    have hvar : ofToken? (name.reline fun _ => 0) = some (.var (name.reline fun _ => 0)) := by
      simp [ofToken?, Token.reline_kind, hkind]
    rw [form, Form.expr?, h.ofLexeme?_eq, Option.bind_some, hvar, normal_var]
  form_normal := rfl

theorem normal_of_not_isInfinite {value : Value} (h : value.isInfinite = false) :
    (literal value).normal = .literal value := by
  rw [normal, nameInfinite, if_neg (by rw [h]; decide), reline]

/-- A literal that is a word of its own. -/
theorem readsBack_word {value : Value} {w : List Char} (hform : value.form = .word w)
    (hword : IsWord w) (hread : (Form.word w).expr? = some (.literal value))
    (hfinite : value.isInfinite = false) : (Expr.literal value).ReadsBack where
  legible := by
    rw [form, hform]
    exact hword
  expr? := by rw [form, hform, hread, normal_of_not_isInfinite hfinite]
  form_normal := by rw [normal_of_not_isInfinite hfinite]

/-- A finite number is read off its numeral. -/
theorem readsBack_finite {m : Magnitude} (h : m.isInfinite = false) :
    (Expr.literal (.number (.signed false m))).ReadsBack := by
  have hform : (Value.number (.signed false m)).form = .word m.shortest.chars := by
    show Form.word (Binary64.magnitudeText m).toList = .word m.shortest.chars
    rw [Binary64.magnitudeText, if_neg (by simp [h]), String.toList_ofList]
  refine readsBack_word hform (isWord_chars _) ?_ h
  rw [Form.expr?, Token.ofLexeme?_shortest]
  rfl

/-- An infinite one is read as a name. -/
theorem readsBack_infinite {m : Magnitude} (h : m.isInfinite = true) :
    (Expr.literal (.number (.signed false m))).ReadsBack := by
  have hnormal : (Expr.literal (.number (.signed false m))).normal =
      .var ⟨.identifier, "inf", none, 0⟩ := by
    have hvalue : (Value.number (.signed false m)).isInfinite = true := h
    rw [normal, nameInfinite, if_pos hvalue]
    rfl
  have hform : (Expr.literal (.number (.signed false m))).form = .word "inf".toList := by
    show Form.word (Binary64.magnitudeText m).toList = .word "inf".toList
    rw [Binary64.magnitudeText, if_pos h]
  have hword : Token.ofLexeme? "inf".toList = some ⟨.identifier, "inf", none, 0⟩ := by
    decide +kernel
  refine ⟨?_, ?_, by rw [hnormal, hform, form]⟩
  · rw [hform]
    exact (by decide : IsWord "inf".toList)
  · rw [hform, hnormal, Form.expr?, hword]
    rfl

theorem readsBack_text {s : String} (h : '"' ∉ s.toList) : (Expr.literal (.text s)).ReadsBack where
  legible := h
  expr? := by
    rw [form, Value.form, Form.expr?, String.ofList_toList, normal_of_not_isInfinite rfl]
  form_normal := by rw [normal_of_not_isInfinite rfl]

theorem readsBack_grouping {inner : Expr} (h : inner.ReadsBack) :
    (Expr.grouping inner).ReadsBack where
  legible := ⟨by decide, h.legible, trivial⟩
  expr? := by
    have hhead : Token.ofLexeme? "group".toList = some ⟨.identifier, "group", none, 0⟩ := by
      decide +kernel
    rw [form, Form.expr?, hhead, h.expr?]
    rfl
  form_normal := by rw [normal_grouping, form, h.form_normal, form]

theorem readsBack_unary {operator : Token} {operand : Expr} (hcut : operator.Cut)
    (hkind : operator.kind = .bang ∨ operator.kind = .minus) (h : operand.ReadsBack) :
    (Expr.unary operator operand).ReadsBack where
  legible := ⟨hcut.isWord (by rcases hkind with hk | hk <;> rw [hk] <;> decide), h.legible, trivial⟩
  expr? := by
    have hname : operator.kind ≠ .identifier := by rcases hkind with hk | hk <;> rw [hk] <;> decide
    rw [form, Form.expr?, hcut.ofLexeme?_eq, h.expr?]
    simp [Token.reline_kind, hname]
  form_normal := by
    rw [normal_unary, form, h.form_normal, form]
    rfl

theorem readsBack_assign {name : Token} {value : Expr} (hcut : name.Cut)
    (hkind : name.kind = .identifier) (h : value.ReadsBack) :
    (Expr.assign name value).ReadsBack where
  legible := ⟨by decide, (readsBack_var hcut hkind).legible, h.legible, trivial⟩
  expr? := by
    have hhead : Token.ofLexeme? "=".toList = some ⟨.equal, "=", none, 0⟩ := by decide +kernel
    have hname := (readsBack_var hcut hkind).expr?
    rw [form] at hname
    rw [form, Form.expr?, hhead, hname, h.expr?]
    rfl
  form_normal := by
    rw [normal_assign, form, h.form_normal, form]
    rfl

theorem joined_eq_join {level : Level} {operator : Token} (h : operator.kind ∈ level.operators)
    (left right : Expr) : joined operator left right = level.join left operator right := by
  have hequal : ∀ kind ∈ level.operators, kind ≠ .equal := by cases level <;> decide
  have hlogical : ∀ kind ∈ level.operators,
      (kind = .kwAnd ∨ kind = .kwOr ↔ level = .or ∨ level = .and) := by cases level <;> decide
  rw [joined, if_neg (hequal _ h)]
  split
  · next hkind => rcases (hlogical _ h).1 hkind with rfl | rfl <;> rfl
  · next hkind =>
    cases level with
    | or => exact absurd ((hlogical _ h).2 (.inl rfl)) hkind
    | and => exact absurd ((hlogical _ h).2 (.inr rfl)) hkind
    | _ => rfl

/-- What joins two operands has the same form at every level. -/
theorem readsBack_join {level : Level} {left right : Expr} {operator : Token} (hcut : operator.Cut)
    (hkind : operator.kind ∈ level.operators) (hl : left.ReadsBack) (hr : right.ReadsBack) :
    (level.join left operator right).ReadsBack := by
  have hform : ∀ (l r : Expr) (t : Token),
      (level.join l t r).form = .node t.lexeme.toList [l.form, r.form] := by
    intro l r t
    cases level <;> rfl
  have hnormal : (level.join left operator right).normal =
      level.join left.normal (operator.reline fun _ => 0) right.normal := by
    cases level <;> rfl
  have hplain : ∀ kind ∈ level.operators, kind ∉ [.leftParen, .rightParen, .string, .number] := by
    cases level <;> decide
  refine ⟨?_, ?_, ?_⟩
  · rw [hform]
    exact ⟨hcut.isWord (hplain _ hkind), hl.legible, hr.legible, trivial⟩
  · rw [hform, hnormal, Form.expr?, hcut.ofLexeme?_eq, hl.expr?, hr.expr?]
    exact congrArg some (joined_eq_join (by rwa [Token.reline_kind]) _ _)
  · rw [hnormal, hform, hform, hl.form_normal, hr.form_normal]
    rfl

end Expr

/-! ## Statements -/

/-- The written form of the statement can be read back. -/
structure Stmt.ReadsBack (s : Stmt) : Prop where
  legible : s.form.Legible
  stmt? : s.form.stmt? = some s.normal
  form_normal : s.normal.form = s.form

namespace Stmt

section Normal

variable (name : Token) (e : Expr) (s s' : Stmt) (body : List Stmt)

@[simp] theorem normal_expression : (expression e).normal = .expression e.normal := by
  rw [normal, nameInfinite, reline, Expr.normal]

@[simp] theorem normal_print : (print e).normal = .print e.normal := by
  rw [normal, nameInfinite, reline, Expr.normal]

@[simp] theorem normal_varDecl (initializer : Option Expr) :
    (varDecl name initializer).normal =
      .varDecl (name.reline fun _ => 0) (initializer.map Expr.normal) := by
  rw [normal, nameInfinite, reline, Option.map_map]
  rfl

@[simp] theorem normal_block : (block body).normal = .block (normalBody body) := by
  rw [normal, nameInfinite, reline, normalBody]

@[simp] theorem normal_ifThen : (ifThen e s).normal = .ifThen e.normal s.normal := by
  rw [normal, nameInfinite, reline, Expr.normal, normal]

@[simp] theorem normal_ifElse :
    (ifElse e s s').normal = .ifElse e.normal s.normal s'.normal := by
  rw [normal, nameInfinite, reline, Expr.normal, normal, normal]

end Normal

theorem normalBody_cons (s : Stmt) (ss : List Stmt) :
    normalBody (s :: ss) = s.normal :: normalBody ss := by
  rw [normalBody, nameInfiniteBody, relineBody, normal, normalBody]

/-- The heads that statements are written with. -/
theorem ofLexeme?_heads :
    Token.ofLexeme? ";".toList = some ⟨.semicolon, ";", none, 0⟩ ∧
      Token.ofLexeme? "print".toList = some ⟨.kwPrint, "print", none, 0⟩ ∧
      Token.ofLexeme? "var".toList = some ⟨.kwVar, "var", none, 0⟩ ∧
      Token.ofLexeme? "block".toList = some ⟨.identifier, "block", none, 0⟩ ∧
      Token.ofLexeme? "if".toList = some ⟨.kwIf, "if", none, 0⟩ := by
  decide +kernel

theorem readsBack_expression {e : Expr} (h : e.ReadsBack) : (Stmt.expression e).ReadsBack where
  legible := by
    rw [form]
    exact ⟨by decide, h.legible, trivial⟩
  stmt? := by
    rw [form, Form.stmt?, ofLexeme?_heads.1, Option.bind_some, assembled, h.expr?,
      normal_expression]
    rfl
  form_normal := by rw [normal_expression, form, h.form_normal, form]

theorem readsBack_print {e : Expr} (h : e.ReadsBack) : (Stmt.print e).ReadsBack where
  legible := by
    rw [form]
    exact ⟨by decide, h.legible, trivial⟩
  stmt? := by
    rw [form, Form.stmt?, ofLexeme?_heads.2.1, Option.bind_some, assembled, h.expr?, normal_print]
    rfl
  form_normal := by rw [normal_print, form, h.form_normal, form]

section Declaration

variable {name : Token} (hcut : name.Cut) (hkind : name.kind = .identifier)

include hcut hkind

theorem readsBack_bare : (Stmt.varDecl name none).ReadsBack where
  legible := by
    rw [form]
    exact ⟨by decide, (Expr.readsBack_var hcut hkind).legible, trivial⟩
  stmt? := by
    rw [form, Form.stmt?, ofLexeme?_heads.2.2.1, Option.bind_some, assembled, hcut.ofLexeme?_eq,
      normal_varDecl]
    rfl
  form_normal := by
    rw [normal_varDecl, Option.map_none, form, form]
    rfl

theorem readsBack_initialized {e : Expr} (h : e.ReadsBack) :
    (Stmt.varDecl name (some e)).ReadsBack where
  legible := by
    rw [form]
    exact ⟨by decide, (Expr.readsBack_var hcut hkind).legible, h.legible, trivial⟩
  stmt? := by
    rw [form, Form.stmt?, ofLexeme?_heads.2.2.1, Option.bind_some, assembled, hcut.ofLexeme?_eq,
      h.expr?, normal_varDecl]
    rfl
  form_normal := by
    rw [normal_varDecl, Option.map_some, form, form, h.form_normal]
    rfl

end Declaration

theorem readsBack_ifThen {c : Expr} {s : Stmt} (hc : c.ReadsBack) (h : s.ReadsBack) :
    (Stmt.ifThen c s).ReadsBack where
  legible := by
    rw [form]
    exact ⟨by decide, hc.legible, h.legible, trivial⟩
  stmt? := by
    rw [form, Form.stmt?, ofLexeme?_heads.2.2.2.2, Option.bind_some, partStmts, partStmts, h.stmt?,
      partStmts, assembled, hc.expr?, normal_ifThen]
    rfl
  form_normal := by rw [normal_ifThen, form, form, hc.form_normal, h.form_normal]

theorem readsBack_ifElse {c : Expr} {s s' : Stmt} (hc : c.ReadsBack) (h : s.ReadsBack)
    (h' : s'.ReadsBack) : (Stmt.ifElse c s s').ReadsBack where
  legible := by
    rw [form]
    exact ⟨by decide, hc.legible, h.legible, h'.legible, trivial⟩
  stmt? := by
    rw [form, Form.stmt?, ofLexeme?_heads.2.2.2.2, Option.bind_some, partStmts, partStmts, h.stmt?,
      partStmts, h'.stmt?, partStmts, assembled, hc.expr?, normal_ifElse]
    rfl
  form_normal := by
    rw [normal_ifElse, form, form, hc.form_normal, h.form_normal, h'.form_normal]

section Body

variable {ss : List Stmt}

theorem partsLegible_bodyForms (h : ∀ s ∈ ss, s.ReadsBack) : PartsLegible (bodyForms ss) := by
  induction ss with
  | nil =>
    rw [bodyForms]
    trivial
  | cons s ss ih =>
    rw [List.forall_mem_cons] at h
    rw [bodyForms]
    exact ⟨h.1.legible, ih h.2⟩

theorem mapM_partStmts (h : ∀ s ∈ ss, s.ReadsBack) :
    (partStmts (bodyForms ss)).mapM id = some (normalBody ss) := by
  induction ss with
  | nil =>
    rw [bodyForms, partStmts]
    rfl
  | cons s ss ih =>
    rw [List.forall_mem_cons] at h
    rw [bodyForms, partStmts, h.1.stmt?, List.mapM_cons, ih h.2, normalBody_cons]
    rfl

theorem bodyForms_normalBody (h : ∀ s ∈ ss, s.ReadsBack) :
    bodyForms (normalBody ss) = bodyForms ss := by
  induction ss with
  | nil => rfl
  | cons s ss ih =>
    rw [List.forall_mem_cons] at h
    rw [normalBody_cons, bodyForms, h.1.form_normal, ih h.2, bodyForms]

theorem readsBack_block (h : ∀ s ∈ ss, s.ReadsBack) : (Stmt.block ss).ReadsBack where
  legible := by
    rw [form]
    exact ⟨by decide, partsLegible_bodyForms h⟩
  stmt? := by
    rw [form, Form.stmt?, ofLexeme?_heads.2.2.2.1, Option.bind_some, assembled, mapM_partStmts h,
      normal_block]
    rfl
  form_normal := by rw [normal_block, form, bodyForms_normalBody h, form]

end Body

end Stmt

/-! ## Trees of a source -/

namespace Grammar

theorem Derives.readsBack {rule : Rule} {ts : List Token} {e : Expr} (h : Derives rule ts e)
    (hts : ∀ t ∈ ts, t.Cut) : e.ReadsBack := by
  induction h with
  | assign hname _ _ ih =>
    simp only [List.forall_mem_cons] at hts
    exact Expr.readsBack_assign hts.1 hname (ih hts.2.2)
  | unassigned _ ih | operand _ ih | unsigned _ ih => exact ih hts
  | join _ hoperator hnode _ ihl ihr =>
    simp only [List.forall_mem_append, List.forall_mem_cons] at hts
    rw [hnode.eq_join]
    exact Expr.readsBack_join hts.2.1 hoperator.mem_operators (ihl hts.1) (ihr hts.2.2)
  | sign hsign _ ih =>
    rw [List.forall_mem_cons] at hts
    exact Expr.readsBack_unary hts.1 hsign (ih hts.2)
  | @number t n _ hliteral =>
    obtain ⟨m, rfl⟩ := (hts t List.mem_cons_self).exists_magnitude hliteral
    cases hinfinite : m.isInfinite with
    | true => exact Expr.readsBack_infinite hinfinite
    | false => exact Expr.readsBack_finite hinfinite
  | @string t s _ hliteral =>
    exact Expr.readsBack_text ((hts t List.mem_cons_self).quote_not_mem hliteral)
  | kwTrue | kwFalse | kwNil =>
    exact Expr.readsBack_word rfl (by decide) (by decide +kernel) rfl
  | name hkind => exact Expr.readsBack_var (hts _ List.mem_cons_self) hkind
  | group _ _ _ ih =>
    simp only [List.forall_mem_append, List.forall_mem_cons] at hts
    exact Expr.readsBack_grouping (ih hts.1.2)

mutual

theorem DerivesStatement.readsBack : ∀ {ts : List Token} {s : Stmt}, DerivesStatement ts s →
    (∀ t ∈ ts, t.Cut) → s.ReadsBack
  | _, _, .ifThen _ _ hc _ hs, hts => by
    simp only [List.forall_mem_append, List.forall_mem_cons] at hts
    exact Stmt.readsBack_ifThen (hc.readsBack hts.1.2.2) (hs.readsBack hts.2.2)
  | _, _, .ifElse _ _ hc _ hs _ hs', hts => by
    simp only [List.forall_mem_append, List.forall_mem_cons] at hts
    exact Stmt.readsBack_ifElse (hc.readsBack hts.1.1.2.2) (hs.readsBack hts.1.2.2)
      (hs'.readsBack hts.2.2)
  | _, _, .print _ he _, hts => by
    simp only [List.forall_mem_append, List.forall_mem_cons] at hts
    exact Stmt.readsBack_print (he.readsBack hts.1.2)
  | _, _, .block _ hbody _, hts => by
    simp only [List.forall_mem_append, List.forall_mem_cons] at hts
    exact Stmt.readsBack_block (hbody.readsBack hts.1.2)
  | _, _, .expression he _, hts => by
    rw [List.forall_mem_append] at hts
    exact Stmt.readsBack_expression (he.readsBack hts.1)

theorem DerivesDeclaration.readsBack : ∀ {ts : List Token} {s : Stmt}, DerivesDeclaration ts s →
    (∀ t ∈ ts, t.Cut) → s.ReadsBack
  | _, _, .bare _ hname _, hts => by
    simp only [List.forall_mem_cons] at hts
    exact Stmt.readsBack_bare hts.2.1 hname
  | _, _, .initialized _ hname _ he _, hts => by
    simp only [List.forall_mem_append, List.forall_mem_cons] at hts
    exact Stmt.readsBack_initialized hts.1.2.1 hname (he.readsBack hts.1.2.2.2)
  | _, _, .statement hs, hts => hs.readsBack hts

/-- Every statement derived from tokens of some source reads back. -/
theorem DerivesBody.readsBack : ∀ {ts : List Token} {ss : List Stmt}, DerivesBody ts ss →
    (∀ t ∈ ts, t.Cut) → ∀ s ∈ ss, s.ReadsBack
  | _, _, .nil, _ => by simp
  | _, _, .cons hd hbody, hts => by
    rw [List.forall_mem_append] at hts
    rw [List.forall_mem_cons]
    exact ⟨hd.readsBack hts.1, hbody.readsBack hts.2⟩

end

end Grammar

/-- Two statements that read back are written alike exactly if they have the
same normal form. -/
theorem Stmt.ReadsBack.text_eq_iff {s r : Stmt} (hs : s.ReadsBack) (hr : r.ReadsBack) :
    s.text = r.text ↔ s.normal = r.normal := by
  constructor
  · intro htext
    have hchars : s.form.chars = r.form.chars := by rw [← s.toList_text, htext, r.toList_text]
    have hform := Form.chars_inj hs.legible hr.legible hchars
    have hread := hs.stmt?
    rw [hform, hr.stmt?] at hread
    exact (Option.some.inj hread).symm
  · intro hnormal
    have hform : s.form = r.form := by rw [← hs.form_normal, hnormal, hr.form_normal]
    rw [← String.toList_inj, s.toList_text, hform, r.toList_text]

theorem Stmt.map_text_eq_iff : ∀ {ss rs : List Stmt}, (∀ s ∈ ss, s.ReadsBack) →
    (∀ r ∈ rs, r.ReadsBack) → (ss.map text = rs.map text ↔ normalBody ss = normalBody rs)
  | [], [], _, _ => by simp
  | [], r :: rs, _, _ => by simp [normalBody, nameInfiniteBody, relineBody]
  | s :: ss, [], _, _ => by simp [normalBody, nameInfiniteBody, relineBody]
  | s :: ss, r :: rs, hss, hrs => by
    rw [List.forall_mem_cons] at hss hrs
    rw [List.map_cons, List.map_cons, List.cons.injEq, normalBody_cons, normalBody_cons,
      List.cons.injEq, hss.1.text_eq_iff hrs.1, map_text_eq_iff hss.2 hrs.2]

/-- **The written form of a program determines its tree.** Two sources that
compile are written alike, statement by statement, exactly if their
statements are equal once every infinite literal is a variable named `inf` and
every token is on the same line. -/
theorem texts_eq_iff {source₁ source₂ : String} {ss₁ ss₂ : List Stmt}
    (h₁ : (compile [] source₁).result = .ok ss₁) (h₂ : (compile [] source₂).result = .ok ss₂) :
    ss₁.map Stmt.text = ss₂.map Stmt.text ↔
      Stmt.relineBody (fun _ => 0) (Stmt.nameInfiniteBody ss₁) =
        Stmt.relineBody (fun _ => 0) (Stmt.nameInfiniteBody ss₂) := by
  have hread : ∀ {source : String} {ss : List Stmt}, (compile [] source).result = .ok ss →
      ∀ s ∈ ss, s.ReadsBack := by
    intro source ss h
    obtain ⟨-, hderives, -⟩ := compile_iff_derives.1 h
    exact hderives.readsBack fun t ht => Scan.cut_of_mem_body ht
  exact Stmt.map_text_eq_iff (hread h₁) (hread h₂)

/-- A difference whose left operand is too large for a number. -/
def overflowing : String := "print " ++ String.ofList (List.replicate 310 '9') ++ " - -inf;"

theorem scan_overflowing : Scan.ofSource overflowing =
    { body :=
        [⟨.kwPrint, "print", none, 1⟩,
          ⟨.number, String.ofList (List.replicate 310 '9'),
            some (.number (.signed false .infinity)), 1⟩,
          ⟨.minus, "-", none, 1⟩, ⟨.minus, "-", none, 1⟩, ⟨.identifier, "inf", none, 1⟩,
          ⟨.semicolon, ";", none, 1⟩]
      lines := 1
      faults := [] } := by
  have htext : overflowing.toList =
      "print ".toList ++ List.replicate 310 '9' ++ " - -inf;".toList := by
    simp only [overflowing, String.toList_append, String.toList_ofList]
  rw [Scan.ofSource, htext]
  decide +kernel

/-- It is written like one with a name for that operand, which stands on
other lines. -/
theorem texts_eq_iff_of_overflowing :
    let minus (line : Nat) : Token := ⟨.minus, "-", none, line⟩
    let inf (line : Nat) : Expr := .var ⟨.identifier, "inf", none, line⟩
    let large : Expr := .literal (.number (.signed false .infinity))
    let ss₁ : List Stmt := [.print (.binary large (minus 1) (.unary (minus 1) (inf 1)))]
    let ss₂ : List Stmt := [.print (.binary (inf 1) (minus 2) (.unary (minus 2) (inf 2)))]
    (compile [] overflowing).result = .ok ss₁ ∧
      (compile [] "print inf\n- -inf;").result = .ok ss₂ ∧
      ss₁.map Stmt.text = ss₂.map Stmt.text := by
  intro minus inf large ss₁ ss₂
  have h₁ : (compile [] overflowing).result = .ok ss₁ := by
    rw [compile_eq_ok, scan_overflowing]
    decide +kernel
  have h₂ : (compile [] "print inf\n- -inf;").result = .ok ss₂ := by decide +kernel
  exact ⟨h₁, h₂, (texts_eq_iff h₁ h₂).2 (by decide +kernel)⟩

end Lox

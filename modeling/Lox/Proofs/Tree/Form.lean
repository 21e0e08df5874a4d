/-
Written trees. The text of a tree is that of a form: a word, a text in
quotes, or a head with its parts in parentheses (`toList_text`). A form has no
marks for where a part belongs or how many there are, yet it is told by its
characters (`Form.chars_inj`), provided it is legible: no word in it has a
space, a parenthesis or a quote, and no text in quotes has a quote.
-/
import Lox.Proofs.Source.Rules
import Lox.Tree.Stmt

namespace Lox

/-- What a tree is written as. -/
inductive Form where
  | word (w : List Char)
  | quoted (s : List Char)
  | node (head : List Char) (parts : List Form)

namespace Form

mutual

/-- What is written for a form. -/
def chars : Form → List Char
  | .word w => w
  | .quoted s => '"' :: (s ++ ['"'])
  | .node head parts => '(' :: (head ++ (partsChars parts ++ [')']))

/-- The parts of a node, a space before each. -/
def partsChars : List Form → List Char
  | [] => []
  | f :: fs => ' ' :: (f.chars ++ partsChars fs)

end

/-- The characters that a word may have. -/
def isPlain (c : Char) : Bool := c != ' ' && c != '(' && c != ')' && c != '"'

/-- All characters of it are such. -/
def IsWord (w : List Char) : Prop := ∀ c ∈ w, isPlain c = true

instance (w : List Char) : Decidable (IsWord w) :=
  decidable_of_iff (w.all isPlain = true) List.all_eq_true

mutual

/-- Every word is one, and quotes hold no quote. -/
def Legible : Form → Prop
  | .word w => IsWord w
  | .quoted s => '"' ∉ s
  | .node head parts => IsWord head ∧ PartsLegible parts

/-- The same of every part of a node. -/
def PartsLegible : List Form → Prop
  | [] => True
  | f :: fs => f.Legible ∧ PartsLegible fs

end

/-! ## A form is told by its characters -/

/-- What may stand after a part: the next part, or the end of the node. -/
def Stops (u : List Char) : Prop := ∀ c, u.head? = some c → c = ' ' ∨ c = ')'

theorem stops_nil : Stops [] := nofun

theorem stops_partsChars (fs : List Form) (u : List Char) : Stops (partsChars fs ++ ')' :: u) := by
  intro c hc
  cases fs with
  | nil =>
    rw [partsChars] at hc
    cases hc
    exact .inr rfl
  | cons f fs =>
    rw [partsChars] at hc
    cases hc
    exact .inl rfl

theorem Stops.isPlain {u : List Char} (h : Stops u) :
    ∀ c, u.head? = some c → isPlain c = false := by
  intro c hc
  rcases h c hc with rfl | rfl <;> rfl

/-- A word stops neither at a quote nor at an opening parenthesis, so nothing
that begins with one is a word and what follows it. -/
theorem word_append_ne {w u v : List Char} {c : Char} (hw : IsWord w) (hu : Stops u)
    (hc : isPlain c = false) (hspace : c ≠ ' ') (hright : c ≠ ')') : w ++ u ≠ c :: v := by
  intro h
  cases w with
  | nil =>
    rw [List.nil_append] at h
    rw [h] at hu
    rcases hu c rfl with hc | hc
    · exact hspace hc
    · exact hright hc
  | cons c' w =>
    obtain ⟨rfl, -⟩ := List.cons.inj h
    rw [hw c' List.mem_cons_self] at hc
    cases hc

theorem quoted_append_inj {s s' u v : List Char} (hs : '"' ∉ s) (hs' : '"' ∉ s')
    (h : s ++ '"' :: u = s' ++ '"' :: v) : s = s' ∧ u = v := by
  have hquote : ∀ (u : List Char) (c : Char), ('"' :: u).head? = some c → (c != '"') = false := by
    intro u c hc
    cases hc
    rfl
  obtain ⟨rfl, hrest⟩ := Piece.span_inj (Piece.all_ne hs) (hquote u) (Piece.all_ne hs') (hquote v) h
  exact ⟨rfl, (List.cons.inj hrest).2⟩

mutual

/-- Of two legible forms in front of something that stops them, neither is
the beginning of the other. -/
theorem chars_append_inj : ∀ {f g : Form} {u v : List Char}, f.Legible → g.Legible → Stops u →
    Stops v → f.chars ++ u = g.chars ++ v → f = g ∧ u = v
  | .word w, .word w', u, v, hf, hg, hu, hv, h => by
    simp only [chars] at h
    obtain ⟨rfl, rfl⟩ := Piece.span_inj hf hu.isPlain hg hv.isPlain h
    exact ⟨rfl, rfl⟩
  | .word w, .quoted s, u, v, hf, _, hu, _, h =>
    absurd h (word_append_ne hf hu rfl (by decide) (by decide))
  | .word w, .node head parts, u, v, hf, _, hu, _, h =>
    absurd h (word_append_ne hf hu rfl (by decide) (by decide))
  | .quoted s, .word w, u, v, _, hg, _, hv, h =>
    absurd h.symm (word_append_ne hg hv rfl (by decide) (by decide))
  | .node head parts, .word w, u, v, _, hg, _, hv, h =>
    absurd h.symm (word_append_ne hg hv rfl (by decide) (by decide))
  | .quoted s, .quoted s', u, v, hf, hg, _, _, h => by
    simp only [chars, List.cons_append, List.append_assoc, List.nil_append, List.cons.injEq,
      true_and] at h
    obtain ⟨rfl, rfl⟩ := quoted_append_inj hf hg h
    exact ⟨rfl, rfl⟩
  | .quoted s, .node head parts, u, v, _, _, _, _, h => by simp [chars] at h
  | .node head parts, .quoted s, u, v, _, _, _, _, h => by simp [chars] at h
  | .node head parts, .node head' parts', u, v, hf, hg, _, _, h => by
    simp only [chars, List.cons_append, List.append_assoc, List.nil_append, List.cons.injEq,
      true_and] at h
    obtain ⟨rfl, hparts⟩ := Piece.span_inj hf.1 (stops_partsChars parts u).isPlain hg.1
      (stops_partsChars parts' v).isPlain h
    obtain ⟨rfl, rfl⟩ := partsChars_append_inj hf.2 hg.2 hparts
    exact ⟨rfl, rfl⟩

/-- So the parts of a node are told apart up to its end. -/
theorem partsChars_append_inj : ∀ {fs gs : List Form} {u v : List Char}, PartsLegible fs →
    PartsLegible gs → partsChars fs ++ ')' :: u = partsChars gs ++ ')' :: v → fs = gs ∧ u = v
  | [], [], u, v, _, _, h => by
    simp only [partsChars, List.nil_append, List.cons.injEq, true_and] at h
    exact ⟨rfl, h⟩
  | [], _ :: _, u, v, _, _, h | _ :: _, [], u, v, _, _, h => by simp [partsChars] at h
  | f :: fs, g :: gs, u, v, hfs, hgs, h => by
    simp only [partsChars, List.cons_append, List.append_assoc, List.cons.injEq, true_and] at h
    obtain ⟨rfl, hrest⟩ := chars_append_inj hfs.1 hgs.1 (stops_partsChars fs u)
      (stops_partsChars gs v) h
    obtain ⟨rfl, rfl⟩ := partsChars_append_inj hfs.2 hgs.2 hrest
    exact ⟨rfl, rfl⟩

end

/-- **A legible form is told by its characters.** -/
theorem chars_inj {f g : Form} (hf : f.Legible) (hg : g.Legible) (h : f.chars = g.chars) :
    f = g := by
  refine (chars_append_inj hf hg stops_nil stops_nil ?_).1
  rw [List.append_nil, List.append_nil, h]

end Form

/-! ## The forms of trees -/

/-- The form of a literal: texts stand in quotes. -/
def Value.form : Value → Form
  | .text s => .quoted s.toList
  | value => .word value.display.toList

/-- The form of an expression. -/
def Expr.form : Expr → Form
  | .literal value => value.form
  | .grouping inner => .node "group".toList [inner.form]
  | .unary operator operand => .node operator.lexeme.toList [operand.form]
  | .binary left operator right | .logical left operator right =>
    .node operator.lexeme.toList [left.form, right.form]
  | .var name => .word name.lexeme.toList
  | .assign name value => .node "=".toList [.word name.lexeme.toList, value.form]

namespace Stmt

mutual

/-- The form of a statement. -/
def form : Stmt → Form
  | .expression e => .node ";".toList [e.form]
  | .print e => .node "print".toList [e.form]
  | .varDecl name (some e) => .node "var".toList [.word name.lexeme.toList, e.form]
  | .varDecl name none => .node "var".toList [.word name.lexeme.toList]
  | .block body => .node "block".toList (bodyForms body)
  | .ifThen condition thenBranch => .node "if".toList [condition.form, thenBranch.form]
  | .ifElse condition thenBranch elseBranch =>
    .node "if".toList [condition.form, thenBranch.form, elseBranch.form]

/-- The forms of statements one after another. -/
def bodyForms : List Stmt → List Form
  | [] => []
  | s :: ss => s.form :: bodyForms ss

end

end Stmt

open Form

theorem Expr.toList_text (e : Expr) : e.text.toList = e.form.chars := by
  induction e with
  | literal value =>
    cases value with
    | text s => simp [text, literalText, form, Value.form, chars]
    | _ => rfl
  | grouping inner ih => simp [text, form, chars, partsChars, ih]
  | unary operator operand ih => simp [text, form, chars, partsChars, ih]
  | binary left operator right ihl ihr | logical left operator right ihl ihr =>
    simp [text, form, chars, partsChars, ihl, ihr]
  | var name => rfl
  | assign name value ih => simp [text, form, chars, partsChars, ih]

namespace Stmt

mutual

theorem toList_text : ∀ s : Stmt, s.text.toList = s.form.chars
  | .expression e => by simp [text, form, chars, partsChars, e.toList_text]
  | .print e => by simp [text, form, chars, partsChars, e.toList_text]
  | .varDecl name (some e) => by simp [text, form, chars, partsChars, e.toList_text]
  | .varDecl name none => by simp [text, form, chars, partsChars]
  | .block body => by simp [text, form, chars, toList_bodyText body]
  | .ifThen condition thenBranch => by
    simp [text, form, chars, partsChars, condition.toList_text, toList_text thenBranch]
  | .ifElse condition thenBranch elseBranch => by
    simp [text, form, chars, partsChars, condition.toList_text, toList_text thenBranch,
      toList_text elseBranch]

theorem toList_bodyText : ∀ ss : List Stmt, (bodyText ss).toList = partsChars (bodyForms ss)
  | [] => by simp [bodyText, bodyForms, partsChars]
  | s :: ss => by simp [bodyText, bodyForms, partsChars, toList_text s, toList_bodyText ss]

end

end Stmt

end Lox

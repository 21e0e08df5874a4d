/-
Two texts with a line break between them. A piece that has an end is cut
from the first text as it is cut from both (`cut_seam`): a line break ends
numbers, words, operators and line comments, and strings and block comments
that are closed are closed already. So the pieces of the whole are those of
the first text, the line break, and those of the second (`pieces_seam`).

But for line comments, the same goes for any text that begins with a
character no piece goes on with (`cut_apart`).

For scans: the tokens and faults of the second text follow those of the
first, on lines that are so many further down (`Scan.body_joined`).
-/
import Lox.Proofs.Source.Munch
import Lox.Proofs.Tree.Reline

namespace Lox

/-- The fault on another line. -/
def LexicalFault.reline (f : Nat → Nat) (fault : LexicalFault) : LexicalFault :=
  { fault with line := f fault.line }

namespace Piece

/-- The piece has no end, and takes what follows it. -/
def isOpen (p : Piece) : Bool :=
  p.role == .fault .unterminatedString || p.role == .fault .unterminatedComment

/-! ## One piece -/

/-- Whether a piece may go on with the character it stands before: with more
digits or letters, or as another operator or a comment. -/
def goesOn (c : Char) : Bool :=
  continuesWord c || c == '.' || c == '=' || c == '/' || c == '*'

/-- Nothing, or first a character that no piece goes on with. -/
def Apart (u : List Char) : Prop := ∀ c, u.head? = some c → goesOn c = false

theorem Apart.ne {u : List Char} (hu : Apart u) {c d : Char} (hd : goesOn d = true)
    (hc : u.head? = some c) : c ≠ d := by
  rintro rfl
  rw [hu c hc] at hd
  cases hd

theorem Apart.continuesWord {u : List Char} (hu : Apart u) :
    ∀ c, u.head? = some c → continuesWord c = false := by
  intro c hc
  have h := hu c hc
  simp only [goesOn, Bool.or_eq_false_iff] at h
  exact h.1.1.1.1

theorem Apart.isDigit {u : List Char} (hu : Apart u) :
    ∀ c, u.head? = some c → c.isDigit = false := by
  intro c hc
  have h := hu.continuesWord c hc
  simp only [Piece.continuesWord, Char.isAlphanum, Bool.or_eq_false_iff] at h
  exact h.1.2

theorem apart_newline (u : List Char) : Apart ('\n' :: u) := by
  rintro _ ⟨⟩
  rfl

section Span

variable {p : Char → Bool} {u : List Char} (hu : ∀ c, u.head? = some c → p c = false)
  (t : List Char)

include hu

/-- A span that stops at what comes next does not see past it. -/
theorem takeWhile_apart : (t ++ u).takeWhile p = t.takeWhile p := by
  have hnil : u.takeWhile p = [] := takeWhile_span (List.forall_mem_nil _) hu
  rw [List.takeWhile_append, hnil, List.append_nil]
  split
  · next hall => exact ((List.takeWhile_sublist p).eq_of_length hall).symm
  · rfl

theorem dropWhile_apart : (t ++ u).dropWhile p = t.dropWhile p ++ u := by
  have hself : u.dropWhile p = u := dropWhile_span (List.forall_mem_nil _) hu
  rw [List.dropWhile_append, hself]
  split
  · next hall =>
    rw [List.isEmpty_iff.mp hall]
    rfl
  · rfl

end Span

section Stop

variable {p : Char → Bool} {t : List Char} {stop : Char} (ht : stop ∈ t) (hstop : p stop = false)

include ht hstop

theorem takeWhile_ne_of_mem : t.takeWhile p ≠ t := by
  intro hall
  have hpos := all_takeWhile p t stop (by rw [hall]; exact ht)
  rw [hstop] at hpos
  cases hpos

/-- A span that stops inside a text does not see past the text. -/
theorem takeWhile_append_of_mem (u : List Char) : (t ++ u).takeWhile p = t.takeWhile p := by
  rw [List.takeWhile_append, if_neg]
  intro hall
  exact takeWhile_ne_of_mem ht hstop ((List.takeWhile_sublist p).eq_of_length hall)

theorem dropWhile_append_of_mem (u : List Char) : (t ++ u).dropWhile p = t.dropWhile p ++ u := by
  rw [List.dropWhile_append, if_neg]
  intro hnil
  have hsplit := List.takeWhile_append_dropWhile (p := p) (l := t)
  rw [List.isEmpty_iff.mp hnil, List.append_nil] at hsplit
  exact takeWhile_ne_of_mem ht hstop hsplit

end Stop

theorem cutString_append_right {rest : List Char} (h : (cutString rest).1.isOpen = false)
    (u : List Char) : cutString (rest ++ u) = ((cutString rest).1, (cutString rest).2 ++ u) := by
  unfold cutString at h ⊢
  cases hdrop : rest.dropWhile (· != '"') with
  | nil =>
    rw [hdrop] at h
    cases h
  | cons quote after =>
    have hmem : quote ∈ rest := (List.dropWhile_sublist _).mem (by rw [hdrop]; exact .head after)
    have hstop := head?_dropWhile (· != '"') rest quote (by rw [hdrop]; rfl)
    rw [takeWhile_append_of_mem hmem hstop, dropWhile_append_of_mem hmem hstop, hdrop]
    rfl

theorem closeComment?_append_right (u : List Char) : ∀ {t closed after : List Char},
    closeComment? t = some (closed, after) → closeComment? (t ++ u) = some (closed, after ++ u)
  | t, closed, after, h => by
    obtain ⟨body, rfl, hfirst⟩ := first_of_closeComment? h
    have htext := closeComment?_append h
    rw [← htext, List.append_assoc, List.append_assoc]
    exact closeComment?_first hfirst

section Apart

variable {u : List Char} (hu : Apart u)

include hu

theorem cutNumber_apart (first : Char) (t : List Char) :
    cutNumber first (t ++ u) = ((cutNumber first t).1, (cutNumber first t).2 ++ u) := by
  unfold cutNumber
  rw [takeWhile_apart hu.isDigit, dropWhile_apart hu.isDigit]
  match t.dropWhile Char.isDigit with
  | [] =>
    cases u with
    | nil => rfl
    | cons c u => simp [hu.ne (d := '.') rfl rfl]
  | [c] =>
    -- A point at the very end has no digit after it.
    by_cases hc : c = '.'
    · subst hc
      cases u with
      | nil => rfl
      | cons c u => simp [hu.isDigit c rfl]
    · simp [hc]
  | c :: digit :: after =>
    by_cases hc : c = '.'
    · subst hc
      by_cases hdigit : digit.isDigit = true
      · simp only [List.cons_append, hdigit, if_true, takeWhile_apart hu.isDigit,
          dropWhile_apart hu.isDigit]
      · simp [hdigit]
    · simp [hc]

theorem cutWord_apart (first : Char) (t : List Char) :
    cutWord first (t ++ u) = ((cutWord first t).1, (cutWord first t).2 ++ u) := by
  rw [cutWord, takeWhile_apart hu.continuesWord, dropWhile_apart hu.continuesWord]
  rfl

theorem cutSlash_apart {t : List Char} (h : (cutSlash t).1.isOpen = false)
    (hline : t.head? = some '/' → '\n' ∉ t → ∀ c, u.head? = some c → c = '\n') :
    cutSlash (t ++ u) = ((cutSlash t).1, (cutSlash t).2 ++ u) := by
  match t with
  | [] =>
    cases u with
    | nil => rfl
    | cons c u => simp [cutSlash, hu.ne (d := '/') rfl rfl, hu.ne (d := '*') rfl rfl]
  | c :: rest =>
    by_cases hslash : c = '/'
    · subst hslash
      by_cases hbreak : '\n' ∈ rest
      · have hstop : ('\n' != '\n') = false := rfl
        simp only [List.cons_append, cutSlash,
          takeWhile_append_of_mem (p := (· != '\n')) hbreak hstop,
          dropWhile_append_of_mem (p := (· != '\n')) hbreak hstop]
      · have hstops : ∀ c, u.head? = some c → (c != '\n') = false := by
          intro c hc
          simp [hline rfl (by simpa using hbreak) c hc]
        simp only [List.cons_append, cutSlash, takeWhile_apart hstops, dropWhile_apart hstops]
    · by_cases hblock : c = '*'
      · subst hblock
        simp only [List.cons_append, cutSlash] at h ⊢
        cases hclose : closeComment? rest with
        | none =>
          rw [hclose] at h
          cases h
        | some closed => simp only [closeComment?_append_right _ hclose]
      · simp [cutSlash, hslash, hblock]

theorem cutMark_apart (first : Char) (t : List Char) :
    cutMark first (t ++ u) = ((cutMark first t).1, (cutMark first t).2 ++ u) := by
  unfold cutMark
  split
  · rfl
  · match t with
    | [] =>
      cases u with
      | nil => rfl
      | cons c u => simp [hu.ne (d := '=') rfl rfl]
    | c :: rest =>
      by_cases hc : c = '='
      · subst hc
        rfl
      · simp [hc]
  · rfl

/-- A piece that has an end is cut without looking at what stands apart from
it; only a comment to the end of the line needs that end. -/
theorem cut_apart {first : Char} {t : List Char} (h : (cut first t).1.isOpen = false)
    (hline : first = '/' → t.head? = some '/' → '\n' ∉ t →
      ∀ c, u.head? = some c → c = '\n') :
    cut first (t ++ u) = ((cut first t).1, (cut first t).2 ++ u) := by
  unfold cut at h ⊢
  split
  · rfl
  next hblank =>
  rw [if_neg hblank] at h
  split
  · next hquote =>
    rw [if_pos hquote] at h
    exact cutString_append_right h _
  next hquote =>
  rw [if_neg hquote] at h
  split
  · exact cutNumber_apart hu first t
  next hdigit =>
  rw [if_neg hdigit] at h
  split
  · exact cutWord_apart hu first t
  next hword =>
  rw [if_neg hword] at h
  split
  · next hslash =>
    rw [if_pos hslash] at h
    exact cutSlash_apart hu h (hline (eq_of_beq hslash))
  · exact cutMark_apart hu first t

end Apart

/-- A piece that has an end is cut without looking past a line break. -/
theorem cut_seam {first : Char} {t : List Char} (h : (cut first t).1.isOpen = false)
    (u : List Char) :
    cut first (t ++ '\n' :: u) = ((cut first t).1, (cut first t).2 ++ '\n' :: u) := by
  refine cut_apart (apart_newline u) h fun _ _ _ c hc => ?_
  cases hc
  rfl

/-! ## All pieces -/

/-- If every piece of a text has an end, a line break and another text after
it only add their pieces. -/
theorem pieces_seam {t : List Char} (h : ∀ p ∈ pieces t, p.isOpen = false) (u : List Char) :
    pieces (t ++ '\n' :: u) = pieces t ++ ⟨['\n'], .blank⟩ :: pieces u := by
  fun_induction pieces t with
  | case1 =>
    rw [List.nil_append, pieces, cut_of_isBlank rfl]
    rfl
  | case2 first rest ih =>
    obtain ⟨hfirst, hrest⟩ := List.forall_mem_cons.mp h
    rw [List.cons_append, pieces, cut_seam hfirst, ih hrest, List.cons_append]

/-! ## Lines -/

theorem newlines_append (t u : List Char) : newlines (t ++ u) = newlines t + newlines u :=
  List.count_append

theorem located_append : ∀ (line : Nat) (ps qs : List Piece), located line (ps ++ qs) =
    located line ps ++ located (line + newlines (ps.flatMap text)) qs
  | _, [], _ => rfl
  | line, p :: ps, qs => by
    rw [List.cons_append, located, located, located_append _ ps qs, List.flatMap_cons,
      newlines_append, Nat.add_assoc]
    rfl

/-- Where the first piece begins further down, every piece ends as much
further down. -/
theorem located_add (k : Nat) : ∀ (line : Nat) (ps : List Piece),
    located (line + k) ps = (located line ps).map fun (n, p) => (n + k, p)
  | _, [] => rfl
  | line, p :: ps => by
    rw [located, located, List.map_cons, Nat.add_right_comm, located_add k _ ps]

theorem token?_add (k n : Nat) (p : Piece) :
    p.token? (n + k) = (p.token? n).map (Token.reline (· + k)) := by
  unfold token?
  cases p.role <;> rfl

theorem fault?_add (k n : Nat) (p : Piece) :
    p.fault? (n + k) = (p.fault? n).map (LexicalFault.reline (· + k)) := by
  unfold fault?
  cases p.role <;> rfl

/-- What is read off the pieces of both texts is what is read off the first,
and then off the second, as much further down as the first has lines. -/
theorem filterMap_located_seam {α : Type} {g : Nat × Piece → Option α} {shift : α → α}
    {t : List Char} (hopen : ∀ p ∈ pieces t, p.isOpen = false)
    (hblank : ∀ n, g (n, ⟨['\n'], .blank⟩) = none)
    (h : ∀ n p, g (n + (1 + newlines t), p) = (g (n, p)).map shift) (u : List Char) :
    (located 1 (pieces (t ++ '\n' :: u))).filterMap g =
      (located 1 (pieces t)).filterMap g ++ ((located 1 (pieces u)).filterMap g).map shift := by
  have hline : 1 + newlines t + newlines ['\n'] = 1 + (1 + newlines t) := by
    have hbreak : newlines ['\n'] = 1 := rfl
    omega
  have hshift : (located (1 + (1 + newlines t)) (pieces u)).filterMap g =
      ((located 1 (pieces u)).filterMap g).map shift := by
    rw [located_add, List.filterMap_map, List.map_filterMap]
    congr 1
    funext located
    exact h located.1 located.2
  rw [pieces_seam hopen, located_append, List.filterMap_append, located, flatMap_text_pieces,
    List.filterMap_cons_none (hblank _), hline, hshift]

end Piece

namespace Scan

open Piece

/-- How much further down the second of two joined texts stands. -/
def offset (source : String) : Nat := 1 + newlines source.toList

theorem toList_joined (s₁ s₂ : String) :
    (s₁ ++ "\n" ++ s₂).toList = s₁.toList ++ '\n' :: s₂.toList := by
  rw [String.toList_append, String.toList_append, List.append_assoc]
  rfl

section Joined

variable {s₁ : String} (h : ∀ p ∈ pieces s₁.toList, p.isOpen = false) (s₂ : String)

include h

/-- The tokens of both texts, end marks apart. -/
theorem body_joined : (ofSource (s₁ ++ "\n" ++ s₂)).body =
    (ofSource s₁).body ++ (ofSource s₂).body.map (Token.reline (· + offset s₁)) := by
  simp only [ofSource]
  rw [toList_joined]
  exact filterMap_located_seam h (fun _ => rfl) (token?_add _) _

theorem faults_joined : (ofSource (s₁ ++ "\n" ++ s₂)).faults =
    (ofSource s₁).faults ++ (ofSource s₂).faults.map (LexicalFault.reline (· + offset s₁)) := by
  simp only [ofSource]
  rw [toList_joined]
  exact filterMap_located_seam h (fun _ => rfl) (fault?_add _) _

end Joined

/-! ## Scans that leave nothing open -/

/-- Where no fault is about a missing end, every piece has an end. -/
theorem not_isOpen_of_closed {source : String}
    (h : ∀ fault ∈ (ofSource source).faults,
      fault.cause ≠ .unterminatedString ∧ fault.cause ≠ .unterminatedComment) :
    ∀ p ∈ pieces source.toList, p.isOpen = false := by
  intro p hp
  cases hrole : p.role with
  | fault cause =>
    have hcause : cause ∈ (ofSource source).faults.map LexicalFault.cause := by
      rw [map_faults]
      exact List.mem_filterMap.mpr ⟨p, hp, by rw [cause?, hrole]⟩
    obtain ⟨fault, hfault, rfl⟩ := List.mem_map.mp hcause
    simp [isOpen, hrole, h fault hfault]
  | _ => simp [isOpen, hrole]

theorem not_isOpen_of_clean {source : String} (h : (ofSource source).diagnostics = []) :
    ∀ p ∈ pieces source.toList, p.isOpen = false := by
  refine not_isOpen_of_closed fun fault hfault => ?_
  rw [List.map_eq_nil_iff.mp h] at hfault
  cases hfault

end Scan

end Lox

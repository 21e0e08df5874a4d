/-
Walks and readings. A walk tracks an outcome if from wherever the cursor stands
before some tokens it has a result, ends with what the outcome yields and stands
before what that leaves, with what it logs logged, no place in the trail that
is past the first end mark, and no calls kept (`Marked.Tracks`). One that calls
the rule for declarations does the same, and the calls it keeps are listed
(`Marked.Makes`). What each step of a walk tracks is said first; then each rule
for expressions tracks the reading it stands for (`Marked.assignment_tracks`).
-/
import Lox.Proofs.Cursor.Walk
import Lox.Proofs.Grammar.Calls
import Lox.Proofs.Grammar.Closed

namespace Lox

/-! ## Running walks -/

namespace Walk

variable {α β : Type}

theorem run_bind (x : Walk α) (f : α → Walk β) (c : Cursor) :
    (x >>= f).run.run c = match x.run.run c with
      | none => none
      | some (.ok a, c') => (f a).run.run c'
      | some (.error fault, c') => some (.error fault, c') := by
  change (x.run.run c).bind _ = _
  rcases x.run.run c with _ | ⟨_ | _, _⟩ <;> rfl

theorem run_tryCatch (x : Walk α) (handle : SyntaxFault → Walk α) (c : Cursor) :
    (tryCatch x handle).run.run c = match x.run.run c with
      | none => none
      | some (.ok a, c') => some (.ok a, c')
      | some (.error fault, c') => (handle fault).run.run c' := by
  change (x.run.run c).bind _ = _
  rcases x.run.run c with _ | ⟨_ | _, _⟩ <;> rfl

theorem run_peek (c : Cursor) :
    peek.run.run c = c.tokens[c.current]?.map
      fun t => (.ok t, { c with trail := c.trail ++ [c.current] }) := rfl

theorem run_previous (c : Cursor) :
    previous.run.run c = c.tokens[c.current - 1]?.map
      fun t => (.ok t, { c with trail := c.trail ++ [c.current - 1] }) := rfl

end Walk

/-! ## Where the cursor stands -/

/-- Tokens with an end mark among them, the first of them told apart. -/
structure Marked where
  body : List Token
  mark : Token
  more : List Token
  plain : ∀ t ∈ body, t.kind ≠ .eof
  ends : mark.kind = .eof

namespace Marked

variable {l : Marked} {ts more : List Token} {t : Token} {c : Cursor}

/-- All tokens, in order. -/
def tokens (l : Marked) : List Token := l.body ++ l.mark :: l.more

/-- The cursor stands before `ts` and the end mark, and has not been past the
end mark. -/
structure Before (l : Marked) (ts : List Token) (c : Cursor) : Prop where
  tokens : c.tokens = l.tokens
  suffix : ts <:+ l.body
  place : c.current + ts.length = l.body.length
  trail : ∀ i ∈ c.trail, i ≤ l.body.length

/-- The next token, or the end mark. -/
def next (l : Marked) (ts : List Token) : Token := ts.head?.getD l.mark

theorem faultAt_eq (l : Marked) (ts : List Token) (cause : SyntaxCause) :
    Grammar.faultAt l.mark.line ts cause = .ofToken (l.next ts) cause := by
  cases ts with
  | nil =>
    have hlocation : Location.ofToken l.mark = .atEnd := if_pos l.ends
    change (⟨l.mark.line, .atEnd, cause⟩ : SyntaxFault) = ⟨l.mark.line, .ofToken l.mark, cause⟩
    rw [hlocation]
  | cons t more => rfl

namespace Before

theorem getElem?_current (h : l.Before ts c) : c.tokens[c.current]? = some (l.next ts) := by
  obtain ⟨before, hbody⟩ := h.suffix
  have hplace := h.place
  rw [← hbody, List.length_append] at hplace
  have hcurrent : c.current = before.length := by omega
  rw [h.tokens, Marked.tokens, ← hbody, hcurrent, List.append_assoc,
    List.getElem?_append_right (Nat.le_refl _), Nat.sub_self]
  cases ts <;> rfl

theorem getElem?_previous (h : l.Before ts c) (ht : t :: ts <:+ l.body) :
    c.tokens[c.current - 1]? = some t := by
  obtain ⟨before, hbody⟩ := ht
  have hplace := h.place
  rw [← hbody, List.length_append, List.length_cons] at hplace
  have hprevious : c.current - 1 = before.length := by omega
  rw [h.tokens, Marked.tokens, ← hbody, hprevious, List.append_assoc,
    List.getElem?_append_right (Nat.le_refl _), Nat.sub_self]
  rfl

/-- Looking at a place that is not past the end mark changes nothing else. -/
theorem looked (h : l.Before ts c) {place : Nat} (hplace : place ≤ l.body.length) :
    l.Before ts { c with trail := c.trail ++ [place] } := by
  refine ⟨h.tokens, h.suffix, h.place, fun i hi => ?_⟩
  rcases List.mem_append.mp hi with hi | hi
  · exact h.trail i hi
  · rw [List.mem_singleton.mp hi]
    exact hplace

theorem moved (h : l.Before (t :: more) c) :
    l.Before more { c with current := c.current + 1, trail := c.trail ++ [c.current + 1] } := by
  have hplace : c.current + 1 + more.length = l.body.length := by
    rw [← h.place, List.length_cons]
    omega
  refine ⟨h.tokens, (List.suffix_cons t more).trans h.suffix, hplace, fun i hi => ?_⟩
  rcases List.mem_append.mp hi with hi | hi
  · exact h.trail i hi
  · rw [List.mem_singleton.mp hi]
    omega

theorem current_le (h : l.Before ts c) : c.current ≤ l.body.length := by
  have hplace := h.place
  omega

end Before

/-! ## Tracking -/

variable {α β : Type} {x : Walk α} {o : Outcome α} {p : Outcome β}
  {listed later : List Grammar.Call}

/-- A call by its places. -/
def placed (l : Marked) (k : Grammar.Call) : Walk.Call where
  start := l.body.length - (k.first :: k.more).length
  finish := l.body.length - (Grammar.declaration l.mark.line k.first k.more).rest.length
  statement? := k.statement? l.mark.line

/-- The walk follows the outcome from before `ts` on, and keeps the calls
listed. -/
def Makes (l : Marked) (x : Walk α) (ts : List Token) (o : Outcome α)
    (listed : List Grammar.Call) : Prop :=
  ∀ c, l.Before ts c → (∀ k ∈ listed, k.first :: k.more <:+ l.body) ∧
    ∃ c', x.run.run c = some (o.result, c') ∧ l.Before o.rest c' ∧
      c'.log = c.log ++ o.reported ∧ c'.calls = c.calls ++ listed.map l.placed

/-- The walk follows the outcome from before `ts` on, and keeps no calls. -/
abbrev Tracks (l : Marked) (x : Walk α) (ts : List Token) (o : Outcome α) : Prop :=
  l.Makes x ts o []

theorem tracks_of (h : ∀ c, l.Before ts c → ∃ c', x.run.run c = some (o.result, c') ∧
    l.Before o.rest c' ∧ c'.log = c.log ++ o.reported ∧ c'.calls = c.calls) :
    l.Tracks x ts o := by
  intro c hc
  obtain ⟨c', hrun, hc', hlog, hcalls⟩ := h c hc
  exact ⟨List.forall_mem_nil _, c', hrun, hc', hlog, hcalls.trans (List.append_nil _).symm⟩

theorem Makes.of_suffix (h : ts <:+ l.body → l.Makes x ts o listed) : l.Makes x ts o listed :=
  fun c hc => h hc.suffix c hc

/-- What follows makes calls of its own, but none if it is not come to. -/
theorem Makes.bind {f : α → Walk β} {next : α → List Token → Outcome β}
    (h : l.Makes x ts o listed)
    (hf : ∀ a rest log, o = .done a rest log → l.Makes (f a) rest (next a rest) later)
    (hfailed : ∀ fault rest log, o = .failed fault rest log → later = []) :
    l.Makes (x >>= f) ts (o.bind next) (listed ++ later) := by
  intro c hc
  obtain ⟨hlisted, c₁, hrun, hc₁, hlog, hcalls⟩ := h c hc
  rw [Walk.run_bind, hrun]
  cases o with
  | failed fault rest log =>
    rw [hfailed fault rest log rfl, List.append_nil]
    exact ⟨hlisted, c₁, rfl, hc₁, hlog, hcalls⟩
  | done a rest log =>
    obtain ⟨hlater, c₂, hrun₂, hc₂, hlog₂, hcalls₂⟩ := hf a rest log rfl c₁ hc₁
    refine ⟨fun k hk => (List.mem_append.mp hk).elim (hlisted k) (hlater k), c₂, ?_, ?_, ?_, ?_⟩
    · rw [Outcome.bind_done, Outcome.result_logged]
      exact hrun₂
    · rw [Outcome.bind_done, Outcome.rest_logged]
      exact hc₂
    · rw [Outcome.bind_done, Outcome.reported_logged, hlog₂, hlog, List.append_assoc]
      rfl
    · rw [hcalls₂, hcalls, List.map_append, List.append_assoc]

/-- What follows makes no calls. -/
theorem Makes.bind_tracks {f : α → Walk β} {next : α → List Token → Outcome β}
    (h : l.Makes x ts o listed)
    (hf : ∀ a rest log, o = .done a rest log → l.Tracks (f a) rest (next a rest)) :
    l.Makes (x >>= f) ts (o.bind next) listed := by
  have hbind := h.bind hf fun _ _ _ _ => rfl
  rwa [List.append_nil] at hbind

/-- A step whose end is known, and what follows it. -/
theorem Makes.after {f : α → Walk β} {a : α} {rest : List Token} {log : List Record}
    {q : Outcome β} (h : l.Tracks x ts (.done a rest log)) (hf : l.Makes (f a) rest p listed)
    (hq : p.logged log = q) : l.Makes (x >>= f) ts q listed := by
  have hbind : l.Makes (x >>= f) ts ((Outcome.done a rest log).bind fun _ _ => p)
      ([] ++ listed) := by
    refine h.bind (fun a' rest' log' hdone => ?_) fun _ _ _ hfailed => nomatch hfailed
    cases hdone
    exact hf
  exact hq ▸ hbind

/-- One that logs nothing. -/
theorem Makes.followed {f : α → Walk β} {a : α} {rest : List Token}
    (h : l.Tracks x ts (.done a rest [])) (hf : l.Makes (f a) rest p listed) :
    l.Makes (x >>= f) ts p listed :=
  h.after hf p.logged_nil

theorem tracks_pure (a : α) : l.Tracks (pure a) ts (.done a ts []) :=
  tracks_of fun c hc => ⟨c, rfl, hc, (List.append_nil _).symm, rfl⟩

theorem tracks_record (r : Record) : l.Tracks (Walk.record r) ts (.done () ts [r]) :=
  tracks_of fun _ hc => ⟨_, rfl, ⟨hc.tokens, hc.suffix, hc.place, hc.trail⟩, rfl, rfl⟩

/-- A fault is reported where it is found. -/
theorem tracks_report_throw (t : Token) (cause : SyntaxCause) :
    l.Tracks (Walk.report t cause >>= fun fault => (throw fault : Walk α)) ts
      (.failed (.ofToken t cause) ts []) :=
  tracks_of fun _ hc => ⟨_, rfl, ⟨hc.tokens, hc.suffix, hc.place, hc.trail⟩, rfl, rfl⟩

theorem tracks_report (t : Token) (cause : SyntaxCause) :
    l.Tracks (Walk.report t cause) ts (.done (.ofToken t cause) ts
      [.reported (SyntaxFault.ofToken t cause).diagnostic]) :=
  tracks_of fun _ hc => ⟨_, rfl, ⟨hc.tokens, hc.suffix, hc.place, hc.trail⟩, rfl, rfl⟩

theorem tracks_peek : l.Tracks Walk.peek ts (.done (l.next ts) ts []) := by
  refine tracks_of fun c hc =>
    ⟨_, ?_, hc.looked hc.current_le, (List.append_nil _).symm, rfl⟩
  rw [Walk.run_peek, hc.getElem?_current]
  rfl

theorem tracks_previous (ht : t :: ts <:+ l.body) : l.Tracks Walk.previous ts (.done t ts []) := by
  refine tracks_of fun c hc => ?_
  have hplace : c.current - 1 ≤ l.body.length := Nat.le_trans (Nat.sub_le _ _) hc.current_le
  refine ⟨_, ?_, hc.looked hplace, (List.append_nil _).symm, rfl⟩
  rw [Walk.run_previous, hc.getElem?_previous ht]
  rfl

theorem tracks_isAtEnd : l.Tracks Walk.isAtEnd ts (.done ts.isEmpty ts []) := by
  refine Makes.of_suffix fun hsuffix => tracks_peek.followed ?_
  cases ts with
  | nil =>
    have hmark : (l.next []).kind == .eof := beq_iff_eq.mpr l.ends
    rw [hmark]
    exact tracks_pure true
  | cons t more =>
    have ht : ((l.next (t :: more)).kind == .eof) = false :=
      beq_eq_false_iff_ne.mpr (l.plain t (hsuffix.mem List.mem_cons_self))
    rw [ht]
    exact tracks_pure false

theorem tracks_move : l.Tracks Walk.move (t :: more) (.done () more []) :=
  tracks_of fun _ hc => ⟨_, rfl, hc.moved, (List.append_nil _).symm, rfl⟩

theorem tracks_advance : l.Tracks Walk.advance (t :: more) (.done t more []) :=
  Makes.of_suffix fun hsuffix =>
    tracks_isAtEnd.followed (tracks_move.followed (tracks_previous hsuffix))

theorem tracks_check (kind : Token.Kind) :
    l.Tracks (Walk.check kind) ts (.done (ts.head?.any fun t => t.kind == kind) ts []) := by
  cases ts with
  | nil => exact tracks_isAtEnd.followed (tracks_pure false)
  | cons t more => exact tracks_isAtEnd.followed (tracks_peek.followed (tracks_pure _))

/-- What moving over a token of one of these kinds comes to. -/
def taken (kinds : List Token.Kind) : List Token → Outcome Bool
  | [] => .done false [] []
  | t :: more => if t.kind ∈ kinds then .done true more [] else .done false (t :: more) []

theorem tracks_taking (l : Marked) (kinds : List Token.Kind) (ts : List Token) :
    l.Tracks (Walk.taking kinds) ts (taken kinds ts) := by
  induction kinds with
  | nil =>
    cases ts with
    | nil => exact tracks_pure false
    | cons t more => exact tracks_pure false
  | cons kind kinds ih =>
    refine (tracks_check kind).followed ?_
    cases ts with
    | nil => exact ih
    | cons t more =>
      by_cases ht : t.kind = kind
      · simp only [List.head?_cons, Option.any_some, ht, beq_self_eq_true, if_true, taken,
          List.mem_cons, true_or]
        exact tracks_advance.followed (tracks_pure true)
      · have hother : (t.kind == kind) = false := beq_eq_false_iff_ne.mpr ht
        simp only [List.head?_cons, Option.any_some, hother, Bool.false_eq_true, if_false]
        simpa only [taken, List.mem_cons, ht, false_or] using ih

section Branch

variable {kinds : List Token.Kind} {y : Walk α}

theorem makes_taking_nil (h : l.Makes y [] o listed) :
    l.Makes (Walk.taking kinds >>= fun b => if b = true then x else y) [] o listed := by
  have htaken := tracks_taking l kinds []
  rw [taken] at htaken
  exact htaken.followed h

theorem makes_taking_of_mem (ht : t.kind ∈ kinds)
    (h : t :: more <:+ l.body → l.Makes x more o listed) :
    l.Makes (Walk.taking kinds >>= fun b => if b = true then x else y) (t :: more) o listed := by
  refine Makes.of_suffix fun hsuffix => ?_
  have htaken := tracks_taking l kinds (t :: more)
  rw [taken, if_pos ht] at htaken
  exact htaken.followed (h hsuffix)

theorem makes_taking_of_not_mem (ht : t.kind ∉ kinds) (h : l.Makes y (t :: more) o listed) :
    l.Makes (Walk.taking kinds >>= fun b => if b = true then x else y) (t :: more) o listed := by
  have htaken := tracks_taking l kinds (t :: more)
  rw [taken, if_neg ht] at htaken
  exact htaken.followed h

end Branch

theorem tracks_consume (kind : Token.Kind) (message : String) :
    l.Tracks (Walk.consume kind message) ts (Outcome.expect l.mark.line kind message ts) := by
  refine (tracks_check kind).followed ?_
  have hfails : l.Tracks (Walk.peek >>= fun t => Walk.report t (.expected message) >>=
      fun fault => (throw fault : Walk Token)) ts
      (.failed (Grammar.faultAt l.mark.line ts (.expected message)) ts []) := by
    rw [l.faultAt_eq]
    exact tracks_peek.followed (tracks_report_throw _ _)
  cases ts with
  | nil => exact hfails
  | cons t more =>
    by_cases ht : t.kind = kind
    · simp only [List.head?_cons, Option.any_some, ht, beq_self_eq_true, if_true, Outcome.expect]
      exact tracks_advance
    · have hother : (t.kind == kind) = false := beq_eq_false_iff_ne.mpr ht
      simp only [List.head?_cons, Option.any_some, hother, Bool.false_eq_true, if_false,
        Outcome.expect, ht]
      exact hfails

/-! ## Expressions -/

section Expr

open Grammar Reading

variable (l : Marked)

theorem atom_tracks {t : Token} (ht : t.kind.isAtom = true) (more : List Token) (depth : Nat) :
    l.Tracks (Walk.primary (depth + 1)) (t :: more) (atom t more).outcome := by
  refine Makes.of_suffix fun hsuffix => ?_
  rw [Walk.primary]
  refine tracks_peek.followed ?_
  have hnext : l.next (t :: more) = t := rfl
  rw [hnext, if_pos ht]
  refine tracks_advance.followed ?_
  have hfails : l.Tracks (Walk.record (.notAnExpression t) >>= fun _ => Walk.previous >>= fun t =>
      Walk.report t .expectedExpression >>= fun fault => (throw fault : Walk Expr)) more
      (.failed (.ofToken t .expectedExpression) more [.notAnExpression t]) :=
    (tracks_record _).after ((tracks_previous hsuffix).followed (tracks_report_throw t _)) rfl
  rw [atom]
  cases Expr.ofToken? t with
  | some e => exact tracks_pure e
  | none => exact hfails

theorem assignTo_tracks (target : Expr) (equals : Token) (value : Expr) (ts : List Token) :
    l.Tracks (match target with
      | .var name => pure (.assign name value)
      | target => Walk.report equals .invalidAssignmentTarget >>= fun _ => pure target) ts
      (.done (assignTo target equals value).1 ts (assignTo target equals value).2) := by
  have hreports : l.Tracks (Walk.report equals .invalidAssignmentTarget >>= fun _ => pure target) ts
      (.done target ts
        [.reported (SyntaxFault.ofToken equals .invalidAssignmentTarget).diagnostic]) :=
    (tracks_report equals _).after (tracks_pure target) rfl
  cases target with
  | var name => exact tracks_pure _
  | _ => exact hreports

-- The measures that the rules terminate by are also the depths they need: each
-- call is one deeper, and has a lower measure.

mutual

theorem assignment_tracks (depth : Nat) (ts : List Token) (hdepth : 16 * ts.length + 10 < depth) :
    l.Tracks (Walk.assignment depth) ts (assignment l.mark.line ts).outcome := by
  cases depth with
  | zero => omega
  | succ depth =>
    rw [Walk.assignment, assignment_outcome]
    have hlevels : Level.all.length = 6 := rfl
    refine (chain_tracks depth Level.all ts (by omega)).bind_tracks fun target rest log hdone => ?_
    have hlt := (after_of_outcome hdone).length_lt
    cases rest with
    | nil => exact makes_taking_nil (tracks_pure target)
    | cons equals more =>
      rw [List.length_cons] at hlt
      by_cases hequals : equals.kind = .equal
      · simp only [if_pos hequals]
        refine makes_taking_of_mem (by simp [hequals]) fun hsuffix => ?_
        have hvalue := assignment_tracks depth more (by omega)
        refine (tracks_previous hsuffix).followed (hvalue.bind_tracks ?_)
        exact fun value rest _ _ => assignTo_tracks l target equals value rest
      · simp only [if_neg hequals]
        exact makes_taking_of_not_mem (by simpa using hequals) (tracks_pure target)

theorem chain_tracks (depth : Nat) (levels : List Level) (ts : List Token)
    (hdepth : 16 * ts.length + levels.length + 2 < depth) :
    l.Tracks (Walk.chain depth levels) ts (chain l.mark.line levels ts).outcome := by
  cases depth with
  | zero => omega
  | succ depth =>
    cases levels with
    | nil =>
      rw [Walk.chain, chain_nil_outcome]
      exact unary_tracks depth ts (by simp only [List.length_nil] at hdepth; omega)
    | cons level tighter =>
      rw [List.length_cons] at hdepth
      rw [Walk.chain, chain_cons_outcome]
      refine (chain_tracks depth tighter ts (by omega)).bind_tracks fun left rest log hdone => ?_
      have hlt := (after_of_outcome hdone).length_lt
      exact chainRest_tracks depth level tighter left rest (by omega)

theorem chainRest_tracks (depth : Nat) (level : Level) (tighter : List Level) (left : Expr)
    (ts : List Token) (hdepth : 16 * ts.length + tighter.length < depth) :
    l.Tracks (Walk.chainRest depth level tighter left) ts
      (chainTail l.mark.line level tighter left ts) := by
  cases depth with
  | zero => omega
  | succ depth =>
    rw [Walk.chainRest]
    cases ts with
    | nil =>
      rw [chainTail_nil]
      exact makes_taking_nil (tracks_pure left)
    | cons operator operand =>
      rw [List.length_cons] at hdepth
      rw [chainTail_cons]
      by_cases hoperator : operator.kind ∈ level.operators
      · rw [if_pos hoperator]
        refine makes_taking_of_mem hoperator fun hsuffix => (tracks_previous hsuffix).followed ?_
        refine (chain_tracks depth tighter operand (by omega)).bind_tracks fun right rest log hdone => ?_
        have hlt := (after_of_outcome hdone).length_lt
        exact chainRest_tracks depth level tighter _ rest (by omega)
      · rw [if_neg hoperator]
        exact makes_taking_of_not_mem hoperator (tracks_pure left)

theorem unary_tracks (depth : Nat) (ts : List Token) (hdepth : 16 * ts.length + 1 < depth) :
    l.Tracks (Walk.unary depth) ts (unary l.mark.line ts).outcome := by
  cases depth with
  | zero => omega
  | succ depth =>
    rw [Walk.unary, unary_outcome]
    cases ts with
    | nil => exact makes_taking_nil (primary_tracks depth [] (by omega))
    | cons t more =>
      by_cases hsign : t.kind = .bang ∨ t.kind = .minus
      · simp only [hsign, if_true]
        rw [List.length_cons] at hdepth
        refine makes_taking_of_mem (by simpa using hsign) fun hsuffix => ?_
        refine (tracks_previous hsuffix).followed ((unary_tracks depth more (by omega)).bind_tracks ?_)
        exact fun operand rest _ _ => tracks_pure _
      · simp only [hsign, if_false]
        refine makes_taking_of_not_mem (by simpa using hsign) ?_
        exact primary_tracks depth (t :: more) (by omega)

theorem primary_tracks (depth : Nat) (ts : List Token) (hdepth : 16 * ts.length < depth) :
    l.Tracks (Walk.primary depth) ts (primary l.mark.line ts).outcome := by
  cases depth with
  | zero => omega
  | succ depth =>
    cases ts with
    | nil =>
      have hatom : l.mark.kind.isAtom ≠ true := by simp [l.ends, Token.Kind.isAtom]
      have hleft : l.mark.kind ≠ .leftParen := by simp [l.ends]
      rw [Walk.primary, primary_outcome]
      dsimp only
      rw [l.faultAt_eq]
      refine tracks_peek.followed ?_
      have hnext : l.next [] = l.mark := rfl
      rw [hnext, if_neg hatom, if_neg hleft]
      exact tracks_peek.followed (tracks_report_throw _ _)
    | cons t more =>
      rw [List.length_cons] at hdepth
      rw [primary_outcome]
      by_cases hatom : t.kind.isAtom = true
      · simp only [hatom, if_true]
        exact atom_tracks l hatom more depth
      rw [Walk.primary]
      refine tracks_peek.followed ?_
      have hnext : l.next (t :: more) = t := rfl
      by_cases hleft : t.kind = .leftParen
      · simp only [hnext, if_neg hatom, if_pos hleft]
        refine tracks_advance.followed ?_
        refine (assignment_tracks depth more (by omega)).bind_tracks fun inner rest _ _ => ?_
        exact (tracks_consume _ _).bind_tracks fun _ rest _ _ => tracks_pure _
      · simp only [hnext, if_neg hatom, if_neg hleft]
        rw [l.faultAt_eq]
        exact tracks_peek.followed (tracks_report_throw _ _)

end

end Expr

end Marked

end Lox

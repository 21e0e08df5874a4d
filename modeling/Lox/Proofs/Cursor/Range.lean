/-
The cursor stays in range. Each rule tracks the reading it stands for; so a walk
over any tokens has a result, the program of the tokens, and no place of its
trail is past the first end mark (`Program.walk_in_range`). What follows that
mark is never seen.
-/
import Lox.Proofs.Cursor.Statements

namespace Lox

namespace Marked

open Grammar

/-! ## Programs -/

theorem program_makes (l : Marked) {depth : Nat} (hdepth : 16 * l.body.length + 13 < depth) :
    l.Makes (Walk.program depth) l.body ((declarations l.mark.line false l.body).outcome.bind
        fun ss rest => .done ss rest [.parsed ss.length])
      (declarationsCalls l.mark.line false l.body) :=
  (declarations_makes l depth false l.body hdepth).bind_tracks fun ss _ _ _ =>
    (tracks_record (.parsed ss.length)).after (tracks_pure ss) rfl

theorem significant_tokens (l : Marked) : Program.significant l.tokens = l.body := by
  refine Program.significant_append l.plain ?_
  rintro _ ⟨⟩
  exact l.ends

theorem endLine_tokens (l : Marked) : Program.endLine l.tokens = l.mark.line := by
  have hbody : l.body.find? (fun t => t.kind == .eof) = none := by simpa using l.plain
  have hmark : (l.mark :: l.more).find? (fun t => t.kind == .eof) = some l.mark :=
    List.find?_cons_of_pos (by simpa using l.ends)
  rw [Program.endLine, tokens, List.find?_append, hbody, hmark]
  rfl

/-- The end mark that is told apart is the first one. -/
theorem findIdx_tokens (l : Marked) :
    l.tokens.findIdx (fun t => t.kind == .eof) = l.body.length := by
  have hmark : (l.mark.kind == .eof) = true := beq_iff_eq.mpr l.ends
  have hnone : l.body.findIdx (fun t => t.kind == .eof) = l.body.length :=
    List.findIdx_eq_length.mpr (by simpa using l.plain)
  rw [tokens, List.findIdx_append, if_neg (by omega), List.findIdx_cons, hmark, cond_true,
    Nat.zero_add]

theorem exists_of_mem {tokens : List Token} {mark : Token} (hmem : mark ∈ tokens)
    (hmark : mark.kind = .eof) : ∃ l : Marked, l.tokens = tokens := by
  have hfound : (tokens.find? fun t => t.kind == .eof).isSome :=
    List.find?_isSome.mpr ⟨mark, hmem, by simpa using hmark⟩
  obtain ⟨first, hfirst⟩ := Option.isSome_iff_exists.mp hfound
  obtain ⟨hend, body, more, rfl, hbody⟩ := List.find?_eq_some_iff_append.mp hfirst
  exact ⟨⟨body, first, more, by simpa using hbody, by simpa using hend⟩, rfl⟩

/-- Tokens behind those that follow the end mark. -/
def extended (l : Marked) (us : List Token) : Marked := { l with more := l.more ++ us }

theorem tokens_extended (l : Marked) (us : List Token) :
    (l.extended us).tokens = l.tokens ++ us := by
  simp [tokens, extended]

/-- Once an end mark is added where the last token is none, there is a first
one, and what stands before it and its line are what a program is read from. -/
theorem exists_closed (tokens : List Token) : ∃ l : Marked, l.tokens = closedTokens tokens ∧
    Program.significant tokens = l.body ∧ Program.endLine tokens = l.mark.line := by
  unfold closedTokens
  cases hlast : tokens.getLast? with
  | none =>
    rw [List.getLast?_eq_none_iff.mp hlast]
    exact ⟨⟨[], .eof 1, [], nofun, rfl⟩, rfl, rfl, rfl⟩
  | some last =>
    have hmem : last ∈ tokens := List.mem_of_getLast? hlast
    dsimp only
    split
    · next hkind =>
      obtain ⟨l, rfl⟩ := exists_of_mem hmem hkind
      exact ⟨l, rfl, l.significant_tokens, l.endLine_tokens⟩
    by_cases hmarks : ∃ mark ∈ tokens, mark.kind = .eof
    · obtain ⟨mark, hmark, hkind⟩ := hmarks
      obtain ⟨l, rfl⟩ := exists_of_mem hmark hkind
      exact ⟨l.extended _, l.tokens_extended _, l.significant_tokens, l.endLine_tokens⟩
    · have hplain : ∀ t ∈ tokens, t.kind ≠ .eof := fun t ht hkind => hmarks ⟨t, ht, hkind⟩
      have hnone : tokens.find? (fun t => t.kind == .eof) = none := by simpa using hplain
      refine ⟨⟨tokens, .eof last.line, [], hplain, rfl⟩, rfl,
        Program.significant_eq_self hplain, ?_⟩
      rw [Program.endLine, hnone, hlast]
      rfl

theorem before_start {l : Marked} {tokens : List Token} (h : l.tokens = closedTokens tokens) :
    l.Before l.body (.start tokens) :=
  ⟨h.symm, List.suffix_refl _, Nat.zero_add _, nofun⟩

end Marked

namespace Program

open Grammar

/-- The walk over all of some tokens. -/
def walk (depth : Nat) (tokens : List Token) : Option (Except SyntaxFault (List Stmt) × Cursor) :=
  (Walk.program depth).run.run (.start tokens)

/-- How deep the rules may have to call each other. -/
def depth (tokens : List Token) : Nat := 16 * (significant tokens).length + 14

/-- The place of the first end mark, be it found or added. -/
def firstMark (tokens : List Token) : Nat := (closedTokens tokens).findIdx fun t => t.kind == .eof

theorem firstMark_tokens (l : Marked) : firstMark l.tokens = l.body.length := by
  obtain ⟨added, hclosed⟩ : ∃ added, closedTokens l.tokens = l.tokens ++ added := by
    unfold closedTokens
    cases hlast : l.tokens.getLast? with
    | none => exact ⟨[.eof 1], by rw [List.getLast?_eq_none_iff.mp hlast]; rfl⟩
    | some last =>
      dsimp only
      split
      · exact ⟨[], (List.append_nil _).symm⟩
      · exact ⟨_, rfl⟩
  rw [firstMark, hclosed, ← l.tokens_extended]
  exact (l.extended added).findIdx_tokens

/-- A program is read from the tokens before the first end mark and its line. -/
theorem ofTokens_tokens (l : Marked) (us : List Token) :
    ofTokens (l.tokens ++ us) = ofTokens l.tokens := by
  have hsignificant : significant (l.tokens ++ us) = significant l.tokens := by
    rw [← l.tokens_extended, Marked.significant_tokens, Marked.significant_tokens]
    rfl
  have hline : endLine (l.tokens ++ us) = endLine l.tokens := by
    rw [← l.tokens_extended, Marked.endLine_tokens, Marked.endLine_tokens]
    rfl
  rw [ofTokens, hsignificant, hline]
  rfl

/-- The walk ends at the first end mark, with what the tokens' program has, and
has kept the calls by which the program's log is accounted for. -/
theorem walk_ends {tokens : List Token} {l : Marked} (hclosed : l.tokens = closedTokens tokens)
    (hsignificant : significant tokens = l.body) (hline : endLine tokens = l.mark.line) {d : Nat}
    (hdepth : depth tokens ≤ d) :
    ∃ c, walk d tokens = some (.ok (ofTokens tokens).statements, c) ∧ l.Before [] c ∧
      c.log = (ofTokens tokens).log ∧ c.calls = (calls tokens).map l.placed ∧
      ∀ k ∈ calls tokens, k.first :: k.more <:+ l.body := by
  have hrest : (declarations l.mark.line false l.body).rest = [] := by
    refine List.head?_eq_none_iff.mp (Option.eq_none_iff_forall_not_mem.mpr fun t ht => ?_)
    exact Bool.false_ne_true (declarations_rest l.body t ht).1
  rw [depth, hsignificant] at hdepth
  obtain ⟨hcalls, c, hrun, hc, hlog, hkept⟩ :=
    l.program_makes hdepth _ (Marked.before_start hclosed)
  have hend : l.Before (declarations l.mark.line false l.body).rest c := hc
  rw [hrest] at hend
  rw [ofTokens, calls, hsignificant, hline]
  exact ⟨c, hrun, hend, hlog, hkept, hcalls⟩

theorem walk_tracks (tokens : List Token) (d : Nat) (hdepth : depth tokens ≤ d) :
    ∃ c, walk d tokens = some (.ok (ofTokens tokens).statements, c) ∧
      c.log = (ofTokens tokens).log ∧ ∀ place ∈ c.trail, place ≤ firstMark tokens := by
  obtain ⟨l, hclosed, hsignificant, hline⟩ := Marked.exists_closed tokens
  obtain ⟨c, hrun, hc, hlog, -⟩ := walk_ends hclosed hsignificant hline hdepth
  rw [firstMark, ← hclosed, l.findIdx_tokens]
  exact ⟨c, hrun, hlog, hc.trail⟩

theorem firstMark_lt (tokens : List Token) : firstMark tokens < (closedTokens tokens).length := by
  obtain ⟨l, hclosed, -, -⟩ := Marked.exists_closed tokens
  rw [firstMark, ← hclosed, l.findIdx_tokens, Marked.tokens, List.length_append, List.length_cons]
  omega

/-- **A walk stays in range.** Over whatever tokens, with end marks anywhere
among them or none, the walk has a result once its rules may call each other
deep enough, so it ends and never looks outside the tokens. Its statements and
its log are those of the tokens' program. No place at which the cursor stood,
and none that it looked at, is past the first end mark, which is among the
tokens.

And nothing behind an end mark is seen: if the last of some tokens is one, then
with any others behind them they have the same first end mark, the same
statements and the same diagnostics. -/
theorem walk_in_range :
    (∀ tokens : List Token, firstMark tokens < (closedTokens tokens).length ∧
      ∀ d, depth tokens ≤ d → ∃ c, walk d tokens = some (.ok (ofTokens tokens).statements, c) ∧
        c.log = (ofTokens tokens).log ∧ ∀ place ∈ c.trail, place ≤ firstMark tokens) ∧
    ∀ ts us : List Token, ts.getLast?.map Token.kind = some .eof →
      firstMark (ts ++ us) = firstMark ts ∧
      (ofTokens (ts ++ us)).statements = (ofTokens ts).statements ∧
      (ofTokens (ts ++ us)).diagnostics = (ofTokens ts).diagnostics := by
  refine ⟨fun tokens => ⟨firstMark_lt tokens, walk_tracks tokens⟩, fun ts us hend => ?_⟩
  obtain ⟨last, hlast, hkind⟩ := Option.map_eq_some_iff.mp hend
  obtain ⟨l, rfl⟩ := Marked.exists_of_mem (List.mem_of_getLast? hlast) hkind
  refine ⟨?_, ?_, ?_⟩
  · rw [← l.tokens_extended, firstMark_tokens, firstMark_tokens]
    rfl
  · rw [ofTokens_tokens]
  · rw [ofTokens_tokens]

/-- A statement without its semicolon, and the end mark. -/
def cutShort : List Token :=
  [⟨.kwPrint, "print", none, 1⟩, ⟨.identifier, "a", none, 1⟩, .eof 1]

/-- The semicolon, behind the end mark. -/
def unseen : List Token := [⟨.semicolon, ";", none, 2⟩]

theorem walk_in_range_of_unseen :
    cutShort.getLast?.map Token.kind = some .eof ∧
    (∃ c, walk 46 (cutShort ++ unseen) = some (.ok (ofTokens (cutShort ++ unseen)).statements, c) ∧
      ∀ place ∈ c.trail, place ≤ 2) ∧
    (ofTokens (cutShort ++ unseen)).statements.length = 0 ∧
    (ofTokens (cutShort ++ unseen)).diagnostics = [⟨1, .atEnd, "Expect ';' after value."⟩] := by
  have hend : cutShort.getLast?.map Token.kind = some .eof := rfl
  obtain ⟨hfirst, hstatements, hdiagnostics⟩ := walk_in_range.2 cutShort unseen hend
  obtain ⟨c, hwalk, -, htrail⟩ := (walk_in_range.1 (cutShort ++ unseen)).2 46 (by decide)
  rw [hfirst] at htrail
  refine ⟨hend, ⟨c, hwalk, htrail⟩, ?_, ?_⟩
  · rw [hstatements]
    decide +kernel
  · rw [hdiagnostics]
    decide +kernel

end Program

end Lox

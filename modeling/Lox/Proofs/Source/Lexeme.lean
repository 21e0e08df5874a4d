/-
A token is told by its text. Whatever source it was cut from and whatever
stood behind it, cutting its own text gives it again, except for its line
(`Token.Cut.ofLexeme?_eq`). So is a number told by its numeral
(`Token.ofLexeme?_shortest`), since that is how scanning writes numbers too.
-/
import Lox.Proofs.Number.Reading
import Lox.Proofs.Source.Rendering
import Lox.Proofs.Tree.Reline

namespace Lox

open Piece

/-- The token is cut from some text, on some line of it. -/
def Token.Cut (t : Token) : Prop :=
  ∃ p after, Matches p after ∧ p.lexeme? = some (t.kind, t.lexeme, t.literal)

theorem Scan.cut_of_mem_body {source : String} {t : Token} (h : t ∈ (ofSource source).body) :
    t.Cut := by
  obtain ⟨⟨n, p⟩, hmem, htoken⟩ := List.mem_filterMap.mp h
  have hp : p ∈ pieces source.toList := by
    rw [← map_snd_located 1 (pieces source.toList)]
    exact List.mem_map_of_mem hmem
  obtain ⟨after, hmatches⟩ := exists_matches_of_mem hp
  refine ⟨p, after, hmatches, ?_⟩
  rw [← map_token? n p, show p.token? n = some t from htoken]
  rfl

/-- A numeral may stand as the token of its number. -/
theorem Decimal.matches_chars (d : Decimal) :
    Matches ⟨d.chars, .token .number (some (.number (.ofDecimal d)))⟩ [] := by
  have hwhole : d.whole ≠ [] := Nat.toDigits_ne_nil
  have hmatches : Matches ⟨d.chars, numberRole d.whole d.fraction⟩ [] := by
    rw [Decimal.chars_eq, Decimal.tail]
    split
    · next hplaces =>
      rw [List.append_nil, Decimal.fraction, if_pos hplaces]
      exact .whole hwhole fun _ => Decimal.isDigit_of_mem_whole
    · next hplaces =>
      have hfraction : d.fraction ≠ [] := by
        intro hnil
        rw [← d.length_fraction, hnil] at hplaces
        exact hplaces rfl
      exact .fractional hwhole (fun _ => Decimal.isDigit_of_mem_whole) hfraction
        fun _ => Decimal.isDigit_of_mem_fraction
  rwa [numberRole, Decimal.ofDigits_whole_fraction] at hmatches

namespace Token

/-- The token that a text is, as if on no line. -/
def ofLexeme? (text : List Char) : Option Token :=
  match (pieces text).filterMap lexeme? with
  | [(kind, lexeme, literal)] => some ⟨kind, lexeme, literal, 0⟩
  | _ => none

theorem ofLexeme?_of_matches {p : Piece} {after : List Char} {kind : Kind} {lexeme : String}
    {literal : Option Literal} (h : Matches p after)
    (hlexeme : p.lexeme? = some (kind, lexeme, literal)) :
    ofLexeme? p.text = some ⟨kind, lexeme, literal, 0⟩ := by
  have hpieces := pieces_spaced h (by rw [isToken, hlexeme]; rfl) spaced_nil
  rw [List.append_nil, pieces] at hpieces
  rw [ofLexeme?, hpieces, List.filterMap_cons_some hlexeme]
  rfl

/-- **A token is told by its text**, up to its line. -/
theorem Cut.ofLexeme?_eq {t : Token} (h : t.Cut) :
    ofLexeme? t.lexeme.toList = some (t.reline fun _ => 0) := by
  obtain ⟨p, after, hmatches, hlexeme⟩ := h
  rw [text_eq_of_lexeme? hlexeme]
  exact ofLexeme?_of_matches hmatches hlexeme

/-- The numeral of a number is that number's token. -/
theorem ofLexeme?_chars (d : Decimal) : ofLexeme? d.chars =
    some ⟨.number, String.ofList d.chars, some (.number (.ofDecimal d)), 0⟩ :=
  ofLexeme?_of_matches d.matches_chars rfl

theorem ofLexeme?_shortest (m : Magnitude) : ofLexeme? m.shortest.chars =
    some ⟨.number, String.ofList m.shortest.chars, some (.number (.signed false m)), 0⟩ := by
  rw [ofLexeme?_chars, Binary64.ofDecimal, m.magnitude_shortest]

end Token

end Lox

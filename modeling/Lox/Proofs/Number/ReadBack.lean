/-
A printed number is read back. Its text is a numeral, with a minus sign before
it if the sign bit is set; a numeral is cut as one token wherever no more of a
number follows (`Piece.pieces_chars`), and a minus sign, which belongs to no
numeral, is taken for the operator. So a number without a sign is read by
scanning alone, and one with a sign by negating what is read
(`Binary64.printed_read_back`), bit for bit.
-/
import Lox.Proofs.Machine.FullSink
import Lox.Proofs.Session.Concatenation
import Lox.Proofs.Source.Lexeme

namespace Lox

/-! ## Bits -/

namespace Binary64

theorem ofBits_of_isFinite {bits : UInt64} (h : (ofBits bits).isFinite = true) :
    ∃ m : Magnitude, ofBits bits = .signed (decide (2 ^ 63 ≤ bits.toNat)) m ∧
      m.word = bits.toNat % 2 ^ 63 ∧ m.isInfinite = false := by
  rw [ofBits] at h ⊢
  split
  · next hword =>
    rw [dif_pos hword] at h
    exact ⟨⟨_, hword⟩, rfl, rfl, by simpa [isFinite] using h⟩
  · next hword =>
    rw [dif_neg hword] at h
    cases h

/-- A finite number keeps its bits. -/
theorem toBits_ofBits {bits : UInt64} (h : (ofBits bits).isFinite = true) :
    (ofBits bits).toBits = bits := by
  obtain ⟨m, hbits, hword, -⟩ := ofBits_of_isFinite h
  have hlt : bits.toNat < 2 ^ 64 := bits.toNat_lt
  have hsplit : (if decide (2 ^ 63 ≤ bits.toNat) = true then Nat.pow 2 63 else 0) + m.word =
      bits.toNat := by
    rw [hword]
    show (if decide (2 ^ 63 ≤ bits.toNat) = true then 2 ^ 63 else 0) + bits.toNat % 2 ^ 63 = _
    by_cases hsign : 2 ^ 63 ≤ bits.toNat
    · rw [if_pos (decide_eq_true hsign)]
      omega
    · rw [if_neg (by simpa using hsign)]
      omega
  rw [hbits, toBits, hsplit, UInt64.ofNat_toNat]

theorem display_of_finite {m : Magnitude} (h : m.isInfinite = false) :
    (Value.number (.signed false m)).display = String.ofList m.shortest.chars := by
  simp only [Value.display, text, magnitudeText, h, Bool.false_eq_true, if_false]

theorem display_of_finite_negative {m : Magnitude} (h : m.isInfinite = false) :
    (Value.number (.signed true m)).display = "-" ++ String.ofList m.shortest.chars := by
  simp only [Value.display, text, magnitudeText, h, Bool.false_eq_true, if_false]

theorem ofDecimal_shortest (m : Magnitude) : ofDecimal m.shortest = .signed false m := by
  rw [ofDecimal, m.magnitude_shortest]

end Binary64

/-! ## Scanning numerals -/

theorem Decimal.newlines_chars (d : Decimal) : newlines d.chars = 0 := by
  refine List.count_eq_zero.mpr fun hmem => ?_
  rcases isDigit_or_point_of_mem_chars hmem with h | h <;> cases h

namespace Piece

/-- The piece that a numeral is. -/
def ofDecimal (d : Decimal) : Piece := ⟨d.chars, .token .number (some (.number (.ofDecimal d)))⟩

/-- A numeral is cut whole if no more of a number follows. -/
theorem pieces_chars (d : Decimal) {u : List Char} (hu : Apart u) :
    pieces (d.chars ++ u) = ofDecimal d :: pieces u := by
  obtain ⟨first, rest, hchars⟩ := List.exists_cons_of_ne_nil d.matches_chars.text_ne_nil
  have halone : cut first rest = (ofDecimal d, []) := by
    refine d.matches_chars.cut_spaced rfl spaced_nil ?_
    rw [List.append_nil]
    exact hchars
  -- Numerals begin with no slash, so there is no line comment to close.
  have hdigit : first.isDigit = true ∨ first = '.' := by
    refine Decimal.isDigit_or_point_of_mem_chars (d := d) ?_
    have hmem : first ∈ first :: rest := List.mem_cons_self
    rwa [← hchars] at hmem
  have hslash : first ≠ '/' := by
    rintro rfl
    rcases hdigit with h | h <;> cases h
  have hopen : (cut first rest).1.isOpen = false := by
    rw [halone]
    rfl
  have hcut : cut first (rest ++ u) = (ofDecimal d, u) := by
    rw [cut_apart hu hopen fun h => absurd h hslash, halone]
    rfl
  have hchars : d.chars = first :: rest := hchars
  rw [hchars, List.cons_append, pieces, hcut]

end Piece

namespace Scan

open Piece

/-- A numeral scans to its number's token. -/
theorem ofSource_chars (d : Decimal) : ofSource (String.ofList d.chars) =
    { body := [⟨.number, String.ofList d.chars, some (.number (.ofDecimal d)), 1⟩]
      lines := 1
      faults := [] } := by
  have hpieces : pieces d.chars = [Piece.ofDecimal d] := by
    have h := pieces_chars d (u := []) (by simp [Apart])
    rwa [List.append_nil, pieces] at h
  have hline : 1 + newlines (Piece.ofDecimal d).text = 1 := by
    rw [show (Piece.ofDecimal d).text = d.chars from rfl, d.newlines_chars]
  simp only [ofSource, String.toList_ofList, hpieces, located, hline, d.newlines_chars]
  rfl

/-- The operator before a numeral on the first line. -/
def minus : Token := ⟨.minus, "-", none, 1⟩

/-- A numeral with a sign before it and a semicolon after it scans to the three
tokens. -/
theorem ofSource_negated (d : Decimal) :
    ofSource ("-" ++ String.ofList d.chars ++ ";") =
      { body := [minus, ⟨.number, String.ofList d.chars, some (.number (.ofDecimal d)), 1⟩,
          ⟨.semicolon, ";", none, 1⟩]
        lines := 1
        faults := [] } := by
  have hlist : ("-" ++ String.ofList d.chars ++ ";").toList = '-' :: (d.chars ++ [';']) := by
    simp only [String.toList_append, String.toList_ofList]
    rfl
  have hsemicolon : pieces [';'] = [⟨[';'], .token .semicolon none⟩] := by
    rw [pieces, cut_of_mark? rfl, pieces]
  have hapart : Apart [';'] := by
    rintro _ ⟨⟩
    rfl
  have hpieces : pieces ('-' :: (d.chars ++ [';'])) =
      [⟨['-'], .token .minus none⟩, Piece.ofDecimal d, ⟨[';'], .token .semicolon none⟩] := by
    rw [pieces, cut_of_mark? rfl, pieces_chars d hapart, hsemicolon]
  have htext : newlines (Piece.ofDecimal d).text = 0 := d.newlines_chars
  have hlines : newlines ('-' :: (d.chars ++ [';'])) = 0 := by
    have hminus : newlines ('-' :: (d.chars ++ [';'])) = newlines (d.chars ++ [';']) :=
      List.count_cons_of_ne (by decide)
    have hlast : newlines [';'] = 0 := rfl
    rw [hminus, newlines_append, d.newlines_chars, hlast]
  have hminus : newlines ['-'] = 0 := rfl
  have hlast : newlines [';'] = 0 := rfl
  simp only [ofSource, hlist, hpieces, located, htext, hlines, hminus, hlast, Nat.add_zero]
  rfl

end Scan

/-! ## Compiling numerals -/

open Grammar in
theorem derives_negated {operator t semi : Token} {n : Binary64}
    (hoperator : operator.kind = .minus) (ht : t.kind = .number)
    (hliteral : t.literal = some (.number n)) (hsemi : semi.kind = .semicolon) :
    DerivesBody [operator, t, semi] [.expression (.unary operator (.literal (.number n)))] := by
  have hunary : Derives .unary [operator, t] (.unary operator (.literal (.number n))) :=
    .sign (.inr hoperator) (.unsigned (.number ht hliteral))
  have hlevels : Derives (.level .or) [operator, t] (.unary operator (.literal (.number n))) :=
    .operand (.operand (.operand (.operand (.operand (.operand hunary)))))
  have hdeclaration : DerivesDeclaration ([operator, t] ++ [semi])
      (.expression (.unary operator (.literal (.number n)))) :=
    .statement (.expression (.unassigned hlevels) hsemi)
  exact .cons hdeclaration .nil

/-- A numeral with a sign compiles to the negation of its number. -/
theorem compile_negated (d : Decimal) :
    (compile [] ("-" ++ String.ofList d.chars ++ ";")).result =
      .ok [.expression (.unary Scan.minus (.literal (.number (.ofDecimal d))))] := by
  refine compile_iff_derives.mpr ⟨?_, ?_, rfl⟩
  · rw [Scan.diagnostics, Scan.ofSource_negated]
    rfl
  · rw [Scan.ofSource_negated]
    exact derives_negated rfl rfl rfl rfl

namespace Binary64

/-- **A printed number is read back.** Take any bits of a finite number. `print`
writes its text on a line of its own.

If the sign bit is clear, scanning the text gives one number token, which
denotes the number with these bits, and the end mark, and reports nothing.

If it is set, as it is for negative zero, the text with a semicolon compiles,
with no report, to one expression statement that negates a literal, and
evaluating it on any machine gives the number with these bits. -/
theorem printed_read_back (bits : UInt64) (hfinite : (ofBits bits).isFinite = true) :
    let text := (Value.number (ofBits bits)).display
    (∀ m : Machine Sink, m.sink.limit = none → Run.print (.number (ofBits bits)) m =
      .ok () { m with sink := { m.sink with stored := m.sink.stored ++ utf8 (text ++ "\n") } }) ∧
    (bits.toNat < 2 ^ 63 → ∃ n, n.toBits = bits ∧
      (Scan.ofSource text).tokens = [⟨.number, text, some (.number n), 1⟩, .eof 1] ∧
      (Scan.ofSource text).diagnostics = []) ∧
    (2 ^ 63 ≤ bits.toNat → ∃ operator n literal, operator.kind = .minus ∧ n.toBits = bits ∧
      (compile [] (text ++ ";")).result =
        .ok [.expression (.unary operator (.literal (.number literal)))] ∧
      (compile [] (text ++ ";")).diagnostics = [] ∧
      ∀ {W : Type} (m : Machine W),
        (Expr.unary operator (.literal (.number literal))).eval m = .ok (.number n) m) := by
  intro text
  have hbits := toBits_ofBits hfinite
  obtain ⟨m, hsigned, -, hm⟩ := ofBits_of_isFinite hfinite
  refine ⟨fun machine hsink => ?_, fun hclear => ⟨ofBits bits, hbits, ?_⟩, fun hset =>
    ⟨Scan.minus, ofBits bits, .signed false m, rfl, hbits, ?_⟩⟩
  · simp only [Run.print, Run.onSink, Sink.writer_write, Sink.write_of_unlimited hsink]
    rfl
  · rw [decide_eq_false (Nat.not_le.mpr hclear)] at hsigned
    have htext : text = String.ofList m.shortest.chars := by
      rw [← display_of_finite hm, ← hsigned]
    rw [htext, hsigned, Scan.tokens, Scan.diagnostics, Scan.ofSource_chars, ofDecimal_shortest]
    exact ⟨rfl, rfl⟩
  · rw [decide_eq_true hset] at hsigned
    have htext : text = "-" ++ String.ofList m.shortest.chars := by
      rw [← display_of_finite_negative hm, ← hsigned]
    have hcompiled := compile_negated m.shortest
    rw [ofDecimal_shortest] at hcompiled
    rw [htext, hsigned]
    exact ⟨hcompiled, (compile_silent_of_ok hcompiled).1, fun _ => rfl⟩

/-- Negative zero, and the least number above zero. -/
theorem printed_read_back_of_least :
    (ofBits 0x8000000000000000).isFinite = true ∧
    (Value.number (ofBits 0x8000000000000000)).display = "-0" ∧
    (∃ operator n literal, operator.kind = .minus ∧ n.toBits = 0x8000000000000000 ∧
      (compile [] ("-0" ++ ";")).result =
        .ok [.expression (.unary operator (.literal (.number literal)))] ∧
      (compile [] ("-0" ++ ";")).diagnostics = [] ∧
      ∀ {W : Type} (m : Machine W),
        (Expr.unary operator (.literal (.number literal))).eval m = .ok (.number n) m) ∧
    (ofBits 1).isFinite = true ∧
    ∃ n, n.toBits = 1 ∧ (Scan.ofSource (Value.number (ofBits 1)).display).tokens =
      [⟨.number, (Value.number (ofBits 1)).display, some (.number n), 1⟩, .eof 1] := by
  have hzero : (ofBits 0x8000000000000000).isFinite = true := by decide
  have htext : (Value.number (ofBits 0x8000000000000000)).display = "-0" := by decide +kernel
  have hleast : (ofBits 1).isFinite = true := by decide
  have hnegated := (printed_read_back _ hzero).2.2 (by decide)
  rw [htext] at hnegated
  obtain ⟨n, hbits, htokens, -⟩ := (printed_read_back _ hleast).2.1 (by decide)
  exact ⟨hzero, htext, hnegated, hleast, n, hbits, htokens⟩

end Binary64

end Lox

import JsonRules.Proofs.Spelling

/-!
The text of a double spells the double.

Each layout of a number format is a spelling of the decimal that it lays out, up to zeros that move
between coefficient and exponent (`Spells`).  The decimal is one that reads back, so the text of a
finite double spells this double in every format (`NumberFormat.spells_writeMagnitude`).
-/

namespace JsonRules

/-- The text is a numeral, and its nearest doubles are those of the decimal. -/
def Spells (text : List Char) (d : Decimal) : Prop :=
  ∃ s : Spelling, s.text = text ∧ ∀ negative, s.magnitude.nearest negative = d.nearest negative

/-- Digits of a positive number: there is a first one and it is not zero. -/
structure SignificantDigits (digits : List Char) : Prop where
  isDigit : ∀ c ∈ digits, c.isDigit = true
  start : ∃ first rest, digits = first :: rest ∧ first ≠ '0'

theorem SignificantDigits.plain {digits : List Char} (h : SignificantDigits digits) :
    PlainDigits digits :=
  ⟨h.isDigit, .inr h.start⟩

theorem significantDigits_decimalDigits {n : Nat} (h : n ≠ 0) :
    SignificantDigits (decimalDigits n) := by
  refine ⟨Numeral.isDigit_decimalDigits n, ?_⟩
  unfold decimalDigits
  induction n using Nat.strongRecOn with
  | ind n ih =>
      by_cases hsmall : n < 10
      · rw [Nat.toDigits_of_lt_base hsmall]
        exact ⟨n.digitChar, [], rfl, fun hzero => h (Nat.digitChar_eq_zero.1 hzero)⟩
      · obtain ⟨first, rest, hdigits, hfirst⟩ := ih (n / 10) (by omega) (by omega)
        rw [Nat.toDigits_of_base_le (by decide) (by omega), hdigits]
        exact ⟨first, _, List.cons_append, hfirst⟩

theorem plainDigits_decimalDigits (n : Nat) : PlainDigits (decimalDigits n) := by
  by_cases hzero : n = 0
  · subst hzero
    exact ⟨Numeral.isDigit_decimalDigits 0, .inl rfl⟩
  · exact (significantDigits_decimalDigits hzero).plain

theorem isDigit_of_mem_zeros {k : Nat} {c : Char} (h : c ∈ List.replicate k '0') :
    c.isDigit = true := by
  rw [List.eq_of_mem_replicate h]
  rfl

theorem ofDigitChars_decimalDigits (n : Nat) : Nat.ofDigitChars 10 (decimalDigits n) 0 = n :=
  Nat.ofDigitChars_ten_toDigits

namespace NumberFormat

variable {digits : List Char}

/-- A whole number is spelled by its digits, with or without a zero after a point. -/
theorem spells_whole (f : NumberFormat) (h : PlainDigits digits) :
    Spells (digits ++ f.wholeEnd) ⟨Nat.ofDigitChars 10 digits 0, 0⟩ := by
  unfold wholeEnd
  split
  · refine ⟨⟨digits, ['0'], none, h, by simp⟩, rfl, fun negative => ?_⟩
    have hshift := Decimal.nearest_shift negative (Nat.ofDigitChars 10 digits 0) 1 (-1)
    rw [← show _ = Decimal.nearest negative ⟨_, 0⟩ from hshift]
    rw [Spelling.magnitude, Nat.ofDigitChars_append, Nat.ofDigitChars_cons, Nat.ofDigitChars_nil,
      Nat.mul_comm 10]
    rfl
  · refine ⟨⟨digits, [], none, h, by simp⟩, rfl, fun negative => ?_⟩
    rw [Spelling.magnitude, List.append_nil]
    rfl

/-- Zeros that stand for the exponent may be written out. -/
theorem spells_zeros (f : NumberFormat) (h : SignificantDigits digits) (k : Nat) :
    Spells (digits ++ List.replicate k '0' ++ f.wholeEnd) ⟨Nat.ofDigitChars 10 digits 0, k⟩ := by
  have hplain : PlainDigits (digits ++ List.replicate k '0') := by
    obtain ⟨hdigits, first, rest, rfl, hfirst⟩ := h
    exact ⟨List.forall_mem_append.2 ⟨hdigits, fun _ => isDigit_of_mem_zeros⟩,
      .inr ⟨first, _, List.cons_append, hfirst⟩⟩
  obtain ⟨s, htext, hnearest⟩ := spells_whole f hplain
  refine ⟨s, htext, fun negative => ?_⟩
  rw [hnearest, Nat.ofDigitChars_append, Nat.ofDigitChars_replicate_zero, Nat.mul_comm,
    Decimal.nearest_shift, Int.zero_add]

/-- Digits behind as many zeros as it takes to have one digit before the point. -/
def padded (digits : List Char) (places : Nat) : List Char :=
  List.replicate (places + 1 - digits.length) '0' ++ digits

theorem withPoint_eq (digits : List Char) (places : Nat) :
    withPoint digits places =
      (padded digits places).take ((padded digits places).length - places) ++
        '.' :: (padded digits places).drop ((padded digits places).length - places) :=
  rfl

theorem length_padded (digits : List Char) (places : Nat) :
    (padded digits places).length = max (places + 1) digits.length := by
  rw [padded, List.length_append, List.length_replicate]
  omega

theorem isDigit_padded (h : SignificantDigits digits) (places : Nat) :
    ∀ c ∈ padded digits places, c.isDigit = true :=
  List.forall_mem_append.2 ⟨fun _ => isDigit_of_mem_zeros, h.isDigit⟩

theorem ofDigitChars_padded (digits : List Char) (places : Nat) :
    Nat.ofDigitChars 10 (padded digits places) 0 = Nat.ofDigitChars 10 digits 0 := by
  rw [padded, Nat.ofDigitChars_append, Nat.ofDigitChars_replicate_zero, Nat.mul_zero]

/-- What stands before the point is either the first digits or a zero alone. -/
theorem plainDigits_take_padded (h : SignificantDigits digits) (places : Nat) :
    PlainDigits ((padded digits places).take ((padded digits places).length - places)) := by
  refine ⟨fun c hc => isDigit_padded h places c (List.mem_of_mem_take hc), ?_⟩
  rw [length_padded, padded]
  obtain ⟨first, rest, rfl, hfirst⟩ := h.start
  by_cases hlong : places < (first :: rest).length
  · right
    have hzeros : places + 1 - (first :: rest).length = 0 := by omega
    obtain ⟨more, hmore⟩ :
        ∃ more, max (places + 1) (first :: rest).length - places = more + 1 :=
      ⟨max (places + 1) (first :: rest).length - places - 1, by omega⟩
    rw [hzeros, hmore]
    exact ⟨first, rest.take more, rfl, hfirst⟩
  · left
    have hone : max (places + 1) (first :: rest).length - places = 1 := by omega
    obtain ⟨zeros, hzeros⟩ : ∃ zeros, places + 1 - (first :: rest).length = zeros + 1 :=
      ⟨places - (first :: rest).length, by omega⟩
    rw [hone, hzeros]
    rfl

/-- The parts of digits with `places` of them after the point. -/
def pointSpelling (h : SignificantDigits digits) (places : Nat) : Spelling where
  whole := (padded digits places).take ((padded digits places).length - places)
  fraction := (padded digits places).drop ((padded digits places).length - places)
  exponent := none
  plain := plainDigits_take_padded h places
  isDigit c hc := isDigit_padded h places c (List.mem_of_mem_drop hc)

theorem length_fraction_pointSpelling (h : SignificantDigits digits) (places : Nat) :
    (pointSpelling h places).fraction.length = places := by
  rw [pointSpelling, List.length_drop, length_padded]
  omega

theorem pointed_of_ne_nil {fraction : List Char} (h : fraction ≠ []) :
    Spelling.pointed fraction = '.' :: fraction := by
  cases fraction with
  | nil => exact absurd rfl h
  | cons c cs => rfl

/-- The point may stand among the digits or behind zeros. -/
theorem spells_withPoint (h : SignificantDigits digits) (k : Nat) :
    Spells (withPoint digits (k + 1)) ⟨Nat.ofDigitChars 10 digits 0, Int.negSucc k⟩ := by
  have hlength := length_fraction_pointSpelling h (k + 1)
  refine ⟨pointSpelling h (k + 1), ?_, fun negative => ?_⟩
  · rw [withPoint_eq, Spelling.text, pointed_of_ne_nil (List.ne_nil_of_length_eq_add_one hlength)]
    simp [pointSpelling, Spelling.exponentPart]
  · have hdigits : (pointSpelling h (k + 1)).whole ++ (pointSpelling h (k + 1)).fraction =
        padded digits (k + 1) := List.take_append_drop _ _
    rw [Spelling.magnitude, hdigits, hlength, ofDigitChars_padded]
    rfl

theorem spells_scientific (h : SignificantDigits digits) (lead : Int) :
    Spells (scientific digits lead)
      ⟨Nat.ofDigitChars 10 digits 0, lead - (digits.length - 1)⟩ := by
  obtain ⟨hdigits, first, rest, rfl, hfirst⟩ := h
  have hplain : PlainDigits [first] :=
    ⟨List.forall_mem_singleton.2 (hdigits first List.mem_cons_self),
      .inr ⟨first, [], rfl, hfirst⟩⟩
  have hrest : ∀ c ∈ rest, c.isDigit = true := fun c hc => hdigits c (List.mem_cons_of_mem first hc)
  refine ⟨⟨[first], rest, some lead, hplain, hrest⟩, ?_, fun negative => ?_⟩
  · cases rest with
    | nil => rfl
    | cons c cs => rfl
  · have hexponent : lead - (rest.length : Int) = lead - (((first :: rest).length : Int) - 1) := by
      rw [List.length_cons]
      omega
    rw [Spelling.magnitude, ← hexponent]
    rfl

/-- A layout spells the decimal that it lays out. -/
theorem spells_writeDecimal (f : NumberFormat) {d : Decimal} (h : d.coefficient ≠ 0) :
    Spells (f.writeDecimal d) d := by
  obtain ⟨c, e⟩ := d
  have hdigits := significantDigits_decimalDigits h
  simp only [writeDecimal]
  split
  · cases e with
    | ofNat k =>
        have hspells := spells_zeros f hdigits k
        rw [ofDigitChars_decimalDigits] at hspells
        exact hspells
    | negSucc k =>
        have hspells := spells_withPoint hdigits k
        rw [ofDigitChars_decimalDigits] at hspells
        exact hspells
  · have hspells := spells_scientific hdigits (leadingExponent ⟨c, e⟩)
    rw [ofDigitChars_decimalDigits, leadingExponent] at hspells
    have hexponent : e + (decimalDigits c).length - 1 - ((decimalDigits c).length - 1) = e := by
      omega
    rw [hexponent] at hspells
    exact hspells

/-- The text of a positive magnitude spells the double. -/
theorem spells_writeMagnitude (f : NumberFormat) {units : Nat} (h : Binary64.Representable units)
    (hunits : units ≠ 0) :
    ∃ s : Spelling, s.text = f.writeMagnitude units ∧
      ∀ negative, s.magnitude.nearest negative = .finite negative units h := by
  simp only [writeMagnitude]
  split
  · rename_i hwhole
    obtain ⟨s, htext, hnearest⟩ :=
      spells_whole f (plainDigits_decimalDigits (units / Binary64.unitsInOne))
    refine ⟨s, htext, fun negative => ?_⟩
    rw [hnearest, ofDigitChars_decimalDigits]
    exact Decimal.nearest_whole h hwhole.2.1 negative
  · obtain ⟨s, htext, hnearest⟩ :=
      spells_writeDecimal f (Decimal.coefficient_shortest_ne_zero f.tie h hunits)
    exact ⟨s, htext, fun negative =>
      (hnearest negative).trans (Decimal.nearest_shortest f.tie h negative)⟩

end NumberFormat

end JsonRules

import JsonRules.Proofs.JsonNumerals
import JsonRules.Proofs.ShortestDecimal

/-!
How numbers are spelled.

A `Spelling` is a numeral without its sign as number formats lay it out: digits, digits after a
point and an exponent.  With a sign in front it is a numeral of JSON (`Spelling.isJson_literal`).
-/

namespace JsonRules

/-- A numeral without its sign, by its parts. -/
structure Spelling where
  whole : List Char
  /-- The digits after the point, none if there is no point. -/
  fraction : List Char
  exponent : Option Int
  plain : PlainDigits whole
  isDigit : ∀ c ∈ fraction, c.isDigit = true

theorem Numeral.isDigit_decimalDigits (n : Nat) : ∀ c ∈ decimalDigits n, c.isDigit = true :=
  fun _ hc => Nat.isDigit_of_mem_toDigits (by decide) (by decide) hc

/-- An exponent as number formats write it. -/
def WrittenExponent.ofInt (e : Int) : WrittenExponent where
  capital := false
  sign := if e < 0 then .minus else .plus
  digits := decimalDigits e.natAbs
  isDigit := Numeral.isDigit_decimalDigits e.natAbs
  ne_nil := Nat.toDigits_ne_nil

theorem WrittenExponent.value_ofInt (e : Int) : (ofInt e).value = e := by
  have hdigits : Nat.ofDigitChars 10 (ofInt e).digits 0 = e.natAbs := Nat.ofDigitChars_ten_toDigits
  rw [value, hdigits]
  by_cases hnegative : e < 0
  · simp only [ofInt, if_pos hnegative, WrittenSign.isNegative, if_true]
    omega
  · simp only [ofInt, if_neg hnegative, WrittenSign.isNegative, Bool.false_eq_true, if_false]
    omega

theorem WrittenExponent.text_ofInt (e : Int) :
    (ofInt e).text = 'e' :: NumberFormat.writeExponent e := by
  by_cases hnegative : e < 0
  · simp [text, ofInt, NumberFormat.writeExponent, hnegative, WrittenSign.text]
  · simp [text, ofInt, NumberFormat.writeExponent, hnegative, WrittenSign.text]

namespace Spelling

/-- The digits after the point with the point in front of them. -/
def pointed : List Char → List Char
  | [] => []
  | first :: rest => '.' :: first :: rest

def exponentPart : Option Int → List Char
  | none => []
  | some e => 'e' :: NumberFormat.writeExponent e

/-- The numeral as it is written. -/
def text (s : Spelling) : List Char :=
  s.whole ++ (pointed s.fraction ++ exponentPart s.exponent)

/-- The decimal that is written. -/
def magnitude (s : Spelling) : Decimal :=
  ⟨Nat.ofDigitChars 10 (s.whole ++ s.fraction) 0, s.exponent.getD 0 - s.fraction.length⟩

/-- The digits of a fraction, if there are any. -/
def fraction? : List Char → Option (List Char)
  | [] => none
  | first :: rest => some (first :: rest)

theorem getD_fraction? (fraction : List Char) : (fraction? fraction).getD [] = fraction := by
  cases fraction <;> rfl

/-- The literal of a sign and a spelling. -/
def literal (s : Spelling) (negative : Bool) : DecimalLiteral where
  sign := if negative then .minus else .none
  whole := s.whole
  fraction := fraction? s.fraction
  exponent := s.exponent.map .ofInt
  isDigit_whole := s.plain.isDigit
  isDigit_fraction := (getD_fraction? s.fraction).symm ▸ s.isDigit
  ne_nil := by
    obtain ⟨first, rest, hwhole, -⟩ := s.plain.exists_cons
    simp [hwhole]

theorem isJson_literal (s : Spelling) (negative : Bool) : (s.literal negative).IsJson where
  sign := by cases negative <;> exact nofun
  whole := s.plain
  fraction := by
    intro hnil
    cases hfraction : s.fraction <;> simp [literal, fraction?, hfraction] at hnil

theorem text_literal (s : Spelling) (negative : Bool) :
    (s.literal negative).text = (if negative then ['-'] else []) ++ s.text := by
  have hsign : (s.literal negative).sign.text = if negative then ['-'] else [] := by
    cases negative <;> rfl
  have hfraction : DecimalLiteral.pointPart (fraction? s.fraction) = pointed s.fraction := by
    cases s.fraction <;> rfl
  have hexponent : DecimalLiteral.exponentPart (s.exponent.map .ofInt) =
      exponentPart s.exponent := by
    cases s.exponent with
    | none => rfl
    | some e => exact WrittenExponent.text_ofInt e
  rw [DecimalLiteral.text, hsign, text, ← hfraction, ← hexponent]
  rfl

theorem numeral_literal (s : Spelling) (negative : Bool) :
    (s.literal negative).numeral = ⟨negative, s.magnitude⟩ := by
  have hsign : (s.literal negative).sign.isNegative = negative := by
    cases negative <;> rfl
  have hexponent : DecimalLiteral.exponentValue (s.exponent.map .ofInt) = s.exponent.getD 0 := by
    cases s.exponent with
    | none => rfl
    | some e => exact WrittenExponent.value_ofInt e
  rw [DecimalLiteral.numeral, hsign, Numeral.ofDigits]
  simp only [literal, getD_fraction?, hexponent]
  rfl

end Spelling

end JsonRules

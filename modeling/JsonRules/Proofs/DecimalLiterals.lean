import JsonRules.Decimal.Numeral

/-!
Decimal literals.

A `DecimalLiteral` is a decimal numeral by its parts, with the text that it has and the numeral that
it is.  The texts that `Numeral.ofText?` reads are those of literals
(`Numeral.ofText?_eq_some_iff`).  Parts are read in front of other characters too, as long as these
could not belong to them (`NumeralEnds`).
-/

namespace JsonRules

/-- A sign in front of digits, or none. -/
inductive WrittenSign
  | none
  | plus
  | minus

namespace WrittenSign

def text : WrittenSign → List Char
  | .none => []
  | .plus => ['+']
  | .minus => ['-']

def isNegative : WrittenSign → Bool
  | .minus => true
  | _ => false

end WrittenSign

/-- The exponent of a decimal literal, with the letter in front of it. -/
structure WrittenExponent where
  capital : Bool
  sign : WrittenSign
  digits : List Char
  isDigit : ∀ c ∈ digits, c.isDigit = true
  ne_nil : digits ≠ []

namespace WrittenExponent

def text (e : WrittenExponent) : List Char :=
  (if e.capital then 'E' else 'e') :: (e.sign.text ++ e.digits)

def value (e : WrittenExponent) : Int :=
  let n : Nat := Nat.ofDigitChars 10 e.digits 0
  if e.sign.isNegative then -(n : Int) else n

end WrittenExponent

/-- A decimal literal by its parts.  It has digits before its point or after it, and it need not
have a point. -/
structure DecimalLiteral where
  sign : WrittenSign
  whole : List Char
  /-- The digits after the point, if there is a point. -/
  fraction : Option (List Char)
  exponent : Option WrittenExponent
  isDigit_whole : ∀ c ∈ whole, c.isDigit = true
  isDigit_fraction : ∀ c ∈ fraction.getD [], c.isDigit = true
  ne_nil : whole ++ fraction.getD [] ≠ []

namespace DecimalLiteral

/-- The point and the digits after it. -/
def pointPart : Option (List Char) → List Char
  | none => []
  | some digits => '.' :: digits

def exponentPart : Option WrittenExponent → List Char
  | none => []
  | some e => e.text

/-- The literal as it is written. -/
def text (l : DecimalLiteral) : List Char :=
  l.sign.text ++ (l.whole ++ (pointPart l.fraction ++ exponentPart l.exponent))

def exponentValue (exponent : Option WrittenExponent) : Int :=
  (exponent.map WrittenExponent.value).getD 0

def numeral (l : DecimalLiteral) : Numeral :=
  .ofDigits l.sign.isNegative l.whole (l.fraction.getD []) (exponentValue l.exponent)

end DecimalLiteral

/-! ## What comes next -/

def NoDigitNext : List Char → Prop
  | [] => True
  | c :: _ => c.isDigit = false

/-- No character comes next that could go on with a numeral. -/
def NumeralEnds : List Char → Prop
  | [] => True
  | c :: _ => c.isDigit = false ∧ c ≠ '.' ∧ c ≠ 'e' ∧ c ≠ 'E'

def NoSignNext : List Char → Prop
  | [] => True
  | c :: _ => c ≠ '-' ∧ c ≠ '+'

theorem NumeralEnds.noDigitNext {rest : List Char} (h : NumeralEnds rest) : NoDigitNext rest := by
  cases rest with
  | nil => trivial
  | cons c rest => exact h.1

theorem noSignNext_of_isDigit {c : Char} (h : c.isDigit = true) (rest : List Char) :
    NoSignNext (c :: rest) := by
  constructor
  · rintro rfl
    exact absurd h (by decide)
  · rintro rfl
    exact absurd h (by decide)

namespace DecimalLiteral

/-- A literal goes on with a digit or a point after its sign. -/
theorem noSignNext (l : DecimalLiteral) :
    NoSignNext (l.whole ++ (pointPart l.fraction ++ exponentPart l.exponent)) := by
  cases hwhole : l.whole with
  | cons c cs => exact noSignNext_of_isDigit (l.isDigit_whole c (hwhole ▸ List.mem_cons_self)) _
  | nil =>
      cases hfraction : l.fraction with
      | none => exact absurd (by simp [hwhole, hfraction]) l.ne_nil
      | some digits => exact ⟨by decide, by decide⟩

/-- After the digits of a literal stands its exponent, whose letter is none of theirs. -/
theorem noDigitNext_exponentPart (exponent : Option WrittenExponent) {rest : List Char}
    (h : NumeralEnds rest) : NoDigitNext (exponentPart exponent ++ rest) := by
  cases exponent with
  | none => exact h.noDigitNext
  | some e =>
      obtain ⟨capital, sign, digits, isDigit, ne_nil⟩ := e
      cases capital <;> rfl

theorem noDigitNext_pointPart (fraction : Option (List Char)) {rest : List Char}
    (h : NoDigitNext rest) : NoDigitNext (pointPart fraction ++ rest) := by
  cases fraction with
  | none => exact h
  | some digits => rfl

theorem noPointNext_exponentPart (exponent : Option WrittenExponent) {rest : List Char}
    (h : NumeralEnds rest) : ∀ c ∈ (exponentPart exponent ++ rest).head?, c ≠ '.' := by
  cases exponent with
  | none =>
      cases rest with
      | nil => simp [exponentPart]
      | cons c cs =>
          obtain ⟨-, hpoint, -, -⟩ := h
          simpa [exponentPart] using hpoint
  | some e =>
      obtain ⟨capital, sign, digits, isDigit, ne_nil⟩ := e
      cases capital <;> simp [exponentPart, WrittenExponent.text]

end DecimalLiteral

/-! ## Reading -/

namespace Numeral

theorem readSign_append (sign : WrittenSign) {rest : List Char} (h : NoSignNext rest) :
    readSign (sign.text ++ rest) = (sign.isNegative, rest) := by
  cases sign with
  | plus => rfl
  | minus => rfl
  | none =>
      cases rest with
      | nil => rfl
      | cons c cs =>
          obtain ⟨hminus, hplus⟩ := h
          unfold readSign
          split <;> simp_all [WrittenSign.text, WrittenSign.isNegative]

/-- What `readSign` takes off is a sign. -/
theorem exists_sign (text : List Char) :
    ∃ sign : WrittenSign, sign.isNegative = (readSign text).1 ∧
      text = sign.text ++ (readSign text).2 := by
  unfold readSign
  split
  · exact ⟨.minus, rfl, rfl⟩
  · exact ⟨.plus, rfl, rfl⟩
  · exact ⟨.none, rfl, rfl⟩

theorem readDigits_append {digits rest : List Char} (hdigits : ∀ c ∈ digits, c.isDigit = true)
    (hrest : NoDigitNext rest) : readDigits (digits ++ rest) = (digits, rest) := by
  rw [readDigits, List.takeWhile_append_of_pos hdigits, List.dropWhile_append_of_pos hdigits]
  cases rest with
  | nil => simp
  | cons c cs => simp [show c.isDigit = false from hrest]

theorem isDigit_readDigits (text : List Char) : ∀ c ∈ (readDigits text).1, c.isDigit = true :=
  List.all_eq_true.1 List.all_takeWhile

theorem readDigits_split (text : List Char) : (readDigits text).1 ++ (readDigits text).2 = text :=
  List.takeWhile_append_dropWhile

theorem readFraction_append (fraction : Option (List Char)) {rest : List Char}
    (hdigits : ∀ c ∈ fraction.getD [], c.isDigit = true) (hrest : NoDigitNext rest)
    (hpoint : ∀ c ∈ rest.head?, c ≠ '.') :
    readFraction (DecimalLiteral.pointPart fraction ++ rest) = (fraction.getD [], rest) := by
  cases fraction with
  | some digits => exact readDigits_append hdigits hrest
  | none =>
      cases rest with
      | nil => rfl
      | cons c cs =>
          have hc : c ≠ '.' := hpoint c rfl
          unfold readFraction
          split <;> simp_all [DecimalLiteral.pointPart]

/-- What `readFraction` takes off is a point with digits, or nothing. -/
theorem exists_fraction (text : List Char) :
    ∃ fraction : Option (List Char), fraction.getD [] = (readFraction text).1 ∧
      (∀ c ∈ fraction.getD [], c.isDigit = true) ∧
      text = DecimalLiteral.pointPart fraction ++ (readFraction text).2 := by
  unfold readFraction
  split
  · rename_i rest
    refine ⟨some (readDigits rest).1, rfl, isDigit_readDigits rest, ?_⟩
    exact congrArg ('.' :: ·) (readDigits_split rest).symm
  · exact ⟨none, rfl, List.forall_mem_nil _, rfl⟩

theorem readExponentDigits_append (e : WrittenExponent) {rest : List Char} (h : NoDigitNext rest) :
    readExponentDigits (e.sign.text ++ (e.digits ++ rest)) = some (e.value, rest) := by
  have hsign : NoSignNext (e.digits ++ rest) := by
    obtain ⟨first, more, hdigits⟩ := List.exists_cons_of_ne_nil e.ne_nil
    have hfirst := e.isDigit first (hdigits ▸ List.mem_cons_self)
    rw [hdigits]
    exact noSignNext_of_isDigit hfirst _
  have hsome : e.digits.isEmpty = false := List.isEmpty_eq_false_iff.2 e.ne_nil
  rw [readExponentDigits, readSign_append e.sign hsign]
  simp only [readDigits_append e.isDigit h, hsome, Bool.false_eq_true, if_false]
  rfl

theorem readExponent_written (exponent : Option WrittenExponent) {rest : List Char}
    (h : NumeralEnds rest) :
    readExponent (DecimalLiteral.exponentPart exponent ++ rest) =
      some (DecimalLiteral.exponentValue exponent, rest) := by
  cases exponent with
  | none =>
      cases rest with
      | nil => rfl
      | cons c cs =>
          obtain ⟨-, -, hlower, hupper⟩ := h
          rw [DecimalLiteral.exponentPart, List.nil_append]
          unfold readExponent
          split <;> simp_all [DecimalLiteral.exponentValue]
  | some e =>
      have hdigits := readExponentDigits_append e h.noDigitNext
      rw [DecimalLiteral.exponentPart, WrittenExponent.text, List.cons_append, List.append_assoc]
      split
      · exact hdigits
      · exact hdigits

theorem exists_exponentDigits {text rest : List Char} {e : Int} (capital : Bool)
    (h : readExponentDigits text = some (e, rest)) :
    ∃ exponent : WrittenExponent, exponent.value = e ∧
      (if capital then 'E' else 'e') :: text = exponent.text ++ rest := by
  obtain ⟨sign, hsign, htext⟩ := exists_sign text
  have hsplit := readDigits_split (readSign text).2
  dsimp only [readExponentDigits] at h
  split at h
  · cases h
  · rename_i hsome
    obtain ⟨hvalue, hrest⟩ := Prod.mk.inj (Option.some.inj h)
    refine ⟨⟨capital, sign, (readDigits (readSign text).2).1, isDigit_readDigits _, fun hnil =>
      hsome (List.isEmpty_iff.2 hnil)⟩, ?_, ?_⟩
    · rw [WrittenExponent.value, hsign]
      exact hvalue
    · rw [hrest] at hsplit
      have hdigits : text = sign.text ++ ((readDigits (readSign text).2).1 ++ rest) := by
        rw [hsplit, ← htext]
      rw [WrittenExponent.text, List.cons_append, List.append_assoc, ← hdigits]

/-- What `readExponent` takes off is an exponent part, or nothing if there is no letter for one. -/
theorem exists_exponent {text rest : List Char} {e : Int} (h : readExponent text = some (e, rest)) :
    ∃ exponent, DecimalLiteral.exponentValue exponent = e ∧
      text = DecimalLiteral.exponentPart exponent ++ rest ∧
        (exponent = none → ∀ c ∈ text.head?, c ≠ 'e' ∧ c ≠ 'E') := by
  unfold readExponent at h
  split at h
  · obtain ⟨exponent, hvalue, htext⟩ := exists_exponentDigits false h
    exact ⟨some exponent, hvalue, htext, nofun⟩
  · obtain ⟨exponent, hvalue, htext⟩ := exists_exponentDigits true h
    exact ⟨some exponent, hvalue, htext, nofun⟩
  · rename_i hlower hupper
    cases h
    refine ⟨none, rfl, rfl, fun _ c hc => ?_⟩
    obtain ⟨more, rfl⟩ := List.head?_eq_some_iff.1 hc
    exact ⟨fun heq => hlower more (heq ▸ rfl), fun heq => hupper more (heq ▸ rfl)⟩

/-- A literal is read as its numeral. -/
theorem ofText?_literal (l : DecimalLiteral) : ofText? l.text = some l.numeral := by
  have hend : NumeralEnds [] := trivial
  have hdigit := DecimalLiteral.noDigitNext_exponentPart l.exponent hend
  have hpoint := DecimalLiteral.noPointNext_exponentPart l.exponent hend
  have hexponent := readExponent_written l.exponent hend
  rw [List.append_nil] at hdigit hpoint hexponent
  have hwhole := DecimalLiteral.noDigitNext_pointPart l.fraction hdigit
  have hsome : (l.whole.isEmpty && (l.fraction.getD []).isEmpty) = false := by
    have hne := l.ne_nil
    rw [Ne, List.append_eq_nil_iff] at hne
    rw [Bool.and_eq_false_iff, List.isEmpty_eq_false_iff, List.isEmpty_eq_false_iff]
    exact Classical.not_and_iff_not_or_not.1 hne
  rw [ofText?, DecimalLiteral.text, readSign_append l.sign l.noSignNext]
  simp only [readDigits_append l.isDigit_whole hwhole,
    readFraction_append l.fraction l.isDigit_fraction hdigit hpoint, hsome, hexponent,
    Bool.false_eq_true, if_false]
  rfl

/-- The texts that are read are those of literals. -/
theorem exists_literal {text : List Char} {n : Numeral} (h : ofText? text = some n) :
    ∃ l : DecimalLiteral, l.text = text ∧ l.numeral = n := by
  obtain ⟨sign, hsign, htext⟩ := exists_sign text
  obtain ⟨fraction, hfraction, hdigits, hpoint⟩ :=
    exists_fraction (readDigits (readSign text).2).2
  have hwhole := readDigits_split (readSign text).2
  dsimp only [ofText?] at h
  split at h
  · cases h
  · rename_i hsome
    split at h
    · rename_i hread
      obtain ⟨exponent, hvalue, hexponent, -⟩ := exists_exponent hread
      rw [List.append_nil] at hexponent
      have hparts : sign.text ++ ((readDigits (readSign text).2).1 ++
          (DecimalLiteral.pointPart fraction ++ DecimalLiteral.exponentPart exponent)) = text := by
        rw [← hexponent, ← hpoint, hwhole, ← htext]
      have hnumeral : ofDigits sign.isNegative (readDigits (readSign text).2).1 (fraction.getD [])
          (DecimalLiteral.exponentValue exponent) = n := by
        rw [hsign, hfraction, hvalue]
        exact Option.some.inj h
      refine ⟨⟨sign, (readDigits (readSign text).2).1, fraction, exponent, isDigit_readDigits _,
        hdigits, fun hnil => hsome ?_⟩, hparts, hnumeral⟩
      rw [hfraction, List.append_eq_nil_iff] at hnil
      rw [hnil.1, hnil.2]
      rfl
    · cases h

/-- The texts that are read are the literals, each as its numeral. -/
theorem ofText?_eq_some_iff {text : List Char} {n : Numeral} :
    ofText? text = some n ↔ ∃ l : DecimalLiteral, l.text = text ∧ l.numeral = n := by
  constructor
  · exact exists_literal
  · rintro ⟨l, rfl, rfl⟩
    exact ofText?_literal l

end Numeral

end JsonRules

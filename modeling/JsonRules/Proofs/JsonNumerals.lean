import JsonRules.Json.Source
import JsonRules.Proofs.DecimalLiterals

/-!
The numerals of JSON.

They are decimal literals with no plus in front, no zeros that lead and no point without digits
after it.  The reader of JSON takes exactly the text of such a literal where nothing follows that
could belong to it (`JsonSource.readNumber_literal`), and it takes nothing else
(`JsonSource.exists_literal_of_readNumber`).
-/

namespace JsonRules

/-- Digits as they stand before a point: a zero alone, or digits that do not start with zero. -/
structure PlainDigits (digits : List Char) : Prop where
  isDigit : ∀ c ∈ digits, c.isDigit = true
  start : digits = ['0'] ∨ ∃ first rest, digits = first :: rest ∧ first ≠ '0'

theorem PlainDigits.exists_cons {digits : List Char} (h : PlainDigits digits) :
    ∃ first rest, digits = first :: rest ∧ first.isDigit = true := by
  rcases h.start with rfl | ⟨first, rest, rfl, -⟩
  · exact ⟨'0', [], rfl, rfl⟩
  · exact ⟨first, rest, rfl, h.isDigit first List.mem_cons_self⟩

namespace DecimalLiteral

/-- The literal is a numeral of JSON. -/
structure IsJson (l : DecimalLiteral) : Prop where
  sign : l.sign ≠ .plus
  whole : PlainDigits l.whole
  fraction : l.fraction ≠ some []

def isWhole (l : DecimalLiteral) : Bool := l.fraction.isNone && l.exponent.isNone

/-- A whole literal has no power of ten. -/
theorem exponent_of_isWhole {l : DecimalLiteral} (h : l.isWhole = true) :
    l.numeral.magnitude.exponent = 0 := by
  rw [isWhole, Bool.and_eq_true, Option.isNone_iff_eq_none, Option.isNone_iff_eq_none] at h
  rw [numeral, h.1, h.2]
  rfl

end DecimalLiteral

namespace JsonSource

open DecimalLiteral

theorem readWhole_append {whole rest : List Char} (h : PlainDigits whole)
    (hrest : NoDigitNext rest) : readWhole (whole ++ rest) = some (whole, rest) := by
  rcases h.start with rfl | ⟨first, digits, rfl, hfirst⟩
  · rfl
  · have hread := Numeral.readDigits_append h.isDigit hrest
    unfold readWhole
    split
    · rename_i heq
      simp_all
    · rw [hread]
      rfl

theorem plainDigits_of_readWhole {text whole rest : List Char}
    (h : readWhole text = some (whole, rest)) : PlainDigits whole ∧ text = whole ++ rest := by
  unfold readWhole at h
  split at h
  · cases h
    exact ⟨⟨by simp, .inl rfl⟩, rfl⟩
  · rename_i hzero
    dsimp only at h
    split at h
    · cases h
    · rename_i hsome
      obtain ⟨rfl, rfl⟩ := Prod.mk.inj (Option.some.inj h)
      have hsplit := (Numeral.readDigits_split text).symm
      refine ⟨⟨Numeral.isDigit_readDigits text, .inr ?_⟩, hsplit⟩
      obtain ⟨first, more, hdigits⟩ := List.exists_cons_of_ne_nil (mt List.isEmpty_iff.2 hsome)
      refine ⟨first, more, hdigits, ?_⟩
      rintro rfl
      rw [hdigits] at hsplit
      exact hzero _ hsplit

theorem readFraction_append {fraction : Option (List Char)}
    (hdigits : ∀ c ∈ fraction.getD [], c.isDigit = true) (hne : fraction ≠ some [])
    {rest : List Char} (hrest : NoDigitNext rest) (hpoint : ∀ c ∈ rest.head?, c ≠ '.') :
    readFraction (pointPart fraction ++ rest) = some (fraction.getD [], rest) := by
  cases fraction with
  | some digits =>
      have hread := Numeral.readDigits_append hdigits hrest
      have hsome : digits.isEmpty = false :=
        List.isEmpty_eq_false_iff.2 fun hnil => hne (congrArg some hnil)
      rw [pointPart, List.cons_append, readFraction]
      simp only [Option.getD_some] at hread ⊢
      simp only [hread, hsome, Bool.false_eq_true, if_false]
  | none =>
      cases rest with
      | nil => rfl
      | cons c cs =>
          have hc : c ≠ '.' := hpoint c rfl
          unfold readFraction
          split <;> simp_all [pointPart]

theorem exists_fraction_of_readFraction {text digits rest : List Char}
    (h : readFraction text = some (digits, rest)) :
    ∃ fraction : Option (List Char), fraction.getD [] = digits ∧
      (∀ c ∈ digits, c.isDigit = true) ∧ fraction ≠ some [] ∧
        text = pointPart fraction ++ rest ∧ (fraction = none → ∀ c ∈ text.head?, c ≠ '.') := by
  unfold readFraction at h
  split at h
  · rename_i after
    dsimp only at h
    split at h
    · cases h
    · rename_i hsome
      obtain ⟨rfl, rfl⟩ := Prod.mk.inj (Option.some.inj h)
      refine ⟨some (Numeral.readDigits after).1, rfl, Numeral.isDigit_readDigits after, ?_, ?_, ?_⟩
      · intro hnil
        exact hsome (List.isEmpty_iff.2 (Option.some.inj hnil))
      · exact congrArg ('.' :: ·) (Numeral.readDigits_split after).symm
      · intro hnone
        cases hnone
  · rename_i hpoint
    cases h
    refine ⟨none, rfl, List.forall_mem_nil _, nofun, rfl, fun _ c hc => ?_⟩
    obtain ⟨more, rfl⟩ := List.head?_eq_some_iff.1 hc
    exact fun heq => hpoint more (heq ▸ rfl)

theorem endsWhole_iff {text : List Char} :
    endsWhole text = true ↔ ∀ c ∈ text.head?, c ≠ '.' ∧ c ≠ 'e' ∧ c ≠ 'E' := by
  cases text with
  | nil => simp [endsWhole]
  | cons c cs =>
      unfold endsWhole
      split <;> simp_all

/-- After whole digits a numeral ends if neither a point nor an exponent stands there. -/
theorem endsWhole_parts (fraction : Option (List Char)) (exponent : Option WrittenExponent)
    {rest : List Char} (hrest : fraction = none → exponent = none → endsWhole rest = true) :
    endsWhole (pointPart fraction ++ (exponentPart exponent ++ rest)) =
      (fraction.isNone && exponent.isNone) := by
  cases fraction with
  | some digits => rfl
  | none =>
      cases exponent with
      | none => exact hrest rfl rfl
      | some e =>
          obtain ⟨capital, sign, digits, isDigit, ne_nil⟩ := e
          cases capital <;> rfl

theorem endsWhole_of_numeralEnds {rest : List Char} (h : NumeralEnds rest) :
    endsWhole rest = true := by
  cases rest with
  | nil => rfl
  | cons c cs => exact endsWhole_iff.2 (by simpa using h.2)

/-- After its sign a numeral is read by its parts. -/
theorem readUnsigned_literal {l : DecimalLiteral} (h : l.IsJson) (negative : Bool)
    {rest : List Char} (hrest : NumeralEnds rest) :
    readUnsigned negative
        (l.whole ++ (pointPart l.fraction ++ (exponentPart l.exponent ++ rest))) =
      some (.number (.ofDigits negative l.whole (l.fraction.getD []) (exponentValue l.exponent))
        l.isWhole, rest) := by
  have hexponent := noDigitNext_exponentPart l.exponent hrest
  have hpoint := noPointNext_exponentPart l.exponent hrest
  have hends := endsWhole_parts l.fraction l.exponent fun _ _ => endsWhole_of_numeralEnds hrest
  rw [readUnsigned, readWhole_append h.whole (noDigitNext_pointPart l.fraction hexponent)]
  simp only [Option.bind_eq_bind, Option.bind_some,
    readFraction_append l.isDigit_fraction h.fraction hexponent hpoint,
    Numeral.readExponent_written l.exponent hrest, hends]
  rfl

/-- Digits are read without a sign. -/
theorem readNumber_of_isDigit {c : Char} (h : c.isDigit = true) (rest : List Char) :
    readNumber (c :: rest) = readUnsigned false (c :: rest) := by
  unfold readNumber
  split
  · rename_i heq
    injection heq with hminus
    subst hminus
    exact absurd h Bool.false_ne_true
  · rfl

/-- The text of a numeral is read as the numeral, and what follows it is left. -/
theorem readNumber_literal {l : DecimalLiteral} (h : l.IsJson) {rest : List Char}
    (hrest : NumeralEnds rest) :
    readNumber (l.text ++ rest) = some (.number l.numeral l.isWhole, rest) := by
  have hread := fun negative => readUnsigned_literal h negative hrest
  rw [DecimalLiteral.text, List.append_assoc, List.append_assoc, List.append_assoc]
  cases hsign : l.sign with
  | plus => exact absurd hsign h.sign
  | minus =>
      rw [numeral, hsign]
      exact hread true
  | none =>
      obtain ⟨first, more, hwhole, hdigit⟩ := h.whole.exists_cons
      rw [numeral, hsign]
      have hfalse := hread false
      rw [hwhole, List.cons_append, ← readNumber_of_isDigit hdigit] at hfalse
      rw [hwhole]
      exact hfalse

theorem exists_literal_of_readUnsigned (sign : WrittenSign) (hsign : sign ≠ .plus)
    {text rest : List Char} {source : JsonSource}
    (h : readUnsigned sign.isNegative text = some (source, rest)) :
    ∃ l : DecimalLiteral, l.IsJson ∧ source = .number l.numeral l.isWhole ∧
      sign.text ++ text = l.text ++ rest := by
  simp only [readUnsigned, Option.bind_eq_bind, Option.bind_eq_some_iff, Option.pure_def,
    Option.some.injEq, Prod.mk.injEq, Prod.exists] at h
  obtain ⟨whole, afterWhole, hwhole, digits, afterFraction, hfraction, e, rest', hexponent, rfl,
    rfl⟩ := h
  obtain ⟨hplain, rfl⟩ := plainDigits_of_readWhole hwhole
  obtain ⟨fraction, rfl, hdigits, hne, hpoint, hnopoint⟩ :=
    exists_fraction_of_readFraction hfraction
  obtain ⟨exponent, rfl, hletter, hnoletter⟩ := Numeral.exists_exponent hexponent
  have hnil : whole ++ fraction.getD [] ≠ [] := by
    obtain ⟨first, more, rfl, -⟩ := hplain.exists_cons
    exact List.cons_ne_nil _ _
  refine ⟨⟨sign, whole, fraction, exponent, hplain.isDigit, hdigits, hnil⟩,
    ⟨hsign, hplain, hne⟩, ?_, ?_⟩
  · have hends : endsWhole afterWhole = (fraction.isNone && exponent.isNone) := by
      rw [hpoint, hletter]
      apply endsWhole_parts
      rintro rfl rfl
      obtain rfl : afterWhole = afterFraction := hpoint
      obtain rfl : afterWhole = rest' := hletter
      exact endsWhole_iff.2 fun c hc => ⟨hnopoint rfl c hc, hnoletter rfl c hc⟩
    rw [hends]
    rfl
  · rw [hpoint, hletter]
    simp [DecimalLiteral.text]

/-- What is read as a number is a numeral. -/
theorem exists_literal_of_readNumber {text rest : List Char} {source : JsonSource}
    (h : readNumber text = some (source, rest)) :
    ∃ l : DecimalLiteral, l.IsJson ∧ source = .number l.numeral l.isWhole ∧
      text = l.text ++ rest := by
  unfold readNumber at h
  split at h
  · exact exists_literal_of_readUnsigned .minus nofun h
  · exact exists_literal_of_readUnsigned .none nofun h

/-! ## Where a numeral starts -/

/-- The text starts like a numeral. -/
def NumberStarts : List Char → Prop
  | [] => False
  | c :: _ => (c.isDigit || c == '-') = true

/-- The text starts like a value: not with a blank, and not with the end of an array. -/
def ValueStarts : List Char → Prop
  | [] => False
  | c :: _ => (isBlank c || c == ']') = false

theorem NumberStarts.append {text : List Char} (h : NumberStarts text) (rest : List Char) :
    NumberStarts (text ++ rest) := by
  cases text with
  | nil => exact h.elim
  | cons c cs => exact h

theorem ValueStarts.append {text : List Char} (h : ValueStarts text) (rest : List Char) :
    ValueStarts (text ++ rest) := by
  cases text with
  | nil => exact h.elim
  | cons c cs => exact h

theorem NumberStarts.valueStarts {text : List Char} (h : NumberStarts text) : ValueStarts text := by
  cases text with
  | nil => exact h.elim
  | cons c cs =>
      rw [ValueStarts, Bool.eq_false_iff]
      intro hother
      simp only [isBlank, Bool.or_eq_true, beq_iff_eq] at hother
      rcases hother with (((rfl | rfl) | rfl) | rfl) | rfl <;> exact absurd h Bool.false_ne_true

theorem ValueStarts.skipBlanks {text : List Char} (h : ValueStarts text) :
    skipBlanks text = text := by
  cases text with
  | nil => rfl
  | cons c cs =>
      have hblank : ¬isBlank c = true := by
        rw [ValueStarts, Bool.or_eq_false_iff] at h
        exact Bool.eq_false_iff.1 h.1
      exact List.dropWhile_cons_of_neg hblank

theorem ValueStarts.not_closed {text : List Char} (h : ValueStarts text) (tail : List Char) :
    JsonSource.skipBlanks text ≠ ']' :: tail := by
  rw [h.skipBlanks]
  rintro rfl
  exact Bool.false_ne_true h.symm

/-- What starts like a numeral is read as one. -/
theorem readValue_of_numberStarts {text : List Char} (h : NumberStarts text) (count : Nat) :
    readValue (count + 1) text = readNumber text := by
  rw [readValue, h.valueStarts.skipBlanks]
  split <;> first | exact absurd h Bool.false_ne_true | rfl

theorem numberStarts_literal {l : DecimalLiteral} (h : l.IsJson) : NumberStarts l.text := by
  obtain ⟨first, more, hwhole, hdigit⟩ := h.whole.exists_cons
  rw [DecimalLiteral.text, hwhole]
  cases hsign : l.sign with
  | plus => exact absurd hsign h.sign
  | minus => rfl
  | none => exact Bool.or_eq_true_iff.2 (.inl hdigit)

end JsonSource

end JsonRules

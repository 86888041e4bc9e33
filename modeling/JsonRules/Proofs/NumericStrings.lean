import JsonRules.Proofs.WrittenNumbers
import JsonRules.Value.Coercion

/-!
Numbers, their texts, and the readings of these texts.

A numeric string passes three tests: something is left once its blanks are trimmed, all of that is
made of the characters of literals, and it is a literal or a word for what is not finite.  The
second test leaves no word, so numeric strings are literals between blanks
(`Value.numberOfString?_eq`).  The text of a spelling is one of them, so in every format the text of
a finite number reads as the number (`Value.numberOfString?_write`).
-/

namespace JsonRules

namespace Text

/-- The text has no blanks. -/
def Unbroken (text : List Char) : Prop := ∀ c ∈ text, isBlank c = false

theorem Unbroken.cons {c : Char} {text : List Char} (hc : isBlank c = false) (h : Unbroken text) :
    Unbroken (c :: text) :=
  List.forall_mem_cons.2 ⟨hc, h⟩

theorem Unbroken.append {text rest : List Char} (h : Unbroken text) (hrest : Unbroken rest) :
    Unbroken (text ++ rest) :=
  List.forall_mem_append.2 ⟨h, hrest⟩

theorem unbroken_of_digits {text : List Char} (h : ∀ c ∈ text, c.isDigit = true) :
    Unbroken text := by
  intro c hc
  have hdigit := h c hc
  have hrange : 48 ≤ c.toNat ∧ c.toNat ≤ 57 := by
    simp only [Char.isDigit, Bool.and_eq_true, decide_eq_true_eq] at hdigit
    exact hdigit
  simp [isBlank]
  omega

theorem Unbroken.dropWhile {text : List Char} (h : Unbroken text) :
    text.dropWhile isBlank = text := by
  cases text with
  | nil => rfl
  | cons c cs =>
      have hfirst : ¬isBlank c = true := Bool.eq_false_iff.1 (h c List.mem_cons_self)
      exact List.dropWhile_cons_of_neg hfirst

/-- A text without blanks has nothing to trim. -/
theorem Unbroken.trim {text : List Char} (h : Unbroken text) : trim text = text := by
  have hback : Unbroken text.reverse := by
    intro c hc
    exact h c (List.mem_reverse.1 hc)
  rw [Text.trim, h.dropWhile, hback.dropWhile, List.reverse_reverse]

end Text

namespace DecimalLiteral

theorem unbroken_text (l : DecimalLiteral) : Text.Unbroken l.text := by
  have hsign : ∀ sign : WrittenSign, Text.Unbroken sign.text := by
    intro sign
    cases sign <;> simp [Text.Unbroken, WrittenSign.text, Text.isBlank]
  have hpoint : Text.Unbroken (pointPart l.fraction) := by
    have hdigits := Text.unbroken_of_digits l.isDigit_fraction
    cases hfraction : l.fraction with
    | none => exact List.forall_mem_nil _
    | some digits =>
        rw [hfraction] at hdigits
        exact hdigits.cons rfl
  have hexponent : Text.Unbroken (exponentPart l.exponent) := by
    cases l.exponent with
    | none => exact List.forall_mem_nil _
    | some e =>
        have hletter : Text.isBlank (if e.capital then 'E' else 'e') = false := by
          split <;> rfl
        exact ((hsign e.sign).append (Text.unbroken_of_digits e.isDigit)).cons hletter
  exact (hsign l.sign).append
    ((Text.unbroken_of_digits l.isDigit_whole).append (hpoint.append hexponent))

theorem text_ne_nil (l : DecimalLiteral) : l.text ≠ [] := by
  intro hnil
  have hread := Numeral.ofText?_literal l
  rw [hnil] at hread
  cases hread

/-- A literal is made of the characters of numeric strings. -/
theorem isNumericChar_of_mem_text (l : DecimalLiteral) :
    ∀ c ∈ l.text, Value.isNumericChar c = true := by
  have hdigits : ∀ {digits : List Char}, (∀ c ∈ digits, c.isDigit = true) →
      ∀ c ∈ digits, Value.isNumericChar c = true := by
    intro digits h c hc
    simp [Value.isNumericChar, h c hc]
  have hsign : ∀ sign : WrittenSign, ∀ c ∈ sign.text, Value.isNumericChar c = true := by
    intro sign
    cases sign <;> simp [WrittenSign.text, Value.isNumericChar]
  have hpoint : ∀ c ∈ pointPart l.fraction, Value.isNumericChar c = true := by
    have hfraction := hdigits l.isDigit_fraction
    cases hdigits : l.fraction with
    | none => exact List.forall_mem_nil _
    | some digits =>
        rw [hdigits] at hfraction
        exact List.forall_mem_cons.2 ⟨rfl, hfraction⟩
  have hexponent : ∀ c ∈ exponentPart l.exponent, Value.isNumericChar c = true := by
    cases l.exponent with
    | none => exact List.forall_mem_nil _
    | some e =>
        refine List.forall_mem_cons.2
          ⟨?_, List.forall_mem_append.2 ⟨hsign e.sign, hdigits e.isDigit⟩⟩
        split <;> rfl
  exact List.forall_mem_append.2 ⟨hsign l.sign, List.forall_mem_append.2
    ⟨hdigits l.isDigit_whole, List.forall_mem_append.2 ⟨hpoint, hexponent⟩⟩⟩

end DecimalLiteral

/-- A sign and the text of a spelling are a literal. -/
theorem Numeral.ofText?_text (s : Spelling) (negative : Bool) :
    ofText? ((if negative then ['-'] else []) ++ s.text) = some ⟨negative, s.magnitude⟩ := by
  rw [← s.text_literal, ofText?_literal, s.numeral_literal]

namespace NumberFormat

theorem write_zero (f : NumberFormat) (negative : Bool) :
    f.write (.zero negative) =
      (if negative && f.signedZero then ['-'] else []) ++ '0' :: f.wholeEnd := by
  rw [Binary64.zero, write, if_pos rfl]

theorem place?_readBack (f : NumberFormat) {x : Binary64} (hx : x.isFinite = true) :
    (f.readBack x).place? = x.place? := by
  obtain ⟨place, hback, hplace⟩ := Binary64.equals_iff.1 (f.readBack_equals hx)
  rw [hback, hplace]

/-- The display format shows every number but a negative zero as it is. -/
theorem readBack_display (x : Binary64) :
    display.readBack x = if x.isZero then .zero false else x := by
  cases x with
  | nan => rfl
  | infinite negative => rfl
  | finite negative units h =>
      by_cases hzero : units = 0
      · subst hzero
        cases negative <;> rfl
      · simp [readBack, writtenSign, Binary64.isZero, hzero]

end NumberFormat

namespace Value

theorem toLower_of_isDigit {c : Char} (h : c.isDigit = true) : c.toLower = c := by
  simp only [Char.isDigit, Bool.and_eq_true, decide_eq_true_eq] at h
  apply dif_neg
  rintro ⟨hletter, -⟩
  exact absurd (UInt32.le_trans hletter h.2) (by decide)

/-- No word for what is not finite starts with a character of numeric strings. -/
theorem toLower_ne_of_isNumericChar {c : Char} (h : isNumericChar c = true) :
    c.toLower ≠ 'i' ∧ c.toLower ≠ 'n' := by
  simp only [isNumericChar, Bool.or_eq_true, beq_iff_eq] at h
  rcases h with ((((hdigit | rfl) | rfl) | rfl) | rfl) | rfl
  · rw [toLower_of_isDigit hdigit]
    constructor
    · rintro rfl
      exact absurd hdigit (by decide)
    · rintro rfl
      exact absurd hdigit (by decide)
  all_goals decide

theorem ofWord?_of_isNumericChar {text : List Char} (h : ∀ c ∈ text, isNumericChar c = true)
    (negative : Bool) : Binary64.ofWord? negative text = none := by
  have hstart : ∀ {word : List Char}, text.map Char.toLower = word → ∀ c ∈ word.head?,
      c ≠ 'i' ∧ c ≠ 'n' := by
    rintro word rfl c hc
    cases text with
    | nil => cases hc
    | cons first rest =>
        obtain rfl : first.toLower = c := Option.some.inj hc
        exact toLower_ne_of_isNumericChar (h first List.mem_cons_self)
  have hword : ∀ {word : String}, String.ofList (text.map Char.toLower) = word →
      ∀ c ∈ word.toList.head?, c ≠ 'i' ∧ c ≠ 'n' := by
    rintro word rfl
    rw [String.toList_ofList]
    exact hstart rfl
  rw [Binary64.ofWord?, if_neg, if_neg]
  · intro hnan
    exact (hword hnan 'n' rfl).2 rfl
  · rintro (hinf | hinfinity)
    · exact (hword hinf 'i' rfl).1 rfl
    · exact (hword hinfinity 'i' rfl).1 rfl

/-- The strings that read as numbers are decimal literals between blanks. -/
theorem numberOfString?_eq (s : String) :
    numberOfString? s = (Numeral.ofText? (Text.trim s.toList)).map Numeral.toBinary64 := by
  rw [numberOfString?]
  generalize Text.trim s.toList = text
  have hread : (∀ c ∈ text, isNumericChar c = true) →
      Binary64.ofText? text = (Numeral.ofText? text).map Numeral.toBinary64 := by
    intro h
    obtain ⟨sign, -, htext⟩ := Numeral.exists_sign text
    have hrest : ∀ c ∈ (Numeral.readSign text).2, isNumericChar c = true := by
      intro c hc
      exact h c (htext ▸ List.mem_append_right _ hc)
    rw [Binary64.ofText?]
    simp only [ofWord?_of_isNumericChar hrest, Option.none_or]
  cases hnumeral : Numeral.ofText? text with
  | some n =>
      obtain ⟨l, rfl, -⟩ := Numeral.exists_literal hnumeral
      have hchars := l.isNumericChar_of_mem_text
      have hall : (!l.text.all isNumericChar) = false := by
        rw [List.all_eq_true.2 hchars]
        rfl
      have hsome : l.text.isEmpty = false := List.isEmpty_eq_false_iff.2 l.text_ne_nil
      simp only [hsome, hall, Bool.false_eq_true, if_false, hread hchars, hnumeral]
  | none =>
      split
      · rfl
      · split
        · rfl
        · rename_i hall
          rw [Bool.not_eq_true', Bool.not_eq_false] at hall
          rw [hread (List.all_eq_true.1 hall), hnumeral]

/-- In every format the text of a finite number is a numeric string for the number. -/
theorem numberOfString?_write (f : NumberFormat) {x : Binary64} (hx : x.isFinite = true) :
    numberOfString? (String.ofList (f.write x)) = some (f.readBack x) := by
  cases x with
  | nan => cases hx
  | infinite negative => cases hx
  | finite negative units h =>
      obtain ⟨s, htext, hnearest⟩ := f.exists_spelling negative h
      have hunbroken : Text.Unbroken (f.write (.finite negative units h)) := by
        rw [htext, ← s.text_literal]
        exact (s.literal _).unbroken_text
      rw [numberOfString?_eq, String.toList_ofList, hunbroken.trim, htext, Numeral.ofText?_text]
      exact congrArg some (hnearest _)

/-- The words for what is not finite are no numeric strings. -/
theorem numberOfString?_display_of_not_isFinite {x : Binary64} (hx : ¬x.isFinite = true) :
    numberOfString? (String.ofList (NumberFormat.display.write x)) = none := by
  cases x with
  | finite negative units h => exact absurd rfl hx
  | nan => rfl
  | infinite negative => cases negative <;> rfl

theorem toText_number (x : Binary64) :
    toText (.number x) = String.ofList (NumberFormat.display.write x) := rfl

/-- The text of a number reads as the number if it is finite, and not at all otherwise. -/
theorem numberOfString?_toText (x : Binary64) :
    numberOfString? (toText (.number x)) =
      if x.isFinite then some (NumberFormat.display.readBack x) else none := by
  rw [toText_number]
  split
  · rename_i hx
    exact numberOfString?_write .display hx
  · rename_i hx
    exact numberOfString?_display_of_not_isFinite hx

theorem looseEq_number_string (x : Binary64) (s : String) :
    looseEq (.number x) (.string s) = (numberOfString? s).any fun y => x.equals y := by
  cases hread : numberOfString? s <;> simp [looseEq, isContainer, toNumber?, hread]

theorem looseEq_string_number (x : Binary64) (s : String) :
    looseEq (.string s) (.number x) = (numberOfString? s).any fun y => y.equals x := by
  cases hread : numberOfString? s <;> simp [looseEq, isContainer, toNumber?, hread]

/-- The three words for what is not finite differ. -/
theorem equals_of_toText_eq_of_not_isFinite {x y : Binary64} (hx : ¬x.isFinite = true)
    (hy : ¬y.isFinite = true) (h : toText (.number x) = toText (.number y)) :
    x.equals y = true ∨ x.isNaN = true ∧ y.isNaN = true := by
  cases x with
  | finite negative units hunits => exact absurd rfl hx
  | nan =>
      cases y with
      | finite negative units hunits => exact absurd rfl hy
      | nan => exact .inr ⟨rfl, rfl⟩
      | infinite negative => cases negative <;> exact absurd h (by decide)
  | infinite negative =>
      cases y with
      | finite negative units hunits => exact absurd rfl hy
      | nan => cases negative <;> exact absurd h (by decide)
      | infinite other =>
          have hsign : negative = other := by
            revert h
            cases negative <;> cases other <;> decide
          subst hsign
          exact .inl (Binary64.equals_iff.2 ⟨_, rfl, rfl⟩)

/-- Texts tell apart all numbers that are not the same on the number line. -/
theorem equals_of_toText_eq {x y : Binary64} (h : toText (.number x) = toText (.number y)) :
    x.equals y = true ∨ x.isNaN = true ∧ y.isNaN = true := by
  have hreadings := congrArg numberOfString? h
  rw [numberOfString?_toText, numberOfString?_toText] at hreadings
  by_cases hx : x.isFinite = true
  · by_cases hy : y.isFinite = true
    · rw [if_pos hx, if_pos hy, Option.some.injEq] at hreadings
      obtain ⟨place, hplace, -⟩ := Binary64.equals_iff.1 (Binary64.equals_self hx)
      have hother : y.place? = some place := by
        rw [← NumberFormat.display.place?_readBack hy, ← hreadings,
          NumberFormat.display.place?_readBack hx, hplace]
      exact .inl (Binary64.equals_iff.2 ⟨place, hplace, hother⟩)
    · rw [if_pos hx, if_neg hy] at hreadings
      cases hreadings
  · by_cases hy : y.isFinite = true
    · rw [if_neg hx, if_pos hy] at hreadings
      cases hreadings
    · exact equals_of_toText_eq_of_not_isFinite hx hy h

/-- A number is loosely equal to its text, in either order, exactly if it is finite. -/
theorem looseEq_toText (x : Binary64) :
    looseEq (.number x) (.string (toText (.number x))) = x.isFinite ∧
      looseEq (.string (toText (.number x))) (.number x) = x.isFinite := by
  rw [looseEq_number_string, looseEq_string_number, numberOfString?_toText]
  by_cases hx : x.isFinite = true
  · have hback := NumberFormat.display.readBack_equals hx
    have hswapped : x.equals (NumberFormat.display.readBack x) = true := by
      obtain ⟨place, hread, hplace⟩ := Binary64.equals_iff.1 hback
      exact Binary64.equals_iff.2 ⟨place, hplace, hread⟩
    rw [if_pos hx, hx]
    exact ⟨hswapped, hback⟩
  · rw [if_neg hx, Bool.eq_false_iff.2 hx]
    exact ⟨rfl, rfl⟩

/-- The text of a number reads as the number, a zero without its sign, if the number is finite, and
not at all otherwise.  So a number and its text are loosely equal, either first, exactly if the
number is finite, and numbers of one text are equal or both not-a-number. -/
theorem toNumber?_toText (x : Binary64) :
    toNumber? (.string (toText (.number x))) =
        (if x.isFinite then some (if x.isZero then .zero false else x) else none) ∧
      looseEq (.number x) (.string (toText (.number x))) = x.isFinite ∧
      looseEq (.string (toText (.number x))) (.number x) = x.isFinite ∧
      ∀ y, toText (.number x) = toText (.number y) →
        x.equals y = true ∨ x.isNaN = true ∧ y.isNaN = true := by
  obtain ⟨hfirst, hsecond⟩ := looseEq_toText x
  refine ⟨?_, hfirst, hsecond, ?_⟩
  · rw [← NumberFormat.readBack_display x]
    exact numberOfString?_toText x
  · intro y h
    exact equals_of_toText_eq h

/-- The two zeros have one text, which reads as the positive one. -/
theorem toText_negativeZero :
    toText (.number (.zero true)) = toText (.number (.zero false)) ∧
      toNumber? (.string (toText (.number (.zero true)))) = some (.zero false) ∧
      ((Binary64.zero true).equals (.zero false) = true ∨
        (Binary64.zero true).isNaN = true ∧ (Binary64.zero false).isNaN = true) := by
  obtain ⟨hreading, -, -, hequal⟩ := toNumber?_toText (.zero true)
  have hfinite : (Binary64.zero true).isFinite = true := rfl
  have hzero : (Binary64.zero true).isZero = true := rfl
  rw [if_pos hfinite, if_pos hzero] at hreading
  have htext : toText (.number (.zero true)) = toText (.number (.zero false)) := by
    rw [toText_number, toText_number, NumberFormat.write_zero, NumberFormat.write_zero]
    rfl
  exact ⟨htext, hreading, hequal (.zero false) htext⟩

end Value

end JsonRules

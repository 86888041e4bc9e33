import JsonRules.Json.Source
import JsonRules.Proofs.NumberTexts
import JsonRules.Value.Reading

/-!
Written numbers, read as JSON.

In every format the text of a finite number is read as a numeral, whose nearest double is the number
with the sign that was written (`NumberFormat.read_finite`).  In both formats of values a number
stands apart from what follows it, whether or not it is finite (`NumberFormat.Readable`).
-/

namespace JsonRules

namespace JsonSource

theorem readNumber_text (s : Spelling) (negative : Bool) {rest : List Char}
    (h : NumeralEnds rest) :
    readNumber ((if negative then ['-'] else []) ++ s.text ++ rest) =
      some (.number ⟨negative, s.magnitude⟩ (s.literal negative).isWhole, rest) := by
  rw [← s.text_literal, readNumber_literal (s.isJson_literal negative) h, s.numeral_literal]

theorem numberStarts_text (s : Spelling) (negative : Bool) :
    NumberStarts ((if negative then ['-'] else []) ++ s.text) :=
  s.text_literal negative ▸ numberStarts_literal (s.isJson_literal negative)

/-- The text is read alike before anything that ends a numeral: as the found source, or as no JSON
at all. -/
def ReadAs (text : List Char) (found : Option JsonSource) : Prop :=
  ∀ count rest, NumeralEnds rest →
    readValue (count + 1) (text ++ rest) = found.map fun source => (source, rest)

/-- What a text is read as everywhere it says when it stands alone. -/
theorem ReadAs.ofChars? {text : List Char} {found : Option JsonSource} (h : ReadAs text found) :
    JsonSource.ofChars? text = found := by
  have hread := h (2 * text.length) [] trivial
  rw [List.append_nil] at hread
  rw [JsonSource.ofChars?, hread]
  cases found with
  | none => rfl
  | some source => rfl

end JsonSource

namespace NumberFormat

/-- Whether a sign stands in front of a finite number. -/
def writtenSign (f : NumberFormat) (negative : Bool) (units : Nat) : Bool :=
  negative && (units != 0 || f.signedZero)

/-- The number that the text of a finite number stands for. -/
def readBack (f : NumberFormat) : Binary64 → Binary64
  | .finite negative units h => .finite (f.writtenSign negative units) units h
  | x => x

theorem readBack_equals (f : NumberFormat) {x : Binary64} (hx : x.isFinite = true) :
    (f.readBack x).equals x = true := by
  cases x with
  | nan => cases hx
  | infinite negative => cases hx
  | finite negative units h =>
      by_cases hzero : units = 0
      · subst hzero
        refine Binary64.equals_iff.2 ⟨0, ?_, ?_⟩
        · rw [readBack, Binary64.place?, Binary64.signedUnits_zero]
        · rw [Binary64.place?, Binary64.signedUnits_zero]
      · have hsign : f.writtenSign negative units = negative := by
          simp [writtenSign, hzero]
        rw [readBack, hsign]
        exact Binary64.equals_self rfl

/-- The text of a finite number is a sign and a spelling of its magnitude. -/
theorem exists_spelling (f : NumberFormat) (negative : Bool) {units : Nat}
    (h : Binary64.Representable units) :
    ∃ s : Spelling,
      f.write (.finite negative units h) =
        (if f.writtenSign negative units then ['-'] else []) ++ s.text ∧
      ∀ sign, s.magnitude.nearest sign = .finite sign units h := by
  by_cases hzero : units = 0
  · subst hzero
    obtain ⟨s, htext, hnearest⟩ := f.spells_whole (plainDigits_decimalDigits 0)
    refine ⟨s, ?_, hnearest⟩
    rw [htext, write, if_pos rfl]
    rfl
  · obtain ⟨s, htext, hnearest⟩ := f.spells_writeMagnitude h hzero
    refine ⟨s, ?_, hnearest⟩
    rw [htext, write, if_neg hzero]
    simp [writtenSign, hzero]

/-- In every format the text of a finite number is a numeral for the number. -/
theorem read_finite (f : NumberFormat) {x : Binary64} (hx : x.isFinite = true) :
    ∃ numeral whole, JsonSource.ReadAs (f.write x) (some (.number numeral whole)) ∧
      numeral.toFinite? = some (f.readBack x) := by
  cases x with
  | nan => cases hx
  | infinite negative => cases hx
  | finite negative units h =>
      obtain ⟨s, htext, hnearest⟩ := f.exists_spelling negative h
      refine ⟨⟨f.writtenSign negative units, s.magnitude⟩,
        (s.literal (f.writtenSign negative units)).isWhole, ?_, ?_⟩
      · intro count rest hrest
        have hstarts := JsonSource.numberStarts_text s (f.writtenSign negative units)
        rw [htext, JsonSource.readValue_of_numberStarts (hstarts.append rest),
          JsonSource.readNumber_text s _ hrest]
        rfl
      · have hvalue : Numeral.toBinary64 ⟨f.writtenSign negative units, s.magnitude⟩ =
            f.readBack (.finite negative units h) := hnearest _
        rw [Numeral.toFinite?, hvalue]
        rfl

theorem valueStarts_finite (f : NumberFormat) {x : Binary64} (hx : x.isFinite = true) :
    JsonSource.ValueStarts (f.write x) := by
  cases x with
  | nan => cases hx
  | infinite negative => cases hx
  | finite negative units h =>
      obtain ⟨s, htext, -⟩ := f.exists_spelling negative h
      rw [htext]
      exact (JsonSource.numberStarts_text s _).valueStarts

/-- What the text of a number says to a reader of JSON, if it is JSON. -/
def source? (f : NumberFormat) (x : Binary64) : Option JsonSource :=
  JsonSource.ofChars? (f.write x)

/-- The text of every number is read alike wherever it stands, and as no array or object. -/
structure Readable (f : NumberFormat) : Prop where
  starts : ∀ x, JsonSource.ValueStarts (f.write x)
  read : ∀ x, JsonSource.ReadAs (f.write x) (f.source? x)
  height : ∀ x source, f.source? x = some source → source.height = 0

/-- A finite number is read back, the sign of zero aside. -/
theorem source?_bind_toValue? (f : NumberFormat) {x : Binary64} (hx : x.isFinite = true) :
    (f.source? x).bind JsonSource.toValue? = some (.number (f.readBack x)) := by
  obtain ⟨numeral, whole, hread, hvalue⟩ := f.read_finite hx
  rw [source?, hread.ofChars?, Option.bind_some, JsonSource.toValue?, hvalue]
  rfl

/-- A format is readable if what it writes for numbers that are not finite is. -/
theorem readable_of_not_isFinite (f : NumberFormat)
    (h : ∀ x, ¬x.isFinite = true → JsonSource.ValueStarts (f.write x) ∧
      ∃ found, JsonSource.ReadAs (f.write x) found ∧ ∀ source ∈ found, source.height = 0) :
    f.Readable := by
  have hread : ∀ x, ∃ found, JsonSource.ReadAs (f.write x) found ∧
      ∀ source ∈ found, source.height = 0 := by
    intro x
    by_cases hx : x.isFinite = true
    · obtain ⟨numeral, whole, hread, -⟩ := f.read_finite hx
      refine ⟨_, hread, ?_⟩
      intro source hsource
      cases hsource
      rfl
    · exact (h x hx).2
  refine ⟨fun x => ?_, fun x => ?_, fun x source hsource => ?_⟩
  · by_cases hx : x.isFinite = true
    · exact f.valueStarts_finite hx
    · exact (h x hx).1
  · obtain ⟨found, hfound, -⟩ := hread x
    rw [source?, hfound.ofChars?]
    exact hfound
  · obtain ⟨found, hfound, hheight⟩ := hread x
    rw [source?, hfound.ofChars?] at hsource
    exact hheight source hsource

/-- In the display format what is not finite is no JSON. -/
theorem readAs_display_of_not_isFinite {x : Binary64} (hx : ¬x.isFinite = true) :
    JsonSource.ReadAs (display.write x) none := by
  intro count rest hrest
  cases x with
  | finite negative units h => exact absurd rfl hx
  | nan => rfl
  | infinite negative => cases negative <;> rfl

theorem readable_display : display.Readable := by
  refine display.readable_of_not_isFinite fun x hx => ⟨?_, none, readAs_display_of_not_isFinite hx,
    fun _ hsource => nomatch hsource⟩
  cases x with
  | finite negative units h => exact absurd rfl hx
  | nan => rfl
  | infinite negative => cases negative <;> rfl

theorem isFinite_of_source?_display {x : Binary64} {source : JsonSource}
    (h : display.source? x = some source) : x.isFinite = true := by
  refine Decidable.byContradiction fun hx => ?_
  rw [source?, (readAs_display_of_not_isFinite hx).ofChars?] at h
  cases h

end NumberFormat

end JsonRules

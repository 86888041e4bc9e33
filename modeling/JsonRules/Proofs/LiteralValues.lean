import JsonRules.Proofs.NearestDoubles
import JsonRules.Proofs.NumericStrings

/-!
What decimal literals denote.

A literal denotes a rational number, and a string that holds the literal between blanks reads as the
double to which that number rounds (`Value.toNumber?_string`).
-/

namespace JsonRules

namespace DecimalLiteral

def magnitude (l : DecimalLiteral) : ℚ :=
  let fraction := l.fraction.getD []
  ((Nat.ofDigitChars 10 l.whole 0 : Nat) +
    (Nat.ofDigitChars 10 fraction 0 : Nat) / 10 ^ fraction.length) *
      10 ^ exponentValue l.exponent

/-- The number that the literal denotes. -/
def value (l : DecimalLiteral) : ℚ := Binary64.signed l.sign.isNegative l.magnitude

/-- The digits after the point may stand in the coefficient, with a lower exponent. -/
theorem toRat_magnitude_numeral (l : DecimalLiteral) :
    l.numeral.magnitude.toRat = l.magnitude := by
  have hten : (10 : ℚ) ≠ 0 := by norm_num
  rw [numeral, Numeral.ofDigits, Decimal.toRat, magnitude, Nat.ofDigitChars_append,
    Nat.ofDigitChars_eq_ofDigitChars_zero, zpow_sub₀ hten, zpow_natCast]
  push_cast
  field_simp

end DecimalLiteral

/-! ## Blanks around a literal -/

namespace Text

/-- A text is what `trim` leaves of it, between blanks. -/
theorem exists_trim (text : List Char) :
    ∃ front back, (∀ c ∈ front ++ back, isBlank c = true) ∧
      text = front ++ (trim text ++ back) := by
  obtain ⟨rest, hrest⟩ : ∃ rest, rest = text.dropWhile isBlank := ⟨_, rfl⟩
  have hblank : ∀ list : List Char, ∀ c ∈ list.takeWhile isBlank, isBlank c = true :=
    fun list => List.all_eq_true.1 List.all_takeWhile
  have hback : trim text ++ (rest.reverse.takeWhile isBlank).reverse = rest := by
    rw [trim, ← hrest, ← List.reverse_append, List.takeWhile_append_dropWhile, List.reverse_reverse]
  refine ⟨text.takeWhile isBlank, (rest.reverse.takeWhile isBlank).reverse, ?_, ?_⟩
  · refine List.forall_mem_append.2 ⟨hblank text, fun c hc => ?_⟩
    exact hblank rest.reverse c (List.mem_reverse.1 hc)
  · rw [hback, hrest, List.takeWhile_append_dropWhile]

/-- Before and behind blanks a text without blanks is what `trim` leaves. -/
theorem Unbroken.trim_append {core front back : List Char} (h : Unbroken core) (hne : core ≠ [])
    (hblank : ∀ c ∈ front ++ back, isBlank c = true) :
    Text.trim (front ++ (core ++ back)) = core := by
  obtain ⟨hfront, hback⟩ := List.forall_mem_append.1 hblank
  have hreversed : Unbroken core.reverse := fun c hc => h c (List.mem_reverse.1 hc)
  have hstart : (core ++ back).dropWhile isBlank = core ++ back := by
    cases core with
    | nil => exact absurd rfl hne
    | cons c cs => exact List.dropWhile_cons_of_neg (Bool.eq_false_iff.1 (h c List.mem_cons_self))
  rw [Text.trim, List.dropWhile_append_of_pos hfront, hstart, List.reverse_append,
    List.dropWhile_append_of_pos fun c hc => hback c (List.mem_reverse.1 hc), hreversed.dropWhile,
    List.reverse_reverse]

end Text

namespace DecimalLiteral

/-- A string holds a literal if it is the text of the literal, blanks around it aside. -/
def HeldBy (l : DecimalLiteral) (s : String) : Prop :=
  ∃ front back, (∀ c ∈ front ++ back, Text.isBlank c = true) ∧ s.toList = front ++ (l.text ++ back)

theorem heldBy_iff {l : DecimalLiteral} {s : String} :
    l.HeldBy s ↔ l.text = Text.trim s.toList := by
  constructor
  · rintro ⟨front, back, hblank, hs⟩
    rw [hs, l.unbroken_text.trim_append l.text_ne_nil hblank]
  · intro htext
    rw [HeldBy, htext]
    exact Text.exists_trim s.toList

end DecimalLiteral

/-- The strings that read as numbers are those that hold a decimal literal, blanks around it aside:
digits with a point before, between or after them or none, an optional sign in front and an optional
exponent.  Such a string reads as the double to which the number that its literal denotes rounds. -/
theorem Value.toNumber?_string (s : String) :
    ((toNumber? (.string s)).isSome ↔ ∃ l : DecimalLiteral, l.HeldBy s) ∧
      ∀ l : DecimalLiteral, l.HeldBy s → ∀ x,
        toNumber? (.string s) = some x ↔ Binary64.RoundsTo l.sign.isNegative l.value x := by
  have hreading : toNumber? (.string s) =
      (Numeral.ofText? (Text.trim s.toList)).map Numeral.toBinary64 := numberOfString?_eq s
  constructor
  · rw [hreading, Option.isSome_map]
    constructor
    · intro hsome
      obtain ⟨n, hn⟩ := Option.isSome_iff_exists.1 hsome
      obtain ⟨l, htext, -⟩ := Numeral.ofText?_eq_some_iff.1 hn
      exact ⟨l, DecimalLiteral.heldBy_iff.2 htext⟩
    · rintro ⟨l, hl⟩
      rw [← DecimalLiteral.heldBy_iff.1 hl, Numeral.ofText?_literal]
      rfl
  · intro l hl x
    rw [hreading, ← DecimalLiteral.heldBy_iff.1 hl, Numeral.ofText?_literal, Option.map_some,
      Option.some.injEq, DecimalLiteral.value, ← l.toRat_magnitude_numeral,
      Decimal.roundsTo_iff_eq_nearest, eq_comm]
    rfl

end JsonRules

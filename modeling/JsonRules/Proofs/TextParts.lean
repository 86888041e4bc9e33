import Mathlib
import JsonRules.Proofs.NumericOperands
import JsonRules.Proofs.Places

/-!
Parts of texts.

Where a part starts and ends is a matter of extended integers: the start and the size are truncated,
an infinity stays one, and nothing is too large to be added.  The operator reckons with words
instead, which stop at their bounds.  In a text that is shorter than the highest word this makes no
difference (`Textual.part_clampToWord`), since positions only count between the ends of the text.
-/

namespace JsonRules

namespace Binary64

theorem tdiv_signedUnits (negative : Bool) (m n : ℕ) :
    (signedUnits negative m).tdiv n = signedUnits negative (m / n) := by
  cases negative with
  | true => rw [signedUnits, signedUnits, if_pos rfl, if_pos rfl, Int.neg_tdiv, Int.ofNat_tdiv]
  | false => exact (Int.ofNat_tdiv m n).symm

/-- The part of a double before the point.  An infinity is one, and not-a-number counts as zero. -/
def wholePart : Binary64 → EInt
  | .nan => 0
  | .infinite negative => if negative then ⊥ else ⊤
  | .finite negative units _ => ((signedUnits negative units).tdiv unitsInOne : ℤ)

end Binary64

namespace Textual

/-- The word nearest to an extended integer. -/
def clampToWord (z : EInt) : ℤ := WithBotTop.rec Word.lowest Word.clamp Word.highest z

theorem clampToWord_bot : clampToWord ⊥ = Word.lowest := rfl

theorem clampToWord_coe (z : ℤ) : clampToWord z = Word.clamp z := rfl

theorem clampToWord_top : clampToWord ⊤ = Word.highest := rfl

theorem truncateToWord_eq (x : Binary64) : x.truncateToWord = clampToWord x.wholePart := by
  cases x with
  | nan => rfl
  | infinite negative => cases negative <;> rfl
  | finite negative units h =>
      rw [Binary64.wholePart, Binary64.tdiv_signedUnits]
      rfl

/-- The position where a part starts in a text of `length` characters. -/
noncomputable def firstPosition (length : ℕ) (start : EInt) : EInt :=
  if start < 0 then max (length + start) 0 else min start length

/-- The position where a part ends that starts at `first`. -/
noncomputable def lastPosition (length : ℕ) (first : EInt) : Option EInt → EInt
  | none => length
  | some size => if size < 0 then length + size else min (first + size) length

theorem lastPosition_some (length : ℕ) (first size : EInt) :
    lastPosition length first (some size) =
      if size < 0 then length + size else min (first + size) length := rfl

/-! Integers among the extended ones: order and extrema are the same there. -/

theorem coe_max (a b : ℤ) : ((max a b : ℤ) : EInt) = max (a : EInt) b :=
  WithBotTop.coe_monotone.map_max

theorem coe_min (a b : ℤ) : ((min a b : ℤ) : EInt) = min (a : EInt) b :=
  WithBotTop.coe_monotone.map_min

theorem coe_lt_zero {a : ℤ} : (a : EInt) < 0 ↔ a < 0 := WithBotTop.coe_lt_coe (b := 0)

theorem natCast_le {m n : ℕ} : (m : EInt) ≤ n ↔ m ≤ n :=
  WithBotTop.coe_le_coe.trans Int.ofNat_le

theorem natCast_inj {m n : ℕ} (h : (m : EInt) = n) : m = n :=
  Int.ofNat.inj (WithBotTop.coe_injective h)

/-- Where a part starts, for a start that is an integer. -/
theorem firstPosition_coe (length : ℕ) (start : ℤ) :
    firstPosition length start =
      ((if start < 0 then max (length + start) 0 else min start length : ℤ) : EInt) := by
  unfold firstPosition
  by_cases hstart : start < 0
  · rw [if_pos hstart, if_pos (coe_lt_zero.2 hstart), coe_max]
    rfl
  · rw [if_neg hstart, if_neg (mt coe_lt_zero.1 hstart), coe_min]
    rfl

/-- Where a part ends, for a start and a size that are integers. -/
theorem lastPosition_coe (length first : ℕ) (size : ℤ) :
    lastPosition length first (some (size : EInt)) =
      ((if size < 0 then length + size else min (first + size) length : ℤ) : EInt) := by
  rw [lastPosition_some]
  by_cases hsize : size < 0
  · rw [if_pos hsize, if_pos (coe_lt_zero.2 hsize)]
    rfl
  · rw [if_neg hsize, if_neg (mt coe_lt_zero.1 hsize), coe_min]
    rfl

theorem lowest_le_clampToWord (z : EInt) : Word.lowest ≤ clampToWord z := by
  induction z using WithBotTop.rec with
  | bot => exact Int.le_refl Word.lowest
  | coe z => exact Int.le_max_left _ _
  | top => exact (by decide : Word.lowest ≤ Word.highest)

theorem firstPosition_bot (length : ℕ) : firstPosition length ⊥ = 0 := by
  simp [firstPosition]

/-- A start beyond the words is as good as the nearest word. -/
theorem firstPosition_clampToWord {length : ℕ} (hlength : (length : ℤ) ≤ Word.highest)
    (start : EInt) : firstPosition length (clampToWord start) = firstPosition length start := by
  rw [firstPosition_coe]
  induction start using WithBotTop.rec with
  | bot =>
      refine Eq.trans ?_ (firstPosition_bot length).symm
      change _ = ((0 : ℤ) : EInt)
      simp only [clampToWord_bot, Word.lowest, Word.highest] at *
      congr 1
      omega
  | coe start =>
      rw [firstPosition_coe]
      simp only [clampToWord_coe, Word.clamp, Word.lowest, Word.highest] at *
      congr 1
      omega
  | top =>
      have htop : firstPosition length ⊤ = length := by simp [firstPosition]
      refine Eq.trans ?_ htop.symm
      change _ = ((length : ℤ) : EInt)
      simp only [clampToWord_top, Word.highest] at *
      congr 1
      omega

/-- A size beyond the words is as good as the nearest word. -/
theorem max_lastPosition_clampToWord {length first : ℕ} (hlength : (length : ℤ) ≤ Word.highest)
    (hfirst : first ≤ length) (size : EInt) :
    max (first : EInt) (lastPosition length first (some (clampToWord size : EInt))) =
      max (first : EInt) (lastPosition length first (some size)) := by
  rw [lastPosition_coe]
  induction size using WithBotTop.rec with
  | bot =>
      have hbot : max (first : EInt) (lastPosition length first (some ⊥)) = first := by
        simp [lastPosition]
      refine (coe_max first _).symm.trans (Eq.trans ?_ hbot.symm)
      change _ = ((first : ℤ) : EInt)
      simp only [clampToWord_bot, Word.lowest, Word.highest] at *
      congr 1
      omega
  | coe size =>
      rw [lastPosition_coe]
      refine (coe_max first _).symm.trans (Eq.trans ?_ (coe_max first _))
      simp only [clampToWord_coe, Word.clamp, Word.lowest, Word.highest] at *
      congr 1
      omega
  | top =>
      have htop : max (first : EInt) (lastPosition length first (some ⊤)) = length := by
        have hadd : (first : EInt) + ⊤ = ⊤ := rfl
        simpa [lastPosition, hadd] using natCast_le.2 hfirst
      refine (coe_max first _).symm.trans (Eq.trans ?_ htop.symm)
      change _ = ((length : ℤ) : EInt)
      simp only [clampToWord_top, Word.highest] at *
      congr 1
      omega

theorem startPosition_of_word {length : ℕ} (hlength : (length : ℤ) ≤ Word.highest) {start : ℤ}
    (hstart : Word.lowest ≤ start) :
    startPosition length start =
      some (if start < 0 then max (length + start) 0 else min start length) := by
  unfold startPosition
  by_cases hnegative : start < 0
  · rw [if_pos hnegative, if_pos hnegative, add?_eq_some (by omega) (by omega)]
    rfl
  · rw [if_neg hnegative, if_neg hnegative]

theorem endPosition_of_word {length first : ℕ} (hlength : (length : ℤ) ≤ Word.highest) {size : ℤ}
    (hsize : Word.lowest ≤ size) :
    endPosition length first (some size) =
      some (if size < 0 then length + size else min (first + size) length) := by
  simp only [endPosition]
  by_cases hnegative : size < 0
  · rw [if_pos hnegative, if_pos hnegative, add?_eq_some (by omega) (by omega)]
  · rw [if_neg hnegative, if_neg hnegative, Word.addClamped, Word.clamp]
    congr 1
    simp only [Word.lowest, Word.highest] at *
    omega

/-- The bounds of a part, for words. -/
theorem bounds_of_words {length : ℕ} (hlength : (length : ℤ) ≤ Word.highest) {start : ℤ}
    (hstart : Word.lowest ≤ start) {size : Option ℤ} (hsize : ∀ n ∈ size, Word.lowest ≤ n) :
    ∃ first last : ℕ, bounds length start size = some ((first : ℤ), (last : ℤ)) ∧
      firstPosition length start = first ∧
      max (first : EInt) (lastPosition length first (size.map WithBotTop.coe)) = last ∧
      first ≤ last ∧ last ≤ length := by
  obtain ⟨first, last, hbounds, hnonneg, hle, hlast⟩ :=
    bounds_eq_some (Int.natCast_nonneg length) hlength hstart hsize
  lift first to ℕ using hnonneg
  lift last to ℕ using by omega
  have hwhole := hbounds
  simp only [bounds, bind, Option.bind_eq_some_iff, pure, Option.some.injEq, Prod.mk.injEq]
    at hbounds
  obtain ⟨_, hstartAt, position, hendAt, rfl, hmax⟩ := hbounds
  rw [startPosition_of_word hlength hstart, Option.some.injEq] at hstartAt
  have hposition : lastPosition length first (size.map WithBotTop.coe) = position := by
    cases size with
    | none =>
        cases hendAt
        rfl
    | some n =>
        rw [endPosition_of_word hlength (hsize n rfl), Option.some.injEq] at hendAt
        rw [Option.map_some, lastPosition_coe, hendAt]
  refine ⟨first, last, hwhole, ?_, ?_, by omega, by omega⟩
  · rw [firstPosition_coe, hstartAt]
    rfl
  · rw [hposition]
    refine (coe_max first position).symm.trans ?_
    rw [max_comm, hmax]
    rfl

/-- The part of a text for extended integers.  Reckoning with the nearest words gives the
characters between the positions that extended integers give. -/
theorem part_clampToWord (text : List Char) (hlength : (text.length : ℤ) ≤ Word.highest)
    (start : EInt) (size : Option EInt) :
    ∃ first last : ℕ, firstPosition text.length start = first ∧
      max (first : EInt) (lastPosition text.length first size) = last ∧
      first ≤ last ∧ last ≤ text.length ∧
      part ⟨text, hlength⟩ (clampToWord start) (size.map clampToWord) =
        some (text.extract first last) := by
  have hsize : ∀ n ∈ size.map clampToWord, Word.lowest ≤ n := by
    intro n hn
    obtain ⟨z, -, rfl⟩ := Option.map_eq_some_iff.1 hn
    exact lowest_le_clampToWord z
  obtain ⟨first, last, hbounds, hfirst, hmax, hle, hlast⟩ :=
    bounds_of_words hlength (lowest_le_clampToWord start) hsize
  refine ⟨first, last, ?_, ?_, hle, hlast, ?_⟩
  · rw [← hfirst, firstPosition_clampToWord hlength]
  · rw [← hmax]
    cases size with
    | none => rfl
    | some z => exact (max_lastPosition_clampToWord hlength (hle.trans hlast) z).symm
  · have hbetween : 0 ≤ (first : ℤ) ∧ (first : ℤ) ≤ last ∧ (last : ℤ) ≤ text.length := by omega
    have hcut : (text.take last).drop first = text.extract first last := by
      rw [List.extract_eq_take_drop, List.drop_take]
    simp only [part_eq, hbounds, Option.bind_some, between, if_pos hbetween, Int.toNat_natCast,
      hcut]

theorem firstPosition_zero (length : ℕ) : firstPosition length 0 = 0 := by
  rw [firstPosition, if_neg (lt_irrefl 0)]
  exact min_eq_left (natCast_le.2 (Nat.zero_le length))

/-- The size of the first of two parts is the start of the second: there the text is cut. -/
theorem max_lastPosition_zero (length : ℕ) (cut : EInt) :
    max 0 (lastPosition length 0 (some cut)) = firstPosition length cut := by
  rw [lastPosition_some, firstPosition]
  by_cases hcut : cut < 0
  · rw [if_pos hcut, if_pos hcut, max_comm]
  · have hmin : 0 ≤ min cut (length : EInt) :=
      le_min (not_lt.1 hcut) (natCast_le.2 (Nat.zero_le length))
    rw [if_neg hcut, if_neg hcut, zero_add, max_eq_right hmin]

/-- An operand with a reading counts the characters of the whole part of the reading. -/
theorem characterCount_of_some {value : Value} {x : Binary64} (h : value.toNumber? = some x)
    (operator : String) : characterCount operator value = .ok (clampToWord x.wholePart) := by
  rw [characterCount, Numeric.reading_of_some h, ← truncateToWord_eq]
  rfl

variable {value startValue : Value} {more : Option Value} {start : Binary64}
  {size : Option Binary64}

/-- The part of a text that operands with readings give. -/
theorem slice_of_readings (operator : String) (hstart : startValue.toNumber? = some start)
    (hsize : more.map Value.toNumber? = size.map some) :
    slice operator (value :: startValue :: more.toList) =
      (do
        let part ← Result.ofOption (part (.ofText value.toText.toList) (clampToWord start.wholePart)
          ((size.map Binary64.wholePart).map clampToWord))
        return .string (String.ofList part)) := by
  cases more with
  | none =>
      cases size with
      | some x => cases hsize
      | none =>
          simp only [slice, Option.toList_none, characterCount_of_some hstart]
          rfl
  | some sizeValue =>
      cases size with
      | none => cases hsize
      | some x =>
          have hread : sizeValue.toNumber? = some x := Option.some.inj hsize
          simp only [slice, Option.toList_some, characterCount_of_some hstart,
            characterCount_of_some hread]
          rfl

/-- The part is there: the characters from one position up to another. -/
theorem exists_slice (operator : String) (hlength : value.toText.length < 2 ^ 63)
    (hstart : startValue.toNumber? = some start)
    (hsize : more.map Value.toNumber? = size.map some) :
    ∃ first last : ℕ,
      firstPosition value.toText.length start.wholePart = first ∧
      max (first : EInt)
        (lastPosition value.toText.length first (size.map Binary64.wholePart)) = last ∧
      first ≤ last ∧ last ≤ value.toText.length ∧
      slice operator (value :: startValue :: more.toList) =
        pure (.string (String.ofList (value.toText.toList.extract first last))) := by
  have hword : (value.toText.toList.length : ℤ) ≤ Word.highest := by
    rw [String.length_toList, Word.highest]
    omega
  obtain ⟨first, last, hfirst, hlast, hle, hbound, hpart⟩ :=
    part_clampToWord value.toText.toList hword start.wholePart (size.map Binary64.wholePart)
  rw [String.length_toList] at hfirst hlast hbound
  refine ⟨first, last, hfirst, hlast, hle, hbound, ?_⟩
  rw [slice_of_readings operator hstart hsize, Characters.ofText_of_short hword, hpart]
  rfl

/-- A text is cut in two where a number says. -/
theorem exists_halves (operator : String) (hlength : value.toText.length < 2 ^ 63) {cut : Value}
    {x : Binary64} (hcut : cut.toNumber? = some x) :
    ∃ front back,
      slice operator [value, .number (.zero false), cut] = pure (.string front) ∧
      slice operator [value, cut] = pure (.string back) ∧ front ++ back = value.toText := by
  have hzero : (Value.number (.zero false)).toNumber? = some (.zero false) := rfl
  have hwhole : (Binary64.zero false).wholePart = 0 := by
    rw [Binary64.zero, Binary64.wholePart, Binary64.signedUnits_zero, Int.zero_tdiv]
    rfl
  have hsize : (some cut).map Value.toNumber? = (some x).map some := congrArg some hcut
  have hnone : (none : Option Value).map Value.toNumber? = (none : Option Binary64).map some := rfl
  obtain ⟨first, last, hfirst, hlast, -, -, hfront⟩ := exists_slice operator hlength hzero hsize
  obtain ⟨first', last', hfirst', hlast', -, hbound', hback⟩ :=
    exists_slice operator hlength hcut hnone
  obtain rfl : first = 0 := by
    rw [hwhole, firstPosition_zero] at hfirst
    exact natCast_inj hfirst.symm
  obtain rfl : last = first' := by
    rw [Nat.cast_zero, Option.map_some, max_lastPosition_zero, hfirst'] at hlast
    exact natCast_inj hlast.symm
  obtain rfl : last' = value.toText.length := by
    have hle : (value.toText.length : EInt) ≤ last' := hlast' ▸ le_max_right _ _
    exact Nat.le_antisymm hbound' (natCast_le.1 hle)
  refine ⟨_, _, hfront, hback, ?_⟩
  rw [← String.ofList_append, List.extract_eq_take_drop, List.extract_eq_take_drop, List.drop_zero,
    Nat.sub_zero, ← String.length_toList, ← List.length_drop, List.take_length,
    List.take_append_drop, String.ofList_toList]

end Textual

/-- What the operator for parts of texts makes of operands with readings.  The part has the
characters of the text from its first position up to its last, which extended integers give and
which lie within the text.  Whatever number it is cut at, a text is the part up to the number and
the part from there on. -/
theorem Function.apply_slice {value startValue : Value} {more : Option Value} {start : Binary64}
    {size : Option Binary64} (hlength : value.toText.length < 2 ^ 63)
    (hstart : startValue.toNumber? = some start)
    (hsize : more.map Value.toNumber? = size.map some) :
    (∃ first last : ℕ,
      Textual.firstPosition value.toText.length start.wholePart = first ∧
      max (first : EInt) (Textual.lastPosition value.toText.length first
        (size.map Binary64.wholePart)) = last ∧
      first ≤ last ∧ last ≤ value.toText.length ∧
      Function.slice.apply (value :: startValue :: more.toList) =
        pure (.string (String.ofList (value.toText.toList.extract first last)))) ∧
    ∀ cut x, cut.toNumber? = some x → ∃ front back,
      Function.slice.apply [value, .number (.zero false), cut] = pure (.string front) ∧
      Function.slice.apply [value, cut] = pure (.string back) ∧
      front ++ back = value.toText :=
  ⟨Textual.exists_slice Function.slice.name hlength hstart hsize,
    fun _ _ hcut => Textual.exists_halves Function.slice.name hlength hcut⟩

/-- A start before all words, and a size that is a numeral with a point. -/
theorem Function.apply_slice_accented :
    (Value.string "né").toText.length < 2 ^ 63 ∧
    Function.slice.apply [.string "né", .number (.infinite true), .string "1.9"] =
      pure (.string "n") := by
  have hlength : (Value.string "né").toText.length < 2 ^ 63 := by decide
  have hwhole : ((Value.string "1.9").toNumber?).map Binary64.wholePart = some 1 := by
    decide +kernel
  obtain ⟨x, hread, hx⟩ := Option.map_eq_some_iff.1 hwhole
  have hsize : (some (Value.string "1.9")).map Value.toNumber? = (some x).map some :=
    congrArg some hread
  have hstart : (Value.number (.infinite true)).toNumber? = some (.infinite true) := rfl
  obtain ⟨⟨first, last, hfirst, hlast, -, -, happly⟩, -⟩ :=
    Function.apply_slice hlength hstart hsize
  obtain rfl : first = 0 :=
    Textual.natCast_inj (hfirst.symm.trans (Textual.firstPosition_bot 2))
  have hone : Textual.lastPosition 2 (0 : ℕ) (some 1) = (1 : ℕ) := Textual.lastPosition_coe 2 0 1
  have hmax : max ((0 : ℕ) : EInt) (1 : ℕ) = (1 : ℕ) :=
    max_eq_right (Textual.natCast_le.2 (Nat.zero_le 1))
  obtain rfl : last = 1 := by
    rw [Option.map_some, hx] at hlast
    exact Textual.natCast_inj (hlast.symm.trans ((congrArg _ hone).trans hmax))
  exact ⟨hlength, happly⟩

end JsonRules

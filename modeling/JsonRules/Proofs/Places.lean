import JsonRules.Binary64.Basic

/-!
Places on the number line.

A double has the place of its units, the infinities stand outside all finite doubles, and two
doubles are equal when they have the same place.  Equal doubles are therefore the same but for the
sign of zero (`finite_of_equals`).
-/

namespace JsonRules.Binary64

theorem signedUnits_zero (negative : Bool) : signedUnits negative 0 = 0 := by
  cases negative <;> rfl

theorem natAbs_signedUnits (negative : Bool) (units : Nat) :
    (signedUnits negative units).natAbs = units := by
  unfold signedUnits
  split <;> omega

/-- Zero apart, a place is left of zero if its sign says so. -/
theorem signedUnits_lt_zero_iff {negative : Bool} {units : Nat} (h : units ≠ 0) :
    signedUnits negative units < 0 ↔ negative = true := by
  cases negative with
  | false => simp [signedUnits]
  | true =>
      simp only [signedUnits, if_true, iff_true]
      omega

/-- A place other than zero has one sign and one magnitude. -/
theorem signedUnits_inj {s t : Bool} {m n : Nat} (h : signedUnits s m = signedUnits t n) :
    m = n ∧ (m ≠ 0 → s = t) := by
  have hmagnitude : m = n := by
    rw [← natAbs_signedUnits s m, h, natAbs_signedUnits]
  subst hmagnitude
  refine ⟨rfl, fun hm => ?_⟩
  cases s <;> cases t <;> simp [signedUnits] at h ⊢ <;> omega

theorem signedUnits_mul (negative : Bool) (m n : Nat) :
    signedUnits negative (m * n) = signedUnits negative m * n := by
  unfold signedUnits
  split
  · rw [Int.natCast_mul, Int.neg_mul]
  · exact Int.natCast_mul m n

/-- An integer is its sign and its magnitude. -/
theorem signedUnits_natAbs (z : Int) : signedUnits (z < 0) z.natAbs = z := by
  unfold signedUnits
  by_cases hnegative : z < 0
  · rw [if_pos (decide_eq_true hnegative)]
    omega
  · rw [if_neg (ne_true_of_eq_false (decide_eq_false hnegative))]
    omega

/-- Only numbers that have a place are related by their places. -/
theorem placesRelated_iff {related : Int → Int → Bool} {x y : Binary64} :
    placesRelated related x y = true ↔
      ∃ a b, x.place? = some a ∧ y.place? = some b ∧ related a b = true := by
  unfold placesRelated
  cases x.place? with
  | none => simp
  | some a => cases y.place? <;> simp

/-- Numbers that have places are related as these are. -/
theorem placesRelated_of_place? {x y : Binary64} {a b : Int} (hx : x.place? = some a)
    (hy : y.place? = some b) (related : Int → Int → Bool) :
    placesRelated related x y = related a b := by
  simp only [placesRelated, hx, hy]

theorem isNaN_of_place? {x : Binary64} {place : Int} (h : x.place? = some place) :
    x.isNaN = false := by
  cases x with
  | nan => cases h
  | _ => rfl

theorem equals_iff {x y : Binary64} :
    x.equals y = true ↔ ∃ place, x.place? = some place ∧ y.place? = some place := by
  rw [equals, placesRelated_iff]
  constructor
  · rintro ⟨a, b, hx, hy, hplaces⟩
    rw [← eq_of_beq hplaces] at hy
    exact ⟨a, hx, hy⟩
  · rintro ⟨place, hx, hy⟩
    exact ⟨place, place, hx, hy, beq_self_eq_true place⟩

theorem equals_comm (x y : Binary64) : x.equals y = y.equals x := by
  rw [Bool.eq_iff_iff, equals_iff, equals_iff]
  exact exists_congr fun place => and_comm

theorem equals_trans {x y z : Binary64} (hxy : x.equals y = true) (hyz : y.equals z = true) :
    x.equals z = true := by
  obtain ⟨place, hx, hy⟩ := equals_iff.1 hxy
  obtain ⟨other, hy', hz⟩ := equals_iff.1 hyz
  obtain rfl : place = other := Option.some.inj (hy.symm.trans hy')
  exact equals_iff.2 ⟨place, hx, hz⟩

/-- Every number but not-a-number equals itself. -/
theorem equals_self_iff {x : Binary64} : x.equals x = true ↔ x.isNaN = false := by
  cases x with
  | nan => exact iff_of_false Bool.false_ne_true Bool.true_eq_false.mp
  | infinite negative => exact iff_of_true (equals_iff.2 ⟨_, rfl, rfl⟩) rfl
  | finite negative units h => exact iff_of_true (equals_iff.2 ⟨_, rfl, rfl⟩) rfl

/-- A finite number equals itself. -/
theorem equals_self {x : Binary64} (h : x.isFinite = true) : x.equals x = true := by
  cases x with
  | finite negative units hunits => exact equals_iff.2 ⟨_, rfl, rfl⟩
  | _ => cases h

/-- What equals a finite number differs from it at most in the sign of zero. -/
theorem finite_of_equals {x : Binary64} {negative : Bool} {units : Nat}
    {h : Representable units} (heq : x.equals (.finite negative units h) = true) :
    ∃ sign, x = .finite sign units h ∧ (units ≠ 0 → sign = negative) := by
  obtain ⟨place, hx, hplace⟩ := equals_iff.1 heq
  rw [← hplace] at hx
  cases x with
  | nan => cases hx
  | infinite sign =>
      have hlimit := (signedUnits_inj (Option.some.inj hx)).1
      exact absurd h.1 (Nat.not_lt.2 (Nat.le_of_eq hlimit))
  | finite sign m hm =>
      obtain ⟨rfl, hsign⟩ := signedUnits_inj (Option.some.inj hx)
      exact ⟨sign, rfl, hsign⟩

/-- A finite number at a whole place is the double of the integer, the sign of zero aside. -/
theorem equals_ofInt {x : Binary64} {z : Int} (hx : x.isFinite = true)
    (hplace : x.place? = some (z * unitsInOne)) : (ofInt z).equals x = true := by
  cases x with
  | nan => cases hx
  | infinite negative => cases hx
  | finite negative units h =>
      have hunits : z.natAbs * unitsInOne = units := by
        rw [← natAbs_signedUnits negative units, Option.some.inj hplace, Int.natAbs_mul,
          Int.natAbs_natCast]
      refine equals_iff.2 ⟨_, ?_, hplace⟩
      rw [ofInt, hunits, ofRatio_of_representable _ h, place?, ← hunits, signedUnits_mul,
        signedUnits_natAbs]

end JsonRules.Binary64

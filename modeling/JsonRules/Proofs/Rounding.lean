import JsonRules.Decimal.Basic
import JsonRules.Proofs.Places
import Mathlib.Algebra.Group.Nat.Defs

/-!
Rounding of quotients and of decimals.

Rounding sees only the quotient and not how it is written (`ofRatio_congr`).  Settling the outermost
exponents without their power of ten does not change what a decimal rounds to
(`Decimal.nearest_eq_ofRatio`), so that decimals of one magnitude have the same nearest double
however their zeros are written (`Decimal.nearest_shift`).
-/

namespace JsonRules

namespace Binary64

theorem divNearest_scale (num den : Nat) {k : Nat} (hk : 0 < k) :
    divNearest (num * k) (den * k) = divNearest num den := by
  have hless : 2 * (num % den * k) < den * k ↔ 2 * (num % den) < den := by
    rw [← Nat.mul_assoc]
    exact Nat.mul_lt_mul_right hk
  have hhalf : 2 * (num % den * k) = den * k ↔ 2 * (num % den) = den := by
    rw [← Nat.mul_assoc]
    exact Nat.mul_left_inj (Nat.ne_of_gt hk)
  simp only [divNearest, Nat.mul_div_mul_right _ _ hk, Nat.mul_mod_mul_right, hless, hhalf]

theorem roundUnits_scale (num den : Nat) {k : Nat} (hk : 0 < k) :
    roundUnits (num * k) (den * k) = roundUnits num den := by
  rw [roundUnits, Nat.mul_div_mul_right _ _ hk, Nat.mul_right_comm, divNearest_scale _ _ hk,
    roundUnits]

/-- Equal quotients round alike. -/
theorem roundUnits_congr {num den num' den' : Nat} (hden : 0 < den) (hden' : 0 < den')
    (h : num * den' = num' * den) : roundUnits num den = roundUnits num' den' := by
  rw [← roundUnits_scale num den hden', h, Nat.mul_comm den, roundUnits_scale num' den' hden]

theorem ofRatio_congr (negative : Bool) {num den num' den' : Nat} (hden : 0 < den)
    (hden' : 0 < den') (h : num * den' = num' * den) :
    ofRatio negative num den = ofRatio negative num' den' := by
  simp only [ofRatio, roundUnits_congr hden hden' h]

theorem ofRatio_eq_finite_iff {negative : Bool} {num den units : Nat} (h : Representable units) :
    ofRatio negative num den = .finite negative units h ↔ roundUnits num den = units := by
  unfold ofRatio
  constructor
  · intro heq
    split at heq
    · injection heq
    · cases heq
  · rintro rfl
    rw [dif_pos h.1]

/-- Less than half a unit rounds to nothing. -/
theorem roundUnits_eq_zero {num den : Nat} (h : 2 * num < den) : roundUnits num den = 0 := by
  have hquotient : num / den = 0 := Nat.div_eq_of_lt (by omega)
  have hspacing : spacing (num / den) = 1 := spacing_of_log2_le (by simp [hquotient])
  rw [roundUnits, hspacing, Nat.mul_one, Nat.mul_one, divNearest,
    if_pos (.inl (by rwa [Nat.mod_eq_of_lt (by omega)])), hquotient]

theorem log2_le_log2 {n m : Nat} (hn : n ≠ 0) (h : n ≤ m) : n.log2 ≤ m.log2 :=
  (Nat.le_log2 (by omega)).2 (Nat.le_trans (Nat.log2_self_le hn) h)

theorem le_div_mul_of_dvd {n m step : Nat} (hdvd : step ∣ n) (h : n ≤ m) :
    n ≤ m / step * step := by
  rw [← Nat.div_mul_cancel hdvd]
  exact Nat.mul_le_mul_right step (Nat.div_le_div_right h)

/-- No point of the grid lies between a magnitude and the multiple of its spacing before it. -/
theorem le_div_spacing_mul {n m : Nat} (hgrid : spacing n ∣ n) (h : n ≤ m) :
    n ≤ m / spacing m * spacing m := by
  by_cases hzero : n = 0
  · rw [hzero]
    exact Nat.zero_le _
  · rcases Nat.lt_or_eq_of_le (log2_le_log2 hzero h) with hlog | hlog
    · have hne : m ≠ 0 := by omega
      calc n ≤ 2 ^ (n.log2 + 1) := Nat.le_of_lt Nat.lt_log2_self
        _ ≤ 2 ^ m.log2 := Nat.pow_le_pow_right (by decide) hlog
        _ ≤ m / spacing m * spacing m :=
            le_div_mul_of_dvd (Nat.pow_dvd_pow 2 (Nat.sub_le _ _)) (Nat.log2_self_le hne)
    · have hspacing : spacing n = spacing m := by rw [spacing, spacing, hlog]
      exact le_div_mul_of_dvd (hspacing ▸ hgrid) h

/-- What lies at or above a point of the grid rounds to no less. -/
theorem le_roundUnits {n num den : Nat} (hgrid : spacing n ∣ n) (hden : 0 < den)
    (h : n * den ≤ num) : n ≤ roundUnits num den := by
  have hquotient : n ≤ num / den := (Nat.le_div_iff_mul_le hden).2 h
  calc n ≤ num / den / spacing (num / den) * spacing (num / den) :=
        le_div_spacing_mul hgrid hquotient
    _ = num / (den * spacing (num / den)) * spacing (num / den) := by
        rw [Nat.div_div_eq_div_mul]
    _ ≤ roundUnits num den := Nat.mul_le_mul_right _ (div_le_divNearest _ _)

/-- A multiple of a power of two with 53 bits or less before it lies on its grid. -/
theorem spacing_dvd_mul_two_pow {n : Nat} (h : n < stepLimit) (k : Nat) :
    spacing (n * 2 ^ k) ∣ n * 2 ^ k := by
  by_cases hzero : n = 0
  · subst hzero
    rw [Nat.zero_mul]
    exact Nat.dvd_zero _
  · have hbelow : n * 2 ^ k < 2 ^ (53 + k) := by
      rw [Nat.pow_add]
      exact Nat.mul_lt_mul_of_pos_right h (Nat.two_pow_pos k)
    have hlog := (Nat.log2_lt (Nat.mul_ne_zero hzero (Nat.ne_of_gt (Nat.two_pow_pos k)))).2 hbelow
    have hstep : spacing (n * 2 ^ k) ∣ 2 ^ k := Nat.pow_dvd_pow 2 (by omega)
    exact Nat.dvd_trans hstep (Nat.dvd_mul_left _ _)

theorem ofRatio_of_small (negative : Bool) {num den : Nat} (h : 2 * num < den) :
    ofRatio negative num den = .zero negative := by
  simp only [ofRatio, roundUnits_eq_zero h, unitLimit_pos, dif_pos, zero]

/-- A magnitude beyond the finite range stays beyond it. -/
theorem unitLimit_le_roundUnits {num : Nat} (h : unitLimit ≤ num) :
    unitLimit ≤ roundUnits num 1 := by
  unfold unitLimit at h ⊢
  generalize 2098 = k at h ⊢
  have hgrid : spacing (1 * 2 ^ k) ∣ 1 * 2 ^ k := spacing_dvd_mul_two_pow (by decide) k
  rw [Nat.one_mul] at hgrid
  exact le_roundUnits hgrid Nat.one_pos (by rwa [Nat.mul_one])

theorem ofRatio_of_large (negative : Bool) {num : Nat} (h : unitLimit ≤ num) :
    ofRatio negative num 1 = .infinite negative := by
  rw [ofRatio, dif_neg (Nat.not_lt.2 (unitLimit_le_roundUnits h))]

theorem spacing_le {n : Nat} (hn : n ≠ 0) : spacing n ≤ n :=
  calc spacing n ≤ 2 ^ n.log2 := Nat.pow_le_pow_right (by decide) (Nat.sub_le _ _)
    _ ≤ n := Nat.log2_self_le hn

/-- Rounding at most doubles a magnitude. -/
theorem roundUnits_le (n : Nat) : roundUnits n 1 ≤ 2 * n := by
  by_cases hn : n = 0
  · subst hn
    exact Nat.le_of_eq (roundUnits_of_representable representable_zero)
  · rw [roundUnits, Nat.div_one, Nat.one_mul]
    calc divNearest n (spacing n) * spacing n ≤ (n / spacing n + 1) * spacing n :=
          Nat.mul_le_mul_right _ (divNearest_le_succ _ _)
      _ = n / spacing n * spacing n + spacing n := Nat.succ_mul _ _
      _ ≤ n + n := Nat.add_le_add (Nat.div_mul_le_self _ _) (spacing_le hn)
      _ = 2 * n := (Nat.two_mul n).symm

theorem isFinite_ofRatio (negative : Bool) {n : Nat} (h : 2 * n < unitLimit) :
    (ofRatio negative n 1).isFinite = true := by
  rw [ofRatio, dif_pos (Nat.lt_of_le_of_lt (roundUnits_le n) h), isFinite]

theorem isFinite_ofRatio_one (negative : Bool) : (ofRatio negative 1 1).isFinite = true := by
  apply isFinite_ofRatio
  have hexponents : 2 ≤ 2098 := by decide
  unfold unitLimit
  generalize 2098 = m at hexponents ⊢
  calc 2 * 1 < 2 ^ 2 := by decide
    _ ≤ 2 ^ m := Nat.pow_le_pow_right (by decide) hexponents

/-- Whole numbers of a hundred bits are far inside the finite range. -/
theorem isFinite_ofRatio_mul (negative : Bool) {n : Nat} (h : n < 2 ^ 100) :
    (ofRatio negative (n * unitsInOne) 1).isFinite = true := by
  apply isFinite_ofRatio
  have hexponents : 1 + (100 + 1074) ≤ 2098 := by decide
  unfold unitsInOne unitLimit
  generalize 1074 = k at hexponents ⊢
  generalize 2098 = m at hexponents ⊢
  calc 2 * (n * 2 ^ k) < 2 * (2 ^ 100 * 2 ^ k) :=
        Nat.mul_lt_mul_of_pos_left (Nat.mul_lt_mul_of_pos_right h (Nat.two_pow_pos k)) (by decide)
    _ = 2 ^ (1 + (100 + k)) := by rw [← Nat.pow_add, Nat.pow_add 2 1, Nat.pow_one]
    _ ≤ 2 ^ m := Nat.pow_le_pow_right (by decide) hexponents

theorem isFinite_ofNat {n : Nat} (h : n < 2 ^ 100) : (ofNat n).isFinite = true :=
  isFinite_ofRatio_mul false h

end Binary64

namespace Decimal

open Binary64

/-- The magnitude in units, with the two directions of the exponent apart. -/
theorem unitsRatio_eq (c : Nat) (e : Int) :
    unitsRatio ⟨c, e⟩ = (c * 10 ^ e.toNat * unitsInOne, 10 ^ (-e).toNat) := by
  cases e with
  | ofNat k => simp [unitsRatio]
  | negSucc k =>
      rw [unitsRatio, Int.neg_negSucc, Int.toNat_natCast]
      simp

theorem eight_pow_le_ten_pow (n : Nat) : 2 ^ (3 * n) ≤ 10 ^ n := by
  rw [Nat.pow_mul]
  exact Nat.pow_le_pow_left (by decide) n

theorem small_of_lt_lowestExponent {c n : Nat} (h : 400 + c.log2 < n) :
    2 * (c * unitsInOne) < 10 ^ n := by
  have hc : c < 2 ^ (c.log2 + 1) := Nat.lt_log2_self
  have hexponents : 1 + (c.log2 + 1 + 1074) ≤ 3 * n := by omega
  unfold unitsInOne
  generalize 1074 = k at hexponents ⊢
  calc 2 * (c * 2 ^ k) < 2 * (2 ^ (c.log2 + 1) * 2 ^ k) :=
        Nat.mul_lt_mul_of_pos_left (Nat.mul_lt_mul_of_pos_right hc (Nat.two_pow_pos k)) (by decide)
    _ = 2 ^ (1 + (c.log2 + 1 + k)) := by
        rw [← Nat.pow_add, Nat.pow_add 2 1, Nat.pow_one]
    _ ≤ 2 ^ (3 * n) := Nat.pow_le_pow_right (by decide) hexponents
    _ ≤ 10 ^ n := eight_pow_le_ten_pow n

theorem large_of_highestExponent_lt {c n : Nat} (hc : c ≠ 0) (h : 400 < n) :
    unitLimit ≤ c * 10 ^ n * unitsInOne := by
  have hexponents : 2098 ≤ 3 * n + 1074 := by omega
  unfold unitLimit unitsInOne
  generalize 2098 = m at hexponents ⊢
  generalize 1074 = k at hexponents ⊢
  calc 2 ^ m ≤ 2 ^ (3 * n + k) := Nat.pow_le_pow_right (by decide) hexponents
    _ = 2 ^ (3 * n) * 2 ^ k := Nat.pow_add 2 (3 * n) k
    _ ≤ c * 10 ^ n * 2 ^ k := by
        refine Nat.mul_le_mul_right _ (Nat.le_trans (eight_pow_le_ten_pow n) ?_)
        exact Nat.le_mul_of_pos_left _ (Nat.pos_of_ne_zero hc)

/-- The outermost exponents round as their power of ten has it. -/
theorem nearest_eq_ofRatio (negative : Bool) (d : Decimal) :
    d.nearest negative = ofRatio negative d.unitsRatio.1 d.unitsRatio.2 := by
  obtain ⟨c, e⟩ := d
  unfold nearest
  split
  · rename_i hsmall
    rw [unitsRatio_eq]
    refine (ofRatio_of_small negative ?_).symm
    rcases hsmall with hzero | hlow
    · have hc : c = 0 := hzero
      rw [hc, Nat.zero_mul, Nat.zero_mul]
      exact Nat.pow_pos (by decide)
    · have hexponent : e < -(400 + c.log2 : Nat) := hlow
      have hwhole : e.toNat = 0 := by omega
      rw [hwhole, Nat.pow_zero, Nat.mul_one]
      exact small_of_lt_lowestExponent (by omega)
  · rename_i hnotSmall
    split
    · rename_i hhigh
      have hexponent : 400 < e := hhigh
      have hplaces : (-e).toNat = 0 := by omega
      rw [unitsRatio_eq, hplaces, Nat.pow_zero]
      exact (ofRatio_of_large negative
        (large_of_highestExponent_lt (fun hc => hnotSmall (.inl hc)) (by omega))).symm
    · rfl

/-- The nearest double has the sign of the numeral, and its magnitude is that of the decimal. -/
theorem nearest_eq_finite_iff {negative : Bool} {d : Decimal} {units : Nat}
    (h : Representable units) :
    d.nearest negative = .finite negative units h ↔
      roundUnits d.unitsRatio.1 d.unitsRatio.2 = units := by
  rw [nearest_eq_ofRatio, ofRatio_eq_finite_iff]

/-- Zeros may be written in the coefficient or in the exponent. -/
theorem nearest_shift (negative : Bool) (c k : Nat) (e : Int) :
    nearest negative ⟨c * 10 ^ k, e⟩ = nearest negative ⟨c, e + k⟩ := by
  rw [nearest_eq_ofRatio, nearest_eq_ofRatio, unitsRatio_eq, unitsRatio_eq]
  refine ofRatio_congr negative (Nat.pow_pos (by decide)) (Nat.pow_pos (by decide)) ?_
  generalize unitsInOne = units
  have hexponents : k + e.toNat + (-(e + k)).toNat = (e + k).toNat + (-e).toNat := by omega
  calc c * 10 ^ k * 10 ^ e.toNat * units * 10 ^ (-(e + k)).toNat
      = c * units * 10 ^ (k + e.toNat + (-(e + k)).toNat) := by
        rw [Nat.pow_add, Nat.pow_add]
        ac_rfl
    _ = c * 10 ^ (e + k).toNat * units * 10 ^ (-e).toNat := by
        rw [hexponents, Nat.pow_add]
        ac_rfl

/-- A whole number of ones is the nearest double of its integer. -/
theorem nearest_whole {units : Nat} (h : Representable units) (hwhole : units % unitsInOne = 0)
    (negative : Bool) :
    nearest negative ⟨units / unitsInOne, 0⟩ = .finite negative units h := by
  have hunits : units / unitsInOne * unitsInOne = units :=
    Nat.div_mul_cancel (Nat.dvd_of_mod_eq_zero hwhole)
  rw [nearest_eq_finite_iff h, unitsRatio_eq]
  simp only [Int.toNat_zero, Int.neg_zero, Nat.pow_zero, Nat.mul_one, hunits]
  exact roundUnits_of_representable h

end Decimal

end JsonRules

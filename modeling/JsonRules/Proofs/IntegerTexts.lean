import JsonRules.Proofs.NumericStrings

/-!
The texts of integers.

Below `10 ^ 21` the text of a whole number is the digits of its integer, every one of them exact
(`Value.toText_of_integer?`).  The format decides by the shortest decimal of the number, which may
have fewer digits than the integer but never a higher place (`Decimal.leadingExponent_shortest_lt`):
a decimal from `10 ^ 21` on would not read back as a number below, since `10 ^ 21` is a double and
rounding does not go past it.
-/

namespace JsonRules

namespace Binary64

/-- The integer that a number is, if it is one. -/
def integer? : Binary64 → Option Int
  | .finite negative units _ =>
    if units % unitsInOne = 0 then some (signedUnits negative (units / unitsInOne)) else none
  | _ => none

/-- A number that is an integer has its sign, zero apart, and as many ones. -/
theorem exists_of_integer? {x : Binary64} {z : Int} (h : x.integer? = some z) :
    ∃ negative ones h, x = .finite negative (ones * unitsInOne) h ∧
      signedUnits negative ones = z := by
  cases x with
  | finite negative units hunits =>
      rw [integer?, Option.ite_none_right_eq_some, Option.some.injEq] at h
      obtain ⟨hwhole, hz⟩ := h
      have hones : units / unitsInOne * unitsInOne = units :=
        Nat.div_mul_cancel (Nat.dvd_of_mod_eq_zero hwhole)
      refine ⟨negative, units / unitsInOne, hones.symm ▸ hunits, ?_, hz⟩
      simp only [hones]
  | _ => cases h

theorem unitsInOne_pos : 0 < unitsInOne := by
  unfold unitsInOne
  generalize 1074 = k
  exact Nat.two_pow_pos k

end Binary64

namespace Decimal

open Binary64 NumberFormat

/-- A number has at least the magnitude of its leading digit. -/
theorem ten_pow_le {n : Nat} (hn : n ≠ 0) : 10 ^ ((decimalDigits n).length - 1) ≤ n := by
  by_cases hone : (decimalDigits n).length - 1 = 0
  · rw [hone]
    exact Nat.pos_of_ne_zero hn
  · refine Nat.le_of_not_lt fun hlt => ?_
    have hle : (decimalDigits n).length ≤ (decimalDigits n).length - 1 :=
      (Nat.length_toDigits_le_iff (by decide) (Nat.pos_of_ne_zero hone)).2 hlt
    omega

/-- A decimal with a leading digit at a place of `10 ^ k` or higher is at least that power. -/
theorem ten_pow_mul_le_unitsRatio {d : Decimal} (hd : d.coefficient ≠ 0) {k : Nat}
    (hlead : (k : Int) ≤ leadingExponent d) :
    10 ^ k * unitsInOne * d.unitsRatio.2 ≤ d.unitsRatio.1 := by
  obtain ⟨c, e⟩ := d
  have hexponents : k + (-e).toNat ≤ (decimalDigits c).length - 1 + e.toNat := by
    rw [leadingExponent] at hlead
    dsimp only at hlead
    omega
  rw [unitsRatio_eq]
  generalize unitsInOne = units
  calc 10 ^ k * units * 10 ^ (-e).toNat
      = 10 ^ (k + (-e).toNat) * units := by
        rw [Nat.pow_add]
        ac_rfl
    _ ≤ 10 ^ ((decimalDigits c).length - 1 + e.toNat) * units :=
        Nat.mul_le_mul_right _ (Nat.pow_le_pow_right (by decide) hexponents)
    _ = 10 ^ ((decimalDigits c).length - 1) * 10 ^ e.toNat * units := by rw [Nat.pow_add]
    _ ≤ c * 10 ^ e.toNat * units :=
        Nat.mul_le_mul_right _ (Nat.mul_le_mul_right _ (ten_pow_le hd))

theorem unitsRatio_pos (d : Decimal) : 0 < d.unitsRatio.2 := by
  obtain ⟨c, e⟩ := d
  rw [unitsRatio_eq]
  exact Nat.pow_pos (by decide)

/-- The shortest decimal of a number below a power of ten that is a double has no place from that
power on. -/
theorem leadingExponent_shortest_lt (tie : Tie) {units : Nat} (h : Representable units)
    (hunits : units ≠ 0) {k : Nat} (hgrid : spacing (10 ^ k * unitsInOne) ∣ 10 ^ k * unitsInOne)
    (hbelow : units < 10 ^ k * unitsInOne) : leadingExponent (shortest tie units) < k := by
  refine Int.lt_of_not_ge fun hlead => ?_
  have hreads := (nearest_eq_finite_iff h).1 (nearest_shortest tie h false)
  have hvalue := ten_pow_mul_le_unitsRatio (coefficient_shortest_ne_zero tie h hunits) hlead
  have hround := le_roundUnits hgrid (unitsRatio_pos (shortest tie units)) hvalue
  omega

end Decimal

open Binary64

theorem NumberFormat.writeMagnitude_display {ones : Nat} (h : Representable (ones * unitsInOne))
    (hones : ones ≠ 0) (hbelow : ones < 10 ^ 21) :
    display.writeMagnitude (ones * unitsInOne) = decimalDigits ones := by
  have hgrid : spacing (10 ^ 21 * unitsInOne) ∣ 10 ^ 21 * unitsInOne := by decide +kernel
  have hlead := Decimal.leadingExponent_shortest_lt .up h
    (Nat.mul_ne_zero hones (Nat.ne_of_gt unitsInOne_pos)) hgrid
    (Nat.mul_lt_mul_of_pos_right hbelow unitsInOne_pos)
  have hplace : leadingExponent (Decimal.shortest .up (ones * unitsInOne)) ≤ 20 := by omega
  rw [writeMagnitude, if_pos ⟨rfl, Nat.mul_mod_left _ _, hplace⟩,
    Nat.mul_div_cancel _ unitsInOne_pos]
  exact List.append_nil _

/-- The text of an integer is a minus sign, if it is negative, and its digits. -/
theorem toList_toString_int (z : Int) :
    (toString z).toList = (if z < 0 then ['-'] else []) ++ decimalDigits z.natAbs := by
  rw [Int.toString_eq_repr]
  cases z with
  | ofNat n =>
      have hnonneg : ¬ Int.ofNat n < 0 := Int.not_lt.2 (Int.natCast_nonneg n)
      rw [if_neg hnonneg]
      exact Nat.toList_repr
  | negSucc n =>
      rw [if_pos (Int.negSucc_lt_zero n), Int.repr, String.toList_append, Nat.toList_repr]
      rfl

namespace Value

/-- The text of a whole number below `10 ^ 21` is that of its integer. -/
theorem toText_of_integer? {x : Binary64} {z : Int} (hx : x.integer? = some z)
    (hz : z.natAbs < 10 ^ 21) : toText (.number x) = toString z := by
  obtain ⟨negative, ones, h, rfl, rfl⟩ := exists_of_integer? hx
  rw [natAbs_signedUnits] at hz
  rw [← String.toList_inj, toText_number, String.toList_ofList, NumberFormat.write]
  by_cases hzero : ones = 0
  · subst hzero
    rw [signedUnits_zero, if_pos (Nat.zero_mul unitsInOne)]
    cases negative <;> rfl
  · rw [if_neg (Nat.mul_ne_zero hzero (Nat.ne_of_gt unitsInOne_pos)),
      NumberFormat.writeMagnitude_display h hzero hz, toList_toString_int, natAbs_signedUnits]
    simp only [signedUnits_lt_zero_iff hzero]

end Value

end JsonRules

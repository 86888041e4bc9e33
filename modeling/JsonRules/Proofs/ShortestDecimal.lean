import JsonRules.Decimal.Shortest
import JsonRules.Proofs.Rounding

/-!
The shortest decimal reads back.

Every grid of the search is left only with a decimal that reads back, and on the last grid the
double itself is written out, so the search ends with a decimal whose nearest double is the one it
started from (`Decimal.nearest_shortest`).
-/

namespace JsonRules.Decimal

open Binary64

variable {units : Nat} {tie : Tie} {d : Decimal}

theorem roundUnits_of_readsBack (h : readsBack units d = true) :
    roundUnits d.unitsRatio.1 d.unitsRatio.2 = units := by
  unfold readsBack at h
  rw [nearest_eq_ofRatio, ofRatio] at h
  split at h
  · rename_i heq
    split at heq
    · injection heq with _ hunits
      rw [hunits, beq_iff_eq.1 h]
    · cases heq
  · cases h

/-- A double written out in full is its own rounding. -/
theorem roundUnits_exact (h : Representable units) :
    roundUnits (exact units).unitsRatio.1 (exact units).unitsRatio.2 = units := by
  have hwhole : (-1074 : Int).toNat = 0 := rfl
  have hplaces : (- -1074 : Int).toNat = 1074 := rfl
  rw [exact, unitsRatio_eq, hwhole, hplaces]
  unfold unitsInOne
  generalize 1074 = k
  refine (roundUnits_congr (Nat.pow_pos (by decide)) Nat.one_pos ?_).trans
    (roundUnits_of_representable h)
  rw [Nat.pow_zero, Nat.mul_one, Nat.mul_one, Nat.mul_assoc]
  exact congrArg (units * ·) (Nat.mul_pow 5 2 k).symm

theorem readsBack_of_onGrid? {exponent : Int} (h : onGrid? tie units exponent = some d) :
    readsBack units d = true :=
  List.find?_some h

theorem roundUnits_search (h : Representable units) (count : Nat) :
    roundUnits (search tie units count).unitsRatio.1 (search tie units count).unitsRatio.2 =
      units := by
  induction count with
  | zero => exact roundUnits_exact h
  | succ count ih =>
      rw [search]
      cases hgrid : onGrid? tie units (count - 1073) with
      | none => exact ih
      | some found => exact roundUnits_of_readsBack (readsBack_of_onGrid? hgrid)

/-- The shortest decimal of a double reads back as the double, with either sign. -/
theorem nearest_shortest (tie : Tie) (h : Representable units) (negative : Bool) :
    (shortest tie units).nearest negative = .finite negative units h :=
  (nearest_eq_finite_iff h).2 (roundUnits_search h (gridCount units))

theorem coefficient_shortest_ne_zero (tie : Tie) (h : Representable units) (hunits : units ≠ 0) :
    (shortest tie units).coefficient ≠ 0 := by
  intro hzero
  have hnearest := nearest_shortest tie h false
  rw [nearest, if_pos (.inl hzero)] at hnearest
  injection hnearest with _ heq
  exact hunits heq.symm

end JsonRules.Decimal

/-!
Rounding to the grid of double-precision numbers.

Every finite double is a whole number of units of `2 ^ -1074`, the smallest positive double.  A
magnitude is therefore a natural number of units, and the grid around `n` units has the spacing
`2 ^ (log2 n - 52)`: 53 significant bits, and never less than one unit.  `roundUnits` takes an
exact quotient to the nearest point of the grid; `representable_roundUnits` says that it lands on
the grid unless it overflows.
-/

namespace JsonRules.Binary64

def unitsInOne : Nat := Nat.pow 2 1074

/-- The first number of units beyond the finite range. -/
def unitLimit : Nat := Nat.pow 2 2098

/-- The first number of steps of the grid that takes more than 53 bits. -/
def stepLimit : Nat := Nat.pow 2 53

/-- The distance between neighbouring doubles at a magnitude of `n` units. -/
def spacing (n : Nat) : Nat := Nat.pow 2 (n.log2 - 52)

/-- A count of units that is the magnitude of a finite double. -/
def Representable (n : Nat) : Prop := n < unitLimit ∧ spacing n ∣ n

instance (n : Nat) : Decidable (Representable n) :=
  inferInstanceAs (Decidable (_ ∧ _))

/-- The quotient `num / den` as a whole number, a half going to the even neighbour. -/
def divNearest (num den : Nat) : Nat :=
  if 2 * (num % den) < den ∨ (2 * (num % den) = den ∧ num / den % 2 = 0) then
    num / den
  else
    num / den + 1

/-- The point of the grid nearest to `num / den` units. -/
def roundUnits (num den : Nat) : Nat :=
  divNearest num (den * spacing (num / den)) * spacing (num / den)

theorem spacing_pos (n : Nat) : 0 < spacing n := Nat.two_pow_pos _

theorem unitLimit_pos : 0 < unitLimit := by
  unfold unitLimit
  generalize 2098 = k
  exact Nat.two_pow_pos k

theorem representable_zero : Representable 0 := ⟨unitLimit_pos, Nat.dvd_zero _⟩

theorem spacing_of_log2_le {n : Nat} (h : n.log2 ≤ 52) : spacing n = 1 := by
  rw [spacing, Nat.sub_eq_zero_of_le h]

/-- A magnitude spans fewer steps of its grid than take 54 bits. -/
theorem lt_stepLimit_mul_spacing (n : Nat) : n < stepLimit * spacing n := by
  refine Nat.lt_of_lt_of_le (Nat.lt_log2_self : n < _) ?_
  rw [stepLimit, spacing, Nat.pow_eq, Nat.pow_eq, ← Nat.pow_add]
  exact Nat.pow_le_pow_right (by decide) (by omega)

/-- Beyond 53 bits a magnitude spans at least half as many steps. -/
theorem le_div_spacing {n : Nat} (h : 52 < n.log2) : stepLimit / 2 ≤ n / spacing n := by
  have hne : n ≠ 0 := by
    rintro rfl
    simp at h
  rw [Nat.le_div_iff_mul_le (spacing_pos n), spacing, Nat.pow_eq,
    show stepLimit / 2 = 2 ^ 52 from rfl, ← Nat.pow_add]
  exact Nat.le_trans (Nat.pow_le_pow_right (by decide) (by omega)) (Nat.log2_self_le hne)

/-- The grid is the same throughout a binade. -/
theorem log2_mul_spacing {n q : Nat} (hlog : 52 < n.log2) (hlow : stepLimit / 2 ≤ q)
    (hhigh : q < stepLimit) : (q * spacing n).log2 = n.log2 := by
  have hstep := spacing_pos n
  have hhalf : stepLimit / 2 = 2 ^ 52 := rfl
  have hpos : 0 < q := Nat.lt_of_lt_of_le (hhalf ▸ Nat.two_pow_pos 52) hlow
  rw [Nat.log2_eq_iff (Nat.mul_ne_zero (Nat.ne_of_gt hpos) (Nat.ne_of_gt hstep))]
  constructor
  · calc 2 ^ n.log2 = 2 ^ 52 * spacing n := by
          rw [spacing, Nat.pow_eq, ← Nat.pow_add]
          congr 1
          omega
      _ ≤ q * spacing n := Nat.mul_le_mul_right _ (hhalf ▸ hlow)
  · calc q * spacing n < stepLimit * spacing n := Nat.mul_lt_mul_of_pos_right hhigh hstep
      _ = 2 ^ (n.log2 + 1) := by
          rw [stepLimit, spacing, Nat.pow_eq, Nat.pow_eq, ← Nat.pow_add]
          congr 1
          omega

theorem divNearest_le_succ (num den : Nat) : divNearest num den ≤ num / den + 1 := by
  unfold divNearest
  split <;> omega

theorem div_le_divNearest (num den : Nat) : num / den ≤ divNearest num den := by
  unfold divNearest
  split <;> omega

/-- The end of a binade lies on the next grid too. -/
theorem spacing_dvd_stepLimit_mul (n : Nat) :
    spacing (stepLimit * spacing n) ∣ stepLimit * spacing n := by
  rw [spacing, spacing, stepLimit, Nat.pow_eq, Nat.pow_eq, Nat.pow_eq, ← Nat.pow_add,
    Nat.log2_two_pow]
  exact Nat.pow_dvd_pow 2 (by omega)

/-- A multiple of the grid around `n`, at most one binade up, lies on its own grid. -/
theorem spacing_dvd_mul {n q : Nat} (hlow : n / spacing n ≤ q) (hhigh : q ≤ stepLimit) :
    spacing (q * spacing n) ∣ q * spacing n := by
  rcases Nat.lt_or_eq_of_le hhigh with hlt | rfl
  · by_cases hlog : 52 < n.log2
    · have hsame := log2_mul_spacing hlog (Nat.le_trans (le_div_spacing hlog) hlow) hlt
      rw [spacing, hsame]
      exact Nat.dvd_mul_left _ _
    · rw [spacing_of_log2_le (by omega : n.log2 ≤ 52), Nat.mul_one]
      have hbits : q.log2 ≤ 52 := by
        by_cases hzero : q = 0
        · simp [hzero]
        · exact Nat.le_of_lt_succ ((Nat.log2_lt hzero).2 hlt)
      rw [spacing_of_log2_le hbits]
      exact Nat.one_dvd q
  · exact spacing_dvd_stepLimit_mul n

theorem divNearest_spacing_le (num den : Nat) :
    divNearest num (den * spacing (num / den)) ≤ stepLimit := by
  have hbound := divNearest_le_succ num (den * spacing (num / den))
  rw [← Nat.div_div_eq_div_mul] at hbound
  have hlt : num / den / spacing (num / den) < stepLimit :=
    Nat.div_lt_of_lt_mul (Nat.mul_comm _ _ ▸ lt_stepLimit_mul_spacing (num / den))
  omega

/-- The rounded count lies on its own grid. -/
theorem spacing_dvd_roundUnits (num den : Nat) :
    spacing (roundUnits num den) ∣ roundUnits num den := by
  refine spacing_dvd_mul ?_ (divNearest_spacing_le num den)
  rw [Nat.div_div_eq_div_mul]
  exact div_le_divNearest _ _

/-- The rounded count is a double's magnitude when it stays in the finite range. -/
theorem representable_roundUnits {num den : Nat} (hfinite : roundUnits num den < unitLimit) :
    Representable (roundUnits num den) :=
  ⟨hfinite, spacing_dvd_roundUnits num den⟩

/-- A quotient without remainder needs no rounding. -/
theorem divNearest_of_dvd {num den : Nat} (hden : 0 < den) (hdvd : den ∣ num) :
    divNearest num den = num / den := by
  simp [divNearest, Nat.mod_eq_zero_of_dvd hdvd, hden]

/-- The magnitude of a double is its own rounding. -/
theorem roundUnits_of_representable {n : Nat} (h : Representable n) : roundUnits n 1 = n := by
  have hround := divNearest_of_dvd (spacing_pos n) h.2
  simp [roundUnits, hround, Nat.div_mul_cancel h.2]

end JsonRules.Binary64

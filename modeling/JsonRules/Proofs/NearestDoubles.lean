import JsonRules.Proofs.Rounding
import Mathlib.Algebra.Order.Field.Basic
import Mathlib.Algebra.Order.Field.Rat
import Mathlib.Algebra.Ring.Parity
import Mathlib.Tactic.FieldSimp
import Mathlib.Tactic.Linarith
import Mathlib.Tactic.NormNum
import Mathlib.Tactic.Ring

/-!
The nearest double.

`RoundsTo` says of a rational number which double it rounds to, and not how that double is found: it
is the nearest of all finite doubles, of two that are as near the one with an even significand, and
an infinity from halfway to the first power of two beyond the finite range on.  There is always one
such double and no other, and `ofRatio` finds it (`roundsTo_iff_eq_ofRatio`).
-/

namespace JsonRules.Binary64

/-! ## The grid around a number -/

/-- The last significant bit of a magnitude on the grid is zero. -/
def EvenSignificand (n : Nat) : Prop := Even (n / spacing n)

/-- A number of units lies between neighbouring points of the grid and rounds to the nearer one, or
to the one with an even significand. -/
structure RoundsBetween (q : ℚ) (lower upper rounded : Nat) : Prop where
  below : lower ≤ q
  above : q < upper
  neighbours : ∀ n, spacing n ∣ n → n ≤ lower ∨ upper ≤ n
  parity : EvenSignificand upper ↔ ¬EvenSignificand lower
  rounds : rounded = lower ∧ (q - lower < upper - q ∨
      q - lower = upper - q ∧ EvenSignificand lower) ∨
    rounded = upper ∧ (upper - q < q - lower ∨ q - lower = upper - q ∧ EvenSignificand upper)

theorem spacing_dvd_spacing {n m : Nat} (h : n ≤ m) : spacing n ∣ spacing m := by
  by_cases hzero : n = 0
  · subst hzero
    exact Nat.one_dvd (spacing m)
  · exact Nat.pow_dvd_pow 2 (Nat.sub_le_sub_right (log2_le_log2 hzero h) 52)

/-- The points of the grid around a magnitude are neighbouring multiples of its spacing. -/
theorem le_or_le_of_spacing_dvd {n : Nat} (m : Nat) (hgrid : spacing n ∣ n) :
    n ≤ m / spacing m * spacing m ∨ (m / spacing m + 1) * spacing m ≤ n := by
  by_cases h : n ≤ m
  · exact .inl (le_div_spacing_mul hgrid h)
  · obtain ⟨steps, rfl⟩ : spacing m ∣ n :=
      Nat.dvd_trans (spacing_dvd_spacing (by omega)) hgrid
    have hsteps : m / spacing m < steps := Nat.div_lt_of_lt_mul (by omega)
    rw [Nat.mul_comm (spacing m)]
    exact .inr (Nat.mul_le_mul_right _ hsteps)

/-- The significand of a multiple of the spacing, at most one binade up, is even if the number of
steps is. -/
theorem evenSignificand_mul_spacing {m steps : Nat} (hlow : m / spacing m ≤ steps)
    (hhigh : steps ≤ stepLimit) : EvenSignificand (steps * spacing m) ↔ Even steps := by
  rcases Nat.lt_or_eq_of_le hhigh with hlt | rfl
  · have hspacing : spacing (steps * spacing m) = spacing m := by
      by_cases hlog : 52 < m.log2
      · rw [spacing, log2_mul_spacing hlog (Nat.le_trans (le_div_spacing hlog) hlow) hlt]
        rfl
      · have hstep : spacing m = 1 := spacing_of_log2_le (by omega)
        rw [hstep, Nat.mul_one]
        apply spacing_of_log2_le
        by_cases hzero : steps = 0
        · simp [hzero]
        · exact Nat.le_of_lt_succ ((Nat.log2_lt hzero).2 hlt)
    rw [EvenSignificand, hspacing, Nat.mul_div_cancel _ (spacing_pos m)]
  · have hlimit : Even stepLimit := ⟨2 ^ 52, by decide⟩
    refine iff_of_true ?_ hlimit
    have hquotient : stepLimit * spacing m / spacing (stepLimit * spacing m) = 2 ^ 52 := by
      rw [spacing, spacing, stepLimit, Nat.pow_eq, Nat.pow_eq, Nat.pow_eq, ← Nat.pow_add,
        Nat.log2_two_pow, Nat.pow_div (by omega) (by decide)]
      congr 1
      omega
    rw [EvenSignificand, hquotient]
    exact ⟨2 ^ 51, by decide⟩

/-- The distances of a remainder from both ends of a step compare as its double with the step. -/
theorem remainder_compare (rest step : Nat) :
    ((rest : ℚ) < step - rest ↔ 2 * rest < step) ∧ ((step - rest : ℚ) < rest ↔ step < 2 * rest) ∧
      ((rest : ℚ) = step - rest ↔ 2 * rest = step) := by
  rw [lt_sub_iff_add_lt, sub_lt_iff_lt_add, eq_sub_iff_add_eq, ← two_mul]
  norm_cast

/-- A quotient rounds to one of the two points of the grid around it. -/
theorem roundsBetween_roundUnits (num : Nat) {den : Nat} (hden : 0 < den) :
    ∃ lower upper, RoundsBetween (num / den) lower upper (roundUnits num den) := by
  obtain ⟨m, hm⟩ : ∃ m, m = num / den := ⟨_, rfl⟩
  obtain ⟨step, hstep⟩ : ∃ step, step = spacing m := ⟨_, rfl⟩
  obtain ⟨steps, hsteps⟩ : ∃ steps, steps = m / step := ⟨_, rfl⟩
  obtain ⟨rest, hrest⟩ : ∃ rest, rest = num % (den * step) := ⟨_, rfl⟩
  have hpos : 0 < step := hstep ▸ spacing_pos m
  have hquotient : num / (den * step) = steps := by
    rw [← Nat.div_div_eq_div_mul, ← hm, hsteps]
  have hlt : rest < den * step := hrest ▸ Nat.mod_lt num (Nat.mul_pos hden hpos)
  have hnum : num = den * step * steps + rest := by
    rw [← hquotient, hrest, Nat.div_add_mod]
  have hlimit : steps < stepLimit := by
    rw [hsteps]
    exact Nat.div_lt_of_lt_mul (Nat.mul_comm _ _ ▸ hstep ▸ lt_stepLimit_mul_spacing m)
  have hdenQ : (0 : ℚ) < den := Nat.cast_pos.2 hden
  have hrestQ : (rest : ℚ) < den * step := by exact_mod_cast hlt
  have hlower : (num : ℚ) / den - (steps * step : Nat) = rest / den := by
    rw [hnum]
    push_cast
    field_simp
    ring
  have hupper : ((steps + 1) * step : Nat) - (num : ℚ) / den = (den * step - rest) / den := by
    rw [hnum]
    push_cast
    field_simp
    ring
  have hevenLower : EvenSignificand (steps * step) ↔ Even steps := by
    rw [hstep]
    exact evenSignificand_mul_spacing (by rw [hsteps, hstep]) hlimit.le
  have hevenUpper : EvenSignificand ((steps + 1) * step) ↔ Even (steps + 1) := by
    rw [hstep]
    exact evenSignificand_mul_spacing (by rw [hsteps, hstep]; exact Nat.le_succ _) hlimit
  refine ⟨steps * step, (steps + 1) * step, ?_, ?_, ?_, ?_, ?_⟩
  · rw [← sub_nonneg, hlower]
    exact div_nonneg (Nat.cast_nonneg rest) hdenQ.le
  · rw [← sub_pos, hupper]
    exact div_pos (sub_pos.2 hrestQ) hdenQ
  · intro n hgrid
    rw [hsteps, hstep]
    exact le_or_le_of_spacing_dvd m hgrid
  · rw [hevenUpper, hevenLower, Nat.even_add_one]
  · rw [roundUnits, ← hm, ← hstep, divNearest, hquotient, ← hrest, hlower, hupper, hevenLower,
      hevenUpper, Nat.even_add_one, Nat.even_iff, div_lt_div_iff_of_pos_right hdenQ,
      div_lt_div_iff_of_pos_right hdenQ, div_left_inj' hdenQ.ne']
    obtain ⟨hless, hmore, hhalf⟩ := remainder_compare rest (den * step)
    rw [Nat.cast_mul] at hless hmore hhalf
    rw [hless, hmore, hhalf]
    split
    · rename_i hchoice
      exact .inl ⟨rfl, hchoice⟩
    · rename_i hchoice
      refine .inr ⟨rfl, ?_⟩
      omega

namespace RoundsBetween

variable {q : ℚ} {lower upper rounded n : Nat}

theorem distance_le (h : RoundsBetween q lower upper rounded) :
    |q - rounded| ≤ q - lower ∧ |q - rounded| ≤ upper - q := by
  have hbelow := h.below
  have habove := h.above
  rcases h.rounds with ⟨rfl, hless | ⟨hhalf, -⟩⟩ | ⟨rfl, hless | ⟨hhalf, -⟩⟩
  · rw [abs_of_nonneg (sub_nonneg.2 hbelow)]
    exact ⟨le_rfl, hless.le⟩
  · rw [abs_of_nonneg (sub_nonneg.2 hbelow)]
    exact ⟨le_rfl, hhalf.le⟩
  · rw [abs_sub_comm, abs_of_pos (sub_pos.2 habove)]
    exact ⟨hless.le, le_rfl⟩
  · rw [abs_sub_comm, abs_of_pos (sub_pos.2 habove)]
    exact ⟨hhalf.ge, le_rfl⟩

/-- No point of the grid is nearer. -/
theorem nearest (h : RoundsBetween q lower upper rounded) (hgrid : spacing n ∣ n) :
    |q - rounded| ≤ |q - n| := by
  obtain ⟨hlower, hupper⟩ := h.distance_le
  rcases h.neighbours n hgrid with hn | hn
  · have hcast : (n : ℚ) ≤ lower := Nat.cast_le.2 hn
    have hdistance := le_abs_self (q - n)
    linarith
  · have hcast : (upper : ℚ) ≤ n := Nat.cast_le.2 hn
    have hdistance := neg_le_abs (q - n)
    linarith

/-- Of two points that are as near the even one is taken. -/
theorem even_of_tie (h : RoundsBetween q lower upper rounded) (hgrid : spacing n ∣ n)
    (hne : n ≠ rounded) (htie : |q - n| = |q - rounded|) :
    EvenSignificand rounded ∧ ¬EvenSignificand n := by
  obtain ⟨hlower, hupper⟩ := h.distance_le
  have hbelow := h.below
  have habove := h.above
  rcases h.neighbours n hgrid with hn | hn
  · have hcast : (n : ℚ) ≤ lower := Nat.cast_le.2 hn
    rw [abs_of_nonneg (by linarith)] at htie
    obtain rfl : n = lower := by
      have hge : (lower : ℚ) ≤ n := by linarith
      exact Nat.le_antisymm hn (Nat.cast_le.1 hge)
    rcases h.rounds with ⟨rfl, -⟩ | ⟨rfl, hless | ⟨-, heven⟩⟩
    · exact absurd rfl hne
    · rw [abs_sub_comm, abs_of_pos (by linarith)] at htie
      linarith
    · exact ⟨heven, h.parity.1 heven⟩
  · have hcast : (upper : ℚ) ≤ n := Nat.cast_le.2 hn
    rw [abs_sub_comm, abs_of_nonneg (by linarith)] at htie
    obtain rfl : n = upper := by
      have hle : (n : ℚ) ≤ upper := by linarith
      exact Nat.le_antisymm (Nat.cast_le.1 hle) hn
    rcases h.rounds with ⟨rfl, hless | ⟨-, heven⟩⟩ | ⟨rfl, -⟩
    · rw [abs_of_nonneg (by linarith)] at htie
      linarith
    · exact ⟨heven, fun hupper => h.parity.1 hupper heven⟩
    · exact absurd rfl hne

end RoundsBetween

/-! ## The finite range -/

/-- With 53 significant bits the spacing is what follows them. -/
theorem spacing_mul_two_pow {steps : Nat} (hlow : 2 ^ 52 ≤ steps) (hhigh : steps < 2 ^ 53)
    (j : Nat) : spacing (steps * 2 ^ j) = 2 ^ j := by
  have hlog : (steps * 2 ^ j).log2 = 52 + j := by
    have hne : steps * 2 ^ j ≠ 0 := Nat.mul_ne_zero (by omega) (Nat.two_pow_pos j).ne'
    rw [Nat.log2_eq_iff hne, Nat.pow_add, Nat.add_right_comm, Nat.pow_add]
    exact ⟨Nat.mul_le_mul_right _ hlow, Nat.mul_lt_mul_of_pos_right hhigh (Nat.two_pow_pos j)⟩
  rw [spacing, hlog, Nat.add_sub_cancel_left, Nat.pow_eq]

/-- The last point of the grid before a power of two is one step away from it. -/
theorem add_two_pow_le_of_lt {n j : Nat} (hgrid : spacing n ∣ n) (h : n < 2 ^ (j + 53)) :
    n + 2 ^ j ≤ 2 ^ (j + 53) := by
  have hhalf : 2 ^ (j + 53) = 2 ^ (j + 52) + 2 ^ (j + 52) := by
    rw [Nat.pow_succ, Nat.mul_two]
  have hstep : 2 ^ j ≤ 2 ^ (j + 52) := Nat.pow_le_pow_right (by decide) (by omega)
  by_cases hlow : n < 2 ^ (j + 52)
  · omega
  · have hne : n ≠ 0 := by
      rintro rfl
      exact hlow (Nat.two_pow_pos _)
    have hlog : n.log2 = j + 52 := (Nat.log2_eq_iff hne).2 ⟨Nat.le_of_not_lt hlow, h⟩
    have hspacing : spacing n = 2 ^ j := by
      rw [spacing, hlog, Nat.add_sub_cancel, Nat.pow_eq]
    rw [hspacing] at hgrid
    obtain ⟨steps, rfl⟩ := hgrid
    have hsteps : steps < 2 ^ 53 := by
      rw [Nat.pow_add] at h
      exact Nat.lt_of_mul_lt_mul_left h
    rw [← Nat.mul_succ, Nat.pow_add]
    exact Nat.mul_le_mul_left _ hsteps

/-- Of two neighbours on the grid the first has an odd significand.  A number rounds to less than
the second if it lies below their middle. -/
theorem RoundsBetween.lt_iff {q : ℚ} {lower upper rounded last limit : Nat}
    (h : RoundsBetween q lower upper rounded) (hlast : spacing last ∣ last)
    (hlimit : spacing limit ∣ limit) (hnext : last < limit)
    (hgap : rounded < limit → rounded ≤ last) (hodd : ¬EvenSignificand last) :
    rounded < limit ↔ 2 * q < last + limit := by
  have hnextQ : (last : ℚ) < limit := Nat.cast_lt.2 hnext
  constructor
  · intro hlt
    by_contra! hlarge
    have hroundedQ : (rounded : ℚ) ≤ last := Nat.cast_le.2 (hgap hlt)
    have hnearest := h.nearest hlimit
    rw [abs_of_pos (by linarith)] at hnearest
    have hbelow : q < limit := by
      by_contra! hbeyond
      rw [abs_of_nonneg (by linarith)] at hnearest
      linarith
    rw [abs_sub_comm, abs_of_pos (by linarith)] at hnearest
    obtain rfl : rounded = last := by
      have hge : (last : ℚ) ≤ rounded := by linarith
      exact Nat.le_antisymm (hgap hlt) (Nat.cast_le.1 hge)
    have htie : |q - limit| = |q - rounded| := by
      rw [abs_sub_comm, abs_of_pos (by linarith), abs_of_pos (by linarith)]
      linarith
    exact hodd (h.even_of_tie hlimit hlt.ne' htie).1
  · intro hlt
    by_contra! hlarge
    have hroundedQ : (limit : ℚ) ≤ rounded := Nat.cast_le.2 hlarge
    have hnearest := h.nearest hlast
    rw [abs_sub_comm, abs_of_pos (by linarith)] at hnearest
    rcases le_total q last with hq | hq
    · rw [abs_sub_comm, abs_of_nonneg (by linarith)] at hnearest
      linarith
    · rw [abs_of_nonneg (by linarith)] at hnearest
      linarith

/-- A number rounds into the range below a power of two if it lies below the middle between the
power and the last point of the grid before it. -/
theorem RoundsBetween.lt_two_pow_iff {q : ℚ} {lower upper rounded : Nat}
    (h : RoundsBetween q lower upper rounded) (hgrid : spacing rounded ∣ rounded) (j : Nat) :
    rounded < 2 ^ (j + 54) ↔ q < 2 ^ (j + 54) - 2 ^ j := by
  obtain ⟨limit, hlimit⟩ : ∃ limit, limit = 2 ^ (j + 54) := ⟨_, rfl⟩
  obtain ⟨last, hlast⟩ : ∃ last, last = (2 ^ 53 - 1) * 2 ^ (j + 1) := ⟨_, rfl⟩
  have hlimitGrid : spacing limit ∣ limit := by
    have hone := spacing_dvd_mul_two_pow (by decide : 1 < stepLimit) (j + 54)
    rwa [Nat.one_mul, ← hlimit] at hone
  have hlastGrid : spacing last ∣ last :=
    hlast ▸ spacing_dvd_mul_two_pow (by decide) (j + 1)
  have hstep : last + 2 ^ (j + 1) = limit := by
    rw [hlast, hlimit, show j + 54 = 53 + (j + 1) by omega, Nat.pow_add 2 53]
    omega
  have hnext : last < limit := hstep ▸ Nat.lt_add_of_pos_right (Nat.two_pow_pos _)
  have hgap : rounded < limit → rounded ≤ last := by
    intro hlt
    have hle := add_two_pow_le_of_lt hgrid (show rounded < 2 ^ (j + 1 + 53) from hlimit ▸ hlt)
    have hsame : 2 ^ (j + 1 + 53) = limit := hlimit.symm
    omega
  have hodd : ¬EvenSignificand last := by
    rw [EvenSignificand, hlast, spacing_mul_two_pow (by decide) (by decide),
      Nat.mul_div_cancel _ (Nat.two_pow_pos _)]
    decide
  have hstepQ : (last : ℚ) + 2 * 2 ^ j = limit := by
    rw [← hstep, Nat.pow_succ]
    push_cast
    ring
  rw [← hlimit, show (2 : ℚ) ^ (j + 54) = limit by rw [hlimit]; push_cast; rfl,
    h.lt_iff hlastGrid hlimitGrid hnext hgap hodd]
  constructor
  · intro hlt
    linarith
  · intro hlt
    linarith

/-! ## Rounding -/

def signed (negative : Bool) (q : ℚ) : ℚ := if negative then -q else q

def toRat? : Binary64 → Option ℚ
  | .finite negative units _ => some (signed negative (units / unitsInOne))
  | _ => none

/-- The least magnitude that rounds beyond the finite range, halfway from the greatest finite double
to the power of two after it. -/
def overflowBound : ℚ := 2 ^ 1024 - 2 ^ 970

/-- A number, with a sign of its own lest zero lose it, rounds to a double: to the nearest finite
one, of two as near to the one with an even significand, and to an infinity from
`overflowBound` on. -/
inductive RoundsTo (negative : Bool) (q : ℚ) : Binary64 → Prop
  | finite {units : Nat} {h : Representable units} {r : ℚ}
      (hvalue : toRat? (.finite negative units h) = some r)
      (hbound : |q| < overflowBound)
      (hnearest : ∀ y s, toRat? y = some s → |q - r| ≤ |q - s|)
      (heven : ∀ y s, toRat? y = some s → s ≠ r → |q - s| = |q - r| → EvenSignificand units) :
      RoundsTo negative q (.finite negative units h)
  | infinite (hbound : overflowBound ≤ |q|) : RoundsTo negative q (.infinite negative)

theorem natCast_two_pow (k : Nat) : ((Nat.pow 2 k : Nat) : ℚ) = 2 ^ k := by
  rw [Nat.pow_eq, Nat.cast_pow]
  rfl

theorem natCast_unitsInOne : (unitsInOne : ℚ) = 2 ^ 1074 := by
  unfold unitsInOne
  generalize 1074 = k
  exact natCast_two_pow k

theorem natCast_unitsInOne_pos : (0 : ℚ) < unitsInOne := by
  rw [natCast_unitsInOne]
  exact pow_pos two_pos 1074

theorem signed_zero (negative : Bool) : signed negative 0 = 0 := by
  cases negative with
  | false => rfl
  | true => exact neg_zero

theorem signed_inj {negative : Bool} {q r : ℚ} : signed negative q = signed negative r ↔ q = r := by
  cases negative with
  | false => rfl
  | true => exact neg_inj

theorem abs_signed (negative : Bool) {q : ℚ} (hq : 0 ≤ q) : |signed negative q| = q := by
  cases negative with
  | false => exact abs_of_nonneg hq
  | true => exact (abs_neg q).trans (abs_of_nonneg hq)

theorem abs_signed_sub_signed (negative : Bool) (q r : ℚ) :
    |signed negative q - signed negative r| = |q - r| := by
  cases negative with
  | false => rfl
  | true =>
      rw [signed, signed, if_pos rfl, if_pos rfl, neg_sub_neg]
      exact abs_sub_comm r q

theorem abs_signed_sub_signed_of_ne {a b : Bool} (hne : a ≠ b) {q r : ℚ} (hq : 0 ≤ q)
    (hr : 0 ≤ r) : |signed a q - signed b r| = q + r := by
  obtain rfl : b = !a := by
    revert hne
    cases a <;> cases b <;> decide
  cases a with
  | false =>
      have hsum : signed false q - signed true r = q + r := sub_neg_eq_add q r
      exact (congrArg abs hsum).trans (abs_of_nonneg (add_nonneg hq hr))
  | true =>
      have hsum : signed true q - signed false r = -(q + r) := (neg_add' q r).symm
      exact (congrArg abs hsum).trans ((abs_neg _).trans (abs_of_nonneg (add_nonneg hq hr)))

theorem overflowBound_mul_unitsInOne :
    overflowBound * unitsInOne = 2 ^ (2044 + 54) - 2 ^ 2044 := by
  rw [overflowBound, natCast_unitsInOne, sub_mul, ← pow_add, ← pow_add]

variable {negative : Bool} {num den : Nat}

theorem unitLimit_eq : unitLimit = 2 ^ (2044 + 54) := by
  unfold unitLimit
  rw [show 2044 + 54 = 2098 from rfl]
  generalize 2098 = k
  exact Nat.pow_eq

/-- A magnitude rounds beyond the finite range from `overflowBound` on. -/
theorem roundUnits_lt_unitLimit_iff (num : Nat) {den : Nat} (hden : 0 < den) :
    roundUnits num den < unitLimit ↔ (num / den / unitsInOne : ℚ) < overflowBound := by
  obtain ⟨lower, upper, hbetween⟩ := roundsBetween_roundUnits num hden
  rw [div_lt_iff₀ natCast_unitsInOne_pos, overflowBound_mul_unitsInOne, unitLimit_eq]
  exact hbetween.lt_two_pow_iff (spacing_dvd_roundUnits num den) 2044

theorem distance_mul_unitsInOne (negative : Bool) (q : ℚ) (n : Nat) :
    |signed negative (q / unitsInOne) - signed negative (n / unitsInOne)| * unitsInOne =
      |q - n| := by
  rw [abs_signed_sub_signed, ← sub_div, abs_div, abs_of_pos natCast_unitsInOne_pos,
    div_mul_cancel₀ _ natCast_unitsInOne_pos.ne']

/-- In units no double is nearer to a number than some point of the grid is to its magnitude, and
one that is as near is that point with the sign of the number. -/
theorem exists_grid_distance (negative : Bool) {y : Binary64} {q s : ℚ} (hq : 0 ≤ q)
    (hy : toRat? y = some s) :
    ∃ n : Nat, spacing n ∣ n ∧ |q - n| ≤ |signed negative (q / unitsInOne) - s| * unitsInOne ∧
      (|signed negative (q / unitsInOne) - s| * unitsInOne ≤ |q - n| →
        s = signed negative (n / unitsInOne)) := by
  have hunits := natCast_unitsInOne_pos
  cases y with
  | nan => cases hy
  | infinite other => cases hy
  | finite other m h =>
      cases hy
      by_cases hsign : negative = other
      · subst hsign
        exact ⟨m, h.2, (distance_mul_unitsInOne negative q m).ge, fun _ => rfl⟩
      · have hm : (0 : ℚ) ≤ m := Nat.cast_nonneg m
        have hdistance : |signed negative (q / unitsInOne) - signed other (m / unitsInOne)| *
            unitsInOne = q + m := by
          rw [abs_signed_sub_signed_of_ne hsign (div_nonneg hq hunits.le)
            (div_nonneg hm hunits.le), ← add_div, div_mul_cancel₀ _ hunits.ne']
        have hzero : |q - (0 : Nat)| = q := by
          rw [Nat.cast_zero, sub_zero, abs_of_nonneg hq]
        rw [hdistance]
        refine ⟨0, Nat.dvd_zero _, ?_, fun hle => ?_⟩
        · linarith
        · have hnone : (m : ℚ) = 0 := by linarith
          rw [hnone, Nat.cast_zero, zero_div, signed_zero, signed_zero]

/-- A quotient of units rounds to the double that `ofRatio` finds. -/
theorem roundsTo_ofRatio (negative : Bool) (num : Nat) {den : Nat} (hden : 0 < den) :
    RoundsTo negative (signed negative (num / den / unitsInOne)) (ofRatio negative num den) := by
  have hunits := natCast_unitsInOne_pos
  have hq : (0 : ℚ) ≤ num / den := div_nonneg (Nat.cast_nonneg num) (Nat.cast_nonneg den)
  obtain ⟨lower, upper, hbetween⟩ := roundsBetween_roundUnits num hden
  have habs := abs_signed negative (div_nonneg hq hunits.le)
  have hfinite := roundUnits_lt_unitLimit_iff num hden
  unfold ofRatio
  split
  · rename_i hlt
    refine .finite rfl (habs.trans_lt (hfinite.1 hlt)) (fun y s hy => ?_) fun y s hy hne htie => ?_
    · obtain ⟨n, hgrid, hdistance, -⟩ := exists_grid_distance negative hq hy
      refine le_of_mul_le_mul_right ?_ hunits
      rw [distance_mul_unitsInOne]
      exact (hbetween.nearest hgrid).trans hdistance
    · obtain ⟨n, hgrid, hdistance, hsame⟩ := exists_grid_distance negative hq hy
      rw [htie, distance_mul_unitsInOne] at hdistance hsame
      have hnearest := hbetween.nearest hgrid
      obtain rfl := hsame hnearest
      refine (hbetween.even_of_tie hgrid ?_ (le_antisymm hdistance hnearest)).1
      rintro rfl
      exact hne rfl
  · rename_i hnot
    refine .infinite ?_
    rw [habs]
    exact not_lt.1 fun hlt => hnot (hfinite.2 hlt)

/-- There is no other double to which a quotient of units rounds. -/
theorem RoundsTo.eq_ofRatio {negative : Bool} {num den : Nat} {x : Binary64} (hden : 0 < den)
    (h : RoundsTo negative (signed negative (num / den / unitsInOne)) x) :
    x = ofRatio negative num den := by
  have hunits := natCast_unitsInOne_pos
  have hq : (0 : ℚ) ≤ num / den := div_nonneg (Nat.cast_nonneg num) (Nat.cast_nonneg den)
  obtain ⟨lower, upper, hbetween⟩ := roundsBetween_roundUnits num hden
  have habs := abs_signed negative (div_nonneg hq hunits.le)
  have hfinite := roundUnits_lt_unitLimit_iff num hden
  cases h with
  | infinite hbound =>
      rw [habs] at hbound
      rw [ofRatio, dif_neg fun hlt => hbound.not_gt (hfinite.1 hlt)]
  | @finite units hrepresentable r hvalue hbound hnearest heven =>
      cases hvalue
      rw [habs] at hbound
      have hlt := hfinite.2 hbound
      refine ((ofRatio_eq_finite_iff hrepresentable).2 ?_).symm
      by_contra hne
      have hfound := hnearest (.finite negative (roundUnits num den)
        (representable_roundUnits hlt)) _ rfl
      have hle : |num / den - (units : ℚ)| ≤ |num / den - (roundUnits num den : ℚ)| := by
        rw [← distance_mul_unitsInOne negative, ← distance_mul_unitsInOne negative]
        exact mul_le_mul_of_nonneg_right hfound hunits.le
      have htie := le_antisymm hle (hbetween.nearest hrepresentable.2)
      apply (hbetween.even_of_tie hrepresentable.2 (Ne.symm hne) htie).2
      apply heven (.finite negative (roundUnits num den) (representable_roundUnits hlt)) _ rfl
      · intro hsame
        rw [signed_inj, div_left_inj' hunits.ne', Nat.cast_inj] at hsame
        exact hne hsame
      · rw [← distance_mul_unitsInOne negative, ← distance_mul_unitsInOne negative] at htie
        exact (mul_right_cancel₀ hunits.ne' htie).symm

/-- The double that a quotient of units rounds to is the one that `ofRatio` finds. -/
theorem roundsTo_iff_eq_ofRatio {negative : Bool} {num den : Nat} {x : Binary64} (hden : 0 < den) :
    RoundsTo negative (signed negative (num / den / unitsInOne)) x ↔
      x = ofRatio negative num den := by
  constructor
  · exact RoundsTo.eq_ofRatio hden
  · intro hx
    rw [hx]
    exact roundsTo_ofRatio negative num hden

end JsonRules.Binary64

namespace JsonRules.Decimal

open Binary64

def toRat (d : Decimal) : ℚ := d.coefficient * 10 ^ d.exponent

theorem toRat_eq (d : Decimal) :
    d.toRat = d.unitsRatio.1 / d.unitsRatio.2 / unitsInOne := by
  obtain ⟨c, e⟩ := d
  have hunits := natCast_unitsInOne_pos.ne'
  have hexponent : (10 : ℚ) ^ e = 10 ^ e.toNat / 10 ^ (-e).toNat := by
    rw [← zpow_natCast, ← zpow_natCast, ← zpow_sub₀ (by norm_num)]
    congr 1
    omega
  rw [toRat, unitsRatio_eq, hexponent]
  push_cast
  rw [div_right_comm, mul_div_cancel_right₀ _ hunits, mul_div_assoc]

/-- The nearest double of a decimal is the one to which it rounds. -/
theorem roundsTo_iff_eq_nearest {negative : Bool} {d : Decimal} {x : Binary64} :
    RoundsTo negative (signed negative d.toRat) x ↔ x = d.nearest negative := by
  have hden : 0 < d.unitsRatio.2 := by
    rw [unitsRatio_eq]
    exact Nat.pow_pos (by decide)
  rw [toRat_eq, nearest_eq_ofRatio, roundsTo_iff_eq_ofRatio hden]

end JsonRules.Decimal

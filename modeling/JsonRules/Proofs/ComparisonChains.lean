import Mathlib.Data.List.Chain
import JsonRules.Proofs.NumericOperands
import JsonRules.Proofs.Places

/-!
Chained comparisons.

A comparison of several operands looks at neighbours only.  Its relation holds of two doubles only
if both have a place on the number line, and goes from neighbour to neighbour as the order of the
places does (`Function.Orders`).  So a chain of two or more readings has all of them in order, and
not-a-number nowhere in it.  Read from the other end, a chain is one of the converse relation.
-/

namespace JsonRules

namespace Binary64

/-- A relation that goes from neighbour to neighbour, and that not-a-number has no part in. -/
structure Orders (related : Binary64 → Binary64 → Bool) : Prop where
  trans : ∀ {x y z}, related x y = true → related y z = true → related x z = true
  placed : ∀ {x y}, related x y = true → x.isNaN = false ∧ y.isNaN = false

theorem orders_placesRelated {related : Int → Int → Bool}
    (htrans : ∀ a b c, related a b = true → related b c = true → related a c = true) :
    Orders (placesRelated related) where
  trans := by
    intro x y z hxy hyz
    obtain ⟨a, b, hx, hy, hab⟩ := placesRelated_iff.1 hxy
    obtain ⟨b', c, hy', hz, hbc⟩ := placesRelated_iff.1 hyz
    obtain rfl : b = b' := Option.some.inj (hy.symm.trans hy')
    exact placesRelated_iff.2 ⟨a, c, hx, hz, htrans a b c hab hbc⟩
  placed := by
    intro x y hxy
    obtain ⟨a, b, hx, hy, -⟩ := placesRelated_iff.1 hxy
    exact ⟨isNaN_of_place? hx, isNaN_of_place? hy⟩

theorem orders_lessThan : Orders lessThan := by
  apply orders_placesRelated
  intro a b c hab hbc
  exact decide_eq_true (Int.lt_trans (of_decide_eq_true hab) (of_decide_eq_true hbc))

theorem orders_atMost : Orders atMost := by
  apply orders_placesRelated
  intro a b c hab hbc
  exact decide_eq_true (Int.le_trans (of_decide_eq_true hab) (of_decide_eq_true hbc))

theorem Orders.swap {related : Binary64 → Binary64 → Bool} (h : Orders related) :
    Orders fun x y => related y x where
  trans := fun hxy hyz => h.trans hyz hxy
  placed := fun hxy => (h.placed hxy).symm

end Binary64

namespace Numeric

open Binary64

variable {related : Binary64 → Binary64 → Bool}

theorem chained_iff_isChain {xs : List Binary64} :
    chained related xs = true ↔ xs.IsChain fun x y => related x y = true := by
  induction xs with
  | nil => simp [chained]
  | cons x rest ih =>
      cases rest with
      | nil => simp [chained]
      | cons y rest => rw [chained, Bool.and_eq_true, ih, List.isChain_cons_cons]

/-- A chain from the other end is one of the converse relation. -/
theorem chained_reverse (xs : List Binary64) :
    chained related xs.reverse = chained (fun x y => related y x) xs := by
  rw [Bool.eq_iff_iff, chained_iff_isChain, chained_iff_isChain, List.isChain_reverse]

/-- A chain has any two of its numbers in order. -/
theorem chained_iff_pairwise (horders : Orders related) {xs : List Binary64} :
    chained related xs = true ↔ xs.Pairwise fun x y => related x y = true := by
  have htrans : Trans (fun x y => related x y = true) (fun x y => related x y = true)
      fun x y => related x y = true := ⟨horders.trans⟩
  rw [chained_iff_isChain]
  exact List.isChain_iff_pairwise

/-- Where at least two numbers are in order, each of them is in order with another. -/
theorem isNaN_of_pairwise (horders : Orders related) {xs : List Binary64} (hcount : 2 ≤ xs.length)
    (h : xs.Pairwise fun x y => related x y = true) : ∀ x ∈ xs, x.isNaN = false := by
  match xs with
  | [] => simp at hcount
  | [_] => simp at hcount
  | x :: y :: rest =>
      obtain ⟨hfirst, -⟩ := List.pairwise_cons.1 h
      intro z hz
      rcases List.mem_cons.1 hz with rfl | hz
      · exact (horders.placed (hfirst y List.mem_cons_self)).1
      · exact (horders.placed (hfirst z hz)).2

theorem comparison_of_allRead {values : List Value} (h : AllRead values) (operator : String) :
    comparison operator related values = .ok (.bool (chained related (readingsOf values))) := by
  rw [comparison, readings_of_allRead h]
  rfl

theorem AllRead.reverse {values : List Value} (h : AllRead values) : AllRead values.reverse := by
  intro value hvalue
  exact h value (List.mem_reverse.1 hvalue)

/-- On operands with readings, a comparison is the converse one of the operands in reverse order. -/
theorem comparison_reverse {values : List Value} (h : AllRead values) (operator other : String) :
    comparison operator related values.reverse =
      comparison other (fun x y => related y x) values := by
  rw [comparison_of_allRead h.reverse, comparison_of_allRead h, readingsOf,
    List.filterMap_reverse, chained_reverse]
  rfl

end Numeric

namespace Function

open Numeric

/-- The relation that a comparison asks of its operands. -/
def relation? : Function → Option (Binary64 → Binary64 → Bool)
  | .less => some Binary64.lessThan
  | .lessOrEqual => some Binary64.atMost
  | .greater => some fun x y => y.lessThan x
  | .greaterOrEqual => some fun x y => y.atMost x
  | _ => none

theorem orders_of_relation? {f : Function} {related : Binary64 → Binary64 → Bool}
    (h : f.relation? = some related) : Binary64.Orders related := by
  cases f with
  | less =>
      cases h
      exact Binary64.orders_lessThan
  | lessOrEqual =>
      cases h
      exact Binary64.orders_atMost
  | greater =>
      cases h
      exact Binary64.orders_lessThan.swap
  | greaterOrEqual =>
      cases h
      exact Binary64.orders_atMost.swap
  | _ => cases h

theorem apply_of_relation? {f : Function} {related : Binary64 → Binary64 → Bool}
    (h : f.relation? = some related) (values : List Value) :
    f.apply values = .ofExcept (comparison f.name related values) := by
  cases f with
  | less | lessOrEqual | greater | greaterOrEqual =>
      cases h
      rfl
  | _ => cases h

/-- A comparison of two or more operands that all have readings holds exactly if none of the
readings is not-a-number and the relation holds between any two of them, in the order of the
operands.  To be greater one after another, or at least as great, is to be less, or at most as
great, in the reverse order. -/
theorem apply_comparison {f : Function} {related : Binary64 → Binary64 → Bool}
    (hf : f.relation? = some related) {values : List Value} (hcount : 2 ≤ values.length)
    (hread : AllRead values) :
    (∃ holds, f.apply values = pure (.bool holds) ∧
      (holds = true ↔ (∀ x ∈ readingsOf values, x.isNaN = false) ∧
        (readingsOf values).Pairwise fun x y => related x y = true)) ∧
    greater.apply values = less.apply values.reverse ∧
    greaterOrEqual.apply values = lessOrEqual.apply values.reverse := by
  have horders := orders_of_relation? hf
  refine ⟨⟨chained related (readingsOf values), ?_, ?_⟩, ?_, ?_⟩
  · rw [apply_of_relation? hf, comparison_of_allRead hread]
    rfl
  · rw [chained_iff_pairwise horders]
    refine (and_iff_right_of_imp fun hpairwise => ?_).symm
    exact isNaN_of_pairwise horders (length_readingsOf hread ▸ hcount) hpairwise
  · exact congrArg Result.ofExcept (comparison_reverse hread _ _).symm
  · exact congrArg Result.ofExcept (comparison_reverse hread _ _).symm

/-- The infinities at the ends, one of them written as a numeral out of range, and both zeros. -/
def climbingValues : List Value :=
  [.number (.infinite true), .number (.zero false), .number (.zero true), .string "1e400"]

theorem apply_climbingValues :
    AllRead climbingValues ∧ lessOrEqual.apply climbingValues = pure (.bool true) ∧
      greaterOrEqual.apply climbingValues = lessOrEqual.apply climbingValues.reverse := by
  have hread : AllRead climbingValues := by
    unfold AllRead
    decide +kernel
  have hnumbers : ∀ x ∈ readingsOf climbingValues, x.isNaN = false := by decide +kernel
  have hpairwise : (readingsOf climbingValues).Pairwise fun x y => x.atMost y = true := by
    decide +kernel
  obtain ⟨⟨holds, happly, hholds⟩, -, hreverse⟩ :=
    @apply_comparison lessOrEqual Binary64.atMost rfl climbingValues (by decide) hread
  exact ⟨hread, hholds.2 ⟨hnumbers, hpairwise⟩ ▸ happly, hreverse⟩

end Function

end JsonRules

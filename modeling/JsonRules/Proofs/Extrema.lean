import JsonRules.Proofs.ComparisonChains

/-!
Least and greatest readings.

An extremum goes through the readings with a pick between two of them, and the pick follows a total
order of all numbers but not-a-number (`Binary64.Picks`).  So the extremum is one of the readings
and bounds all of them, which leaves only the sign of zero open (`Binary64.IsExtreme.equals`), and
since picks may be grouped at will, the extremum of a list is the one of the extrema of its parts.
-/

namespace JsonRules

namespace Binary64

/-- The same number, the sign of zero aside. -/
def SameButZeroSign (x y : Binary64) : Prop := x = y ∨ x.isZero = true ∧ y.isZero = true

theorem sameButZeroSign_of_equals {x y : Binary64} (h : x.equals y = true) :
    x.SameButZeroSign y := by
  cases y with
  | nan =>
      obtain ⟨place, -, hplace⟩ := equals_iff.1 h
      cases hplace
  | infinite negative =>
      obtain ⟨place, hx, hplace⟩ := equals_iff.1 h
      rw [← hplace] at hx
      cases x with
      | nan => cases hx
      | infinite sign =>
          have hsign := (signedUnits_inj (Option.some.inj hx)).2 (Nat.ne_of_gt unitLimit_pos)
          exact Or.inl (congrArg infinite hsign)
      | finite sign units hunits =>
          have hlimit := (signedUnits_inj (Option.some.inj hx)).1
          exact absurd hunits.1 (Nat.not_lt.2 (Nat.le_of_eq hlimit.symm))
  | finite negative units hunits =>
      obtain ⟨sign, rfl, hsign⟩ := finite_of_equals h
      by_cases hzero : units = 0
      · subst hzero
        exact Or.inr ⟨rfl, rfl⟩
      · rw [hsign hzero]
        exact Or.inl rfl

/-- A pick between two numbers by an order.  It takes the first one unless only the second is below
the other. -/
structure Picks (pick : Binary64 → Binary64 → Binary64) (below : Binary64 → Binary64 → Bool) :
    Prop where
  orders : Orders below
  total : ∀ {x y}, x.isNaN = false → y.isNaN = false → below x y = true ∨ below y x = true
  equals : ∀ {x y}, below x y = true → below y x = true → x.equals y = true
  pick_eq : ∀ {x y}, x.isNaN = false → y.isNaN = false → pick x y = if below x y then x else y

theorem exists_place? {x : Binary64} (h : x.isNaN = false) : ∃ place, x.place? = some place := by
  cases x with
  | nan => cases h
  | infinite negative => exact ⟨_, rfl⟩
  | finite negative units hunits => exact ⟨_, rfl⟩

theorem atMost_total {x y : Binary64} (hx : x.isNaN = false) (hy : y.isNaN = false) :
    x.atMost y = true ∨ y.atMost x = true := by
  obtain ⟨a, ha⟩ := exists_place? hx
  obtain ⟨b, hb⟩ := exists_place? hy
  rcases Int.le_total a b with hle | hle
  · exact Or.inl (placesRelated_iff.2 ⟨a, b, ha, hb, decide_eq_true hle⟩)
  · exact Or.inr (placesRelated_iff.2 ⟨b, a, hb, ha, decide_eq_true hle⟩)

theorem equals_of_atMost {x y : Binary64} (hxy : x.atMost y = true) (hyx : y.atMost x = true) :
    x.equals y = true := by
  obtain ⟨a, b, ha, hb, hle⟩ := placesRelated_iff.1 hxy
  obtain ⟨b', a', hb', ha', hge⟩ := placesRelated_iff.1 hyx
  obtain rfl : a = a' := Option.some.inj (ha.symm.trans ha')
  obtain rfl : b = b' := Option.some.inj (hb.symm.trans hb')
  obtain rfl : a = b := Int.le_antisymm (of_decide_eq_true hle) (of_decide_eq_true hge)
  exact equals_iff.2 ⟨a, ha, hb⟩

/-- Of two numbers with a place, one is less exactly if the other is not at most it. -/
theorem lessThan_eq_not_atMost {x y : Binary64} (hx : x.isNaN = false) (hy : y.isNaN = false) :
    x.lessThan y = !y.atMost x := by
  obtain ⟨a, ha⟩ := exists_place? hx
  obtain ⟨b, hb⟩ := exists_place? hy
  simp only [lessThan, atMost, placesRelated, ha, hb]
  rw [← decide_not, decide_eq_decide]
  exact Int.not_le.symm

theorem picks_lesser : Picks lesser atMost where
  orders := orders_atMost
  total := atMost_total
  equals := equals_of_atMost
  pick_eq := by
    intro x y hx hy
    rw [lesser, hx, if_neg Bool.false_ne_true, lessThan_eq_not_atMost hy hx]
    cases x.atMost y <;> rfl

theorem picks_greater : Picks greater fun x y => y.atMost x where
  orders := orders_atMost.swap
  total := fun hx hy => atMost_total hy hx
  equals := fun hxy hyx => equals_of_atMost hyx hxy
  pick_eq := by
    intro x y hx hy
    rw [greater, hx, if_neg Bool.false_ne_true, lessThan_eq_not_atMost hx hy]
    cases y.atMost x <;> rfl

/-- A number of a list that is below all of the list. -/
def IsExtreme (below : Binary64 → Binary64 → Bool) (xs : List Binary64) (x : Binary64) : Prop :=
  x ∈ xs ∧ ∀ y ∈ xs, below x y = true

section

variable {pick : Binary64 → Binary64 → Binary64} {below : Binary64 → Binary64 → Bool}
  {x y : Binary64} {xs ys : List Binary64}

theorem Picks.below_self (h : Picks pick below) (hx : x.isNaN = false) : below x x = true :=
  (h.total hx hx).elim id id

theorem Picks.pick_of_below (h : Picks pick below) (hxy : below x y = true) : pick x y = x := by
  obtain ⟨hx, hy⟩ := h.orders.placed hxy
  rw [h.pick_eq hx hy, if_pos hxy]

theorem Picks.pick_of_not_below (h : Picks pick below) (hx : x.isNaN = false)
    (hy : y.isNaN = false) (hxy : below x y ≠ true) : pick x y = y := by
  rw [h.pick_eq hx hy, if_neg hxy]

/-- A pick is one of the two numbers and below both. -/
theorem Picks.isExtreme_pick (h : Picks pick below) (hx : x.isNaN = false)
    (hy : y.isNaN = false) : IsExtreme below [x, y] (pick x y) := by
  by_cases hxy : below x y = true
  · rw [h.pick_of_below hxy]
    exact ⟨by simp, by simp [hxy, h.below_self hx]⟩
  · rw [h.pick_of_not_below hx hy hxy]
    exact ⟨by simp, by simp [(h.total hx hy).resolve_left hxy, h.below_self hy]⟩

theorem Picks.isNaN_pick (h : Picks pick below) (hx : x.isNaN = false) (hy : y.isNaN = false) :
    (pick x y).isNaN = false :=
  (h.orders.placed ((h.isExtreme_pick hx hy).2 x (by simp))).1

/-- Picks may be grouped either way. -/
theorem Picks.assoc (h : Picks pick below) {z : Binary64} (hx : x.isNaN = false)
    (hy : y.isNaN = false) (hz : z.isNaN = false) : pick (pick x y) z = pick x (pick y z) := by
  by_cases hxy : below x y = true
  · by_cases hyz : below y z = true
    · have hxz := h.orders.trans hxy hyz
      rw [h.pick_of_below hxy, h.pick_of_below hyz, h.pick_of_below hxy, h.pick_of_below hxz]
    · rw [h.pick_of_below hxy, h.pick_of_not_below hy hz hyz]
  · rw [h.pick_of_not_below hx hy hxy]
    by_cases hyz : below y z = true
    · rw [h.pick_of_below hyz, h.pick_of_not_below hx hy hxy]
    · have hzy := (h.total hy hz).resolve_left hyz
      have hxz : below x z ≠ true := fun hxz => hxy (h.orders.trans hxz hzy)
      rw [h.pick_of_not_below hy hz hyz, h.pick_of_not_below hx hz hxz]

/-- Going through a list with a pick ends with an extreme number of it. -/
theorem Picks.isExtreme_foldl (h : Picks pick below) (hnumbers : ∀ y ∈ x :: xs, y.isNaN = false) :
    IsExtreme below (x :: xs) (xs.foldl pick x) := by
  induction xs generalizing x with
  | nil => exact ⟨List.mem_cons_self, by simp [h.below_self (hnumbers x List.mem_cons_self)]⟩
  | cons y rest ih =>
      have hx := hnumbers x (by simp)
      have hy := hnumbers y (by simp)
      have hrest : ∀ z ∈ rest, z.isNaN = false := fun z hz => hnumbers z (by simp [hz])
      obtain ⟨hpick, hbelow⟩ := h.isExtreme_pick hx hy
      obtain ⟨hmem, hall⟩ := ih (List.forall_mem_cons.2 ⟨h.isNaN_pick hx hy, hrest⟩)
      have hfirst := hall (pick x y) List.mem_cons_self
      refine ⟨?_, ?_⟩
      · rcases List.mem_cons.1 hmem with heq | hmem
        · rw [List.foldl_cons, heq]
          exact List.mem_append_left rest hpick
        · exact List.mem_append_right [x, y] hmem
      · intro z hz
        rcases List.mem_append.1 (show z ∈ [x, y] ++ rest from hz) with hz | hz
        · exact h.orders.trans hfirst (hbelow z hz)
        · exact hall z (List.mem_cons_of_mem _ hz)

/-- Extreme numbers of the same numbers in any order equal one another. -/
theorem IsExtreme.equals (h : Picks pick below) (hx : IsExtreme below xs x)
    (hy : IsExtreme below ys y) (hperm : xs.Perm ys) : x.equals y = true :=
  h.equals (hx.2 y (hperm.mem_iff.2 hy.1)) (hy.2 x (hperm.mem_iff.1 hx.1))

/-- A number in front of the picks is picked against their outcome. -/
theorem Picks.foldl_pick (h : Picks pick below) (hx : x.isNaN = false)
    (hnumbers : ∀ z ∈ y :: ys, z.isNaN = false) :
    ys.foldl pick (pick x y) = pick x (ys.foldl pick y) := by
  induction ys generalizing y with
  | nil => rfl
  | cons z rest ih =>
      obtain ⟨hy, hnumbers⟩ := List.forall_mem_cons.1 hnumbers
      obtain ⟨hz, hrest⟩ := List.forall_mem_cons.1 hnumbers
      rw [List.foldl_cons, List.foldl_cons, h.assoc hx hy hz]
      exact ih (List.forall_mem_cons.2 ⟨h.isNaN_pick hy hz, hrest⟩)

end

/-- What picks make of numbers: not-a-number as soon as it is among them. -/
def extreme (pick : Binary64 → Binary64 → Binary64) (xs : List Binary64) : Binary64 :=
  if xs.any isNaN then .nan
  else
    match xs with
    | [] => .nan
    | x :: rest => rest.foldl pick x

section

variable {pick : Binary64 → Binary64 → Binary64} {below : Binary64 → Binary64 → Bool}
  {xs ys : List Binary64}

theorem extreme_of_isNaN (pick : Binary64 → Binary64 → Binary64)
    (h : ∃ x ∈ xs, x.isNaN = true) : extreme pick xs = .nan :=
  if_pos (List.any_eq_true.2 h)

theorem extreme_cons (pick : Binary64 → Binary64 → Binary64) {x : Binary64}
    (h : ∀ y ∈ x :: xs, y.isNaN = false) : extreme pick (x :: xs) = xs.foldl pick x := by
  have hany : (x :: xs).any isNaN = false := by
    rw [List.any_eq_false]
    intro y hy
    rw [h y hy]
    exact Bool.false_ne_true
  simp only [extreme, hany, Bool.false_eq_true, if_false]

theorem isExtreme_extreme (h : Picks pick below) (hne : xs ≠ [])
    (hnumbers : ∀ x ∈ xs, x.isNaN = false) : IsExtreme below xs (extreme pick xs) := by
  cases xs with
  | nil => exact absurd rfl hne
  | cons x rest =>
      rw [extreme_cons pick hnumbers]
      exact h.isExtreme_foldl hnumbers

theorem forall_isNaN_or_exists (xs : List Binary64) :
    (∀ x ∈ xs, x.isNaN = false) ∨ ∃ x ∈ xs, x.isNaN = true := by
  by_cases h : ∃ x ∈ xs, x.isNaN = true
  · exact Or.inr h
  · refine Or.inl fun x hx => ?_
    rw [← Bool.not_eq_true]
    exact fun hnan => h ⟨x, hx, hnan⟩

theorem extreme_perm (h : Picks pick below) (hne : xs ≠ []) (hperm : ys.Perm xs) :
    (extreme pick xs).SameButZeroSign (extreme pick ys) := by
  rcases forall_isNaN_or_exists xs with hnumbers | hnan
  · have hothers : ∀ y ∈ ys, y.isNaN = false := fun y hy => hnumbers y (hperm.mem_iff.1 hy)
    have hys : ys ≠ [] := fun hnil => hne (List.nil_perm.1 (hnil ▸ hperm))
    exact sameButZeroSign_of_equals
      ((isExtreme_extreme h hne hnumbers).equals h (isExtreme_extreme h hys hothers) hperm.symm)
  · have hothers : ∃ y ∈ ys, y.isNaN = true := by
      obtain ⟨x, hx, hnan⟩ := hnan
      exact ⟨x, hperm.mem_iff.2 hx, hnan⟩
    rw [extreme_of_isNaN pick hnan, extreme_of_isNaN pick hothers]
    exact Or.inl rfl

/-- The extreme number of two parts is the one of the extreme numbers of the parts. -/
theorem extreme_append (h : Picks pick below) (hxs : xs ≠ []) (hys : ys ≠ []) :
    extreme pick (xs ++ ys) = extreme pick [extreme pick xs, extreme pick ys] := by
  rcases forall_isNaN_or_exists xs with hfront | hnan
  · rcases forall_isNaN_or_exists ys with hback | hnan
    · obtain ⟨x, front, rfl⟩ := List.exists_cons_of_ne_nil hxs
      obtain ⟨y, back, rfl⟩ := List.exists_cons_of_ne_nil hys
      have hx := isExtreme_extreme h hxs hfront
      have hy := isExtreme_extreme h hys hback
      have hboth : ∀ z ∈ [extreme pick (x :: front), extreme pick (y :: back)],
          z.isNaN = false := by
        simp [hfront _ hx.1, hback _ hy.1]
      have hall : ∀ z ∈ x :: (front ++ y :: back), z.isNaN = false :=
        List.forall_mem_append.2 ⟨hfront, hback⟩
      rw [extreme_cons pick hboth, List.cons_append, extreme_cons pick hall, List.foldl_append,
        List.foldl_cons, h.foldl_pick (extreme_cons pick hfront ▸ hfront _ hx.1) hback,
        extreme_cons pick hfront, extreme_cons pick hback]
      rfl
    · rw [extreme_of_isNaN pick hnan]
      obtain ⟨y, hy, hnan⟩ := hnan
      rw [extreme_of_isNaN pick ⟨y, List.mem_append_right xs hy, hnan⟩]
      exact (extreme_of_isNaN pick ⟨.nan, by simp, rfl⟩).symm
  · rw [extreme_of_isNaN pick hnan]
    obtain ⟨x, hx, hnan⟩ := hnan
    rw [extreme_of_isNaN pick ⟨x, List.mem_append_left ys hx, hnan⟩]
    exact (extreme_of_isNaN pick ⟨.nan, by simp, rfl⟩).symm

end

end Binary64

namespace Function

open Binary64 Numeric

/-- The relation in which an extremum stands to all readings. -/
def bound? : Function → Option (Binary64 → Binary64 → Bool)
  | .least => some atMost
  | .greatest => some fun x y => y.atMost x
  | _ => none

theorem extremum_of_allRead {values : List Value} (hread : AllRead values) (hne : values ≠ [])
    (operator : String) (pick : Binary64 → Binary64 → Binary64) :
    extremum operator pick values = .ok (.number (extreme pick (readingsOf values))) := by
  obtain ⟨x, rest, hreadings⟩ := exists_readingsOf_eq_cons hread hne
  rw [extremum, readings_of_allRead hread, hreadings, extreme]
  simp only [Except.map]
  split <;> rfl

/-- An operator with such a relation goes through its readings with a pick by it. -/
theorem exists_picks_of_bound? {f : Function} {below : Binary64 → Binary64 → Bool}
    (hf : f.bound? = some below) :
    ∃ pick, Picks pick below ∧ ∀ values, AllRead values → values ≠ [] →
      f.apply values = pure (.number (extreme pick (readingsOf values))) := by
  cases f with
  | least =>
      cases hf
      exact ⟨lesser, picks_lesser, fun values hread hne =>
        congrArg Result.ofExcept (extremum_of_allRead hread hne least.name lesser)⟩
  | greatest =>
      cases hf
      exact ⟨Binary64.greater, picks_greater, fun values hread hne =>
        congrArg Result.ofExcept (extremum_of_allRead hread hne greatest.name Binary64.greater)⟩
  | _ => cases hf

/-- The least and the greatest of operands that all have readings: not-a-number if it is among the
readings, and otherwise a number that equals one of them and bounds them all.  The order of the
operands decides at most on the sign of zero, and the operands may be taken in two parts. -/
theorem apply_extremum {f : Function} {below : Binary64 → Binary64 → Bool}
    (hf : f.bound? = some below) {values : List Value} (hne : values ≠ [])
    (hread : AllRead values) :
    ∃ x, f.apply values = pure (.number x) ∧
      ((∃ y ∈ readingsOf values, y.isNaN = true) → x = .nan) ∧
      ((∀ y ∈ readingsOf values, y.isNaN = false) →
        (∃ y ∈ readingsOf values, x.equals y = true) ∧
          ∀ y ∈ readingsOf values, below x y = true) ∧
      (∀ others : List Value, others.Perm values →
        ∃ y, f.apply others = pure (.number y) ∧ x.SameButZeroSign y) ∧
      ∀ front back : List Value, front ≠ [] → back ≠ [] → front ++ back = values →
        ∃ y z, f.apply front = pure (.number y) ∧ f.apply back = pure (.number z) ∧
          f.apply [.number y, .number z] = pure (.number x) := by
  obtain ⟨pick, hpicks, happly⟩ := exists_picks_of_bound? hf
  have hreadings : ∀ {others : List Value}, AllRead others → others ≠ [] →
      readingsOf others ≠ [] := by
    intro others hread hne
    obtain ⟨x, rest, hcons⟩ := exists_readingsOf_eq_cons hread hne
    exact hcons ▸ List.cons_ne_nil x rest
  refine ⟨extreme pick (readingsOf values), happly values hread hne, extreme_of_isNaN pick, ?_,
    ?_, ?_⟩
  · intro hnumbers
    obtain ⟨hmem, hbelow⟩ := isExtreme_extreme hpicks (hreadings hread hne) hnumbers
    exact ⟨⟨_, hmem, equals_self_iff.2 (hnumbers _ hmem)⟩, hbelow⟩
  · intro others hperm
    have hothers : AllRead others := fun value hvalue => hread value (hperm.mem_iff.1 hvalue)
    have hothersNe : others ≠ [] := fun hnil => hne (List.nil_perm.1 (hnil ▸ hperm))
    exact ⟨_, happly others hothers hothersNe,
      extreme_perm hpicks (hreadings hread hne) (hperm.filterMap _)⟩
  · rintro front back hfront hback rfl
    obtain ⟨hreadFront, hreadBack⟩ := List.forall_mem_append.1 hread
    have hpair : AllRead [.number (extreme pick (readingsOf front)),
        .number (extreme pick (readingsOf back))] := by
      simp [AllRead, Value.toNumber?]
    refine ⟨_, _, happly front hreadFront hfront, happly back hreadBack hback, ?_⟩
    have happend : readingsOf (front ++ back) = readingsOf front ++ readingsOf back :=
      List.filterMap_append
    rw [happly _ hpair (List.cons_ne_nil _ _), happend,
      extreme_append hpicks (hreadings hreadFront hfront) (hreadings hreadBack hback)]
    rfl

/-- A boolean, both zeros, a numeral beyond the finite range and a number. -/
def unevenValues : List Value :=
  [.bool true, .string " -0 ", .null, .string "-1e400", .number (.ofInt 3)]

/-- The numeral beyond the range is the least of them, and stands in the second part. -/
theorem apply_least_unevenValues :
    (unevenValues ≠ [] ∧ AllRead unevenValues) ∧
      ∃ x, least.apply unevenValues = pure (.number x) ∧ x.atMost (.infinite true) = true ∧
        ∃ y z, least.apply [.bool true, .string " -0 ", .null] = pure (.number y) ∧
          least.apply [.string "-1e400", .number (.ofInt 3)] = pure (.number z) ∧
          least.apply [.number y, .number z] = pure (.number x) := by
  have hne : unevenValues ≠ [] := List.cons_ne_nil _ _
  have hread : AllRead unevenValues := by
    unfold AllRead
    decide +kernel
  have hnumbers : ∀ x ∈ readingsOf unevenValues, x.isNaN = false := by decide +kernel
  have hlowest : .infinite true ∈ readingsOf unevenValues := by decide +kernel
  obtain ⟨x, happly, -, hbounds, -, hparts⟩ :=
    @apply_extremum least atMost rfl unevenValues hne hread
  obtain ⟨-, hbelow⟩ := hbounds hnumbers
  exact ⟨⟨hne, hread⟩, x, happly, hbelow _ hlowest,
    hparts _ _ (List.cons_ne_nil _ _) (List.cons_ne_nil _ _) rfl⟩

end Function

end JsonRules

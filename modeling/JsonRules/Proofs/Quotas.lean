import JsonRules.Proofs.ComparisonChains
import JsonRules.Proofs.MissingKeys
import JsonRules.Proofs.NumericOperands
import JsonRules.Proofs.Rounding
import JsonRules.Proofs.Totality

/-!
Missing keys with a quota.

`missing_some` gives the list of `missing`, unless as many keys are there as it is asked for
(`Engine.apply_missingSome`).  The keys that are there are counted as a double, which is exact below
`2 ^ 53` (`Binary64.atMost_ofNat`), so that the quota is compared with the count itself.
-/

namespace JsonRules

variable {σ : Type}

/-! ## Counts as doubles -/

namespace Binary64

/-- Whether a number is at most an integer.  Not-a-number is not. -/
def atMostInt (x : Binary64) (z : Int) : Bool :=
  match x with
  | .nan => false
  | .infinite negative => negative
  | .finite negative units _ => decide (signedUnits negative units ≤ z * unitsInOne)

theorem atMostInt_mono {x : Binary64} {z w : Int} (h : z ≤ w) (hx : x.atMostInt z = true) :
    x.atMostInt w = true := by
  cases x with
  | nan => cases hx
  | infinite negative => exact hx
  | finite negative units hunits =>
      have hplace := of_decide_eq_true hx
      have hle : z * unitsInOne ≤ w * unitsInOne :=
        Int.mul_le_mul_of_nonneg_right h (Int.natCast_nonneg _)
      exact decide_eq_true (Int.le_trans hplace hle)

theorem representable_mul_unitsInOne {n : Nat} (h : n < stepLimit) :
    Representable (n * unitsInOne) := by
  have hexponents : 53 + 1074 ≤ 2098 := by decide
  unfold Representable unitsInOne unitLimit
  generalize 1074 = k at hexponents ⊢
  generalize 2098 = m at hexponents ⊢
  refine ⟨?_, spacing_dvd_mul_two_pow h k⟩
  calc n * 2 ^ k < 2 ^ 53 * 2 ^ k := Nat.mul_lt_mul_of_pos_right h (Nat.two_pow_pos k)
    _ = 2 ^ (53 + k) := (Nat.pow_add 2 53 k).symm
    _ ≤ 2 ^ m := Nat.pow_le_pow_right (by decide) hexponents

/-- Comparing with a finite number at the place of an integer is comparing with the integer. -/
theorem atMost_of_place? (x : Binary64) {y : Binary64} {z : Int} (hfinite : y.isFinite = true)
    (hy : y.place? = some (z * unitsInOne)) : x.atMost y = x.atMostInt z := by
  cases x with
  | nan => rfl
  | infinite negative =>
      have hbound : (z * unitsInOne).natAbs < unitLimit := by
        cases y with
        | finite sign units hunits =>
            rw [← Option.some.inj hy, natAbs_signedUnits]
            exact hunits.1
        | _ => cases hfinite
      rw [atMost, placesRelated_of_place? rfl hy, atMostInt, signedUnits]
      generalize unitLimit = limit at hbound ⊢
      generalize z * unitsInOne = place at hbound ⊢
      cases negative with
      | false =>
          rw [if_neg Bool.false_ne_true, decide_eq_false_iff_not]
          omega
      | true =>
          rw [if_pos rfl, decide_eq_true_iff]
          omega
  | finite negative units hunits => exact placesRelated_of_place? rfl hy _

/-- Counts below `2 ^ 53` are doubles, and compared as such. -/
theorem atMost_ofNat (x : Binary64) {n : Nat} (h : n < stepLimit) :
    x.atMost (.ofNat n) = x.atMostInt n := by
  rw [ofNat, ofRatio_of_representable false (representable_mul_unitsInOne h)]
  exact atMost_of_place? x rfl (congrArg some (Int.natCast_mul n unitsInOne))

end Binary64

/-! ## Quotas -/

/-- Only scalars have a numeric reading. -/
theorem Value.isContainer_of_toNumber? {value : Value} {x : Binary64}
    (h : value.toNumber? = some x) : value.isContainer = false := by
  cases value with
  | array _ => cases h
  | object _ => cases h
  | _ => rfl

namespace Lookup

/-- The missing keys, unless as many keys are there as a number asks for. -/
def unmet (data : Value) (keys : List Value) (need : Binary64) : List Value :=
  if need.atMost (.ofNat (keys.length - (missingKeys data keys).length)) then []
  else missingKeys data keys

theorem quota_of_reading (operator : String) {need : Value} {x : Binary64}
    (hneed : need.toNumber? = some x) (keys : List Value) :
    (quota operator [need, .array keys]).run = some (.ok (x, keys)) := by
  rw [quota, Numeric.reading_of_some hneed]
  rfl

theorem ofResult_unlessEnough (data : Value) (keys : List Value) (need : Binary64) :
    Script.ofResult (unlessEnough need keys (missingKeys data keys)) =
      .finish (.ok (.array (unmet data keys need))) := by
  rw [unlessEnough, presentCount_missingKeys]
  rfl

theorem unmet_eq_nil_iff {data : Value} {keys : List Value} {need : Binary64} :
    unmet data keys need = [] ↔
      need.atMost (.ofNat (keys.length - (missingKeys data keys).length)) = true ∨
        missingKeys data keys = [] := by
  unfold unmet
  split
  · rename_i hmet
    exact iff_of_true rfl (.inl hmet)
  · rename_i hunmet
    exact (or_iff_right hunmet).symm

/-- The count of the keys that are there is compared as an integer. -/
theorem unmet_eq (data : Value) {keys : List Value} (hkeys : keys.length < Binary64.stepLimit)
    (need : Binary64) :
    unmet data keys need =
      if need.atMostInt (keys.length - (missingKeys data keys).length) then []
      else missingKeys data keys := by
  have hle : (missingKeys data keys).length ≤ keys.length := List.length_filter_le _ keys
  have hcount : keys.length - (missingKeys data keys).length < Binary64.stepLimit :=
    Nat.lt_of_le_of_lt (Nat.sub_le _ _) hkeys
  rw [unmet, Binary64.atMost_ofNat need hcount, Int.ofNat_sub hle]

/-- A quota that is met is still met when it is lowered. -/
theorem unmet_of_atMost {data : Value} {keys : List Value} {need lower : Binary64}
    (hlower : lower.atMost need = true) (hmet : unmet data keys need = []) :
    unmet data keys lower = [] := by
  rw [unmet_eq_nil_iff] at hmet ⊢
  rcases hmet with hcount | hnone
  · exact .inl (Binary64.orders_atMost.trans hlower hcount)
  · exact .inr hnone

theorem mem_missingKeys_iff {data key : Value} {keys : List Value} :
    key ∈ missingKeys data keys ↔ key ∈ keys ∧ isMissing data key = true :=
  List.mem_filter

/-- The more keys are missing, with their repetitions, the longer is the list of them. -/
theorem length_missingKeys_le {first second : Value} {keys : List Value}
    (h : ∀ key ∈ missingKeys second keys, key ∈ missingKeys first keys) :
    (missingKeys second keys).length ≤ (missingKeys first keys).length := by
  rw [missingKeys, missingKeys, ← List.countP_eq_length_filter, ← List.countP_eq_length_filter]
  refine List.countP_mono_left fun key hkey hmissing => ?_
  exact (mem_missingKeys_iff.1 (h key (mem_missingKeys_iff.2 ⟨hkey, hmissing⟩))).2

/-- A quota that is met is still met when fewer keys are missing. -/
theorem unmet_of_subset {first second : Value} {keys : List Value}
    (hkeys : keys.length < Binary64.stepLimit) {need : Binary64}
    (hfewer : ∀ key ∈ missingKeys second keys, key ∈ missingKeys first keys)
    (hmet : unmet first keys need = []) : unmet second keys need = [] := by
  have hlength := length_missingKeys_le hfewer
  have hbelow (count : Nat) : keys.length - count < Binary64.stepLimit :=
    Nat.lt_of_le_of_lt (Nat.sub_le _ _) hkeys
  rw [unmet_eq_nil_iff, Binary64.atMost_ofNat need (hbelow _)] at hmet ⊢
  rcases hmet with hcount | hnone
  · exact .inl (Binary64.atMostInt_mono (by omega) hcount)
  · rw [hnone] at hlength
    exact .inr (List.length_eq_zero_iff.1 (Nat.le_zero.1 hlength))

end Lookup

section

variable {context : Context σ} {depth : Nat}

/-- A list of keys as the only operand of `missing`: those that are missing are given back. -/
theorem Evaluates.missingListed (keys : List Value)
    (hadmitted : context.operators.admission context.options depth Builtin.missing.name 1 =
      .ok (.builtin .missing)) :
    ∃ marks, Evaluates context depth
      (.operation Builtin.missing.name ([.array keys].map Rule.literal))
      (.ok (.array (Lookup.missingKeys context.data keys))) marks :=
  Evaluates.eager rfl hadmitted (Follows.askAll .ok)

/-- The missing keys are given back unless the quota is met. -/
theorem Evaluates.missingSome {need : Value} {x : Binary64} (hneed : need.toNumber? = some x)
    (keys : List Value)
    (hadmitted : context.operators.admission context.options depth Builtin.missingSome.name 2 =
      .ok (.builtin .missingSome)) :
    ∃ marks, Evaluates context depth
      (.operation Builtin.missingSome.name ([need, .array keys].map Rule.literal))
      (.ok (.array (Lookup.unmet context.data keys x))) marks := by
  refine Evaluates.eager rfl hadmitted ?_
  have hquota := Lookup.quota_of_reading Builtin.missingSome.name hneed keys
  have hnext : Follows context (depth + 1) 2 []
      (.ofResult (Lookup.unlessEnough x keys (Lookup.missingKeys context.data keys)))
      (.ok (.array (Lookup.unmet context.data keys x))) [] := by
    rw [Lookup.ofResult_unlessEnough]
    exact .ok
  simp only [Builtin.conclusion, hquota]
  exact Follows.askAll hnext

end

namespace Engine

/-- The rule `{"missing_some": [need, keys]}`. -/
def missingSomeRule (need : Value) (keys : List Value) : Value :=
  .object [("missing_some", .array [need, .array keys])]

theorem admission_of_room {engine : Engine σ} (hroom : engine.options.maxDepth ≠ some 0)
    {b : Builtin} (hget : engine.operators.get? b.name = some (.builtin b)) {count : Nat}
    (haccepts : b.signature.arity.mismatch? count = none) :
    engine.operators.admission engine.options 0 b.name count = .ok (.builtin b) := by
  refine Registry.admission_eq_ok_iff.2 ⟨hget, haccepts, fun max hmax => ?_⟩
  refine Nat.pos_of_ne_zero fun hzero => hroom ?_
  rw [hmax, hzero]

/-- On a list of keys `missing_some` gives the list of `missing`, in full and in order, unless the
number of keys that are there is at least the reading of the quota; none is for not-a-number.  A
quota that is met is met when it is lowered, and on data where fewer of the keys are missing. -/
theorem apply_missingSome (engine : Engine σ)
    (hmissing : engine.operators.get? Builtin.missing.name = some (.builtin .missing))
    (hsome : engine.operators.get? Builtin.missingSome.name = some (.builtin .missingSome))
    (hroom : engine.options.maxDepth ≠ some 0) {keys : List Value} (hkeys : keys.length < 2 ^ 53)
    (budget : Nat) (state : σ) :
    ∃ (missing : Value → List Value) (unmet : Value → Binary64 → List Value),
      (∀ data, (missing data).Sublist keys ∧
        (apply engine budget (missingRule [.array keys]) data state).map Report.answer =
          some (.ok (.array (missing data)))) ∧
      (∀ data need x, need.toNumber? = some x →
        (apply engine budget (missingSomeRule need keys) data state).map Report.answer =
          some (.ok (.array (unmet data x)))) ∧
      (∀ data x, unmet data x =
        if x.atMostInt (keys.length - (missing data).length) then [] else missing data) ∧
      (∀ data, unmet data .nan = missing data) ∧
      (∀ data x y, x.atMost y = true → unmet data y = [] → unmet data x = []) ∧
      ∀ first second x, (∀ key ∈ missing second, key ∈ missing first) →
        unmet first x = [] → unmet second x = [] := by
  have hlist : Rule.ofValue (.array keys) = .literal (.array keys) := rfl
  refine ⟨fun data => Lookup.missingKeys data keys, fun data => Lookup.unmet data keys,
    fun data => ⟨List.filter_sublist, ?_⟩, fun data need x hneed => ?_,
    fun data => Lookup.unmet_eq data hkeys, fun data => ?_, fun data x y => Lookup.unmet_of_atMost,
    fun first second x => Lookup.unmet_of_subset hkeys⟩
  · refine apply_of_evaluates ?_ budget state
    rw [missingRule, Rule.ofValue_of_literals _ (List.forall_mem_singleton.2 hlist)]
    exact Evaluates.missingListed keys (admission_of_room hroom hmissing rfl)
  · refine apply_of_evaluates ?_ budget state
    have hscalar := Value.isContainer_of_toNumber? hneed
    have hliterals : ∀ item ∈ [need, .array keys], Rule.ofValue item = .literal item :=
      List.forall_mem_cons.2
        ⟨Rule.ofValue_of_scalar hscalar, List.forall_mem_singleton.2 hlist⟩
    rw [missingSomeRule, Rule.ofValue_of_literals _ hliterals]
    exact Evaluates.missingSome hneed keys (admission_of_room hroom hsome rfl)
  · rfl

/-- A key twice, a key that is null, and one that is an object. -/
def mixedKeys : List Value := [.string "name", .null, .string "name", .object []]

def namedData : Value := .object [("name", .string "x")]

/-- Two and a half keys are more than the name twice, and two are not. -/
theorem apply_missingSome_mixedKeys :
    ((standard : Engine Unit).apply 0 (missingSomeRule (.string "2.5") mixedKeys) namedData ()).map
      Report.answer = some (.ok (.array [.null, .object []])) ∧
    ((standard : Engine Unit).apply 0 (missingSomeRule (.string " 2") mixedKeys) namedData ()).map
      Report.answer = some (.ok (.array [])) := by
  have hroom : (standard : Engine Unit).options.maxDepth ≠ some 0 := by decide
  have hkeys : mixedKeys.length < 2 ^ 53 := by decide
  obtain ⟨missing, unmet, hmissing, hunmet, hcount, -, -, -⟩ :=
    apply_missingSome (standard : Engine Unit) rfl rfl hroom hkeys 0 ()
  have hlist : missing namedData = [.null, .object []] := by
    have hrun : ((standard : Engine Unit).apply 0 (missingRule [.array mixedKeys]) namedData ()).map
        Report.answer = some (.ok (.array [.null, .object []])) := rfl
    have hanswer := (hmissing namedData).2.symm.trans hrun
    simpa using hanswer
  have hmore : (Value.string "2.5").toNumber? =
      some (.ofRatio false (5 * Binary64.unitsInOne) 2) := by decide +kernel
  have htwo : (Value.string " 2").toNumber? = some (.ofNat 2) := by decide +kernel
  have hpresent : ((mixedKeys.length : Int) - (missing namedData).length) = 2 := by
    rw [hlist]
    rfl
  have hover : (Binary64.ofRatio false (5 * Binary64.unitsInOne) 2).atMostInt 2 = false := by
    decide +kernel
  have henough : (Binary64.ofNat 2).atMostInt 2 = true := by decide +kernel
  constructor
  · rw [hunmet namedData _ _ hmore, hcount, hpresent, hover, hlist, if_neg Bool.false_ne_true]
  · rw [hunmet namedData _ _ htwo, hcount, hpresent, henough, if_pos rfl]

end Engine

end JsonRules

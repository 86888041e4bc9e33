import JsonRules.Proofs.Accesses
import JsonRules.Proofs.IntegerTexts
import JsonRules.Proofs.MissingKeys
import JsonRules.Proofs.NestedChoices

/-!
References by number.

A reference goes by the text of its key, so that a number is a path like any other.  The text of a
whole number below `10 ^ 21` denotes the number itself, or no place at all if it is negative
(`Path.denotes_toString_iff`), and on an array the number is therefore an index
(`evaluate_reference_number`).
-/

namespace JsonRules

variable {σ : Type}

/-! ## Integers as paths -/

namespace Path

theorem mem_toString {z : Int} {c : Char} (h : c ∈ (toString z).toList) :
    c = '-' ∨ c.isDigit = true := by
  rw [toList_toString_int, List.mem_append] at h
  rcases h with hsign | hdigit
  · by_cases hnegative : z < 0
    · rw [if_pos hnegative] at hsign
      exact .inl (List.mem_singleton.1 hsign)
    · rw [if_neg hnegative] at hsign
      cases hsign
  · exact .inr (Numeral.isDigit_decimalDigits _ c hdigit)

theorem toString_ne_empty (z : Int) : toString z ≠ "" := by
  intro hempty
  have hchars := congrArg String.toList hempty
  rw [toList_toString_int] at hchars
  exact Nat.toDigits_ne_nil (List.append_eq_nil_iff.1 hchars).2

/-- The text of an integer has no point in it. -/
theorem segments_toString (z : Int) : segments (toString z) = [toString z] := by
  have hpoint : '.' ∉ (toString z).toList := by
    intro h
    rcases mem_toString h with hsign | hdigit
    · exact absurd hsign (by decide)
    · exact absurd hdigit (by decide)
  have hkey : [toString z] ≠ [""] := by
    intro h
    exact toString_ne_empty z (List.singleton_inj.1 h)
  have hsegments := segments_join (List.cons_ne_nil _ _) hkey (List.forall_mem_singleton.2 hpoint)
  rwa [String.intercalate_singleton] at hsegments

/-- The text of an integer denotes this integer, which a place is only if it is not negative. -/
theorem denotes_toString_iff {z : Int} {place : Nat} :
    Denotes (toString z) place ↔ (place : Int) = z := by
  by_cases hnegative : z < 0
  · have hdigits : indexDigits (toString z).toList = '-' :: decimalDigits z.natAbs := by
      rw [toList_toString_int, if_pos hnegative]
      rfl
    constructor
    · intro h
      have hall := (denotes_iff.1 h).1.2
      rw [hdigits] at hall
      exact absurd (hall '-' List.mem_cons_self) (by decide)
    · intro h
      omega
  · obtain ⟨n, rfl⟩ := Int.eq_ofNat_of_zero_le (Int.not_lt.1 hnegative)
    have htext : toString (n : Int) = toString n := rfl
    rw [htext, Int.natCast_inj]
    constructor
    · intro h
      exact h.eq (denotes_toString n)
    · rintro rfl
      exact denotes_toString place

/-- In an array whose places are words, the text of an integer leads to the item at that place. -/
theorem get?_toString_eq_some_iff {items : List Value} (hshort : items.length < 2 ^ 64) {z : Int}
    {item : Value} :
    get? (.array items) (toString z) = some item ↔
      ∃ place : Nat, (place : Int) = z ∧ items[place]? = some item := by
  rw [get?, segments_toString, follow_cons, Option.bind_eq_some_iff]
  constructor
  · rintro ⟨child, hstep, hchild⟩
    obtain rfl := Option.some.inj hchild
    obtain ⟨place, hdenotes, hitem⟩ := (step_array_eq_some_iff hshort).1 hstep
    exact ⟨place, denotes_toString_iff.1 hdenotes, hitem⟩
  · rintro ⟨place, hplace, hitem⟩
    have hdenotes := denotes_toString_iff.2 hplace
    exact ⟨item, (step_array_eq_some_iff hshort).2 ⟨place, hdenotes, hitem⟩, rfl⟩

/-- An integer that is no place of an array leads to nothing in it. -/
theorem get?_toString_eq_none {items : List Value} (hshort : items.length < 2 ^ 64) {z : Int}
    (hz : z < 0 ∨ (items.length : Int) ≤ z) : get? (.array items) (toString z) = none := by
  refine Option.eq_none_iff_forall_not_mem.2 fun item hitem => ?_
  obtain ⟨place, rfl, hplace⟩ := (get?_toString_eq_some_iff hshort).1 hitem
  obtain ⟨hlt, -⟩ := List.getElem?_eq_some_iff.1 hplace
  omega

end Path

/-! ## References with a default -/

/-- The answer of a run and the state in which it leaves the host. -/
def Report.outcome {α : Type} (report : Report σ α) : Except RuleError α × σ :=
  (report.answer, report.state)

/-- The rule `{"var": [key, otherwise]}`. -/
def Value.reference (key otherwise : Value) : Value :=
  .operation Control.reference.name [key, otherwise]

/-- What the data has at a path, and else a default, once the path has been looked up. -/
def Control.found (data : Value) (path : String) (otherwise : Run σ Value) : Run σ Value :=
  (lookUp data path).andThen fun
    | some value => Run.ok value
    | none => otherwise

theorem Control.followReference_of_scalar (data : Value) {key : Value}
    (hkey : key.isContainer = false) (otherwise : Run σ Value) :
    followReference data [(Run.ok key).within 0, otherwise] =
      found data (Lookup.referenceText key) otherwise := by
  have hoperand : (Run.ok key : Run σ Value).within 0 = Run.ok key := rfl
  simp only [followReference, List.head?_cons, Option.getD_some, hoperand, Run.bind_eq,
    Run.ok_andThen, Lookup.pathText_of_scalar _ hkey, Run.orRaise]
  rfl

theorem Control.found_of_some {data value : Value} {path : String}
    (hfound : Path.get? data path = some value) (otherwise : Run σ Value) (depth : Nat)
    (state : σ) :
    found data path otherwise depth state =
      some ⟨.ok value, depth, state, [.here (.lookup path)]⟩ := by
  rw [found, Run.andThen_of_ok (lookUp_apply data path depth state), hfound]
  rfl

theorem Control.found_of_none {data : Value} {path : String} (hnone : Path.get? data path = none)
    (otherwise : Run σ Value) (depth : Nat) (state : σ) :
    found data path otherwise depth state =
      (otherwise depth state).map (Report.after [.here (.lookup path)]) := by
  rw [found, Run.andThen_of_ok (lookUp_apply data path depth state), hnone]

/-- Without a limit and host operators, the depth has no part in what a rule comes to. -/
theorem outcome_evaluate_deeper {context : Context σ} (hunlimited : context.options.maxDepth = none)
    (honly : context.operators.OnlyBuiltins) (budget : Nat) (rule : Value) (depth : Nat)
    (state : σ) :
    (evaluate budget context rule (depth + 1) state).map Report.outcome =
      (evaluate budget context rule depth state).map Report.outcome := by
  obtain ⟨answer, marks, h⟩ := Rule.exists_evaluates honly (.ofValue rule) depth
  have hdeeper := h.deeper hunlimited 1
  unfold evaluate
  rw [h.run_eq, hdeeper.run_eq]
  rfl

section

variable {context : Context σ}
  (hreference : context.operators.get? Control.reference.name =
    some (.builtin (.control .reference)))

include hreference

/-- A reference to a scalar key is a reference to the text of its path. -/
theorem evaluate_reference (budget : Nat) {key : Value} (hkey : key.isContainer = false)
    (otherwise : Value) (depth : Nat) (state : σ) :
    evaluate budget context (.reference key otherwise) depth state =
      match context.options.level depth with
      | .error e => some ⟨.error e, depth, state, e.refusal⟩
      | .ok () => (Control.found context.data (Lookup.referenceText key)
          ((evaluate budget context otherwise).within 1) (depth + 1) state).map
            (Report.entered Control.reference.name 2 (depth + 1)) := by
  have hliteral : (Rule.ofValue key).run (.ofBudget budget) context = Run.ok key := by
    rw [Rule.ofValue_of_scalar hkey]
    rfl
  have hcontrol := Control.followReference_of_scalar context.data hkey
    ((evaluate budget context otherwise).within 1)
  rw [evaluate, Value.reference, Rule.run_of_operation? (Rule.operation?_ofValue_operation _ _),
    dispatch_builtin hreference rfl, Builtin.run, Control.run]
  simp only [List.map_cons, List.map_nil, Rule.operands, hliteral]
  rw [← hcontrol]
  rfl

/-- A reference by number is one by the text of the number.  On an array a whole number below
`10 ^ 21`, of either sign if it is zero, is an index: the reference comes to the item at this place,
and if there is no such place, to what its default comes to one level down.  Without a limit, and
without host operators that could tell, this is what the default comes to by itself. -/
theorem evaluate_reference_number (budget : Nat) (x : Binary64) (otherwise : Value) (depth : Nat)
    (state : σ) :
    evaluate budget context (.reference (.number x) otherwise) depth state =
      evaluate budget context (.reference (.string (Value.number x).display) otherwise) depth
        state ∧
    ∀ items, context.data = .array items → items.length < 2 ^ 64 →
      (∀ max, context.options.maxDepth = some max → depth < max) →
      ∀ z, x.integer? = some z → z.natAbs < 10 ^ 21 →
        (∀ place (h : place < items.length), (place : Int) = z →
          (evaluate budget context (.reference (.number x) otherwise) depth state).map
            Report.outcome = some (.ok items[place], state)) ∧
        (z < 0 ∨ (items.length : Int) ≤ z →
          (evaluate budget context (.reference (.number x) otherwise) depth state).map
              Report.outcome =
            (evaluate budget context otherwise (depth + 1) state).map Report.outcome ∧
          (context.options.maxDepth = none → context.operators.OnlyBuiltins →
            (evaluate budget context (.reference (.number x) otherwise) depth state).map
                Report.outcome =
              (evaluate budget context otherwise depth state).map Report.outcome)) := by
  have hscalar : (Value.number x).isContainer = false := rfl
  have hnumber := evaluate_reference hreference budget hscalar otherwise depth state
  constructor
  · rw [hnumber, evaluate_reference hreference budget rfl]
    rfl
  · intro items hdata hshort hroom z hx hz
    have hpath : Lookup.referenceText (.number x) = toString z := Value.toText_of_integer? hx hz
    rw [Options.level_eq_ok_iff.2 hroom, hpath, hdata] at hnumber
    dsimp only at hnumber
    constructor
    · intro place h hplace
      have hitem : Path.get? (.array items) (toString z) = some items[place] :=
        (Path.get?_toString_eq_some_iff hshort).2 ⟨place, hplace, List.getElem?_eq_getElem h⟩
      rw [hnumber, Control.found_of_some hitem]
      rfl
    · intro hout
      have hdefault :
          (evaluate budget context (.reference (.number x) otherwise) depth state).map
              Report.outcome =
            (evaluate budget context otherwise (depth + 1) state).map Report.outcome := by
        rw [hnumber, Control.found_of_none (Path.get?_toString_eq_none hshort hout), Run.within]
        simp only [Option.map_map]
        rfl
      refine ⟨hdefault, fun hunlimited honly => ?_⟩
      rw [hdefault, outcome_evaluate_deeper hunlimited honly]

end

/-- Two items of data for the standard operators. -/
def letters : Context Unit := ⟨.array [.string "a", .string "b"], .standard, .standard⟩

/-- Negative zero is the first index, and there is none before it. -/
theorem evaluate_reference_letters :
    (evaluate 0 letters (.reference (.number (.zero true)) .null) 0 ()).map Report.outcome =
      some (.ok (.string "a"), ()) ∧
    (evaluate 0 letters (.reference (.number (.ofInt (-1))) (.string "none")) 0 ()).map
      Report.outcome = some (.ok (.string "none"), ()) := by
  have hreference : letters.operators.get? Control.reference.name =
      some (.builtin (.control .reference)) := rfl
  have hroom : ∀ max, letters.options.maxDepth = some max → 0 < max := fun _ h => nomatch h
  have hzero : (Binary64.zero true).integer? = some 0 := by decide +kernel
  have hone : (Binary64.ofInt (-1)).integer? = some (-1) := by decide +kernel
  have hfirst := (evaluate_reference_number hreference 0 (.zero true) .null 0 ()).2 _ rfl
    (by decide) hroom 0 hzero (by decide)
  have hbefore := (evaluate_reference_number hreference 0 (.ofInt (-1)) (.string "none") 0 ()).2 _
    rfl (by decide) hroom (-1) hone (by decide)
  exact ⟨hfirst.1 0 (by decide) rfl, (hbefore.2 (.inl (by decide))).1⟩

end JsonRules

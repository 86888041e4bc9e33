import JsonRules.Proofs.Script

/-!
Standard operators fit the operands that they accept.

A standard operator that accepts a number of operands never looks for one that is absent, and no
step of its own leaves its range: it comes to an answer on all data and whatever its operands come
to.  An error of its own carries its name and is about an operand (`Builtin.script_fits`).
-/

namespace JsonRules

/-- The least number of operands that an arity accepts. -/
def Arity.least : Arity → Nat
  | .any => 0
  | .fixed n => n
  | .range min _ => min

theorem Arity.le_of_accepts {arity : Arity} {count : Nat} (h : arity.mismatch? count = none) :
    arity.least ≤ count := by
  unfold Arity.mismatch? at h
  cases arity with
  | any => exact Nat.zero_le count
  | fixed n => grind [Arity.least]
  | range min max => grind [Arity.least]

/-- The errors that an operator of a name raises by itself: they are about one of its operands. -/
def RuleError.OwnedBy (operator : String) : RuleError → Prop
  | .notNumeric name _ => name = operator
  | .invalidArgument name _ => name = operator
  | _ => False

/-- Any error is one of an operator of the name. -/
def OwnErrors {α : Type} (operator : String) (answer : Except RuleError α) : Prop :=
  ∀ e, answer = .error e → e.OwnedBy operator

namespace OwnErrors

variable {α β : Type} {operator : String}

theorem ok (a : α) : OwnErrors operator (.ok a) := by
  intro e he
  cases he

theorem error {e : RuleError} (he : e.OwnedBy operator) :
    OwnErrors operator (.error e : Except RuleError α) := by
  intro other hother
  cases hother
  exact he

theorem map {answer : Except RuleError α} (h : OwnErrors operator answer) (f : α → β) :
    OwnErrors operator (answer.map f) := by
  cases answer with
  | ok a => exact ok (f a)
  | error e => exact error (h e rfl)

theorem reading (value : Value) : OwnErrors operator (Numeric.reading operator value) := by
  unfold Numeric.reading
  split
  · exact ok _
  · exact error rfl

theorem readings (values : List Value) :
    OwnErrors operator (Numeric.readings operator values) := by
  induction values with
  | nil => exact ok _
  | cons value rest ih =>
      rw [Numeric.readings]
      cases hvalue : Numeric.reading operator value with
      | error e => exact error (reading value e hvalue)
      | ok x => exact ih.map _

theorem combine (step : Binary64 → Binary64 → Binary64) (values : List Value) :
    OwnErrors operator (Numeric.combine operator step values) := by
  rw [Numeric.combine_eq]
  exact (readings values).map _

theorem difference (values : List Value) :
    OwnErrors operator (Numeric.difference operator values) := by
  unfold Numeric.difference
  split
  · exact (reading _).map _
  · exact combine _ _

end OwnErrors

/-- The result is there, and an error in it is one of an operator of the name. -/
def Result.Fits {α : Type} (operator : String) (result : Result α) : Prop :=
  ∃ answer, result.run = some answer ∧ OwnErrors operator answer

namespace Result.Fits

variable {α β : Type} {operator : String}

theorem ofExcept {answer : Except RuleError α} (h : OwnErrors operator answer) :
    (Result.ofExcept answer).Fits operator := ⟨answer, rfl, h⟩

theorem pure (a : α) : (Pure.pure a : Result α).Fits operator := ⟨.ok a, rfl, OwnErrors.ok a⟩

theorem bind {result : Result α} {next : α → Result β} (hresult : result.Fits operator)
    (hnext : ∀ a, result.run = some (.ok a) → (next a).Fits operator) :
    (result >>= next).Fits operator := by
  obtain ⟨answer, hanswer, hown⟩ := hresult
  cases answer with
  | error e => exact ⟨.error e, by simp [ExceptT.run_bind, hanswer], .error (hown e rfl)⟩
  | ok a =>
      obtain ⟨last, hlast, hlastOwn⟩ := hnext a hanswer
      exact ⟨last, by simp [ExceptT.run_bind, hanswer, hlast], hlastOwn⟩

theorem ofOption_some (a : α) : (Result.ofOption (some a)).Fits operator :=
  ⟨.ok a, rfl, OwnErrors.ok a⟩

end Result.Fits

namespace Textual

theorem lowest_le_truncateToWord (x : Binary64) : Word.lowest ≤ x.truncateToWord := by
  cases x with
  | nan => decide
  | infinite negative => cases negative <;> decide
  | finite negative units h =>
      simp only [Binary64.truncateToWord, Word.clamp, Word.lowest, Word.highest]
      omega

theorem add?_eq_some {a b : Int} (hlowest : Word.lowest ≤ a + b)
    (hhighest : a + b ≤ Word.highest) : Word.add? a b = some (a + b) :=
  if_pos ⟨hlowest, hhighest⟩

theorem startPosition_eq_some {length start : Int} (hlength : 0 ≤ length)
    (hhighest : length ≤ Word.highest) (hstart : Word.lowest ≤ start) :
    ∃ first, startPosition length start = some first ∧ 0 ≤ first ∧ first ≤ length := by
  unfold startPosition
  by_cases hnegative : start < 0
  · rw [if_pos hnegative, add?_eq_some (by omega) (by omega)]
    exact ⟨max (length + start) 0, rfl, by omega, by omega⟩
  · rw [if_neg hnegative]
    exact ⟨min start length, rfl, by omega, by omega⟩

theorem endPosition_eq_some {length : Int} {size : Option Int} (hlength : 0 ≤ length)
    (hhighest : length ≤ Word.highest) (hsize : ∀ n ∈ size, Word.lowest ≤ n) (position : Int) :
    ∃ last, endPosition length position size = some last ∧ last ≤ length := by
  cases size with
  | none => exact ⟨length, rfl, Int.le_refl length⟩
  | some n =>
      have hn := hsize n rfl
      simp only [endPosition]
      by_cases hnegative : n < 0
      · rw [if_pos hnegative, add?_eq_some (by omega) (by omega)]
        exact ⟨length + n, rfl, by omega⟩
      · rw [if_neg hnegative]
        exact ⟨min (Word.addClamped position n) length, rfl, by omega⟩

/-- The positions of a part are in order and within the text. -/
theorem bounds_eq_some {length start : Int} {size : Option Int} (hlength : 0 ≤ length)
    (hhighest : length ≤ Word.highest) (hstart : Word.lowest ≤ start)
    (hsize : ∀ n ∈ size, Word.lowest ≤ n) :
    ∃ first last, bounds length start size = some (first, last) ∧
      0 ≤ first ∧ first ≤ last ∧ last ≤ length := by
  obtain ⟨first, hfirst, hfirst0, hfirstLength⟩ := startPosition_eq_some hlength hhighest hstart
  obtain ⟨last, hlast, hlastLength⟩ := endPosition_eq_some hlength hhighest hsize first
  refine ⟨first, max last first, by simp [bounds, hfirst, hlast], hfirst0, ?_, ?_⟩
  · omega
  · omega

theorem part_eq_some (text : Characters) {start : Int} {size : Option Int}
    (hstart : Word.lowest ≤ start) (hsize : ∀ n ∈ size, Word.lowest ≤ n) :
    ∃ chars, part text start size = some chars := by
  obtain ⟨first, last, hbounds, hfirst, hle, hlast⟩ :=
    bounds_eq_some (Int.natCast_nonneg text.list.length) text.short hstart hsize
  have hbetween : 0 ≤ first ∧ first ≤ last ∧ last ≤ (text.list.length : Int) :=
    ⟨hfirst, hle, hlast⟩
  exact ⟨(text.list.take last.toNat).drop first.toNat,
    by simp [part_eq, hbounds, between, hbetween]⟩

theorem characterCount_own (operator : String) (value : Value) :
    OwnErrors operator (characterCount operator value) := (OwnErrors.reading value).map _

theorem lowest_le_of_characterCount {operator : String} {value : Value} {n : Int}
    (h : characterCount operator value = .ok n) : Word.lowest ≤ n := by
  unfold characterCount at h
  cases hreading : Numeric.reading operator value with
  | error e => simp [hreading, Except.map] at h
  | ok x =>
      simp only [hreading, Except.map, Except.ok.injEq] at h
      exact h ▸ lowest_le_truncateToWord x

theorem part_fits (operator : String) (text : Characters) {start : Int} {size : Option Int}
    (hstart : Word.lowest ≤ start) (hsize : ∀ n ∈ size, Word.lowest ≤ n) :
    Result.Fits operator (do
      let part ← Result.ofOption (part text start size)
      return Value.string (String.ofList part)) := by
  obtain ⟨chars, hchars⟩ := part_eq_some text hstart hsize
  rw [hchars]
  exact (Result.Fits.ofOption_some chars).bind fun part _ => .pure _

theorem slice_fits (operator : String) (values : List Value) (h : 2 ≤ values.length) :
    (slice operator values).Fits operator := by
  match values with
  | [] => simp at h
  | [_] => simp at h
  | [value, start] =>
      refine Result.Fits.bind (.ofExcept (characterCount_own operator start)) ?_
      intro first hfirst
      have hlowest := lowest_le_of_characterCount (Option.some.inj hfirst)
      exact part_fits operator _ hlowest (by simp)
  | value :: start :: size :: rest =>
      refine Result.Fits.bind (.ofExcept (characterCount_own operator start)) ?_
      intro first hfirst
      have hlowest := lowest_le_of_characterCount (Option.some.inj hfirst)
      simp only [map_eq_pure_bind, bind_assoc, pure_bind]
      refine Result.Fits.bind (.ofExcept (characterCount_own operator size)) ?_
      intro count hcount
      have hcountLowest := lowest_le_of_characterCount (Option.some.inj hcount)
      exact part_fits operator _ hlowest (by simpa using hcountLowest)

end Textual

namespace Function

theorem test_fits (operator : String) (holds : Value → Bool) {values : List Value}
    (h : 1 ≤ values.length) : (test holds values).Fits operator := by
  match values with
  | [] => simp at h
  | value :: rest => exact .pure _

theorem testPair_fits (operator : String) (holds : Value → Value → Bool) {values : List Value}
    (h : 2 ≤ values.length) : (testPair holds values).Fits operator := by
  match values with
  | [] => simp at h
  | [_] => simp at h
  | a :: b :: rest => exact .pure _

/-- A function of values comes to an answer on as many values as it accepts. -/
theorem apply_fits (f : Function) {values : List Value}
    (h : f.arity.mismatch? values.length = none) : (f.apply values).Fits f.name := by
  cases f with
  | add => exact .pure _
  | subtract => exact .ofExcept (OwnErrors.difference values)
  | multiply => exact .ofExcept (OwnErrors.combine _ values)
  | divide => exact .ofExcept (OwnErrors.combine _ values)
  | remainder => exact .ofExcept (OwnErrors.combine _ values)
  | least => exact .ofExcept ((OwnErrors.readings values).map _)
  | greatest => exact .ofExcept ((OwnErrors.readings values).map _)
  | less => exact .ofExcept ((OwnErrors.readings values).map _)
  | lessOrEqual => exact .ofExcept ((OwnErrors.readings values).map _)
  | greater => exact .ofExcept ((OwnErrors.readings values).map _)
  | greaterOrEqual => exact .ofExcept ((OwnErrors.readings values).map _)
  | equal => exact testPair_fits _ _ (Arity.le_of_accepts h)
  | notEqual => exact testPair_fits _ _ (Arity.le_of_accepts h)
  | strictlyEqual => exact testPair_fits _ _ (Arity.le_of_accepts h)
  | strictlyNotEqual => exact testPair_fits _ _ (Arity.le_of_accepts h)
  | negation => exact test_fits _ _ (Arity.le_of_accepts h)
  | truth => exact test_fits _ _ (Arity.le_of_accepts h)
  | join => exact .pure _
  | slice => exact Textual.slice_fits _ values (Arity.le_of_accepts h)
  | member => exact testPair_fits _ _ (Arity.le_of_accepts h)
  | merge => exact .pure _

end Function

namespace Lookup

theorem pathText_own (operator : String) (value : Value) :
    OwnErrors operator (pathText operator value) := by
  cases value with
  | array items => exact .error rfl
  | object fields => exact .error rfl
  | _ => exact .ok _

/-- The number wanted and the keys are there if there are two operands. -/
theorem quota_fits (operator : String) {values : List Value} (h : 2 ≤ values.length) :
    (quota operator values).Fits operator := by
  match values with
  | [] => simp at h
  | [_] => simp at h
  | wanted :: keys :: rest =>
      refine Result.Fits.bind (.ofExcept (OwnErrors.reading wanted)) ?_
      intro x _
      cases keys with
      | array keys => exact .pure (x, keys)
      | _ => exact .ofExcept (OwnErrors.error rfl)

/-- No more keys are missing than there are. -/
theorem unlessEnough_fits (operator : String) (wanted : Binary64) {keys missing : List Value}
    (h : missing.length ≤ keys.length) : (unlessEnough wanted keys missing).Fits operator := by
  unfold unlessEnough presentCount
  rw [if_pos h]
  exact (Result.Fits.ofOption_some _).bind fun present _ => .pure _

end Lookup

namespace Script

/-- The script comes to an answer with so many operands left, whatever their values and whatever the
data has, and an error of its own is one of an operator of the name. -/
def Fits (operator : String) : Nat → Script → Prop
  | _, .finish answer => OwnErrors operator answer
  | _, .stuck => False
  | 0, .operand _ => False
  | count + 1, .operand next => ∀ value, (next value).Fits operator count
  | 0, .skip _ => False
  | count + 1, .skip next => next.Fits operator count
  | count, .lookup _ next => ∀ found, (next found).Fits operator count
  | count, .log _ next => next.Fits operator count

variable {operator : String}

theorem fits_finish {count : Nat} {answer : Except RuleError Value} :
    (finish answer).Fits operator count ↔ OwnErrors operator answer := by
  cases count <;> rfl

theorem fits_lookup {count : Nat} {path : String} {next : Option Value → Script} :
    (lookup path next).Fits operator count ↔ ∀ found, (next found).Fits operator count := by
  cases count <;> rfl

theorem fits_log {count : Nat} {value : Value} {next : Script} :
    (log value next).Fits operator count ↔ next.Fits operator count := by
  cases count <;> rfl

theorem fits_finish_ok (count : Nat) (value : Value) :
    (finish (.ok value)).Fits operator count := fits_finish.2 (.ok value)

theorem fits_ending (count : Nat) : ending.Fits operator (count + 1) :=
  fun value => fits_finish_ok count value

theorem fits_ofResult {count : Nat} {result : Result Value} (h : result.Fits operator) :
    (ofResult result).Fits operator count := by
  obtain ⟨answer, hanswer, hown⟩ := h
  unfold ofResult
  rw [hanswer]
  exact fits_finish.2 hown

theorem fits_gather {count : Nat} {next : List Value → Script}
    (h : ∀ values, values.length = count → (next values).Fits operator 0) :
    (gather count next).Fits operator count := by
  induction count generalizing next with
  | zero => exact h [] rfl
  | succ count ih =>
      intro value
      apply ih
      intro values hvalues
      exact h (value :: values) (by simp [hvalues])

theorem fits_firstWhere (passes : Value → Bool) (count : Nat) :
    (firstWhere passes count).Fits operator count := by
  match count with
  | 0 => exact fits_finish_ok 0 .null
  | 1 => exact fits_ending 0
  | count + 2 =>
      intro value
      by_cases hpasses : passes value
      · simpa [hpasses] using fits_finish_ok (count + 1) value
      · simpa [hpasses] using fits_firstWhere passes (count + 1)

theorem fits_choose (count : Nat) : (choose count).Fits operator count := by
  match count with
  | 0 => exact fits_finish_ok 0 .null
  | 1 => exact fits_ending 0
  | count + 2 =>
      intro value
      by_cases htrue : value.isTruthy
      · simpa [htrue] using fits_ending count
      · simp only [htrue, Bool.false_eq_true, if_false]
        exact fits_choose count

theorem fits_resolve {count : Nat} (key : Value) {otherwise : Script}
    (h : otherwise.Fits Control.reference.name count) :
    (resolve key otherwise).Fits Control.reference.name count := by
  unfold resolve
  cases hpath : Lookup.pathText Control.reference.name key with
  | error e =>
      have hown := Lookup.pathText_own Control.reference.name key
      rw [hpath] at hown
      exact fits_finish.2 (.error (hown e rfl))
  | ok path =>
      refine fits_lookup.2 fun found => ?_
      cases found with
      | none => exact h
      | some value => exact fits_finish_ok count value

theorem fits_followReference (count : Nat) :
    (followReference count).Fits Control.reference.name count := by
  match count with
  | 0 => exact fits_resolve .null (fits_finish_ok 0 .null)
  | 1 => exact fun key => fits_resolve key (fits_finish_ok 0 .null)
  | count + 2 => exact fun key => fits_resolve key (fits_ending count)

theorem fits_askAll {count : Nat} {keys : List Value} {next : List Value → Script}
    (h : ∀ missing, missing.length ≤ keys.length → (next missing).Fits operator count) :
    (askAll keys next).Fits operator count := by
  induction keys generalizing next with
  | nil => exact h [] (Nat.le_refl 0)
  | cons key rest ih =>
      refine fits_lookup.2 fun found => ih fun missing hmissing => h _ ?_
      split
      · simpa using hmissing
      · simpa using Nat.le_succ_of_le hmissing

end Script

/-- A standard operator comes to an answer with as many operands as it accepts, and raises no error
but its own. -/
theorem Builtin.script_fits (b : Builtin) {count : Nat}
    (h : b.signature.arity.mismatch? count = none) : (b.script count).Fits b.name count := by
  cases b with
  | control c =>
      cases c with
      | reference => exact Script.fits_followReference count
      | conjunction => exact Script.fits_firstWhere _ count
      | disjunction => exact Script.fits_firstWhere _ count
      | choice => exact Script.fits_choose count
  | function f =>
      refine Script.fits_gather fun values hvalues => Script.fits_ofResult (f.apply_fits ?_)
      rw [hvalues]
      exact h
  | missing =>
      exact Script.fits_gather fun values _ => Script.fits_askAll fun missing _ =>
        Script.fits_finish_ok 0 _
  | missingSome =>
      refine Script.fits_gather fun values hvalues => ?_
      obtain ⟨answer, hanswer, hown⟩ :=
        Lookup.quota_fits Builtin.missingSome.name (hvalues ▸ Arity.le_of_accepts h)
      simp only [conclusion, hanswer]
      cases answer with
      | error e => exact Script.fits_finish.2 (.error (hown e rfl))
      | ok asked =>
          obtain ⟨wanted, keys⟩ := asked
          exact Script.fits_askAll fun missing hmissing =>
            Script.fits_ofResult (Lookup.unlessEnough_fits _ wanted hmissing)
  | log =>
      refine Script.fits_gather fun values hvalues => ?_
      have hone : 1 ≤ values.length := hvalues ▸ Arity.le_of_accepts h
      cases values with
      | nil => simp at hone
      | cons value rest => exact Script.fits_log.2 (Script.fits_finish_ok 0 value)

end JsonRules

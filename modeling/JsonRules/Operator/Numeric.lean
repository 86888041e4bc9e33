import JsonRules.Binary64.Arithmetic
import JsonRules.Operator.Result
import JsonRules.Value.Coercion

/-!
Arithmetic and comparison.

All operators but the sum read every operand as a number, from left to right, and fail at the first
that has no reading.  The sum never fails: it joins texts as soon as an operand is not a number.
-/

namespace JsonRules.Numeric

/-- The reading of an operand that must be a number. -/
def reading (operator : String) (value : Value) : Except RuleError Binary64 :=
  match value.toNumber? with
  | some x => .ok x
  | none => .error (.notNumeric operator value)

def readings (operator : String) : List Value → Except RuleError (List Binary64)
  | [] => .ok []
  | value :: rest =>
    match reading operator value with
    | .error e => .error e
    | .ok x => (readings operator rest).map (x :: ·)

/-- A sum under way: a value to which numbers are added, or a text to which texts are joined. -/
inductive Tally
  | value (v : Value)
  | text (s : String)

namespace Tally

/-- Adds while both sides are numbers, and joins texts from then on. -/
def add : Tally → Value → Tally
  | .value v, next =>
    match v.toNumber?, next.toNumber? with
    | some x, some y => .value (.number (x.add y))
    | _, _ => .text (v.toText ++ next.toText)
  | .text s, next => .text (s ++ next.toText)

def toValue : Tally → Value
  | .value v => v
  | .text s => .string s

end Tally

/-- The sum of values: zero of none, the reading of one, and from two on a number or a text. -/
def sum : List Value → Value
  | [] => .number (.zero false)
  | [value] => .number (value.toNumber?.getD .nan)
  | first :: rest => (rest.foldl Tally.add (.value first)).toValue

/-- Combines operands from left to right, each of them read when its turn comes.  Of no operands it
is null. -/
def combine (operator : String) (step : Binary64 → Binary64 → Binary64) :
    List Value → Except RuleError Value
  | [] => .ok .null
  | first :: rest => do
    let x ← reading operator first
    let total ← rest.foldlM (fun total next => (reading operator next).map (step total)) x
    return .number total

def difference (operator : String) : List Value → Except RuleError Value
  | [value] => (reading operator value).map fun x => .number x.neg
  | values => combine operator .sub values

/-- The pick among readings, unless one of them is not a number. -/
def extremum (operator : String) (pick : Binary64 → Binary64 → Binary64) (values : List Value) :
    Except RuleError Value :=
  (readings operator values).map fun xs =>
    if xs.any Binary64.isNaN then .number .nan
    else
      match xs with
      | [] => .null
      | x :: rest => .number (rest.foldl pick x)

/-- Whether a relation holds between all neighbours. -/
def chained (related : Binary64 → Binary64 → Bool) : List Binary64 → Bool
  | x :: y :: rest => related x y && chained related (y :: rest)
  | _ => true

/-- Whether the readings of all neighbouring operands are related. -/
def comparison (operator : String) (related : Binary64 → Binary64 → Bool) (values : List Value) :
    Except RuleError Value :=
  (readings operator values).map fun xs => .bool (chained related xs)

/-- Combining readings with a number while they are read is combining them once all are read. -/
theorem foldlM_reading (operator : String) (step : Binary64 → Binary64 → Binary64) (x : Binary64)
    (values : List Value) :
    values.foldlM (fun total next => (reading operator next).map (step total)) x =
      (readings operator values).map fun xs => xs.foldl step x := by
  induction values generalizing x with
  | nil => rfl
  | cons value rest ih =>
      rw [List.foldlM_cons, readings]
      cases reading operator value with
      | error e => rfl
      | ok y =>
          refine (ih (step x y)).trans ?_
          cases readings operator rest <;> rfl

/-- Combining operands while they are read is combining their readings. -/
theorem combine_eq (operator : String) (step : Binary64 → Binary64 → Binary64)
    (values : List Value) :
    combine operator step values = (readings operator values).map fun
      | [] => .null
      | x :: rest => .number (rest.foldl step x) := by
  cases values with
  | nil => rfl
  | cons first rest =>
      rw [combine, readings]
      cases reading operator first with
      | error e => rfl
      | ok x =>
          simp only [foldlM_reading, bind, Except.bind]
          cases readings operator rest <;> rfl

end JsonRules.Numeric

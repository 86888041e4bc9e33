import JsonRules.Operator.Host
import JsonRules.Operator.Textual

/-!
Ready-made host operators.

They show what a host can do with an operator of its own: answer outright, look at the data and at
the operators there are, keep a counter, and evaluate rules while seeing their errors.
-/

namespace JsonRules

/-- A ready-made host operator, which may count in the state of the host. -/
inductive Sample
  /-- Always the same value. -/
  | const (value : Value)
  /-- Always an error. -/
  | fail (message : String)
  /-- The operands as an array. -/
  | list
  /-- The first operand, or null. -/
  | first
  /-- Twice the first operand, which counts as zero unless it is a number. -/
  | double
  /-- The number of characters in the operands that are strings. -/
  | totalLength
  /-- Whether the data is an object with the first operand as a key. -/
  | hasKey
  /-- Adds one to the counter. -/
  | tick
  /-- The nesting depth. -/
  | depth
  /-- The kind of the data, the number of operators and the nesting limit. -/
  | info
  /-- The values of the operands, with the words of an error in place of a value. -/
  | attempt
  /-- The value of the second operand on the value of the first as data. -/
  | withData

namespace Sample

def count (n : Nat) : Value := .number (.ofNat n)

def doubled (operands : List Value) : Value :=
  let x := (operands.head?.bind Value.number?).getD (.zero false)
  .number (x.mul (.ofNat 2))

def textLength (operands : List Value) : Nat :=
  (operands.filterMap Value.string?).foldl (fun total s => total + s.length) 0

/-- Whether the data has the key that the first operand gives. -/
def keyTest (data : Value) (operands : List Value) : Except RuleError Value :=
  match operands.head? with
  | some (.string key) =>
    .ok (.bool ((data.object?.bind fun fields => Keyed.get? key fields).isSome))
  | _ => .error (.custom "has_key expects a string")

/-- The kind of the data, the number of operators and the nesting limit. -/
def describe (view : View) : Value :=
  .array [.string view.data.typeName, count view.operators.length,
    (view.options.maxDepth.map count).getD .null]

/-- Evaluates rules in turn and finishes with their values. -/
def gather (σ : Type) : List Value → List Value → Action σ
  | [], values => .finish (.ok (.array values))
  | rule :: rest, values =>
    .evaluate rule fun
      | .ok value => gather σ rest (values ++ [value])
      | .error e => gather σ rest (values ++ [.string ("error: " ++ e.message)])

/-- Finishes with an error or goes on with a value. -/
def followedBy {σ : Type} (next : Value → Action σ) : Except RuleError Value → Action σ
  | .ok value => next value
  | .error e => .finish (.error e)

/-- Evaluates the second operand on the value of the first. -/
def evaluateWith (σ : Type) (options : Options) : List Value → Action σ
  | [] => .finish (.ok .null)
  | [data] => .evaluate data .finish
  | data :: rule :: _ =>
    .evaluate data (followedBy fun value => .evaluateOn value options rule .finish)

/-- What a sample does. -/
def act (view : View) (operands : List Value) : Sample → Action Nat
  | .const value => .finish (.ok value)
  | .fail message => .finish (.error (.custom message))
  | .list => .finish (.ok (.array operands))
  | .first => .finish (.ok (operands.head?.getD .null))
  | .double => .finish (.ok (doubled operands))
  | .totalLength => .finish (.ok (count (textLength operands)))
  | .hasKey => .finish (keyTest view.data operands)
  | .tick => .get fun ticks => .set (ticks + 1) (.finish (.ok (.bool true)))
  | .depth => .depth fun depth => .finish (.ok (count depth))
  | .info => .finish (.ok (describe view))
  | .attempt => gather Nat operands []
  | .withData => evaluateWith Nat view.options operands

def operator (sample : Sample) (signature : Signature) : HostOperator Nat :=
  ⟨signature, fun view operands => sample.act view operands⟩

end Sample

end JsonRules

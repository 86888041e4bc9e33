import JsonRules.Operator.Lookup
import JsonRules.Operator.Textual
import JsonRules.Run
import JsonRules.Signature

/-!
The standard operators.

Most are functions of the values of their operands.  Two look into the data for missing keys, one
writes to the log, and four are forms of control, which take their operands as runs and start only
those that they need.
-/

namespace JsonRules

/-- Operators that are functions of the values of their operands. -/
inductive Function
  | add
  | subtract
  | multiply
  | divide
  | remainder
  | least
  | greatest
  | less
  | lessOrEqual
  | greater
  | greaterOrEqual
  | equal
  | notEqual
  | strictlyEqual
  | strictlyNotEqual
  | negation
  | truth
  | join
  | slice
  | member
  | merge
  deriving DecidableEq

/-- Operators that decide which of their operands are evaluated. -/
inductive Control
  | reference
  | conjunction
  | disjunction
  | choice
  deriving DecidableEq

/-- The standard operators. -/
inductive Builtin
  | function (f : Function)
  | missing
  | missingSome
  | log
  | control (c : Control)
  deriving DecidableEq

namespace Function

def name : Function → String
  | .add => "+"
  | .subtract => "-"
  | .multiply => "*"
  | .divide => "/"
  | .remainder => "%"
  | .least => "min"
  | .greatest => "max"
  | .less => "<"
  | .lessOrEqual => "<="
  | .greater => ">"
  | .greaterOrEqual => ">="
  | .equal => "=="
  | .notEqual => "!="
  | .strictlyEqual => "==="
  | .strictlyNotEqual => "!=="
  | .negation => "!"
  | .truth => "!!"
  | .join => "cat"
  | .slice => "substr"
  | .member => "in"
  | .merge => "merge"

def arity : Function → Arity
  | .add => .any
  | .subtract => .range 1 none
  | .multiply => .range 1 none
  | .divide => .range 1 none
  | .remainder => .range 1 none
  | .least => .range 1 none
  | .greatest => .range 1 none
  | .less => .range 2 none
  | .lessOrEqual => .range 2 none
  | .greater => .range 2 none
  | .greaterOrEqual => .range 2 none
  | .equal => .fixed 2
  | .notEqual => .fixed 2
  | .strictlyEqual => .fixed 2
  | .strictlyNotEqual => .fixed 2
  | .negation => .fixed 1
  | .truth => .fixed 1
  | .join => .any
  | .slice => .range 2 (some 3)
  | .member => .fixed 2
  | .merge => .any

def test (holds : Value → Bool) : List Value → Result Value
  | value :: _ => return .bool (holds value)
  | [] => Result.stuck

def testPair (holds : Value → Value → Bool) : List Value → Result Value
  | a :: b :: _ => return .bool (holds a b)
  | _ => Result.stuck

def apply (f : Function) (values : List Value) : Result Value :=
  match f with
  | .add => return Numeric.sum values
  | .subtract => .ofExcept (Numeric.difference f.name values)
  | .multiply => .ofExcept (Numeric.combine f.name .mul values)
  | .divide => .ofExcept (Numeric.combine f.name .div values)
  | .remainder => .ofExcept (Numeric.combine f.name .rem values)
  | .least => .ofExcept (Numeric.extremum f.name .lesser values)
  | .greatest => .ofExcept (Numeric.extremum f.name .greater values)
  | .less => .ofExcept (Numeric.comparison f.name Binary64.lessThan values)
  | .lessOrEqual => .ofExcept (Numeric.comparison f.name Binary64.atMost values)
  | .greater => .ofExcept (Numeric.comparison f.name (fun x y => y.lessThan x) values)
  | .greaterOrEqual => .ofExcept (Numeric.comparison f.name (fun x y => y.atMost x) values)
  | .equal => testPair Value.looseEq values
  | .notEqual => testPair (fun a b => !a.looseEq b) values
  | .strictlyEqual => testPair Value.strictEq values
  | .strictlyNotEqual => testPair (fun a b => !a.strictEq b) values
  | .negation => test (fun value => !value.isTruthy) values
  | .truth => test Value.isTruthy values
  | .join => return Textual.join values
  | .slice => Textual.slice f.name values
  | .member => testPair Textual.member values
  | .merge => return Textual.merge values

end Function

namespace Control

def name : Control → String
  | .reference => "var"
  | .conjunction => "and"
  | .disjunction => "or"
  | .choice => "if"

def arity : Control → Arity
  | .reference => .range 0 (some 2)
  | .conjunction => .range 1 none
  | .disjunction => .range 1 none
  | .choice => .any

variable {σ : Type}

def lookUp (data : Value) (path : String) : Run σ (Option Value) := do
  Run.leaveMarks [.lookup path]
  return Path.get? data path

/-- The value at the path that the first operand gives, and else that of the second operand. -/
def followReference (data : Value) (operands : List (Run σ Value)) : Run σ Value := do
  let key ← operands.head?.getD (Run.ok .null)
  let path ← Run.orRaise (Lookup.pathText Control.reference.name key)
  match ← lookUp data path with
  | some value => return value
  | none => operands[1]?.getD (Run.ok .null)

/-- The first value that passes a test, or the last one if none does. -/
def firstWhere (passes : Value → Bool) : List (Run σ Value) → Run σ Value
  | [] => Run.ok .null
  | [last] => last
  | operand :: rest => do
    let value ← operand
    if passes value then return value else firstWhere passes rest

/-- Conditions and branches in turn: the branch of the first condition that counts as true.  An
operand without a partner at the end is the branch for all other cases. -/
def choose : List (Run σ Value) → Run σ Value
  | [] => Run.ok .null
  | [otherwise] => otherwise
  | condition :: branch :: rest => do
    let value ← condition
    if value.isTruthy then branch else choose rest

/-- What a form of control makes of its operands. -/
def run (data : Value) (operands : List (Run σ Value)) : Control → Run σ Value
  | .reference => followReference data operands
  | .conjunction => firstWhere (fun value => !value.isTruthy) operands
  | .disjunction => firstWhere Value.isTruthy operands
  | .choice => choose operands

end Control

namespace Builtin

def name : Builtin → String
  | .function f => f.name
  | .missing => "missing"
  | .missingSome => "missing_some"
  | .log => "log"
  | .control c => c.name

/-- Other names of an operator. -/
def aliases : Builtin → List String
  | .control .choice => ["?:"]
  | _ => []

def signature : Builtin → Signature
  | .function f => ⟨f.arity, .eager⟩
  | .missing => ⟨.any, .eager⟩
  | .missingSome => ⟨.fixed 2, .eager⟩
  | .log => ⟨.fixed 1, .eager⟩
  | .control c => ⟨c.arity, .raw⟩

/-- The standard operators in the order in which they are listed. -/
def standard : List Builtin :=
  [.control .reference, .missing, .missingSome] ++
  ([.add, .subtract, .multiply, .divide, .remainder, .least, .greatest, .less, .lessOrEqual,
    .greater, .greaterOrEqual, .equal, .notEqual, .strictlyEqual, .strictlyNotEqual].map
      Builtin.function) ++
  [.control .conjunction, .control .disjunction, .function .negation, .function .truth,
    .control .choice] ++
  ([.join, .slice, .member, .merge].map Builtin.function) ++ [.log]

/-- The standard operator of a name, its aliases apart. -/
def ofName? (name : String) : Option Builtin := standard.find? fun b => b.name == name

variable {σ : Type}

/-- Turns the result of an operator into a run. -/
def ofResult {α : Type} (result : Result α) : Run σ α :=
  match result.run with
  | none => Run.stuck
  | some answer => Run.orRaise answer

/-- Marks that keys are looked up in the data. -/
def markLookups (keys : List Value) : Run σ Unit :=
  Run.leaveMarks (keys.map fun key => .lookup key.toText)

/-- Logs a value at the depth of the operation that asks for it. -/
def logValue (value : Value) : Run σ Value := do
  Run.emit (.log (← Run.depth) value.display)
  return value

/-- What a standard operator makes of its operands. -/
def run (data : Value) (operands : List (Run σ Value)) : Builtin → Run σ Value
  | .control c => c.run data operands
  | .function f => do ofResult (f.apply (← Run.all operands))
  | .missing => do
    let keys := Lookup.keysOf (← Run.all operands)
    markLookups keys
    return .array (Lookup.missingKeys data keys)
  | .missingSome => do
    let (wanted, keys) ← ofResult (Lookup.quota Builtin.missingSome.name (← Run.all operands))
    markLookups keys
    ofResult (Lookup.missingUnless data wanted keys)
  | .log => do
    match ← Run.all operands with
    | value :: _ => logValue value
    | [] => Run.stuck

end Builtin

end JsonRules

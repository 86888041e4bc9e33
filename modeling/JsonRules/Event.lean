import JsonRules.Error

/-!
What happens in a run besides its answer.

Events are the lines of the log.  A `Mark` is anything that a run leaves behind, events among it,
together with the place of the operation in which it happened.
-/

namespace JsonRules

/-- A line of the log. -/
inductive Event
  /-- An operation was entered. -/
  | dispatch (operator : String) (operands : Nat) (depth : Nat)
  | unknownOperator (operator : String)
  | depthLimit (limit : Nat)
  /-- A rule logged the text of a value. -/
  | log (depth : Nat) (text : String)
  deriving DecidableEq

/-- How much an event matters. -/
inductive Level
  | trace
  | debug
  | info
  deriving DecidableEq

namespace Event

def level : Event → Level
  | .dispatch .. => .trace
  | .unknownOperator _ => .debug
  | .depthLimit _ => .debug
  | .log .. => .info

def message : Event → String
  | .dispatch .. => "dispatch"
  | .unknownOperator _ => "unknown operator"
  | .depthLimit _ => "rule depth limit reached"
  | .log .. => "log"

end Event

/-- One thing that happens in a run. -/
inductive Occurrence
  | event (e : Event)
  /-- A path was looked up in the data. -/
  | lookup (path : String)
  /-- The nesting depth changed. -/
  | depth (d : Nat)
  /-- An error came up. -/
  | raised (error : RuleError)

namespace Occurrence

def event? : Occurrence → Option Event
  | .event e => some e
  | _ => none

def lookup? : Occurrence → Option String
  | .lookup path => some path
  | _ => none

def depth? : Occurrence → Option Nat
  | .depth d => some d
  | _ => none

def raised? : Occurrence → Option RuleError
  | .raised error => some error
  | _ => none

end Occurrence

/-- An occurrence and the operation it belongs to, which is found by going to the operands of these
positions one after another. -/
structure Mark where
  place : List Nat
  occurrence : Occurrence

namespace Mark

/-- A mark of the operation at hand. -/
def here (occurrence : Occurrence) : Mark := ⟨[], occurrence⟩

/-- The mark as one of the operation around it, of which its operation is an operand. -/
def within (position : Nat) (mark : Mark) : Mark := { mark with place := position :: mark.place }

/-- The mark as one of the operation at hand. -/
def moved (mark : Mark) : Mark := here mark.occurrence

end Mark

end JsonRules

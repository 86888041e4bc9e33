import JsonRules.Error

/-!
What operators make of their operands.
-/

namespace JsonRules

/-- A value or an error.  There is neither when an operand is absent that the operator has to look
at, or when a step of its own leaves the range that the step is good for. -/
abbrev Result (α : Type) : Type := ExceptT RuleError Option α

namespace Result

variable {α : Type}

/-- Neither a value nor an error. -/
def stuck : Result α := ExceptT.mk none

/-- A step that may leave its range. -/
def ofOption (a : Option α) : Result α := ExceptT.mk (a.map Except.ok)

def ofExcept (a : Except RuleError α) : Result α := ExceptT.mk (some a)

end Result

end JsonRules

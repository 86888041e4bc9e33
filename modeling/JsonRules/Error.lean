import JsonRules.Value.Text

/-!
Why a rule fails.

`RuleError` names the causes, and `RuleError.message` is the one place where they are worded.
-/

namespace JsonRules

/-- A number of operands that an operator asks for. -/
inductive OperandCount
  | exactly (n : Nat)
  | atLeast (n : Nat)
  | atMost (n : Nat)
  deriving DecidableEq

namespace OperandCount

/-- `1 operand`, and any other number of `operands`. -/
def operands (n : Nat) : String := toString n ++ if n = 1 then " operand" else " operands"

def text : OperandCount → String
  | .exactly n => operands n
  | .atLeast n => "at least " ++ operands n
  | .atMost n => "at most " ++ operands n

end OperandCount

/-- The cause of a failed evaluation. -/
inductive RuleError
  /-- No operator has the name. -/
  | unknownOperator (name : String)
  /-- An operand that must be a number has no numeric reading. -/
  | notNumeric (operator : String) (value : Value)
  /-- An operation has too few or too many operands. -/
  | operandCount (operator : String) (expected : OperandCount)
  /-- An operand is of a kind that the operator has no use for. -/
  | invalidArgument (operator : String) (detail : String)
  /-- Operations are nested too deep. -/
  | depthExceeded (limit : Nat)
  /-- A host operator refused. -/
  | custom (message : String)

namespace RuleError

def quoted (name : String) : String := "\"" ++ name ++ "\""

def message : RuleError → String
  | .unknownOperator name => "Unknown operator: " ++ name
  | .notNumeric operator value => quoted operator ++ " operand is not numeric: " ++ value.display
  | .operandCount operator expected =>
    quoted operator ++ " operator expects " ++ expected.text ++ "."
  | .invalidArgument operator detail => quoted operator ++ " operator: " ++ detail
  | .depthExceeded limit => "Maximum rule depth of " ++ toString limit ++ " exceeded."
  | .custom message => message

end RuleError

end JsonRules

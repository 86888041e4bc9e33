import JsonRules.Value.Basic

/-!
Rules.

A rule is a value read as a program: an object with one key is an operation named by the key, whose
operands are the items of its argument, or the argument itself if that is not an array.  Anything
else is a literal.  `Rule.ofValue` reads a value as a rule and loses nothing, since
`Rule.toValue_ofValue` gets the value back.
-/

namespace JsonRules

/-- A value read as a program. -/
inductive Rule
  /-- A value that stands for itself. -/
  | literal (value : Value)
  /-- An operation with a list of operands. -/
  | operation (name : String) (operands : List Rule)
  /-- An operation whose single operand is written without a list. -/
  | shorthand (name : String) (operand : Rule)

namespace Rule

mutual

/-- The rule that a value spells. -/
def ofValue : Value → Rule
  | .object [(name, .array items)] => .operation name (ofValues items)
  | .object [(name, argument)] => .shorthand name (ofValue argument)
  | value => .literal value

def ofValues : List Value → List Rule
  | [] => []
  | value :: rest => ofValue value :: ofValues rest

end

mutual

/-- The value that spells a rule. -/
def toValue : Rule → Value
  | .literal value => value
  | .operation name operands => .object [(name, .array (toValues operands))]
  | .shorthand name operand => .object [(name, operand.toValue)]

def toValues : List Rule → List Value
  | [] => []
  | rule :: rest => rule.toValue :: toValues rest

end

mutual

/-- A rule spells the value it was read from. -/
theorem toValue_ofValue : ∀ value : Value, (ofValue value).toValue = value
  | .object [(name, .array items)] => by
    rw [ofValue, toValue, toValues_ofValues items]
  | .object [(name, .null)] => by simp [ofValue, toValue]
  | .object [(name, .bool _)] => by simp [ofValue, toValue]
  | .object [(name, .number _)] => by simp [ofValue, toValue]
  | .object [(name, .string _)] => by simp [ofValue, toValue]
  | .object [(name, .object fields)] => by
    have h := toValue_ofValue (.object fields)
    rw [ofValue, toValue, h]
    simp
  | .object [] => by simp [ofValue, toValue]
  | .object (_ :: _ :: _) => by simp [ofValue, toValue]
  | .null => by simp [ofValue, toValue]
  | .bool _ => by simp [ofValue, toValue]
  | .number _ => by simp [ofValue, toValue]
  | .string _ => by simp [ofValue, toValue]
  | .array _ => by simp [ofValue, toValue]

theorem toValues_ofValues : ∀ values : List Value, toValues (ofValues values) = values
  | [] => rfl
  | value :: rest => by
    rw [ofValues, toValues, toValue_ofValue value, toValues_ofValues rest]

end

end Rule

end JsonRules

import JsonRules.Operator.Numeric
import JsonRules.Path

/-!
Paths and what the data has at them.
-/

namespace JsonRules.Lookup

/-- The path text of an evaluated operand: null is the empty path, and an array or an object is
none. -/
def pathText (operator : String) : Value → Except RuleError String
  | .null => .ok ""
  | .array items => .error (notText (.array items))
  | .object fields => .error (notText (.object fields))
  | value => .ok value.toText
where
  notText (value : Value) : RuleError :=
    .invalidArgument operator ("path must be a string, got " ++ value.typeName)

/-- Whether the data has nothing at a key: no value, null or the empty string. -/
def isMissing (data key : Value) : Bool :=
  match Path.get? data key.toText with
  | none => true
  | some .null => true
  | some (.string s) => s.isEmpty
  | some _ => false

def missingKeys (data : Value) (keys : List Value) : List Value := keys.filter (isMissing data)

/-- Keys are given as the operands, or as one array in front of them. -/
def keysOf : List Value → List Value
  | .array keys :: _ => keys
  | values => values

/-- The number wanted and the keys of which that many must be present. -/
def quota (operator : String) : List Value → Result (Binary64 × List Value)
  | wanted :: keys :: _ => do
    let wanted ← Result.ofExcept (Numeric.reading operator wanted)
    match keys with
    | .array keys => return (wanted, keys)
    | other =>
      Result.ofExcept (.error (.invalidArgument operator
        ("expected an array of paths, got " ++ other.typeName)))
  | _ => Result.stuck

/-- How many keys remain when some are missing. -/
def presentCount (keys missing : List Value) : Option Nat :=
  if missing.length ≤ keys.length then some (keys.length - missing.length) else none

/-- The missing keys, or none of them if enough are present. -/
def missingUnless (data : Value) (wanted : Binary64) (keys : List Value) : Result Value := do
  let missing := missingKeys data keys
  let present ← Result.ofOption (presentCount keys missing)
  return .array (if wanted.atMost (.ofNat present) then [] else missing)

end JsonRules.Lookup

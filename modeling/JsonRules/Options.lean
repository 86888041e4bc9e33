import JsonRules.Error
import JsonRules.Json.Source
import JsonRules.Word

/-!
Options of an evaluator, and how they are read from and written to JSON text.
-/

namespace JsonRules

/-- What can be set about evaluation. -/
structure Options where
  /-- How deep operations may be nested, if that is limited. -/
  maxDepth : Option Nat
  deriving DecidableEq

namespace Options

def standard : Options := ⟨none⟩

/-- The highest limit that can be set. -/
def highestLimit : Nat := Word.highestUnsigned

def maxDepthKey : String := "max_depth"

/-- A limit in a JSON text: null, or a whole numeral without a sign. -/
def limitOf? : JsonSource → Option (Option Nat)
  | .null => some none
  | .number numeral true =>
    let n := numeral.magnitude.coefficient
    if !numeral.negative && n ≤ highestLimit then some (some n) else none
  | _ => none

/-- Reads fields that follow on the limit read so far.  The limit may be given once, and fields of
other names are passed over. -/
def ofFields? : Option (Option Nat) → List (Option String × JsonSource) → Option Options
  | limit, [] => some ⟨limit.getD none⟩
  | _, (none, _) :: _ => none
  | limit, (some key, source) :: rest =>
    if key = maxDepthKey then
      match limit, limitOf? source with
      | none, some given => ofFields? (some given) rest
      | _, _ => none
    else ofFields? limit rest

/-- Reads options that are listed without names.  The limit is all that can be listed. -/
def ofItems? : List JsonSource → Option Options
  | [] => some standard
  | [limit] => (limitOf? limit).map Options.mk
  | _ => none

/-- Reads options from JSON text: an object that names them, or an array that lists them. -/
def ofText? (text : String) : Option Options :=
  match JsonSource.ofText? text with
  | some (.object fields) => ofFields? none fields
  | some (.array items) => ofItems? items
  | _ => none

/-- The JSON text of options. -/
def toText (options : Options) : String :=
  let limit := match options.maxDepth with
    | none => "null"
    | some n => toString n
  "\x7b" ++ RuleError.quoted maxDepthKey ++ ":" ++ limit ++ "\x7d"

end Options

end JsonRules

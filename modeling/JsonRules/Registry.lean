import JsonRules.Keyed
import JsonRules.Operator.Builtin
import JsonRules.Operator.Host
import JsonRules.Text.Listed

/-!
Registries of operators.

A registry is a finite map from names to operators.  Its entries stand in ascending order of names,
so a registry holds each name once and lists them in order.  A definition is registered under all of
its names, the aliases first.
-/

namespace JsonRules

/-- An operator that a name can stand for. -/
inductive Operator (σ : Type)
  | builtin (b : Builtin)
  | host (h : HostOperator σ)

namespace Operator

variable {σ : Type}

def signature : Operator σ → Signature
  | .builtin b => b.signature
  | .host h => h.signature

end Operator

/-- An operator and the names that it is to be registered under.  The names may be the same, and
other operators may have them already. -/
structure Definition (σ : Type) where
  name : String
  aliases : List String
  operator : Operator σ

namespace Definition

variable {σ : Type}

def names (d : Definition σ) : List String := d.name :: d.aliases

end Definition

/-- The definition of a standard operator. -/
def Builtin.definition {σ : Type} (b : Builtin) : Definition σ := ⟨b.name, b.aliases, .builtin b⟩

/-- Operators by name. -/
structure Registry (σ : Type) where
  entries : List (String × Operator σ)
  ascending : Keyed.Ascending entries

namespace Registry

variable {σ : Type}

def empty : Registry σ := ⟨[], List.Pairwise.nil⟩

def get? (registry : Registry σ) (name : String) : Option (Operator σ) :=
  Keyed.get? name registry.entries

def contains (registry : Registry σ) (name : String) : Bool := (registry.get? name).isSome

/-- The names in use, in ascending order. -/
def names (registry : Registry σ) : List String := Keyed.keys registry.entries

def size (registry : Registry σ) : Nat := registry.entries.length

def isEmpty (registry : Registry σ) : Bool := registry.entries.isEmpty

def insert (registry : Registry σ) (name : String) (operator : Operator σ) : Registry σ :=
  ⟨Keyed.insertSorted name operator registry.entries, registry.ascending.insertSorted name operator⟩

def erase (registry : Registry σ) (name : String) : Registry σ :=
  ⟨Keyed.erase name registry.entries, registry.ascending.erase name⟩

/-- Registers an operator, and gives the one that it replaces. -/
def register (registry : Registry σ) (name : String) (operator : Operator σ) :
    Option (Operator σ) × Registry σ :=
  (registry.get? name, registry.insert name operator)

/-- Registers a function of the values of its operands, however many there are. -/
def registerFunction (registry : Registry σ) (name : String) (act : View → List Value → Action σ) :
    Option (Operator σ) × Registry σ :=
  registry.register name (.host ⟨⟨.any, .eager⟩, act⟩)

/-- Removes a name, and gives the operator that it stood for. -/
def remove (registry : Registry σ) (name : String) : Option (Operator σ) × Registry σ :=
  (registry.get? name, registry.erase name)

/-- The registry with an operator under its aliases and its name. -/
def registerDefinition (registry : Registry σ) (d : Definition σ) : Registry σ :=
  (d.aliases.foldl (fun registry name => registry.insert name d.operator) registry).insert d.name
    d.operator

def ofDefinitions (definitions : List (Definition σ)) : Registry σ :=
  definitions.foldl registerDefinition empty

/-- The registry with a standard operator under its aliases and its name. -/
def define (registry : Registry σ) (b : Builtin) : Registry σ :=
  registry.registerDefinition b.definition

def ofBuiltins (operators : List Builtin) : Registry σ :=
  ofDefinitions (operators.map Builtin.definition)

def standard : Registry σ := ofBuiltins Builtin.standard

/-- What is known of the operators by name. -/
def signatures (registry : Registry σ) : List (String × Signature) :=
  registry.entries.map fun (name, operator) => (name, operator.signature)

/-- The names in use, sorted for a listing. -/
def sortedNames (registry : Registry σ) : List String :=
  registry.names.mergeSort fun first second => first ≤ second

/-- A text that lists the names in use. -/
def describe (registry : Registry σ) : String :=
  "OperatorRegistry \x7b operators: [" ++
    ", ".intercalate (registry.sortedNames.map Text.listed) ++ "] \x7d"

/-- The names are in order already. -/
theorem sortedNames_eq (registry : Registry σ) : registry.sortedNames = registry.names := by
  apply List.mergeSort_of_pairwise
  refine registry.ascending.imp fun hlt => ?_
  exact decide_eq_true (String.not_lt.1 (String.lt_asymm hlt))

theorem describe_eq (registry : Registry σ) :
    registry.describe = "OperatorRegistry \x7b operators: [" ++
      ", ".intercalate (registry.names.map Text.listed) ++ "] \x7d" := by
  unfold describe
  rw [sortedNames_eq]

theorem get?_empty (name : String) : (empty : Registry σ).get? name = none := rfl

theorem get?_insert (registry : Registry σ) (name other : String) (operator : Operator σ) :
    (registry.insert name operator).get? other =
      if name = other then some operator else registry.get? other :=
  Keyed.get?_insertSorted name other operator registry.entries

theorem get?_erase (registry : Registry σ) (name other : String) :
    (registry.erase name).get? other = if name = other then none else registry.get? other :=
  Keyed.get?_erase name other registry.entries

theorem get?_foldl_insert (registry : Registry σ) (names : List String) (operator : Operator σ)
    (name : String) :
    (names.foldl (fun registry name => registry.insert name operator) registry).get? name =
      if name ∈ names then some operator else registry.get? name := by
  induction names generalizing registry with
  | nil => rfl
  | cons first rest ih =>
      rw [List.foldl_cons, ih, get?_insert]
      by_cases hrest : name ∈ rest
      · simp [hrest]
      · simp [hrest, eq_comm]

/-- A definition changes what its names stand for and nothing else. -/
theorem get?_registerDefinition (registry : Registry σ) (d : Definition σ) (name : String) :
    (registry.registerDefinition d).get? name =
      if name ∈ d.names then some d.operator else registry.get? name := by
  rw [registerDefinition, get?_insert, get?_foldl_insert]
  by_cases hname : d.name = name
  · simp [hname, Definition.names]
  · simp [hname, Ne.symm hname, Definition.names]

/-- Standard operators are registered one after another. -/
theorem ofBuiltins_eq_foldl (operators : List Builtin) :
    (ofBuiltins operators : Registry σ) = operators.foldl define empty := by
  rw [ofBuiltins, ofDefinitions, List.foldl_map]
  rfl

end Registry

end JsonRules

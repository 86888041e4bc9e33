import JsonRules.Registry

/-!
Registries without host operators.

A registry that is defined from standard operators holds nothing else, and gives each name to an
operator of that name.  Five names of the standard operators stand for raw ones
(`Registry.raw_standard_iff`).
-/

namespace JsonRules

variable {σ : Type}

def Builtin.names (b : Builtin) : List String := b.name :: b.aliases

namespace Registry

/-- Every name stands for a standard operator. -/
def OnlyBuiltins (registry : Registry σ) : Prop :=
  ∀ name operator, registry.get? name = some operator → ∃ b, operator = .builtin b

/-- What every name stands for has a property. -/
def All (registry : Registry σ) (property : Operator σ → Prop) : Prop :=
  ∀ name operator, registry.get? name = some operator → property operator

section All

variable {registry : Registry σ} {property : Operator σ → Prop}

theorem all_empty : (empty : Registry σ).All property := by
  intro name operator hget
  rw [get?_empty] at hget
  cases hget

theorem All.insert (h : registry.All property) (name : String) {operator : Operator σ}
    (hoperator : property operator) : (registry.insert name operator).All property := by
  intro other found hget
  rw [get?_insert] at hget
  by_cases hname : name = other
  · rw [if_pos hname] at hget
    exact Option.some.inj hget ▸ hoperator
  · rw [if_neg hname] at hget
    exact h other found hget

theorem All.erase (h : registry.All property) (name : String) :
    (registry.erase name).All property := by
  intro other found hget
  rw [get?_erase] at hget
  by_cases hname : name = other
  · rw [if_pos hname] at hget
    cases hget
  · rw [if_neg hname] at hget
    exact h other found hget

end All

/-- Defining an operator changes what its names stand for and nothing else. -/
theorem get?_define (registry : Registry σ) (b : Builtin) (name : String) :
    (registry.define b).get? name =
      if name ∈ b.names then some (.builtin b) else registry.get? name :=
  get?_registerDefinition registry b.definition name

/-- A property of all standard operators is kept where some of them are defined. -/
theorem All.foldl_define {registry : Registry σ} {property : Operator σ → Prop}
    (h : registry.All property) (hbuiltin : ∀ b, property (.builtin b))
    (operators : List Builtin) : (operators.foldl define registry).All property := by
  induction operators generalizing registry with
  | nil => exact h
  | cons b rest ih =>
      apply ih
      intro name operator hget
      rw [get?_define] at hget
      by_cases hname : name ∈ b.names
      · rw [if_pos hname] at hget
        exact Option.some.inj hget ▸ hbuiltin b
      · rw [if_neg hname] at hget
        exact h name operator hget

theorem All.ofBuiltins {property : Operator σ → Prop} (h : ∀ b, property (.builtin b))
    (operators : List Builtin) : (ofBuiltins operators).All property := by
  rw [ofBuiltins_eq_foldl]
  exact all_empty.foldl_define h operators

/-- What a name stands for is one of the operators defined, and the name is one of its names. -/
theorem exists_mem_names_of_get? {operators : List Builtin} {name : String} {operator : Operator σ}
    (h : (ofBuiltins operators).get? name = some operator) :
    ∃ b ∈ operators, operator = .builtin b ∧ name ∈ b.names := by
  rw [ofBuiltins_eq_foldl] at h
  have hfold : ∀ registry : Registry σ, (operators.foldl define registry).get? name =
      some operator → (∃ b ∈ operators, operator = .builtin b ∧ name ∈ b.names) ∨
        registry.get? name = some operator := by
    clear h
    induction operators with
    | nil => exact fun registry hregistry => .inr hregistry
    | cons first rest ih =>
        intro registry hregistry
        rcases ih (registry.define first) hregistry with ⟨b, hb, hoperator⟩ | hfirst
        · exact .inl ⟨b, List.mem_cons_of_mem first hb, hoperator⟩
        · rw [get?_define] at hfirst
          split at hfirst
          · rename_i hname
            exact .inl ⟨first, List.mem_cons_self, (Option.some.inj hfirst).symm, hname⟩
          · exact .inr hfirst
  rcases hfold empty h with hdefined | hempty
  · exact hdefined
  · simp [get?_empty] at hempty

theorem onlyBuiltins_standard : (standard : Registry σ).OnlyBuiltins := by
  intro name operator h
  obtain ⟨b, -, hb, -⟩ := exists_mem_names_of_get? h
  exact ⟨b, hb⟩

/-- A standard operator may be put under any name. -/
theorem OnlyBuiltins.insert {registry : Registry σ} (h : registry.OnlyBuiltins) (name : String)
    (b : Builtin) : (registry.insert name (.builtin b)).OnlyBuiltins :=
  All.insert h name ⟨b, rfl⟩

theorem OnlyBuiltins.erase {registry : Registry σ} (h : registry.OnlyBuiltins) (name : String) :
    (registry.erase name).OnlyBuiltins :=
  All.erase h name

/-- The names of the operators defined stand for something. -/
theorem exists_get?_of_mem_names {operators : List Builtin} {b : Builtin} (hb : b ∈ operators)
    {name : String} (hname : name ∈ b.names) :
    ∃ operator, (ofBuiltins operators : Registry σ).get? name = some operator := by
  have hkept : ∀ (operators : List Builtin) (registry : Registry σ),
      (∃ operator, registry.get? name = some operator) →
        ∃ operator, (operators.foldl define registry).get? name = some operator := by
    intro operators
    induction operators with
    | nil => exact fun registry h => h
    | cons first rest ih =>
        intro registry h
        refine ih _ ?_
        rw [get?_define]
        split
        · exact ⟨_, rfl⟩
        · exact h
  obtain ⟨before, after, rfl⟩ := List.append_of_mem hb
  rw [ofBuiltins_eq_foldl, List.foldl_append, List.foldl_cons]
  exact hkept after _ ⟨.builtin b, by rw [get?_define, if_pos hname]⟩

/-- A standard operator is found under its own name. -/
theorem get?_standard_name {b : Builtin} (hb : b ∈ Builtin.standard) :
    (standard : Registry σ).get? b.name = some (.builtin b) := by
  have hunique : ∀ b ∈ Builtin.standard, ∀ other ∈ Builtin.standard,
      b.name ∈ other.names → other = b := by decide +kernel
  obtain ⟨operator, hget⟩ := exists_get?_of_mem_names (σ := σ) hb List.mem_cons_self
  obtain ⟨other, hother, rfl, hname⟩ := exists_mem_names_of_get? hget
  rw [hunique b hb other hother hname] at hget
  exact hget

/-- The names of the standard operators that take their operands as they are written. -/
def rawNames : List String := ["and", "or", "if", "?:", "var"]

/-- The standard operator of a name is raw if the name is one of five. -/
theorem raw_standard_iff {name : String} :
    (∃ operator, (standard : Registry σ).get? name = some operator ∧
        operator.signature.mode = .raw) ↔ name ∈ rawNames := by
  constructor
  · rintro ⟨operator, hget, hraw⟩
    obtain ⟨b, hb, rfl, hname⟩ := exists_mem_names_of_get? hget
    have hnames : ∀ b ∈ Builtin.standard, b.signature.mode = .raw → ∀ other ∈ b.names,
        other ∈ rawNames := by decide +kernel
    exact hnames b hb hraw name hname
  · intro hname
    have hsome : ∀ other ∈ rawNames, ∃ b ∈ Builtin.standard, other ∈ b.names := by
      decide +kernel
    have hraw : ∀ b ∈ Builtin.standard, ∀ other ∈ b.names, other ∈ rawNames →
        b.signature.mode = .raw := by decide +kernel
    obtain ⟨b, hb, hbname⟩ := hsome name hname
    obtain ⟨operator, hget⟩ := exists_get?_of_mem_names (σ := σ) hb hbname
    obtain ⟨other, hother, rfl, hothername⟩ := exists_mem_names_of_get? hget
    exact ⟨_, hget, hraw other hother name hothername hname⟩

end Registry

end JsonRules

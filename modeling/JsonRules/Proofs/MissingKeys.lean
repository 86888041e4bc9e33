import JsonRules.Proofs.Derivation

/-!
Missing keys.

The keys that `missing` gives back are told by `var`: they are those to which it replies null or the
empty string (`Engine.apply_missing`).  Both operators look a key up by its text, except that `var`
takes null for the empty path, which leads to the whole data, and `missing` takes it for the key
`null`.
-/

namespace JsonRules

variable {σ : Type}

namespace Value

/-- What counts as nothing at a key: null and the empty string. -/
def isBlank : Value → Bool
  | .null => true
  | .string s => s.isEmpty
  | _ => false

/-- A key as `missing` takes it: null is the key of that name. -/
def asKey : Value → Value
  | .null => .string "null"
  | key => key

end Value

namespace Lookup

/-- The text of the path that `var` takes a scalar key for. -/
def referenceText : Value → String
  | .null => ""
  | key => key.toText

theorem pathText_of_scalar (operator : String) {key : Value} (h : key.isContainer = false) :
    pathText operator key = .ok (referenceText key) := by
  cases key with
  | array _ => cases h
  | object _ => cases h
  | _ => rfl

/-- The two readings of a key agree but for null. -/
theorem referenceText_asKey (key : Value) : referenceText key.asKey = key.toText := by
  cases key with
  | null => rfl
  | _ => rfl

/-- What `var` replies to a scalar key. -/
def reply (data key : Value) : Value := Value.ofOption (Path.get? data (referenceText key))

theorem reply_null (data : Value) : reply data .null = data := rfl

theorem isNothing_eq_isBlank (found : Option Value) :
    Script.isNothing found = (Value.ofOption found).isBlank := by
  cases found with
  | none => rfl
  | some value => cases value <;> rfl

/-- A key is missing if `var` replies a blank to it. -/
theorem missingKeys_eq_filter (data : Value) (keys : List Value) :
    missingKeys data keys = keys.filter fun key => (reply data key.asKey).isBlank := by
  induction keys with
  | nil => rfl
  | cons key rest ih =>
      have hblank : Script.isNothing (Path.get? data key.toText) =
          (reply data key.asKey).isBlank := by
        rw [isNothing_eq_isBlank, reply, referenceText_asKey]
      rw [Script.missingKeys_cons, hblank, ih, List.filter_cons]

theorem keysOf_of_scalars {keys : List Value} (h : ∀ key ∈ keys, key.isContainer = false) :
    keysOf keys = keys := by
  cases keys with
  | nil => rfl
  | cons first rest =>
      have hfirst := h first List.mem_cons_self
      cases first with
      | array _ => cases hfirst
      | _ => rfl

end Lookup

theorem Rule.ofValue_of_scalar {value : Value} (h : value.isContainer = false) :
    ofValue value = .literal value := by
  cases value with
  | array _ => cases h
  | object _ => cases h
  | _ => rfl

/-- An operation on a list of values that stand for themselves has these as its operands. -/
theorem Rule.ofValue_of_literals (name : String) {items : List Value}
    (h : ∀ item ∈ items, ofValue item = .literal item) :
    ofValue (.object [(name, .array items)]) = .operation name (items.map literal) := by
  have hitems : items.map ofValue = items.map literal := List.map_congr_left h
  rw [ofValue, ofValues_eq_map, hitems]

theorem Rule.ofValue_of_scalars (name : String) {items : List Value}
    (h : ∀ item ∈ items, item.isContainer = false) :
    ofValue (.object [(name, .array items)]) = .operation name (items.map literal) :=
  ofValue_of_literals name fun item hitem => ofValue_of_scalar (h item hitem)

theorem Script.resolve_of_scalar {key : Value} (h : key.isContainer = false) (otherwise : Script) :
    resolve key otherwise = .lookup (Lookup.referenceText key) fun
      | some value => .finish (.ok value)
      | none => otherwise := by
  have hpath := Lookup.pathText_of_scalar Control.reference.name h
  unfold resolve
  split
  · rename_i e herror
    cases hpath.symm.trans herror
  · rename_i path hfound
    cases hpath.symm.trans hfound
    rfl

variable {context : Context σ} {depth position : Nat} {answer : Except RuleError Value}

/-- Literals are gathered as they are. -/
theorem Follows.gather_literals {values : List Value} {next : List Value → Script}
    {marks : List Mark}
    (hnext : Follows context depth (position + values.length) [] (next values) answer marks) :
    Follows context depth position (values.map Rule.literal) (.gather values.length next) answer
      marks := by
  induction values generalizing position next with
  | nil => exact hnext
  | cons value rest ih =>
      have hposition : position + (value :: rest).length = position + 1 + rest.length := by
        rw [List.length_cons]
        omega
      have hfirst : Evaluates context depth (.literal value) (.ok value) [] := .literal
      rw [hposition] at hnext
      exact .operand hfirst (ih hnext)

/-- Asking for keys comes to those that are missing. -/
theorem Follows.askAll {operands : List Rule} {keys : List Value} {next : List Value → Script}
    {marks : List Mark}
    (hnext : Follows context depth position operands
      (next (Lookup.missingKeys context.data keys)) answer marks) :
    ∃ others, Follows context depth position operands (.askAll keys next) answer others := by
  induction keys generalizing next with
  | nil => exact ⟨marks, hnext⟩
  | cons key rest ih =>
      rw [Script.missingKeys_cons] at hnext
      obtain ⟨others, hrest⟩ : ∃ others, Follows context depth position operands
          (.askAll rest fun missing => next
            (if Script.isNothing (Path.get? context.data key.toText) then key :: missing
              else missing)) answer others :=
        ih hnext
      exact ⟨_, .lookup hrest⟩

/-- A reference to a scalar key comes to the reply to it. -/
theorem Evaluates.reference {key : Value} (hkey : key.isContainer = false)
    (hadmitted : context.operators.admission context.options depth Control.reference.name 1 =
      .ok (.builtin (.control .reference))) :
    ∃ marks, Evaluates context depth (.operation Control.reference.name [.literal key])
      (.ok (Lookup.reply context.data key)) marks := by
  have hfound : Follows context (depth + 1) 1 [] (Script.resolve key (.finish (.ok .null)))
      (.ok (Lookup.reply context.data key)) [.here (.lookup (Lookup.referenceText key))] := by
    rw [Script.resolve_of_scalar hkey, Lookup.reply]
    refine .lookup ?_
    cases Path.get? context.data (Lookup.referenceText key) with
    | none => exact .ok
    | some value => exact .ok
  exact ⟨_, .entered rfl hadmitted (.operand .literal hfound)⟩

/-- An eager operator on literals comes to what it makes of their values. -/
theorem Evaluates.eager {b : Builtin} (heager : b.signature.mode = .eager) {values : List Value}
    (hadmitted : context.operators.admission context.options depth b.name
      (values.map Rule.literal).length = .ok (.builtin b))
    (hconcluded : ∃ marks, Follows context (depth + 1) (0 + values.length) []
      (b.conclusion values) answer marks) :
    ∃ marks,
      Evaluates context depth (.operation b.name (values.map Rule.literal)) answer marks := by
  obtain ⟨marks, hconcluded⟩ := hconcluded
  have hfollows : Follows context (depth + 1) 0 (values.map Rule.literal)
      (b.script (values.map Rule.literal).length) answer marks := by
    rw [Builtin.script_of_eager heager, List.length_map]
    exact .gather_literals hconcluded
  exact ⟨_, .entered rfl hadmitted hfollows⟩

/-- Scalar keys as operands of `missing`: those that are missing are given back. -/
theorem Evaluates.missing {keys : List Value} (hkeys : ∀ key ∈ keys, key.isContainer = false)
    (hadmitted : context.operators.admission context.options depth Builtin.missing.name
      (keys.map Rule.literal).length = .ok (.builtin .missing)) :
    ∃ marks, Evaluates context depth (.operation Builtin.missing.name (keys.map Rule.literal))
      (.ok (.array (Lookup.missingKeys context.data keys))) marks := by
  refine Evaluates.eager rfl hadmitted ?_
  rw [Builtin.conclusion, Lookup.keysOf_of_scalars hkeys]
  exact Follows.askAll .ok

namespace Engine

/-- The rule `{"missing": keys}`. -/
def missingRule (keys : List Value) : Value := .object [("missing", .array keys)]

/-- The rule `{"var": [key]}`. -/
def referenceRule (key : Value) : Value := .object [("var", .array [key])]

/-- Among scalar keys, `missing` gives back those to which `var` replies null or the empty string,
in order and with repetitions.  The operators differ on null alone: `missing` takes it for the key
of that name, and `var` replies with the whole data. -/
theorem apply_missing (options : Options) (hroom : options.maxDepth ≠ some 0) (data : Value)
    {keys : List Value} (hkeys : ∀ key ∈ keys, key.isContainer = false) (budget : Nat)
    (state : σ) :
    ∃ reply : Value → Value,
      (∀ key, key.isContainer = false →
        (apply ⟨.standard, options⟩ budget (referenceRule key) data state).map Report.answer =
          some (.ok (reply key))) ∧
      reply .null = data ∧
      (apply ⟨.standard, options⟩ budget (missingRule keys) data state).map Report.answer =
        some (.ok (.array (keys.filter fun key => (reply key.asKey).isBlank))) := by
  have hlevel : options.level 0 = .ok () := by
    rw [Options.level_eq_ok_iff]
    intro max hmax
    refine Nat.pos_of_ne_zero fun hzero => hroom ?_
    rw [hmax, hzero]
  have hadmitted : ∀ b ∈ Builtin.standard, ∀ count, b.signature.arity.mismatch? count = none →
      (Registry.standard : Registry σ).admission options 0 b.name count = .ok (.builtin b) := by
    intro b hb count haccepts
    rw [Registry.admission_of_accepts (Registry.get?_standard_name hb) haccepts, hlevel]
    rfl
  refine ⟨Lookup.reply data, fun key hkey => ?_, Lookup.reply_null data, ?_⟩
  · refine apply_of_evaluates ?_ budget state
    rw [referenceRule, Rule.ofValue_of_scalars _ (List.forall_mem_singleton.2 hkey)]
    exact Evaluates.reference hkey (hadmitted (.control .reference) (by decide) 1 rfl)
  · refine apply_of_evaluates ?_ budget state
    rw [missingRule, Rule.ofValue_of_scalars _ hkeys, ← Lookup.missingKeys_eq_filter]
    exact Evaluates.missing hkeys (hadmitted .missing (by decide) _ rfl)

/-- Keys of every scalar kind, one of them twice. -/
def formKeys : List Value := [.string "name", .null, .bool true, .number (.zero false),
  .string "mail", .string "age", .string "mail"]

def formData : Value := .object [("name", .string ""), ("null", .bool false),
  ("age", .number (.zero false)), ("mail", .null), ("true", .object [])]

/-- The empty name, the field 0 that is not there, and the mail, which is null and asked for
twice. -/
theorem apply_missing_formKeys :
    (Options.standard.maxDepth ≠ some 0 ∧ ∀ key ∈ formKeys, key.isContainer = false) ∧
      ∃ reply : Value → Value,
        (∀ key, key.isContainer = false →
          (apply ⟨.standard, .standard⟩ 0 (referenceRule key) formData ()).map Report.answer =
            some (.ok (reply key))) ∧
        reply .null = formData ∧
        (apply ⟨.standard, .standard⟩ 0 (missingRule formKeys) formData ()).map Report.answer =
          some (.ok (.array (formKeys.filter fun key => (reply key.asKey).isBlank))) ∧
        formKeys.filter (fun key => (reply key.asKey).isBlank) =
          [.string "name", .number (.zero false), .string "mail", .string "mail"] := by
  have hroom : Options.standard.maxDepth ≠ some 0 := by decide
  have hkeys : ∀ key ∈ formKeys, key.isContainer = false := by
    simp only [formKeys, List.forall_mem_cons]
    exact ⟨rfl, rfl, rfl, rfl, rfl, rfl, rfl, List.forall_mem_nil _⟩
  obtain ⟨reply, hreply, hnull, hmissing⟩ :=
    apply_missing .standard hroom formData hkeys 0 ()
  have hrun : (apply ⟨.standard, .standard⟩ 0 (missingRule formKeys) formData ()).map
      Report.answer = some (.ok (.array
        [.string "name", .number (.zero false), .string "mail", .string "mail"])) := by
    rfl
  refine ⟨⟨hroom, hkeys⟩, reply, hreply, hnull, hmissing, ?_⟩
  rw [hrun] at hmissing
  injection hmissing with hanswer
  injection hanswer with hvalue
  injection hvalue with hitems
  exact hitems.symm

/-- Null as a key: on an empty object `missing` gives it back, although `var` replies with the
object, which is no blank. -/
theorem missing_null_ne_reference :
    (apply ⟨.standard, .standard⟩ 0 (missingRule [.null]) (.object []) ()).map Report.answer =
        some (.ok (.array [.null])) ∧
      (apply ⟨.standard, .standard⟩ 0 (referenceRule .null) (.object []) ()).map Report.answer =
        some (.ok (.object [])) ∧
      (Value.object []).isBlank = false :=
  ⟨rfl, rfl, rfl⟩

end Engine

end JsonRules

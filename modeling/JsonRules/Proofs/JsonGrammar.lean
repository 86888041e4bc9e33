import JsonRules.Json.Basic
import JsonRules.Proofs.JsonNumerals
import JsonRules.Proofs.NearestDoubles
import JsonRules.Value.Basic

/-!
JSON by its grammar, and what readers and writers of it do.

`JsonSource.SpacedAs` says which texts are JSON and what their trees are.  A `JsonTarget` says how
data is built from a tree, and `JsonTarget.Reads` what is read from it.  A `JsonReader` reads for a
target what the grammar has, down to a depth of nesting, and nothing else; a `JsonWriter` writes
texts whose trees show the values that are written (`Value.Shows`).
-/

namespace JsonRules

/-- The characters between quotation marks, and the pieces that they stand for. -/
inductive Text.BodyAs : List Piece → List Char → Prop
  | nil : BodyAs [] []
  | unit {a b c d : Char} {n : Nat} {pieces : List Piece} {text : List Char}
      (h : unitOfHex? a b c d = some n) (hrest : BodyAs pieces text) :
      BodyAs (.unit n :: pieces) ('\\' :: 'u' :: a :: b :: c :: d :: text)
  | escaped {letter c : Char} {pieces : List Piece} {text : List Char}
      (h : unescape? letter = some c) (hrest : BodyAs pieces text) :
      BodyAs (.char c :: pieces) ('\\' :: letter :: text)
  | plain {c : Char} {pieces : List Piece} {text : List Char} (hmark : c ≠ '"')
      (hbackslash : c ≠ '\\') (hcontrol : 32 ≤ c.toNat) (hrest : BodyAs pieces text) :
      BodyAs (.char c :: pieces) (c :: text)

namespace JsonSource

def Blanks (text : List Char) : Prop := ∀ c ∈ text, isBlank c = true

/-- A quoted string, and the text that it stands for.  There is none for half a surrogate pair. -/
inductive QuotedAs : Option String → List Char → Prop
  | intro {pieces : List Text.Piece} {body : List Char} (h : Text.BodyAs pieces body) :
      QuotedAs ((Text.assemble pieces).map String.ofList) ('"' :: (body ++ ['"']))

mutual

/-- A value without blanks around it. -/
inductive WrittenAs : JsonSource → List Char → Prop
  | null : WrittenAs .null ['n', 'u', 'l', 'l']
  | true : WrittenAs (.bool true) ['t', 'r', 'u', 'e']
  | false : WrittenAs (.bool false) ['f', 'a', 'l', 's', 'e']
  | number {l : DecimalLiteral} (h : l.IsJson) : WrittenAs (.number l.numeral l.isWhole) l.text
  | string {text : Option String} {quoted : List Char} (h : QuotedAs text quoted) :
      WrittenAs (.string text) quoted
  | emptyArray {blanks : List Char} (h : Blanks blanks) :
      WrittenAs (.array []) ('[' :: (blanks ++ [']']))
  | array {items : List JsonSource} {text : List Char} (h : ItemsWrittenAs items text) :
      WrittenAs (.array items) ('[' :: (text ++ [']']))
  | emptyObject {blanks : List Char} (h : Blanks blanks) :
      WrittenAs (.object []) ('{' :: (blanks ++ ['}']))
  | object {fields : List (Option String × JsonSource)} {text : List Char}
      (h : FieldsWrittenAs fields text) : WrittenAs (.object fields) ('{' :: (text ++ ['}']))

/-- A value between blanks. -/
inductive SpacedAs : JsonSource → List Char → Prop
  | intro {source : JsonSource} {front text back : List Char} (hfront : Blanks front)
      (h : WrittenAs source text) (hback : Blanks back) : SpacedAs source (front ++ (text ++ back))

/-- Values with commas between them. -/
inductive ItemsWrittenAs : List JsonSource → List Char → Prop
  | last {item : JsonSource} {text : List Char} (h : SpacedAs item text) :
      ItemsWrittenAs [item] text
  | more {item : JsonSource} {rest : List JsonSource} {text others : List Char}
      (h : SpacedAs item text) (hrest : ItemsWrittenAs rest others) :
      ItemsWrittenAs (item :: rest) (text ++ ',' :: others)

/-- A key, a colon and a value. -/
inductive FieldWrittenAs : Option String × JsonSource → List Char → Prop
  | intro {key : Option String} {value : JsonSource} {front quoted back text : List Char}
      (hfront : Blanks front) (hkey : QuotedAs key quoted) (hback : Blanks back)
      (h : SpacedAs value text) :
      FieldWrittenAs (key, value) (front ++ (quoted ++ (back ++ ':' :: text)))

/-- Fields with commas between them. -/
inductive FieldsWrittenAs : List (Option String × JsonSource) → List Char → Prop
  | last {field : Option String × JsonSource} {text : List Char} (h : FieldWrittenAs field text) :
      FieldsWrittenAs [field] text
  | more {field : Option String × JsonSource} {rest : List (Option String × JsonSource)}
      {text others : List Char} (h : FieldWrittenAs field text)
      (hrest : FieldsWrittenAs rest others) :
      FieldsWrittenAs (field :: rest) (text ++ ',' :: others)

end

end JsonSource

/-- The number that a numeral denotes. -/
def Numeral.value (n : Numeral) : ℚ := Binary64.signed n.negative n.magnitude.toRat

/-- The numeral rounds to a finite double. -/
def Numeral.RoundsToFinite (n : Numeral) (x : Binary64) : Prop :=
  x.isFinite = true ∧ Binary64.RoundsTo n.negative n.value x

/-! ## Readers -/

/-- How data is built from what a JSON text says. -/
structure JsonTarget (α : Type) where
  null : α
  bool : Bool → α
  /-- What a numeral is read as, given whether it is written without a point and an exponent. -/
  number : Numeral → Bool → α → Prop
  string : String → α
  array : List α → α
  object : List (String × α) → α

namespace JsonTarget

variable {α : Type}

mutual

/-- What is read from a tree. -/
inductive Reads (t : JsonTarget α) : JsonSource → α → Prop
  | null : Reads t .null t.null
  | bool (b : Bool) : Reads t (.bool b) (t.bool b)
  | number {numeral : Numeral} {whole : Bool} {a : α} (h : t.number numeral whole a) :
      Reads t (.number numeral whole) a
  | string (s : String) : Reads t (.string (some s)) (t.string s)
  | array {items : List JsonSource} {values : List α} (h : ItemsRead t items values) :
      Reads t (.array items) (t.array values)
  | object {fields : List (Option String × JsonSource)} {pairs : List (String × α)}
      (h : FieldsRead t fields pairs) : Reads t (.object fields) (t.object pairs)

inductive ItemsRead (t : JsonTarget α) : List JsonSource → List α → Prop
  | nil : ItemsRead t [] []
  | cons {item : JsonSource} {value : α} {items : List JsonSource} {values : List α}
      (h : Reads t item value) (hrest : ItemsRead t items values) :
      ItemsRead t (item :: items) (value :: values)

inductive FieldsRead (t : JsonTarget α) :
    List (Option String × JsonSource) → List (String × α) → Prop
  | nil : FieldsRead t [] []
  | cons {key : String} {item : JsonSource} {value : α}
      {fields : List (Option String × JsonSource)} {pairs : List (String × α)}
      (h : Reads t item value) (hrest : FieldsRead t fields pairs) :
      FieldsRead t ((some key, item) :: fields) ((key, value) :: pairs)

end

end JsonTarget

/-- A reader of JSON for a target.  It reads the texts of the grammar whose trees have a reading and
are not nested too deep. -/
structure JsonReader {α : Type} (t : JsonTarget α) (read : String → Option α) : Prop where
  sound : ∀ {text a}, read text = some a → ∃ source : JsonSource, source.SpacedAs text.toList ∧
    source.height ≤ JsonSource.heightLimit ∧ t.Reads source a
  complete : ∀ {text a} {source : JsonSource}, source.SpacedAs text.toList →
    source.height ≤ JsonSource.heightLimit → t.Reads source a → read text = some a

/-- There is one reader for a target. -/
theorem JsonReader.unique {α : Type} {t : JsonTarget α} {read other : String → Option α}
    (h : JsonReader t read) (hother : JsonReader t other) : read = other := by
  funext text
  apply Option.ext
  intro a
  constructor
  · intro ha
    obtain ⟨source, htext, hheight, hreads⟩ := h.sound ha
    exact hother.complete htext hheight hreads
  · intro ha
    obtain ⟨source, htext, hheight, hreads⟩ := hother.sound ha
    exact h.complete htext hheight hreads

/-- Values have finite doubles for numbers, and in an object a key that repeats has its first place
and its last value. -/
def Value.target : JsonTarget Value where
  null := .null
  bool := .bool
  number numeral _ v := ∃ x, v = .number x ∧ numeral.RoundsToFinite x
  string := .string
  array := .array
  object pairs := .object (Keyed.ofPairs pairs)

/-- A numeral is an integer of a document if it is whole and fits a word, negative zero apart. -/
def Json.HoldsInteger (numeral : Numeral) (whole : Bool) : Prop :=
  whole = true ∧
    Json.isWordInteger
      (Binary64.signedUnits numeral.negative numeral.magnitude.coefficient) = true ∧
    (numeral.negative = false ∨ numeral.magnitude.coefficient ≠ 0)

instance (numeral : Numeral) (whole : Bool) : Decidable (Json.HoldsInteger numeral whole) :=
  inferInstanceAs (Decidable (_ ∧ _))

/-- Documents tell integers from floats, and have the keys of an object in order, each with its last
value. -/
def Json.target : JsonTarget Json where
  null := .null
  bool := .bool
  number numeral whole document :=
    Json.HoldsInteger numeral whole ∧ document =
      .integer (Binary64.signedUnits numeral.negative numeral.magnitude.coefficient) ∨
    ¬Json.HoldsInteger numeral whole ∧ ∃ x, document = .float x ∧ numeral.RoundsToFinite x
  string := .string
  array := .array
  object pairs := .object (Keyed.sorted pairs)

/-! ## Writers -/

namespace Value

mutual

/-- The tree shows the value: a finite number as a numeral that rounds to it, any other number as
null, and the keys of an object in their order. -/
inductive Shows : Value → JsonSource → Prop
  | null : Shows .null .null
  | bool (b : Bool) : Shows (.bool b) (.bool b)
  | finite {x : Binary64} {numeral : Numeral} {whole : Bool} (h : numeral.RoundsToFinite x) :
      Shows (.number x) (.number numeral whole)
  | notFinite {x : Binary64} (h : ¬x.isFinite = true) : Shows (.number x) .null
  | string (s : String) : Shows (.string s) (.string (some s))
  | array {items : List Value} {sources : List JsonSource} (h : ItemsShow items sources) :
      Shows (.array items) (.array sources)
  | object {fields : List (String × Value)} {sources : List (Option String × JsonSource)}
      (h : FieldsShow fields sources) : Shows (.object fields) (.object sources)

inductive ItemsShow : List Value → List JsonSource → Prop
  | nil : ItemsShow [] []
  | cons {item : Value} {source : JsonSource} {items : List Value} {sources : List JsonSource}
      (h : Shows item source) (hrest : ItemsShow items sources) :
      ItemsShow (item :: items) (source :: sources)

inductive FieldsShow : List (String × Value) → List (Option String × JsonSource) → Prop
  | nil : FieldsShow [] []
  | cons {key : String} {value : Value} {source : JsonSource} {fields : List (String × Value)}
      {sources : List (Option String × JsonSource)} (h : Shows value source)
      (hrest : FieldsShow fields sources) :
      FieldsShow ((key, value) :: fields) ((some key, source) :: sources)

end

end Value

/-- A writer of values as JSON. -/
structure JsonWriter (write : Value → String) : Prop where
  writes : ∀ v, ∃ source : JsonSource, source.SpacedAs (write v).toList ∧ v.Shows source

end JsonRules

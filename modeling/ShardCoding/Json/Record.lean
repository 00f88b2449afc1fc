import ShardCoding.Decimal.Read
import ShardCoding.Decimal.Text
import ShardCoding.GF256
import ShardCoding.Json.Reader
import ShardCoding.Time

/-!
# Records in JSON

A record is an object with a member for each field, or an array of all its fields in order. Members of other names are
skipped; two members for one field are refused.

* `Json.word?`, `Json.float?`, `Json.text?`, ... : values of the types that fields have; `Json.ofFloat`, ... : back;
* `Members` : the values found for the fields of a record; `required`, `withDefault`, `optional` : one field;
* `Recorded α` : the values of `α` as records.
-/

namespace ShardCoding

/-! ## Values of fields -/

namespace Json

def word? (limit : Nat) : Json → Option Nat
  | number n => n.word? limit
  | _ => none

def size? : Json → Option Nat := word? (Nat.pow 2 64)

def float? : Json → Option Float
  | number n => n.float?
  | _ => none

def bool? : Json → Option Bool
  | .bool b => some b
  | _ => none

def text? : Json → Option String
  | string (.text s) => some s
  | _ => none

def list? {α : Type} (item : Json → Option α) : Json → Option (List α)
  | array items => items.mapM item
  | _ => none

/-- An absent value is written as `null`. -/
def nullable? {α : Type} (value : Json → Option α) : Json → Option (Option α)
  | null => some none
  | v => (value v).map some

def instant? (v : Json) : Option Instant := v.text?.bind Instant.read?

/-- UTF-8, extended to the surrogates. -/
def unitBytes (u : Nat) : Bytes :=
  if u < 0x80 then [u.toUInt8]
  else if u < 0x800 then [(0xC0 + u / 64).toUInt8, (0x80 + u % 64).toUInt8]
  else if u < 0x10000 then [(0xE0 + u / 4096).toUInt8, (0x80 + u / 64 % 64).toUInt8, (0x80 + u % 64).toUInt8]
  else
    [(0xF0 + u / 262144).toUInt8, (0x80 + u / 4096 % 64).toUInt8, (0x80 + u / 64 % 64).toUInt8,
      (0x80 + u % 64).toUInt8]

/-- An array of bytes, or the bytes of a string. -/
def bytes? : Json → Option Bytes
  | array items => items.mapM fun v => (v.word? 256).map Nat.toUInt8
  | string (.text s) => some s.toUTF8.toList
  | string (.irregular units _) => some (units.flatMap unitBytes)
  | _ => none

/-- What is not a finite number is written as `null`. -/
def ofFloat (x : Float) : Json :=
  match FloatFormat.mixed.numeral? x with
  | some n => number n
  | none => null

def ofInstant (t : Instant) : Json := str t.text

def ofBytes (b : Bytes) : Json := array (b.map fun x => nat x.toNat)

def ofNullable {α : Type} (value : α → Json) : Option α → Json
  | none => null
  | some v => value v

/-! ## Skipped values -/

/-- A string that may stand in a skipped value: any but with unescaped control characters. -/
def JsonString.isSkippable : JsonString → Bool
  | .text _ => true
  | .irregular _ bareControl => !bareControl

mutual

def isSkippable : Json → Bool
  | string s => JsonString.isSkippable s
  | array items => areSkippable items
  | object members => membersAreSkippable members
  | _ => true

def areSkippable : List Json → Bool
  | [] => true
  | v :: vs => isSkippable v && areSkippable vs

def membersAreSkippable : List (JsonString × Json) → Bool
  | [] => true
  | (name, v) :: ms => JsonString.isSkippable name && isSkippable v && membersAreSkippable ms

end

end Json

/-! ## Fields -/

/-- The value found for each field, and whether the fields were told apart by name. -/
structure Members where
  found : List (String × Json)
  named : Bool

namespace Members

/-- One more member of an object. -/
def addNamed (fields : List String) (found : List (String × Json)) : JsonString × Json → Option (List (String × Json))
  | (.text name, v) =>
    if name ∈ fields then
      if found.any (·.1 = name) then none else some ((name, v) :: found)
    else if v.isSkippable then some found
    else none
  | (.irregular _ _, _) => none

/-- The fields of a record that stands in JSON as an object or as an array. -/
def of? (fields : List String) : Json → Option Members
  | .object members => (members.foldlM (addNamed fields) []).map (⟨·, true⟩)
  | .array items => if fields.length < items.length then none else some ⟨fields.zip items, false⟩
  | _ => none

variable {α : Type}

def value? (m : Members) (name : String) : Option Json := (m.found.find? (·.1 = name)).map (·.2)

/-- A field that has to be there. -/
def required (m : Members) (name : String) (value : Json → Option α) : Option α :=
  (m.value? name).bind value

/-- A field that may be missing. -/
def withDefault (m : Members) (name : String) (default : α) (value : Json → Option α) : Option α :=
  match m.value? name with
  | none => some default
  | some v => value v

/-- A field that may be `null`, and may be missing from an object but not from an array. -/
def optional (m : Members) (name : String) (value : Json → Option α) : Option (Option α) :=
  match m.value? name with
  | none => if m.named then some none else none
  | some v => v.nullable? value

end Members

/-- Values that are written as JSON records and read back. -/
class Recorded (α : Type) where
  toJson : α → Json
  ofJson? : Json → Option α

export Recorded (toJson ofJson?)

end ShardCoding

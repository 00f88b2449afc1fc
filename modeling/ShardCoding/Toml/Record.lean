import ShardCoding.Toml.Reader

/-!
# Records in TOML

A record is a table with an entry for each field, or an array of the values of its first fields in order. Other entries
and items are skipped, and a date is a record without any field.

* `Toml.fields?` : the values found for the fields of a record; `Toml.field`, `Toml.required` : one field;
* `Toml.size?`, `Toml.real?` : values of the types that fields have.
-/

namespace ShardCoding.Toml

/-- A whole number that is not negative. -/
def size? : Toml → Option Nat
  | integer n => if 0 ≤ n then some n.toNat else none
  | _ => none

/-- A number of either kind. -/
def real? : Toml → Option Float
  | integer n => some (nearest (n < 0) n.natAbs 1)
  | float x => some x
  | _ => none

/-- An empty table or array, which stands for nothing to say. -/
def isEmpty : Toml → Bool
  | array [] => true
  | table _ [] => true
  | _ => false

/-- One of a set of names: a string, or a table with an empty value under the name. -/
def name? : Toml → Option String
  | string s => some s
  | table _ [(name, v)] => if v.isEmpty then some name else none
  | _ => none

/-- The value found for each field of a record. -/
def fields? (names : List String) : Toml → Option Entries
  | table _ es => some es
  | array items => some (names.zip items)
  | tables latest earlier => some (names.zip ((latest :: earlier).reverse.map (table .header)))
  | date => some []
  | _ => none

variable {α : Type}

/-- A field that may be missing. -/
def field (es : Entries) (name : String) (default : α) (value : Toml → Option α) : Option α :=
  match es.get? name with
  | none => some default
  | some v => value v

/-- A field that has to be there. -/
def required (es : Entries) (name : String) (value : Toml → Option α) : Option α :=
  (es.get? name).bind value

end ShardCoding.Toml

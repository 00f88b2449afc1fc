/-!
# JSON values

Objects keep their members in order, and members of one name apart; numbers keep their digits. A string that escapes
half of a surrogate pair, or that holds a control character unescaped, is kept as it is written: some readers accept
it as bytes, and all accept the former where they skip a value.

* `Numeral` : a number as it is written; `JsonString`, `Json`;
* `Token` : what a text is made of.
-/

namespace ShardCoding

/-- `-whole.fraction e exponent`; the fraction is empty if there is none. -/
structure Numeral where
  negative : Bool := false
  whole : List Char
  fraction : List Char := []
  /-- Whether the exponent is negative, and its digits. -/
  exponent : Option (Bool × List Char) := none
  deriving DecidableEq, Repr

inductive JsonString where
  | text (s : String)
  /-- Code points and unpaired surrogates, and whether control characters are among the unescaped ones. -/
  | irregular (units : List Nat) (bareControl : Bool)
  deriving DecidableEq, Repr

inductive Json where
  | null
  | bool (b : Bool)
  | number (n : Numeral)
  | string (s : JsonString)
  | array (items : List Json)
  | object (members : List (JsonString × Json))
  deriving Repr

inductive Token where
  | openArray
  | closeArray
  | openObject
  | closeObject
  | colon
  | comma
  | null
  | bool (b : Bool)
  | number (n : Numeral)
  | string (s : JsonString)
  deriving DecidableEq, Repr

/-- The digits of `n`. -/
def natDigits (n : Nat) : List Char := Nat.toDigits 10 n

def isDigit (c : Char) : Bool := '0' ≤ c && c ≤ '9'

def digitValue (c : Char) : Nat := c.toNat - '0'.toNat

/-- The number that decimal digits spell. -/
def digitsValue (ds : List Char) : Nat := ds.foldl (fun n c => 10 * n + digitValue c) 0

namespace Json

def nat (n : Nat) : Json := .number { whole := natDigits n }

def str (s : String) : Json := .string (.text s)

/-- An object with names that need no care. -/
def record (members : List (String × Json)) : Json :=
  .object (members.map fun (name, value) => (.text name, value))

end Json

end ShardCoding

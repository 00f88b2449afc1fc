import ShardCoding.Json.Lexer

/-!
# Reading JSON

A machine that takes one token at a time and keeps the arrays and objects that are still open.

* `JsonReader.step` : one token; `Json.ofTokens?`, `Json.parse?` : the value that tokens or a text stand for.
-/

namespace ShardCoding

/-- An array or object that is still open. Lists hold what was read of it, latest first. -/
inductive OpenValue where
  | array (items : List Json)
  | object (members : List (JsonString × Json)) (name : JsonString)

/-- What may come next. -/
inductive Phase where
  | value
  /-- The first item of an array, or its end. -/
  | itemOrEnd
  | name (members : List (JsonString × Json))
  /-- The first name of an object, or its end. -/
  | nameOrEnd
  | colon (members : List (JsonString × Json)) (name : JsonString)
  /-- What goes on after a whole value. -/
  | after (value : Json)

structure JsonReader where
  phase : Phase := .value
  enclosing : List OpenValue := []

namespace JsonReader

/-- A token where a value has to start. -/
def startValue (outer : List OpenValue) : Token → Option JsonReader
  | .null => some ⟨.after .null, outer⟩
  | .bool b => some ⟨.after (.bool b), outer⟩
  | .number n => some ⟨.after (.number n), outer⟩
  | .string s => some ⟨.after (.string s), outer⟩
  | .openArray => some ⟨.itemOrEnd, .array [] :: outer⟩
  | .openObject => some ⟨.nameOrEnd, outer⟩
  | _ => none

def step (r : JsonReader) (t : Token) : Option JsonReader :=
  match r.phase, t, r.enclosing with
  | .value, t, outer => startValue outer t
  | .itemOrEnd, .closeArray, .array _ :: outer => some ⟨.after (.array []), outer⟩
  | .itemOrEnd, t, outer => startValue outer t
  | .nameOrEnd, .closeObject, outer => some ⟨.after (.object []), outer⟩
  | .nameOrEnd, .string name, outer => some ⟨.colon [] name, outer⟩
  | .name members, .string name, outer => some ⟨.colon members name, outer⟩
  | .colon members name, .colon, outer => some ⟨.value, .object members name :: outer⟩
  | .after v, .comma, .array items :: outer => some ⟨.value, .array (v :: items) :: outer⟩
  | .after v, .closeArray, .array items :: outer => some ⟨.after (.array (v :: items).reverse), outer⟩
  | .after v, .comma, .object members name :: outer => some ⟨.name ((name, v) :: members), outer⟩
  | .after v, .closeObject, .object members name :: outer =>
    some ⟨.after (.object ((name, v) :: members).reverse), outer⟩
  | _, _, _ => none

/-- The value read, once nothing is left open. -/
def result? : JsonReader → Option Json
  | ⟨.after v, []⟩ => some v
  | _ => none

end JsonReader

def Json.ofTokens? (ts : List Token) : Option Json :=
  (ts.foldlM JsonReader.step {}).bind JsonReader.result?

def Json.parse? (s : String) : Option Json :=
  (tokenize s.toList).bind Json.ofTokens?

end ShardCoding

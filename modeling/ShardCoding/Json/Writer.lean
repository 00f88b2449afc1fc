import ShardCoding.Json.Basic

/-!
# Writing JSON

* `quoted` : a string with its escapes;
* `Json.compact` : no blanks at all;
* `Json.pretty` : one item or member a line, two blanks for each level; empty arrays and objects on one line.
-/

namespace ShardCoding

def hexChar (n : Nat) : Char := Char.ofNat (if n < 10 then 48 + n else 87 + n)

/-- Quotes, backslashes and control characters are escaped, these by their short names where they have one. -/
def escapeChar (c : Char) : List Char :=
  if c = '"' then ['\\', '"']
  else if c = '\\' then ['\\', '\\']
  else if c = '\n' then ['\\', 'n']
  else if c = '\r' then ['\\', 'r']
  else if c = '\t' then ['\\', 't']
  else if c = '\x08' then ['\\', 'b']
  else if c = '\x0c' then ['\\', 'f']
  else if c < ' ' then ['\\', 'u', '0', '0', hexChar (c.toNat / 16), hexChar (c.toNat % 16)]
  else [c]

/-- A unit that is no character is escaped. -/
def escapeUnit (u : Nat) : List Char :=
  if h : u.isValidChar then escapeChar (Char.ofNatAux u h)
  else ['\\', 'u', hexChar (u / 4096 % 16), hexChar (u / 256 % 16), hexChar (u / 16 % 16), hexChar (u % 16)]

def JsonString.quoted : JsonString → List Char
  | text s => '"' :: (s.toList.flatMap escapeChar ++ ['"'])
  | irregular units _ => '"' :: (units.flatMap escapeUnit ++ ['"'])

/-- An exponent always has a sign. -/
def Numeral.chars (n : Numeral) : List Char :=
  (if n.negative then ['-'] else []) ++ n.whole ++
    (if n.fraction.isEmpty then [] else '.' :: n.fraction) ++
    (match n.exponent with
      | none => []
      | some (minus, digits) => 'e' :: (if minus then '-' else '+') :: digits)

namespace Json

mutual

def compactChars : Json → List Char
  | .null => ['n', 'u', 'l', 'l']
  | .bool true => ['t', 'r', 'u', 'e']
  | .bool false => ['f', 'a', 'l', 's', 'e']
  | .number n => n.chars
  | .string s => s.quoted
  | .array [] => ['[', ']']
  | .array (v :: vs) => '[' :: (compactChars v ++ compactItems vs ++ [']'])
  | .object [] => ['\x7b', '\x7d']
  | .object ((name, v) :: ms) => '\x7b' :: (name.quoted ++ ':' :: compactChars v ++ compactMembers ms ++ ['\x7d'])

def compactItems : List Json → List Char
  | [] => []
  | v :: vs => ',' :: (compactChars v ++ compactItems vs)

def compactMembers : List (JsonString × Json) → List Char
  | [] => []
  | (name, v) :: ms => ',' :: (name.quoted ++ ':' :: compactChars v ++ compactMembers ms)

end

/-- A new line, `depth` levels in. -/
def lineBreak (depth : Nat) : List Char := '\n' :: List.replicate (2 * depth) ' '

mutual

def prettyChars (depth : Nat) : Json → List Char
  | .array (v :: vs) =>
    '[' :: (lineBreak (depth + 1) ++ prettyChars (depth + 1) v ++ prettyItems (depth + 1) vs ++
      lineBreak depth ++ [']'])
  | .object ((name, v) :: ms) =>
    '\x7b' :: (lineBreak (depth + 1) ++ name.quoted ++ ':' :: ' ' :: prettyChars (depth + 1) v ++
      prettyMembers (depth + 1) ms ++ lineBreak depth ++ ['\x7d'])
  | v => compactChars v

def prettyItems (depth : Nat) : List Json → List Char
  | [] => []
  | v :: vs => ',' :: (lineBreak depth ++ prettyChars depth v ++ prettyItems depth vs)

def prettyMembers (depth : Nat) : List (JsonString × Json) → List Char
  | [] => []
  | (name, v) :: ms =>
    ',' :: (lineBreak depth ++ name.quoted ++ ':' :: ' ' :: prettyChars depth v ++ prettyMembers depth ms)

end

def compact (v : Json) : String := String.ofList v.compactChars

def pretty (v : Json) : String := String.ofList (v.prettyChars 0)

end Json

end ShardCoding

import ShardCoding.Toml.Quoted
import ShardCoding.Toml.Scalar

/-!
# Reading TOML

* `Scan` : a reader that takes characters from the front of a text, or fails;
* `Scan.value` : a value, with arrays and tables in braces nested to a limit;
* `Scan.statement` : a header, or a key with its value; `Toml.parse?` : a whole document.
-/

namespace ShardCoding

abbrev Scan := StateT (List Char) Option

namespace Scan

/-- The next character, if any, which stays. -/
def peek? : Scan (Option Char) := return (← get).head?

/-- The next character. -/
def next : Scan Char := do
  match ← get with
  | [] => failure
  | c :: cs => set cs; return c

def expect (c : Char) : Scan Unit := do
  if (← next) ≠ c then failure

/-- The longest front of which all characters are `p`. -/
def span (p : Char → Bool) : Scan (List Char) := do
  let cs ← get
  set (cs.dropWhile p)
  return cs.takeWhile p

def spaces : Scan Unit := discard (span isSpace)

/-! ## Lines -/

/-- The text behind blanks, ends of lines and comments. -/
def skipLines? : (inComment : Bool) → List Char → Option (List Char)
  | _, [] => some []
  | false, c :: cs =>
    if isSpace c || c = '\n' then skipLines? false cs
    else if c = '#' then skipLines? true cs
    else some (c :: cs)
  | true, c :: cs =>
    if c = '\n' then skipLines? false cs
    else if isTextChar c then skipLines? true cs
    else none

def skipLines : Scan Unit := do
  set (← (skipLines? false (← get) : Option (List Char)))

/-- Nothing but blanks or a comment up to the end of the line. -/
def lineEnd : Scan Unit := do
  spaces
  match ← peek? with
  | none => return
  | some c => if c ≠ '\n' ∧ c ≠ '#' then failure

/-! ## Keys -/

/-- Fewer arrays and tables than this stand around a value, and a key has fewer parts. -/
def nestingLimit : Nat := 80

def isBareKeyChar (c : Char) : Bool :=
  isDigit c || ('a' ≤ c && c ≤ 'z') || ('A' ≤ c && c ≤ 'Z') || c = '_' || c = '-'

/-- A string in quotes of one character, or a word of letters, digits, underscores and dashes. -/
def simpleKey : Scan String := do
  match QuoteStyle.open? (← get) with
  | some (style, _) =>
    let (s, rest) ← ({ style with lines := false : QuoteStyle }.read? .plain [] ((← get).drop 1) :
      Option (String × List Char))
    set rest
    return s
  | none =>
    let cs ← span isBareKeyChar
    if cs.isEmpty then failure
    return String.ofList cs

/-- At most `limit` simple keys with dots between them. -/
def keyParts : (limit : Nat) → Scan (List String)
  | 0 => failure
  | limit + 1 => do
    spaces
    let part ← simpleKey
    spaces
    if (← peek?) = some '.' then
      discard next
      return part :: (← keyParts limit)
    else return [part]

/-- The path that leads to a key, and the key. -/
def key : Scan (List String × String) := do
  let parts ← keyParts (nestingLimit - 1)
  return (parts.dropLast, parts.getLast?.getD "")

/-! ## Values -/

def isWordChar (c : Char) : Bool := isBareKeyChar c || c = '+' || c = '.' || c = ':'

/-- A value without quotes and brackets. A blank may stand between a day and a time. -/
def word : Scan Toml := do
  let cs ← span isWordChar
  let rest ← get
  match rest with
  | ' ' :: c :: _ =>
    if Toml.isDay cs ∧ isDigit c then
      discard next
      if Toml.isTime Toml.isOffset (← span isWordChar) then return .date else failure
  | _ => pure ()
  match Toml.ofWord? cs with
  | some v => return v
  | none => failure

/-- A value without others inside it. -/
def scalar : Scan Toml := do
  match quotedString? (← get) with
  | some (s, rest) => set rest; return .string s
  | none => word

/-- The items of an array behind its bracket; a comma may stand behind the last. -/
def items (value : Scan Toml) : (fuel : Nat) → Scan (List Toml)
  | 0 => failure
  | fuel + 1 => do
    skipLines
    if (← peek?) = some ']' then
      discard next
      return []
    let v ← value
    skipLines
    match ← next with
    | ',' => return v :: (← items value fuel)
    | ']' => return [v]
    | _ => failure

/-- A key with its value. -/
def entry (value : Scan Toml) : Scan (List String × String × Toml) := do
  let (path, k) ← key
  expect '='
  spaces
  return (path, k, ← value)

/-- The entries of a table behind its brace, at least one; none ends with a comma. -/
def bracedEntries (value : Scan Toml) : (fuel : Nat) → Toml.Entries → Scan Toml.Entries
  | 0, _ => failure
  | fuel + 1, es => do
    let (path, k, v) ← entry value
    spaces
    let es ← (Toml.Entries.addEntry path k v .header es : Option Toml.Entries)
    match ← next with
    | ',' => bracedEntries value fuel es
    | '\x7d' => return es
    | _ => failure

/-- A value; `inner` reads the values inside it. -/
def valueAround (inner : Scan Toml) : Scan Toml := do
  let cs ← get
  match cs with
  | '[' :: rest =>
    set rest
    return .array (← items inner cs.length)
  | '\x7b' :: rest =>
    set rest
    spaces
    if (← peek?) = some '\x7d' then
      discard next
      return .table .braces []
    return .table .braces (← bracedEntries inner cs.length [])
  | _ => scalar

/-- A value in which others nest at most `depth` deep. -/
def value : (depth : Nat) → Scan Toml
  | 0 => scalar
  | depth + 1 => valueAround (value depth)

/-! ## Documents -/

def statement : Scan TomlStatement := do
  match ← get with
  | '[' :: '[' :: rest =>
    set rest
    let (path, k) ← key
    expect ']'
    expect ']'
    return .headers path k
  | '[' :: rest =>
    set rest
    let (path, k) ← key
    expect ']'
    return .header path k
  | _ =>
    let (path, k, v) ← entry (value (nestingLimit - 1))
    return .entry path k v

/-- All statements, each on lines of its own. -/
def statements : (fuel : Nat) → Scan (List TomlStatement)
  | 0 => failure
  | fuel + 1 => do
    skipLines
    if (← peek?).isNone then return []
    let s ← statement
    lineEnd
    return s :: (← statements fuel)

end Scan

/-- The text with a line feed for each carriage return and line feed. -/
def unifyNewlines : List Char → List Char
  | [] => []
  | c :: cs => if c = '\r' ∧ cs.head? = some '\n' then unifyNewlines cs else c :: unifyNewlines cs

/-- The root table of a document. A byte order mark may stand in front of it. -/
def Toml.parse? (s : String) : Option Toml.Entries := do
  let cs := s.toList
  let cs := unifyNewlines (if cs.head? = some '\ufeff' then cs.drop 1 else cs)
  let (ss, _) ← (Scan.statements (cs.length + 1)).run cs
  TomlDocument.ofStatements? ss

end ShardCoding

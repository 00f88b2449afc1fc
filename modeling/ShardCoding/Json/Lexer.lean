import ShardCoding.Json.Basic

/-!
# The tokens of a JSON text

A machine that takes one character at a time, so that reading is a fold over the text.

* `Numeral.ofChars?` : the grammar of numbers;
* `JsonString.ofUnits` : surrogate pairs joined;
* `Lexer.step`, `tokenize` : the machine, and its tokens for a whole text.
-/

namespace ShardCoding

/-- The digits at the front of a text, and what follows them. -/
def spanDigits (cs : List Char) : List Char × List Char := (cs.takeWhile isDigit, cs.dropWhile isDigit)

/-- An optional minus, digits without a leading zero, and optionally a point with digits and an exponent. -/
def Numeral.ofChars? (cs : List Char) : Option Numeral := do
  let (negative, cs) := match cs with
    | '-' :: r => (true, r)
    | _ => (false, cs)
  let (whole, cs) := spanDigits cs
  if whole.isEmpty ∨ (whole.head? = some '0' ∧ 1 < whole.length) then none
  let (fraction, cs) ← match cs with
    | '.' :: r => let (f, r') := spanDigits r; if f.isEmpty then none else some (f, r')
    | _ => some ([], cs)
  match cs with
  | [] => some { negative, whole, fraction }
  | e :: r =>
    if e ≠ 'e' ∧ e ≠ 'E' then none
    let (minus, r) := match r with
      | '-' :: r' => (true, r')
      | '+' :: r' => (false, r')
      | _ => (false, r)
    let (digits, r) := spanDigits r
    if digits.isEmpty ∨ ¬ r.isEmpty then none
    some { negative, whole, fraction, exponent := some (minus, digits) }

/-! ## Strings -/

def isHighSurrogate (u : Nat) : Bool := 0xD800 ≤ u && u ≤ 0xDBFF

def isLowSurrogate (u : Nat) : Bool := 0xDC00 ≤ u && u ≤ 0xDFFF

/-- A high surrogate and a low one right after it are one code point. -/
def joinSurrogates : List Nat → List Nat
  | h :: l :: rest =>
    if isHighSurrogate h && isLowSurrogate l then (0x10000 + (h - 0xD800) * 0x400 + (l - 0xDC00)) :: joinSurrogates rest
    else h :: joinSurrogates (l :: rest)
  | us => us

def JsonString.ofUnits (units : List Nat) (bareControl : Bool) : JsonString :=
  let us := joinSurrogates units
  if bareControl || us.any (fun u => isHighSurrogate u || isLowSurrogate u) then .irregular us bareControl
  else .text (String.ofList (us.map Char.ofNat))

/-- What a backslash and this character stand for, `u` apart. -/
def unescape? : Char → Option Nat
  | '"' => some 0x22
  | '\\' => some 0x5C
  | '/' => some 0x2F
  | 'b' => some 0x08
  | 'f' => some 0x0C
  | 'n' => some 0x0A
  | 'r' => some 0x0D
  | 't' => some 0x09
  | _ => none

def hexDigitValue? (c : Char) : Option Nat :=
  if isDigit c then some (digitValue c)
  else if 'a' ≤ c ∧ c ≤ 'f' then some (c.toNat - 87)
  else if 'A' ≤ c ∧ c ≤ 'F' then some (c.toNat - 55)
  else none

/-! ## The machine -/

/-- What is being read. Lists hold what was read of it, latest first. -/
inductive LexState where
  | between
  | word (letters : List Char)
  | numeral (chars : List Char)
  | string (units : List Nat) (bareControl : Bool)
  | escape (units : List Nat) (bareControl : Bool)
  | unicode (units : List Nat) (bareControl : Bool) (value digits : Nat)

structure Lexer where
  state : LexState := .between
  /-- The tokens read, latest first. -/
  tokens : List Token := []

namespace Lexer

def isBlank (c : Char) : Bool := c = ' ' || c = '\n' || c = '\t' || c = '\r'

def inNumeral (c : Char) : Bool := isDigit c || c = '-' || c = '+' || c = '.' || c = 'e' || c = 'E'

def inWord (c : Char) : Bool := 'a' ≤ c && c ≤ 'z'

def word? (letters : List Char) : Option Token :=
  if letters = ['n', 'u', 'l', 'l'] then some .null
  else if letters = ['t', 'r', 'u', 'e'] then some (.bool true)
  else if letters = ['f', 'a', 'l', 's', 'e'] then some (.bool false)
  else none

/-- A character outside of words, numbers and strings. -/
def start (tokens : List Token) (c : Char) : Option Lexer :=
  if isBlank c then some ⟨.between, tokens⟩
  else if c = '[' then some ⟨.between, .openArray :: tokens⟩
  else if c = ']' then some ⟨.between, .closeArray :: tokens⟩
  else if c = '\x7b' then some ⟨.between, .openObject :: tokens⟩
  else if c = '\x7d' then some ⟨.between, .closeObject :: tokens⟩
  else if c = ':' then some ⟨.between, .colon :: tokens⟩
  else if c = ',' then some ⟨.between, .comma :: tokens⟩
  else if c = '"' then some ⟨.string [] false, tokens⟩
  else if isDigit c || c = '-' then some ⟨.numeral [c], tokens⟩
  else if inWord c then some ⟨.word [c], tokens⟩
  else none

/-- The token that a word or a number makes once it has ended, if any is being read. -/
def flush (l : Lexer) : Option (List Token) :=
  match l.state with
  | .between => some l.tokens
  | .word letters => (word? letters.reverse).map (· :: l.tokens)
  | .numeral chars => (Numeral.ofChars? chars.reverse).map fun n => .number n :: l.tokens
  | _ => none

def step (l : Lexer) (c : Char) : Option Lexer :=
  match l.state with
  | .string units bare =>
    if c = '"' then some ⟨.between, .string (.ofUnits units.reverse bare) :: l.tokens⟩
    else if c = '\\' then some ⟨.escape units bare, l.tokens⟩
    else some ⟨.string (c.toNat :: units) (bare || c < ' '), l.tokens⟩
  | .escape units bare =>
    if c = 'u' then some ⟨.unicode units bare 0 0, l.tokens⟩
    else (unescape? c).map fun u => ⟨.string (u :: units) bare, l.tokens⟩
  | .unicode units bare value digits => do
    let v ← hexDigitValue? c
    let value' := 16 * value + v
    if digits = 3 then some ⟨.string (value' :: units) bare, l.tokens⟩
    else some ⟨.unicode units bare value' (digits + 1), l.tokens⟩
  | .word letters => if inWord c then some ⟨.word (c :: letters), l.tokens⟩ else l.flush.bind (start · c)
  | .numeral chars => if inNumeral c then some ⟨.numeral (c :: chars), l.tokens⟩ else l.flush.bind (start · c)
  | .between => start l.tokens c

end Lexer

/-- The tokens of a text, in order. -/
def tokenize (cs : List Char) : Option (List Token) := do
  let l ← cs.foldlM Lexer.step {}
  let tokens ← l.flush
  return tokens.reverse

end ShardCoding

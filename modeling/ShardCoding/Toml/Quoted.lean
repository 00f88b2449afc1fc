import ShardCoding.Json.Lexer

/-!
# Quoted strings of TOML

Basic strings have escapes, literal strings do not; either may go over several lines between triple quotes. Lines end
with a line feed.

* `QuoteStyle` : the four kinds; `QuoteStyle.open?` : the kind that a text starts with;
* `QuoteState.step?` : one character; `QuoteStyle.read?` : a string up to its closing quotes.
-/

namespace ShardCoding

structure QuoteStyle where
  mark : Char
  escapes : Bool
  lines : Bool

/-- Where a reader stands in a string. -/
inductive QuoteState where
  | plain
  /-- Behind a backslash. -/
  | escape
  /-- Behind a backslash and blanks, where only the end of a line may follow. -/
  | lineEnd
  /-- Behind an escaped end of line, where blanks and further ends of lines are skipped. -/
  | skip
  /-- In a code point, with so many hexadecimal digits to come. -/
  | digits (left value : Nat)

namespace QuoteStyle

/-- The style of the quotes in front of a text, and the text behind them; a line feed right there does not count. -/
def open? (cs : List Char) : Option (QuoteStyle × List Char) :=
  let inLines (mark : Char) (escapes : Bool) (cs : List Char) : Option (QuoteStyle × List Char) :=
    some (⟨mark, escapes, true⟩, if cs.head? = some '\n' then cs.drop 1 else cs)
  match cs with
  | '"' :: '"' :: '"' :: r => inLines '"' true r
  | '"' :: r => some (⟨'"', true, false⟩, r)
  | '\'' :: '\'' :: '\'' :: r => inLines '\'' false r
  | '\'' :: r => some (⟨'\'', false, false⟩, r)
  | _ => none

end QuoteStyle

/-- Any character but control characters other than the tab. -/
def isTextChar (c : Char) : Bool := c = '\t' || (' ' ≤ c && c ≠ '\x7f')

def isSpace (c : Char) : Bool := c = ' ' || c = '\t'

namespace QuoteState

/-- What a backslash and this character stand for. -/
def unescape? : Char → Option Char
  | 'b' => some '\x08'
  | 't' => some '\t'
  | 'n' => some '\n'
  | 'f' => some '\x0c'
  | 'r' => some '\r'
  | '"' => some '"'
  | '\\' => some '\\'
  | _ => none

/-- A character that no escape has announced. -/
def stepPlain? (style : QuoteStyle) (chars : List Char) (c : Char) : Option (QuoteState × List Char) :=
  if style.escapes && c = '\\' then some (escape, chars)
  else if isTextChar c || (style.lines && c = '\n') then some (plain, c :: chars)
  else none

/-- One more character, of a string whose characters so far are `chars`, latest first. -/
def step? (style : QuoteStyle) (chars : List Char) (c : Char) : QuoteState → Option (QuoteState × List Char)
  | plain => stepPlain? style chars c
  | skip => if isSpace c || c = '\n' then some (skip, chars) else stepPlain? style chars c
  | lineEnd => if isSpace c then some (lineEnd, chars) else if c = '\n' then some (skip, chars) else none
  | escape =>
    if c = 'u' then some (digits 4 0, chars)
    else if c = 'U' then some (digits 8 0, chars)
    else if style.lines && isSpace c then some (lineEnd, chars)
    else if style.lines && c = '\n' then some (skip, chars)
    else (unescape? c).map fun e => (plain, e :: chars)
  | digits left value => do
    let n := 16 * value + (← hexDigitValue? c)
    if 1 < left then some (digits (left - 1) n, chars)
    else if n.isValidChar then some (plain, Char.ofNat n :: chars)
    else none

/-- Whether a quote may close the string here. -/
def isClosable : QuoteState → Bool
  | plain | skip => true
  | _ => false

end QuoteState

namespace QuoteStyle

/-- Up to two quotes in front of the closing ones belong to the string. -/
def closeLines (mark : Char) (chars : List Char) : List Char → String × List Char
  | a :: b :: r =>
    if a = mark ∧ b = mark then (String.ofList (b :: a :: chars).reverse, r)
    else if a = mark then (String.ofList (a :: chars).reverse, b :: r)
    else (String.ofList chars.reverse, a :: b :: r)
  | [a] => if a = mark then (String.ofList (a :: chars).reverse, []) else (String.ofList chars.reverse, [a])
  | [] => (String.ofList chars.reverse, [])

/-- The string up to its closing quotes, and what stands behind them. -/
def read? (style : QuoteStyle) (state : QuoteState) (chars : List Char) : List Char → Option (String × List Char)
  | [] => none
  | c :: cs =>
    if c = style.mark ∧ state.isClosable then
      if style.lines then
        if cs.take 2 = [style.mark, style.mark] then some (closeLines style.mark chars (cs.drop 2))
        else read? style .plain (c :: chars) cs
      else some (String.ofList chars.reverse, cs)
    else
      match state.step? style chars c with
      | none => none
      | some (state, chars) => read? style state chars cs

end QuoteStyle

/-- A quoted string in front of a text, and what stands behind it. -/
def quotedString? (cs : List Char) : Option (String × List Char) :=
  (QuoteStyle.open? cs).bind fun (style, r) => style.read? .plain [] r

end ShardCoding

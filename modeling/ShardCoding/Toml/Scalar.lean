import ShardCoding.Decimal.Read
import ShardCoding.Time
import ShardCoding.Toml.Basic

/-!
# Numbers, dates and truth values of TOML

* `ungroup?` : digits with single underscores between them;
* `Toml.ofWord?` : the value that a word without blanks stands for.
-/

namespace ShardCoding

/-- The digits of a text in which single underscores may stand between digits. -/
def ungroup? (isDigit' : Char → Bool) : List Char → Option (List Char)
  | [] => none
  | [c] => if isDigit' c then some [c] else none
  | c :: '_' :: cs => if isDigit' c then (ungroup? isDigit' cs).map (c :: ·) else none
  | c :: cs => if isDigit' c then (ungroup? isDigit' cs).map (c :: ·) else none

/-- The text up to the first character that is `p`, and the text behind it. -/
def cutAt (p : Char → Bool) (cs : List Char) : List Char × Option (List Char) :=
  (cs.takeWhile (!p ·), (cs.dropWhile (!p ·)).tail?)

/-- Whether there is a minus, and the text behind the sign. -/
def takeSign : List Char → Bool × List Char
  | '-' :: cs => (true, cs)
  | '+' :: cs => (false, cs)
  | cs => (false, cs)

namespace Toml

/-! ## Numbers -/

/-- Digits of which the first is no zero, unless it is the only one. -/
def wholeDigits? (cs : List Char) : Option (List Char) :=
  match ungroup? isDigit cs with
  | some ('0' :: _ :: _) => none
  | ds => ds

/-- An integer of one signed word. -/
def ofInt? (n : Int) : Option Toml := if -Int.pow 2 63 ≤ n ∧ n < Int.pow 2 63 then some (.integer n) else none

/-- The number that digits of a base spell. -/
def inBase (base : Nat) (ds : List Char) : Nat := ds.foldl (fun n c => base * n + (hexDigitValue? c).getD 0) 0

def isDigitOf (base : Nat) (c : Char) : Bool := (hexDigitValue? c).any (· < base)

def integer? : List Char → Option Toml
  | '0' :: 'x' :: cs => (ungroup? (isDigitOf 16) cs).bind fun ds => ofInt? (inBase 16 ds)
  | '0' :: 'o' :: cs => (ungroup? (isDigitOf 8) cs).bind fun ds => ofInt? (inBase 8 ds)
  | '0' :: 'b' :: cs => (ungroup? (isDigitOf 2) cs).bind fun ds => ofInt? (inBase 2 ds)
  | cs =>
    let (negative, cs) := takeSign cs
    (wholeDigits? cs).bind fun ds =>
      let n : Int := digitsValue ds
      ofInt? (if negative then -n else n)

/-- A decimal with a fraction or an exponent. One too large is infinite below zero and refused above. -/
def decimal? (cs : List Char) : Option Toml := do
  let (negative, cs) := takeSign cs
  let (mantissa, exponent) := cutAt (fun c => c = 'e' || c = 'E') cs
  let (whole, fraction) := cutAt (· = '.') mantissa
  if exponent.isNone ∧ fraction.isNone then none
  let whole ← wholeDigits? whole
  let fraction ← match fraction with
    | none => some []
    | some ds => ungroup? isDigit ds
  let exponent : Int ← match exponent with
    | none => some 0
    | some e =>
      let (minus, ds) := takeSign e
      (ungroup? isDigit ds).map fun ds => if minus then -(digitsValue ds : Int) else digitsValue ds
  let x := decimalToFloat negative (digitsValue (whole ++ fraction)) (exponent - fraction.length)
  if x.isInf ∧ ¬ negative then none else some (.float x)

def nonFinite? (cs : List Char) : Option Toml :=
  let (negative, cs) := takeSign cs
  if cs = ['i', 'n', 'f'] then some (.float (if negative then -1 / 0 else 1 / 0))
  else if cs = ['n', 'a', 'n'] then some (.float (0 / 0))
  else none

/-! ## Dates -/

/-- Two digits up to `most`. -/
def isPair (least most : Nat) (a b : Char) : Bool :=
  isDigit a && isDigit b && least ≤ digitsValue [a, b] && digitsValue [a, b] ≤ most

/-- A day that exists. -/
def isDay : List Char → Bool
  | [y₁, y₂, y₃, y₄, '-', m₁, m₂, '-', d₁, d₂] =>
    [y₁, y₂, y₃, y₄].all isDigit && isPair 1 12 m₁ m₂ &&
      isPair 1 (Instant.daysInMonth (digitsValue [y₁, y₂, y₃, y₄]) (digitsValue [m₁, m₂])) d₁ d₂
  | _ => false

def isOffset : List Char → Bool
  | [] => true
  | ['Z'] => true
  | ['z'] => true
  | [s, h₁, h₂, ':', m₁, m₂] => (s = '+' || s = '-') && isPair 0 23 h₁ h₂ && isPair 0 59 m₁ m₂
  | _ => false

/-- A time of day with a fraction of a second if there is a point; `tail` tells what may follow. -/
def isTime (tail : List Char → Bool) : List Char → Bool
  | h₁ :: h₂ :: ':' :: m₁ :: m₂ :: ':' :: s₁ :: s₂ :: cs =>
    isPair 0 23 h₁ h₂ && isPair 0 59 m₁ m₂ && isPair 0 60 s₁ s₂ &&
      match cs with
      | '.' :: c :: cs => isDigit c && tail (cs.dropWhile isDigit)
      | cs => tail cs
  | _ => false

/-- A day, a day with a time and perhaps an offset behind a `T`, or a time alone. -/
def isDate (cs : List Char) : Bool :=
  isDay cs || isTime List.isEmpty cs ||
    (isDay (cs.take 10) && match cs.drop 10 with
      | 'T' :: r => isTime isOffset r
      | 't' :: r => isTime isOffset r
      | _ => false)

/-! ## Words -/

def ofWord? (cs : List Char) : Option Toml :=
  if cs = ['t', 'r', 'u', 'e'] then some (.bool true)
  else if cs = ['f', 'a', 'l', 's', 'e'] then some (.bool false)
  else if isDate cs then some .date
  else (integer? cs).orElse fun _ => (decimal? cs).orElse fun _ => nonFinite? cs

end Toml

end ShardCoding

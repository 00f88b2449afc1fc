import ShardCoding.Decimal.Binary
import ShardCoding.Json.Lexer

/-!
# Reading numbers

* `readWord` : an unsigned number of a word, with its own errors;
* `readFloat` : a decimal, rounded to the nearest `Float`;
* `Numeral.word?`, `Numeral.float?` : a JSON number as either of them. The latter scales a significand of one word
  by a power of ten, so that more than 15 digits may come out next to the nearest `Float`.
-/

namespace ShardCoding

/-- Why a text is not a number. -/
inductive NumberFault where
  | emptyWord
  | badDigit
  | tooLarge
  | emptyFloat
  | badFloat
  deriving DecidableEq, Repr

def NumberFault.message : NumberFault → String
  | emptyWord => "cannot parse integer from empty string"
  | badDigit => "invalid digit found in string"
  | tooLarge => "number too large to fit in target type"
  | emptyFloat => "cannot parse float from empty string"
  | badFloat => "invalid float literal"

/-! ## Words -/

/-- One more digit behind the number `n`, which stays below `limit`. -/
def appendDigit (limit n : Nat) (c : Char) : Except NumberFault Nat :=
  if isDigit c then
    let n' := 10 * n + digitValue c
    if n' < limit then .ok n' else .error .tooLarge
  else .error .badDigit

/-- Digits, with an optional plus in front of them. -/
def readWord (limit : Nat) (s : String) : Except NumberFault Nat :=
  match s.toList with
  | [] => .error .emptyWord
  | ['+'] => .error .badDigit
  | '+' :: ds => ds.foldlM (appendDigit limit) 0
  | ds => ds.foldlM (appendDigit limit) 0

/-! ## Floats -/

/-- `± digits * 10^exponent`. Exponents that leave no doubt are not multiplied out. -/
def decimalToFloat (negative : Bool) (digits : Nat) (exponent : Int) : Float :=
  let magnitude : Int := exponent + (natDigits digits).length
  if digits = 0 ∨ magnitude < -400 then nearest negative 0 1
  else if 400 < magnitude then nearest negative (Nat.pow 10 400) 1
  else nearest negative (digits * Nat.pow 10 exponent.toNat) (Nat.pow 10 (-exponent).toNat)

/-- The exponent that follows the digits, nothing for none. -/
def readExponent : List Char → Option Int
  | [] => some 0
  | e :: r =>
    if e ≠ 'e' ∧ e ≠ 'E' then none
    else
      let (minus, ds) := match r with
        | '-' :: r' => (true, r')
        | '+' :: r' => (false, r')
        | _ => (false, r)
      if ds.isEmpty ∨ ¬ ds.all isDigit then none
      else
        let n : Int := digitsValue ds
        some (if minus then -n else n)

/-- Digits with at most one point among, before or behind them, and an optional exponent. -/
def readUnsigned (negative : Bool) (cs : List Char) : Option Float :=
  let (whole, cs) := spanDigits cs
  let (fraction, cs) := match cs with
    | '.' :: r => spanDigits r
    | _ => ([], cs)
  if whole.isEmpty ∧ fraction.isEmpty then none
  else
    (readExponent cs).map fun e =>
      decimalToFloat negative (digitsValue (whole ++ fraction)) (e - (fraction.length : Int))

def lowerAscii (s : String) : String :=
  String.ofList (s.toList.map Char.toLower)

/-- `inf`, `infinity` and `nan` in any case, or a decimal, all with an optional sign. -/
def readFloat (s : String) : Except NumberFault Float :=
  let (negative, cs) := match s.toList with
    | '-' :: r => (true, r)
    | '+' :: r => (false, r)
    | r => (false, r)
  let word := lowerAscii (String.ofList cs)
  if s.isEmpty then .error .emptyFloat
  else if word = "inf" ∨ word = "infinity" then .ok (if negative then -1 / 0 else 1 / 0)
  else if word = "nan" then .ok (0 / 0)
  else
    match readUnsigned negative cs with
    | some x => .ok x
    | none => .error .badFloat

/-! ## JSON numbers -/

namespace Numeral

/-- A whole number below `limit`, written without fraction or exponent. -/
def word? (limit : Nat) (n : Numeral) : Option Nat :=
  let v := digitsValue n.whole
  if n.negative ∨ ¬ n.fraction.isEmpty ∨ n.exponent.isSome ∨ limit ≤ v then none else some v

/-- Digits go into a word while they fit; the exponent says what the word has to be scaled by. -/
structure Significand where
  value : Nat := 0
  exponent : Int := 0
  full : Bool := false

namespace Significand

def wordLimit : Nat := Nat.pow 2 64

/-- A digit before the point: once one does not fit, each counts as a factor of ten. -/
def pushWhole (s : Significand) (c : Char) : Significand :=
  let v := 10 * s.value + digitValue c
  if s.full ∨ wordLimit ≤ v then { s with exponent := s.exponent + 1, full := true }
  else { s with value := v }

/-- A digit behind the point: once one does not fit, it and all that follow are dropped. -/
def pushFraction (s : Significand) (c : Char) : Significand :=
  let v := 10 * s.value + digitValue c
  if s.full ∨ wordLimit ≤ v then { s with full := true }
  else { s with value := v, exponent := s.exponent - 1 }

end Significand

/-- `10^i`, rounded. -/
def powerOfTen (i : Nat) : Float := nearest false (Nat.pow 10 i) 1

/-- Divide by `10^308` until the exponent is in the range of the powers of ten. -/
def scaleDown : (fuel : Nat) → Float → Int → Float
  | 0, f, _ => f
  | fuel + 1, f, e =>
    if -308 ≤ e then f / powerOfTen (-e).toNat
    else if f == 0 then f
    else scaleDown fuel (f / powerOfTen 308) (e + 308)

/-- The scaled significand, `none` if it would be infinite. -/
def scale? (value : Nat) (e : Int) : Option Float :=
  let f := Float.ofNat value
  if e < 0 then some (scaleDown 4 f e)
  else if e ≤ 308 then
    let g := f * powerOfTen e.toNat
    if g.isInf then none else some g
  else if value = 0 then some f
  else none

/-- The exponent as written, up to a bound that settles the matter. -/
def writtenExponent (n : Numeral) : Int :=
  match n.exponent with
  | none => 0
  | some (minus, ds) =>
    let e : Int := min (digitsValue ds) (Int.pow 2 31)
    if minus then -e else e

def float? (n : Numeral) : Option Float :=
  let s := n.whole.foldl Significand.pushWhole {}
  let s := n.fraction.foldl Significand.pushFraction { s with full := false }
  (scale? s.value (s.exponent + n.writtenExponent)).map fun f => if n.negative then -f else f

end Numeral

end ShardCoding

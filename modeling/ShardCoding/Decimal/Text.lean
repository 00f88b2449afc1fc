import ShardCoding.Decimal.Shortest
import ShardCoding.Json.Basic

/-!
# Numbers as text

* `FloatFormat`, `Float` to text in shortest form: `positional`, and `mixed`, which goes over to an exponent far from 1;
* `fixedText` : a given number of places after the point, rounded half to even;
* `byteCountText` : a size in bytes for people.
-/

namespace ShardCoding

/-- How a shortest decimal is laid out. -/
structure FloatFormat where
  /-- Whether a whole number keeps `.0`. -/
  keepsPoint : Bool
  /-- The exponents of ten of the leading digit outside of which the number is written with an exponent, if any. -/
  positionalRange : Option (Int × Int)
  /-- Which of two shortest decimals is written that are equally near. -/
  tie : Tie

namespace FloatFormat

def positional : FloatFormat := ⟨false, none, .up⟩

/-- Positional from `1e-5` to below `1e16`. -/
def mixed : FloatFormat := ⟨true, some (-5, 15), .toEven⟩

end FloatFormat

/-- Digits with a point in front of the last `places`, filled up with zeros to at least one digit before the point. -/
def placePoint (digits : List Char) (places : Nat) : List Char × List Char :=
  let filled := List.replicate (places + 1 - digits.length) '0' ++ digits
  filled.splitAt (filled.length - places)

namespace Decimal

/-- The number as written: positional, or with one digit before the point and an exponent. -/
def numeral (d : Decimal) (format : FloatFormat) (negative : Bool) : Numeral :=
  let ds := natDigits d.digits
  let lead : Int := d.exponent + (ds.length - 1 : Nat)
  let isPositional := match format.positionalRange with
    | none => true
    | some (low, high) => low ≤ lead && lead ≤ high
  if isPositional then
    if 0 ≤ d.exponent then
      { negative
        whole := ds ++ List.replicate d.exponent.toNat '0'
        fraction := if format.keepsPoint then ['0'] else [] }
    else
      let (whole, fraction) := placePoint ds (-d.exponent).toNat
      { negative, whole, fraction }
  else
    { negative
      whole := ds.take 1
      fraction := ds.drop 1
      exponent := some (decide (lead < 0), natDigits lead.natAbs) }

end Decimal

namespace FloatFormat

/-- `none` for infinities and what is not a number. -/
def numeral? (format : FloatFormat) (x : Float) : Option Numeral :=
  (BinaryFraction.ofFloat? x).map fun b =>
    if b.mantissa = 0 then
      { negative := b.negative, whole := ['0'], fraction := if format.keepsPoint then ['0'] else [] }
    else (b.shortest format.tie).numeral format b.negative

end FloatFormat

/-- The text of infinities and of what is not a number. -/
def nonFiniteText (x : Float) : String :=
  if x.isNaN then "NaN" else if x < 0 then "-inf" else "inf"

/-! ## A fixed number of places -/

/-- `x` with `places` digits after the point; the sign of a zero stays. -/
def fixedText (places : Nat) (x : Float) : String :=
  match BinaryFraction.ofFloat? x with
  | none => nonFiniteText x
  | some b =>
    let scaled :=
      roundHalfEven (b.mantissa * Nat.pow 2 b.exponent.toNat * Nat.pow 10 places) (Nat.pow 2 (-b.exponent).toNat)
    let (whole, fraction) := placePoint (natDigits scaled) places
    String.ofList ((if b.negative then ['-'] else []) ++ whole ++ (if places = 0 then [] else '.' :: fraction))

/-- Blanks in front, up to `width` characters. -/
def padLeft (width : Nat) (s : String) : String :=
  String.ofList (List.replicate (width - s.length) ' ') ++ s

/-- Blanks behind, up to `width` characters. -/
def padRight (width : Nat) (s : String) : String :=
  s ++ String.ofList (List.replicate (width - s.length) ' ')

/-- In the largest unit of which there is at least one. -/
def byteCountText (n : Nat) : String :=
  let kb := 1024
  let mb := kb * 1024
  let gb := mb * 1024
  let inUnit (unit : Nat) := fixedText 2 (Float.ofNat n / Float.ofNat unit)
  if gb ≤ n then inUnit gb ++ " GB"
  else if mb ≤ n then inUnit mb ++ " MB"
  else if kb ≤ n then inUnit kb ++ " KB"
  else s!"{n} bytes"

end ShardCoding

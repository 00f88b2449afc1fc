/-!
# Binary fractions

A finite `Float` is `(-1)^sign * mantissa * 2^exponent` for whole numbers.

* `BinaryFraction` : those numbers; `ofFloat?`, `toFloat`;
* `nearest num den` : the `Float` nearest to a quotient, a tie going to the even mantissa.
-/

namespace ShardCoding

structure BinaryFraction where
  negative : Bool
  mantissa : Nat
  exponent : Int
  deriving DecidableEq, Repr

namespace BinaryFraction

/-- The exponent of the smallest positive `Float`. -/
def minExponent : Int := -1074

/-- `none` for infinities and what is not a number. -/
def ofFloat? (x : Float) : Option BinaryFraction :=
  let bits := x.toBits.toNat
  let negative := Nat.pow 2 63 ≤ bits
  let biased := bits / Nat.pow 2 52 % Nat.pow 2 11
  let fraction := bits % Nat.pow 2 52
  if biased = 2047 then none
  else if biased = 0 then some ⟨negative, fraction, minExponent⟩
  else some ⟨negative, Nat.pow 2 52 + fraction, minExponent + (biased - 1 : Nat)⟩

/-- The `Float` of a mantissa of at most 53 bits, with all of them if the exponent is not the least; infinite if the
exponent is too large. -/
def toFloat (b : BinaryFraction) : Float :=
  let sign := if b.negative then Nat.pow 2 63 else 0
  let above := (b.exponent - minExponent).toNat
  -- a mantissa of 54 bits, which rounding up can make, carries into the exponent
  let magnitude := if b.mantissa < Nat.pow 2 52 then b.mantissa else above * Nat.pow 2 52 + b.mantissa
  Float.ofBits (sign + min magnitude (2047 * Nat.pow 2 52)).toUInt64

end BinaryFraction

/-- `num / den` rounded to a whole number, half-way cases to the even one. -/
def roundHalfEven (num den : Nat) : Nat :=
  let q := num / den
  let r := num % den
  if 2 * r < den then q
  else if den < 2 * r then q + 1
  else q + q % 2

/-- The `Float` nearest to `± num / den`, a tie going to the even mantissa. -/
def nearest (negative : Bool) (num den : Nat) : Float :=
  -- the quotient lies in `[2^52, 2^54)` once divided by `2^e`
  let e := max ((num.log2 : Int) - den.log2 - 53) BinaryFraction.minExponent
  let scaled (e : Int) : Nat :=
    if 0 ≤ e then roundHalfEven num (den * Nat.pow 2 e.toNat) else roundHalfEven (num * Nat.pow 2 (-e).toNat) den
  let e := if Nat.pow 2 53 ≤ scaled e then e + 1 else e
  BinaryFraction.toFloat ⟨negative, scaled e, e⟩

end ShardCoding

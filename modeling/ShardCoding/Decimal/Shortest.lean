import ShardCoding.Decimal.Binary

/-!
# The shortest decimal that reads back

Between the midpoints to its neighbours every decimal reads back as the same `Float`; the midpoints themselves do so
if the mantissa is even.

* `Decimal` : `digits * 10^exponent`; `Tie` : which of two decimals counts that are equally near;
* `Interval` : the decimals that read back; `shortest` : the one with the fewest digits, and of those the nearest.
-/

namespace ShardCoding

structure Decimal where
  digits : Nat
  exponent : Int
  deriving DecidableEq, Repr

inductive Tie where
  /-- The one whose last digit is even. -/
  | toEven
  /-- The greater one. -/
  | up
  deriving DecidableEq, Repr

/-- The numbers from `low * 2^exponent` to `high * 2^exponent` about `middle * 2^exponent`. -/
structure Interval where
  low : Nat
  middle : Nat
  high : Nat
  exponent : Int
  closed : Bool

namespace Interval

/-- The gap below a power of two is half of the one above. -/
def around (b : BinaryFraction) : Interval where
  low := 4 * b.mantissa - (if b.mantissa = Nat.pow 2 52 ∧ BinaryFraction.minExponent < b.exponent then 1 else 2)
  middle := 4 * b.mantissa
  high := 4 * b.mantissa + 2
  exponent := b.exponent - 2
  closed := b.mantissa % 2 = 0

/-- Whole numbers in the proportion of `m * 2^exponent` and `d.digits * 10^d.exponent`. -/
def proportion (m : Nat) (exponent : Int) (d : Decimal) : Nat × Nat :=
  (m * Nat.pow 2 exponent.toNat * Nat.pow 10 (-d.exponent).toNat,
    d.digits * Nat.pow 10 d.exponent.toNat * Nat.pow 2 (-exponent).toNat)

def contains (i : Interval) (d : Decimal) : Bool :=
  let (low, x) := proportion i.low i.exponent d
  let (high, _) := proportion i.high i.exponent d
  if i.closed then low ≤ x && x ≤ high else low < x && x < high

/-- The distance of `d` from the middle, in units that depend on `d.exponent` alone. -/
def distance (i : Interval) (d : Decimal) : Nat :=
  let (m, x) := proportion i.middle i.exponent d
  max m x - min m x

/-- The middle rounded down to a multiple of `10^exponent`. -/
def floorAt (i : Interval) (exponent : Int) : Decimal :=
  let (m, unit) := proportion i.middle i.exponent ⟨1, exponent⟩
  ⟨m / unit, exponent⟩

/-- The multiple of `10^exponent` in the interval that is nearest to the middle. -/
def nearestAt? (i : Interval) (tie : Tie) (exponent : Int) : Option Decimal :=
  let below := i.floorAt exponent
  let above : Decimal := ⟨below.digits + 1, exponent⟩
  match i.contains below, i.contains above with
  | false, false => none
  | true, false => some below
  | false, true => some above
  | true, true =>
    let d := i.distance below
    let u := i.distance above
    if d < u ∨ (d = u ∧ tie = .toEven ∧ below.digits % 2 = 0) then some below else some above

/-- The greatest power of ten up to the middle: as an estimate from the binary exponent, then corrected. -/
def leadingExponent (i : Interval) : Int :=
  let estimate := ((i.middle.log2 : Int) + i.exponent) * 30103 / 100000
  if (i.floorAt (estimate + 1)).digits ≠ 0 then estimate + 1
  else if (i.floorAt estimate).digits ≠ 0 then estimate
  else estimate - 1

end Interval

/-- Zeros at the end go to the exponent. -/
def Decimal.normalize : (places : Nat) → Decimal → Decimal
  | 0, d => d
  | places + 1, d => if d.digits % 10 = 0 then normalize places ⟨d.digits / 10, d.exponent + 1⟩ else d

/-- The decimal of fewest digits that reads back as `b`, a positive number: the first of 1 to 17 digits that has one
in the interval of `b`. -/
def BinaryFraction.shortest (b : BinaryFraction) (tie : Tie) : Decimal :=
  let i := Interval.around b
  let lead := i.leadingExponent
  let found := (List.range 17).findSome? fun (n : Nat) => i.nearestAt? tie (lead - n)
  (found.getD (i.floorAt (lead - 16))).normalize 17

end ShardCoding

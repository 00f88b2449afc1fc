/-!
# The field with 256 elements

Bytes are the polynomials over two elements of degree below 8, modulo `x^8 + x^4 + x^3 + x^2 + 1`. Addition is
exclusive or; products go through the discrete logarithm to the base `x`, which generates every nonzero element.

* `double a` : `a` times `x`;
* `exp i`, `log a` : the tables of powers of `x` and of their exponents;
* `mul`, `div?`, `inv?`, `pow` : the field operations, the partial ones `none` where the divisor is zero;
* `mulAcc c src dst` : `dst + c * src`, byte by byte.
-/

namespace ShardCoding

/-- A byte string. -/
abbrev Bytes := List UInt8

namespace GF256

/-- The number of nonzero elements. -/
def groupOrder : Nat := 255

/-- The coefficients of the modulus, `x^8 + x^4 + x^3 + x^2 + 1`. -/
def modulus : Nat := 0x11D

/-- `a` times `x`: the shifted byte, less the modulus when it overflows. -/
def double (a : UInt8) : UInt8 :=
  (a <<< 1) ^^^ (if a < 0x80 then 0 else modulus.toUInt8)

/-- `a`, `x a`, `x^2 a`, ..., `n` entries. -/
def orbit : Nat → UInt8 → List UInt8
  | 0, _ => []
  | n + 1, a => a :: orbit n (double a)

/-- `x^i` for `i` below twice the group order, so that a sum of two logarithms needs no reduction. -/
def expTable : Array UInt8 := (orbit (2 * groupOrder) 1).toArray

/-- The exponent of each nonzero element; zero, which has none, is entered as 0. -/
def logTable : Array Nat :=
  ((orbit groupOrder 1).zipIdx.foldl (fun t (a, i) => t.setIfInBounds a.toNat i) (Array.replicate 256 0))

def exp (i : Nat) : UInt8 := expTable.getD i 0

def log (a : UInt8) : Nat := logTable.getD a.toNat 0

def mul (a b : UInt8) : UInt8 :=
  if a = 0 ∨ b = 0 then 0 else exp (log a + log b)

def div? (a b : UInt8) : Option UInt8 :=
  if b = 0 then none
  else if a = 0 then some 0
  else some (exp ((log a + groupOrder - log b) % groupOrder))

def inv? (a : UInt8) : Option UInt8 :=
  if a = 0 then none else some (exp (groupOrder - log a))

/-- `base` multiplied by itself, `1` for the exponent 0 even of a zero base. -/
def pow (base : UInt8) (exponent : Nat) : UInt8 :=
  Nat.repeat (mul · base) exponent 1

/-- `dst + c * src` byte by byte; the zero and unit coefficients need no table. -/
def mulAcc (c : UInt8) (src dst : Bytes) : Bytes :=
  if c = 0 then dst
  else if c = 1 then List.zipWith (· ^^^ ·) dst src
  else
    let shift := log c
    List.zipWith (fun d s => if s = 0 then d else d ^^^ exp (shift + log s)) dst src

/-- The modulus in hexadecimal. -/
def description : String :=
  "GaloisField \x7b poly: 0x" ++ String.ofList (Nat.toDigits 16 modulus) ++ " \x7d"

end GF256

end ShardCoding

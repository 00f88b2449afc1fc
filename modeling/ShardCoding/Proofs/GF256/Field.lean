import Mathlib.Algebra.CharP.Two
import Mathlib.Algebra.Field.Basic
import Mathlib.Tactic.Ring
import ShardCoding.Proofs.GF256.Orbit

/-!
# Bytes form a field

* `product` : the carry-less product of two bytes, reduced by the modulus, without tables; `product_eq_mul`;
* `F256` : bytes with exclusive or and this product; they form a field of characteristic two;
* `F256.mk_mul`, `mk_inv?`, `mk_pow` : what the table operations compute in it.
-/

namespace ShardCoding.GF256

open Function

/-! ## Products by table -/

protected theorem mul_comm (a b : UInt8) : mul a b = mul b a := by
  unfold mul
  simp only [Nat.add_comm (log a), or_comm (a := a = 0)]

@[simp] protected theorem mul_zero (a : UInt8) : mul a 0 = 0 := by
  rw [mul, if_pos (Or.inr rfl)]

@[simp] protected theorem zero_mul (a : UInt8) : mul 0 a = 0 := by
  rw [mul, if_pos (Or.inl rfl)]

/-- The product with a power of `x` is so many doublings. -/
theorem mul_iterate (a : UInt8) (i : Nat) : mul a (double^[i] 1) = double^[i] a := by
  by_cases ha : a = 0
  · rw [ha, GF256.zero_mul, iterate_double_zero]
  · have hi : i % groupOrder < groupOrder := Nat.mod_lt _ (by decide)
    have hlog := log_lt ha
    rw [← iterate_mod_groupOrder i 1, ← iterate_mod_groupOrder i a, mul,
      if_neg (by simp [ha, iterate_double_ne_zero]), log_iterate hi, exp_eq (by omega), Nat.add_comm, iterate_add_apply,
      iterate_log ha]

theorem mul_xor (a b c : UInt8) : mul a (b ^^^ c) = mul a b ^^^ mul a c := by
  by_cases ha : a = 0
  · simp [ha]
  · obtain ⟨i, -, rfl⟩ := exists_iterate ha
    rw [GF256.mul_comm _ (b ^^^ c), GF256.mul_comm _ b, GF256.mul_comm _ c, mul_iterate, mul_iterate, mul_iterate,
      iterate_double_xor]

protected theorem mul_assoc (a b c : UInt8) : mul (mul a b) c = mul a (mul b c) := by
  by_cases hb : b = 0
  · simp [hb]
  by_cases hc : c = 0
  · simp [hc]
  obtain ⟨i, -, rfl⟩ := exists_iterate hb
  obtain ⟨j, -, rfl⟩ := exists_iterate hc
  rw [mul_iterate, mul_iterate, mul_iterate, ← iterate_add_apply, ← iterate_add_apply, mul_iterate]

@[simp] protected theorem mul_one (a : UInt8) : mul a 1 = a := mul_iterate a 0

theorem mul_inv {a : UInt8} (ha : a ≠ 0) : mul a (exp (groupOrder - log a)) = 1 := by
  have hlog := log_lt ha
  rw [exp_eq (by omega), mul_iterate]
  calc double^[groupOrder - log a] a = double^[groupOrder - log a] (double^[log a] 1) := by rw [iterate_log ha]
    _ = double^[groupOrder] 1 := by rw [← iterate_add_apply, Nat.sub_add_cancel (by omega)]
    _ = 1 := iterate_groupOrder_one

/-! ## Products of polynomials -/

/-- The product of `a` with the `n` low bits of `b`, as polynomials over two elements. -/
def carryless : Nat → Nat → Nat → Nat
  | 0, _, _ => 0
  | n + 1, a, b => carryless n a b ^^^ (if b.testBit n then a <<< n else 0)

/-- The remainder by `modulus` of a polynomial of degree below `n + 8`, its leading coefficients cleared in turn. -/
def remainder : Nat → Nat → Nat
  | 0, p => p
  | n + 1, p => remainder n (p ^^^ (if p.testBit (n + 8) then modulus <<< n else 0))

/-- The product of two bytes as polynomials, modulo `x^8 + x^4 + x^3 + x^2 + 1`. -/
def product (a b : UInt8) : UInt8 := (remainder 7 (carryless 8 a.toNat b.toNat)).toUInt8

theorem xor_xor_xor_comm (a b c d : Nat) : (a ^^^ b) ^^^ (c ^^^ d) = (a ^^^ c) ^^^ (b ^^^ d) := by
  rw [Nat.xor_assoc, Nat.xor_assoc, ← Nat.xor_assoc b, Nat.xor_comm b c, Nat.xor_assoc c]

theorem carryless_xor_left (n a a' b : Nat) :
    carryless n (a ^^^ a') b = carryless n a b ^^^ carryless n a' b := by
  induction n with
  | zero => simp [carryless]
  | succ n ih =>
    rw [carryless, carryless, carryless, ih, xor_xor_xor_comm]
    cases b.testBit n <;> simp [Nat.shiftLeft_xor_distrib]

theorem carryless_xor_right (n a b b' : Nat) :
    carryless n a (b ^^^ b') = carryless n a b ^^^ carryless n a b' := by
  induction n with
  | zero => simp [carryless]
  | succ n ih =>
    rw [carryless, carryless, carryless, ih, xor_xor_xor_comm, Nat.testBit_xor]
    cases b.testBit n <;> cases b'.testBit n <;> simp

theorem remainder_xor (n p q : Nat) : remainder n (p ^^^ q) = remainder n p ^^^ remainder n q := by
  induction n generalizing p q with
  | zero => rfl
  | succ n ih =>
    rw [remainder, remainder, remainder, ← ih, xor_xor_xor_comm, Nat.testBit_xor]
    cases p.testBit (n + 8) <;> cases q.testBit (n + 8) <;> simp

theorem xor_product (a a' b : UInt8) : product (a ^^^ a') b = product a b ^^^ product a' b := by
  unfold product
  rw [UInt8.toNat_xor, carryless_xor_left, remainder_xor]
  exact UInt8.ofNat_xor _ _

theorem product_xor (a b b' : UInt8) : product a (b ^^^ b') = product a b ^^^ product a b' := by
  unfold product
  rw [UInt8.toNat_xor, carryless_xor_right, remainder_xor]
  exact UInt8.ofNat_xor _ _

/-- **The tables compute the product of polynomials**: both are linear in each factor and agree on powers of `x`. -/
theorem product_eq_mul (a b : UInt8) : product a b = mul a b := by
  refine eq_of_forall_bit (product_xor a) (mul_xor a) (fun j hj => ?_) b
  rw [mul_iterate]
  refine eq_of_forall_bit (f := (product · (double^[j] 1))) (fun a a' => xor_product a a' _) (iterate_double_xor j)
    (fun i hi => ?_) a
  have hbit : ∀ i < 8, (double^[i] 1).toNat = 2 ^ i := by decide
  have hprod : ∀ i < 8, ∀ j < 8, carryless 8 (2 ^ i) (2 ^ j) = 2 ^ (j + i) := by decide +kernel
  have hrem : ∀ d < 15, remainder 7 (2 ^ d) = (double^[d] 1).toNat := by decide +kernel
  rw [product, hbit i hi, hbit j hj, hprod i hi j hj, hrem _ (by omega), iterate_add_apply]
  exact UInt8.ofNat_toNat

end ShardCoding.GF256

namespace ShardCoding

/-- A byte as an element of the field with 256 elements. -/
structure F256 where
  byte : UInt8
  deriving DecidableEq

namespace F256

instance : Zero F256 := ⟨⟨0⟩⟩
instance : One F256 := ⟨⟨1⟩⟩
instance : Add F256 := ⟨fun a b => ⟨a.byte ^^^ b.byte⟩⟩
instance : Neg F256 := ⟨id⟩
instance : Mul F256 := ⟨fun a b => ⟨GF256.product a.byte b.byte⟩⟩
instance : Inv F256 := ⟨fun a => ⟨(GF256.inv? a.byte).getD 0⟩⟩

theorem mk_zero : (⟨0⟩ : F256) = 0 := rfl

theorem mk_one : (⟨1⟩ : F256) = 1 := rfl

theorem mk_xor (a b : UInt8) : (⟨a ^^^ b⟩ : F256) = ⟨a⟩ + ⟨b⟩ := rfl

theorem mk_mul (a b : UInt8) : (⟨GF256.mul a b⟩ : F256) = ⟨a⟩ * ⟨b⟩ :=
  congrArg mk (GF256.product_eq_mul a b).symm

theorem mk_eq_zero {a : UInt8} : (⟨a⟩ : F256) = 0 ↔ a = 0 :=
  ⟨fun h => congrArg byte h, fun h => congrArg mk h⟩

theorem add_self (a : F256) : a + a = 0 := congrArg mk UInt8.xor_self

instance : CommRing F256 where
  add_assoc a b c := congrArg mk (UInt8.xor_assoc a.byte b.byte c.byte)
  zero_add a := congrArg mk UInt8.zero_xor
  add_zero a := congrArg mk UInt8.xor_zero
  add_comm a b := congrArg mk (UInt8.xor_comm a.byte b.byte)
  neg_add_cancel a := add_self a
  nsmul := nsmulRec
  zsmul := zsmulRec
  mul_assoc a b c := by
    rw [← mk_mul a.byte b.byte, ← mk_mul b.byte c.byte, ← mk_mul, ← mk_mul, GF256.mul_assoc]
  one_mul a := by rw [← mk_one, ← mk_mul, GF256.mul_comm, GF256.mul_one]
  mul_one a := by rw [← mk_one, ← mk_mul, GF256.mul_one]
  zero_mul a := by rw [← mk_zero, ← mk_mul, GF256.zero_mul]
  mul_zero a := by rw [← mk_zero, ← mk_mul, GF256.mul_zero]
  left_distrib a b c := by
    rw [← mk_mul a.byte b.byte, ← mk_mul a.byte c.byte, ← mk_xor b.byte c.byte, ← mk_mul, ← mk_xor, GF256.mul_xor]
  right_distrib a b c := by
    rw [← mk_mul a.byte c.byte, ← mk_mul b.byte c.byte, ← mk_xor a.byte b.byte, ← mk_mul, ← mk_xor, GF256.mul_comm,
      GF256.mul_xor, GF256.mul_comm c.byte, GF256.mul_comm c.byte]
  mul_comm a b := by rw [← mk_mul, ← mk_mul, GF256.mul_comm]

theorem inv_def (a : F256) : a⁻¹ = ⟨(GF256.inv? a.byte).getD 0⟩ := rfl

theorem mk_inv? {a b : UInt8} (h : GF256.inv? a = some b) : (⟨a⟩ : F256) * ⟨b⟩ = 1 := by
  unfold GF256.inv? at h
  split at h
  · simp at h
  · next ha =>
    rw [← mk_mul, ← Option.some.inj h, GF256.mul_inv ha, mk_one]

instance : Field F256 where
  exists_pair_ne := ⟨0, 1, by decide⟩
  mul_inv_cancel a ha := by
    have hne : a.byte ≠ 0 := fun h => ha (mk_eq_zero.2 h)
    have hinv : GF256.inv? a.byte = some (GF256.exp (GF256.groupOrder - GF256.log a.byte)) := if_neg hne
    rw [inv_def, hinv, Option.getD_some]
    exact mk_inv? (a := a.byte) hinv
  inv_zero := by rfl
  nnqsmul := _
  nnqsmul_def := fun _ _ => rfl
  qsmul := _
  qsmul_def := fun _ _ => rfl

instance : CharP F256 2 := CharTwo.of_one_ne_zero_of_two_eq_zero one_ne_zero (by rw [← one_add_one_eq_two, add_self])

theorem mk_pow (a : UInt8) (n : Nat) : (⟨GF256.pow a n⟩ : F256) = ⟨a⟩ ^ n := by
  induction n with
  | zero => rfl
  | succ n ih =>
    rw [pow_succ, ← ih, ← mk_mul]
    rfl

end F256

end ShardCoding

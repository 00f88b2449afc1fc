import ShardCoding.Proofs.GF256.Field

/-!
# Powers

Repeated multiplication is the exponentiation of the field, so its laws hold for every base, zero included. The power of
a nonzero base is one entry of the table of powers of `x`: exponents count modulo `groupOrder`.

* `GF256.pow_add`, `pow_mul`, `mul_pow` : sums and products of exponents, products of bases;
* `pow_eq_iterate` : a power of a nonzero base as so many doublings; `pow_eq_exp` : where the table holds it;
* `pow_ne_zero`, `pow_eq_of_mod_eq` : it is never zero and has the period `groupOrder`;
* `pow_exponentiates` : all of these.
-/

namespace ShardCoding.GF256

open Function

protected theorem pow_zero (b : UInt8) : pow b 0 = 1 := rfl

protected theorem pow_succ (b : UInt8) (e : Nat) : pow b (e + 1) = mul (pow b e) b := rfl

/-! ## The laws of exponents -/

protected theorem pow_add (b : UInt8) (e f : Nat) : pow b (e + f) = mul (pow b e) (pow b f) := by
  apply F256.mk.inj
  rw [F256.mk_mul, F256.mk_pow, F256.mk_pow, F256.mk_pow, pow_add]

protected theorem pow_mul (b : UInt8) (e f : Nat) : pow (pow b e) f = pow b (e * f) := by
  apply F256.mk.inj
  rw [F256.mk_pow, F256.mk_pow, F256.mk_pow, pow_mul]

protected theorem mul_pow (a b : UInt8) (e : Nat) : pow (mul a b) e = mul (pow a e) (pow b e) := by
  apply F256.mk.inj
  rw [F256.mk_mul, F256.mk_pow, F256.mk_pow, F256.mk_pow, F256.mk_mul, mul_pow]

/-! ## Powers in the table -/

section Nonzero

variable {b : UInt8} (hb : b ≠ 0)
include hb

/-- Each factor adds the logarithm of the base to the number of doublings. -/
theorem pow_eq_iterate (e : Nat) : pow b e = double^[log b * e] 1 := by
  induction e with
  | zero => rw [GF256.pow_zero, Nat.mul_zero, iterate_zero_apply]
  | succ e ih =>
    calc pow b (e + 1) = mul (double^[log b * e] 1) (double^[log b] 1) := by rw [GF256.pow_succ, ih, iterate_log hb]
      _ = double^[log b + log b * e] 1 := by rw [mul_iterate, iterate_add_apply]
      _ = double^[log b * (e + 1)] 1 := by rw [Nat.mul_succ, Nat.add_comm]

theorem pow_eq_exp (e : Nat) : pow b e = exp (log b * e % groupOrder) := by
  have hlt : log b * e % groupOrder < groupOrder := Nat.mod_lt _ (by decide)
  rw [exp_eq (by omega), iterate_mod_groupOrder]
  exact pow_eq_iterate hb e

protected theorem pow_ne_zero (e : Nat) : pow b e ≠ 0 := by
  rw [pow_eq_iterate hb]
  exact iterate_double_ne_zero _

theorem pow_eq_of_mod_eq {e f : Nat} (h : e % groupOrder = f % groupOrder) : pow b e = pow b f := by
  rw [pow_eq_exp hb, pow_eq_exp hb, ← Nat.mul_mod_mod, h, Nat.mul_mod_mod]

end Nonzero

/-- **Repeated multiplication is exponentiation**: for every base, zero included, powers of one base multiply by adding
exponents, a power of a power has the product of the exponents, and the power of a product is the product of the powers.
The power of a nonzero base is the entry of the table of powers at the logarithm times the exponent, reduced by
`groupOrder`; it is never zero, and exponents that differ by a multiple of `groupOrder` give the same power. -/
theorem pow_exponentiates (a b : UInt8) (e f : Nat) :
    pow b (e + f) = mul (pow b e) (pow b f) ∧ pow (pow b e) f = pow b (e * f) ∧
      pow (mul a b) e = mul (pow a e) (pow b e) ∧
      (b ≠ 0 → pow b e = exp (log b * e % groupOrder) ∧ pow b e ≠ 0 ∧
        (e % groupOrder = f % groupOrder → pow b e = pow b f)) := by
  refine ⟨GF256.pow_add b e f, GF256.pow_mul b e f, GF256.mul_pow a b e, fun hb => ⟨?_, ?_, ?_⟩⟩
  · exact pow_eq_exp hb e
  · exact GF256.pow_ne_zero hb e
  · intro h
    exact pow_eq_of_mod_eq hb h

/-- The exponents 11 and 266 of `x + 1`, whose logarithm is 25. -/
theorem pow_exponentiates_three :
    (3 : UInt8) ≠ 0 ∧ 11 % groupOrder = 266 % groupOrder ∧ pow 3 11 = exp 20 ∧ pow 3 11 ≠ 0 ∧ pow 3 11 = pow 3 266 ∧
      pow 3 (11 + 266) = mul (pow 3 11) (pow 3 266) := by
  obtain ⟨hsum, -, -, hnonzero⟩ := pow_exponentiates 0 3 11 266
  obtain ⟨hexp, hne, hperiod⟩ := hnonzero (by decide)
  have hlog : log 3 = 25 := log_iterate (i := 25) (by decide)
  have hmod : 11 % groupOrder = 266 % groupOrder := by decide
  have hindex : 25 * 11 % groupOrder = 20 := by decide
  rw [hlog, hindex] at hexp
  exact ⟨by decide, hmod, hexp, hne, hperiod hmod, hsum⟩

end ShardCoding.GF256

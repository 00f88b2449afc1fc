import Mathlib.Data.FinEnum
import Mathlib.Dynamics.PeriodicPts.Defs
import ShardCoding.GF256

/-!
# The powers of `x`

Doubling is linear, and doubling from 1 visits every nonzero byte once before it is back at 1, so the two tables are
inverse to each other.

* `double_xor` : doubling is linear; `eq_of_forall_bit` : linear functions that agree on single bits are equal;
* `minimalPeriod_double` : doubling from 1 takes `groupOrder` steps to return;
* `exp_eq`, `log_exp`, `exp_log` : what the tables hold; `exists_exp` : every nonzero byte is in them.
-/

namespace ShardCoding.GF256

open Function

/-! ## Doubling is linear -/

theorem lt_topBit_iff (a : UInt8) : a < 0x80 ↔ a.toBitVec.msb = false := by
  rw [BitVec.msb_eq_decide]
  simp [UInt8.lt_iff_toNat_lt]

theorem double_xor (a b : UInt8) : double (a ^^^ b) = double a ^^^ double b := by
  unfold double
  simp only [lt_topBit_iff, UInt8.toBitVec_xor, BitVec.msb_xor, UInt8.shiftLeft_xor]
  cases a.toBitVec.msb <;> cases b.toBitVec.msb
  · simp
  · simp [UInt8.xor_assoc]
  · simp only [Bool.xor_false, Bool.true_eq_false, if_false, if_true, UInt8.xor_zero, UInt8.xor_assoc]
    rw [UInt8.xor_comm (b <<< 1)]
  · simp only [Bool.xor_self, Bool.true_eq_false, if_false, if_true, UInt8.xor_zero, UInt8.xor_assoc]
    rw [UInt8.xor_comm modulus.toUInt8, UInt8.xor_assoc, UInt8.xor_self, UInt8.xor_zero]

@[simp] theorem double_zero : double 0 = 0 := by decide

@[simp] theorem iterate_double_zero (n : Nat) : double^[n] 0 = 0 :=
  iterate_fixed double_zero n

theorem iterate_double_xor (n : Nat) (a b : UInt8) : double^[n] (a ^^^ b) = double^[n] a ^^^ double^[n] b := by
  induction n generalizing a b with
  | zero => rfl
  | succ n ih => rw [iterate_succ_apply, double_xor, ih, ← iterate_succ_apply, ← iterate_succ_apply]

/-- The sum of the `n` low bits of `a`. -/
def sumBits : Nat → Nat → Nat
  | 0, _ => 0
  | n + 1, a => sumBits n a ^^^ (if a.testBit n then 2 ^ n else 0)

theorem sumBits_eq (n a : Nat) : sumBits n a = a % 2 ^ n := by
  induction n with
  | zero => simp [sumBits, Nat.mod_one]
  | succ n ih =>
    apply Nat.eq_of_testBit_eq
    intro j
    have hbit : (sumBits (n + 1) a).testBit j = if j = n then a.testBit n else (a % 2 ^ n).testBit j := by
      rw [sumBits, ih]
      by_cases hj : j = n
      · subst hj
        cases h : a.testBit j <;> simp
      · cases h : a.testBit n <;> simp [hj, Ne.symm hj]
    rw [hbit, Nat.testBit_mod_two_pow, Nat.testBit_mod_two_pow]
    by_cases hj : j = n
    · simp [hj]
    · simp [hj, show j < n + 1 ↔ j < n by omega]

/-- A byte is the sum of its bits, so what holds of zero, of every bit and of sums holds of every byte. -/
theorem induction_bits {p : UInt8 → Prop} (zero : p 0) (bit : ∀ i < 8, p (double^[i] 1))
    (xor : ∀ a b, p a → p b → p (a ^^^ b)) (a : UInt8) : p a := by
  have hbit : ∀ i < 8, UInt8.ofNat (2 ^ i) = double^[i] 1 := by decide
  have hsum : ∀ n ≤ 8, p (UInt8.ofNat (sumBits n a.toNat)) := by
    intro n
    induction n with
    | zero => exact fun _ => zero
    | succ n ih =>
      intro hn
      rw [sumBits, UInt8.ofNat_xor]
      refine xor _ _ (ih (by omega)) ?_
      split
      · rw [hbit n hn]
        exact bit n hn
      · exact zero
  have h := hsum 8 le_rfl
  rwa [sumBits_eq, Nat.mod_eq_of_lt a.toNat_lt, UInt8.ofNat_toNat] at h

theorem eq_of_forall_bit {f g : UInt8 → UInt8} (hf : ∀ a b, f (a ^^^ b) = f a ^^^ f b)
    (hg : ∀ a b, g (a ^^^ b) = g a ^^^ g b) (h : ∀ i < 8, f (double^[i] 1) = g (double^[i] 1)) (a : UInt8) :
    f a = g a := by
  have hz : ∀ k : UInt8 → UInt8, (∀ a b, k (a ^^^ b) = k a ^^^ k b) → k 0 = 0 := by
    intro k hk
    simpa using hk 0 0
  induction a using induction_bits with
  | zero => rw [hz f hf, hz g hg]
  | bit i hi => exact h i hi
  | xor a b ha hb => rw [hf, hg, ha, hb]

/-! ## Doubling from 1 visits every nonzero byte -/

theorem iterate_groupOrder_one : double^[groupOrder] 1 = 1 := by decide +kernel

theorem iterate_double_comm (m n : Nat) (a : UInt8) : double^[m] (double^[n] a) = double^[n] (double^[m] a) := by
  rw [← iterate_add_apply, ← iterate_add_apply, Nat.add_comm]

@[simp] theorem iterate_groupOrder (a : UInt8) : double^[groupOrder] a = a := by
  refine eq_of_forall_bit (f := double^[groupOrder]) (g := id) (iterate_double_xor _) (fun _ _ => rfl) ?_ a
  intro i _
  rw [iterate_double_comm, iterate_groupOrder_one]
  rfl

theorem iterate_mod_groupOrder (n : Nat) (a : UInt8) : double^[n % groupOrder] a = double^[n] a :=
  IsPeriodicPt.iterate_mod_apply (f := double) (n := groupOrder) (iterate_groupOrder a) n

theorem double_injective : Injective double := by
  intro a b h
  have hback : ∀ c, double^[254] (double c) = c := fun c => iterate_groupOrder c
  rw [← hback a, h, hback]

/-- The period divides `groupOrder` and none of the greatest proper divisors of `groupOrder`. -/
theorem minimalPeriod_double : minimalPeriod double 1 = groupOrder := by
  have hdvd : minimalPeriod double 1 ∣ groupOrder := IsPeriodicPt.minimalPeriod_dvd iterate_groupOrder_one
  have hnot : ∀ d ∈ [15, 51, 85], ¬ minimalPeriod double 1 ∣ d := by
    intro d hd h
    have hper : double^[d] 1 = 1 := isPeriodicPt_iff_minimalPeriod_dvd.2 h
    have hne : ∀ d ∈ [15, 51, 85], double^[d] 1 ≠ 1 := by decide +kernel
    exact hne d hd hper
  generalize minimalPeriod double 1 = p at *
  have hdivisors : ∀ p ≤ groupOrder, p ∣ groupOrder → p = groupOrder ∨ ∃ d ∈ [15, 51, 85], p ∣ d := by decide +kernel
  rcases hdivisors p (Nat.le_of_dvd (by decide) hdvd) hdvd with h | ⟨d, hd, h⟩
  · exact h
  · exact absurd h (hnot d hd)

theorem iterate_inj {i j : Nat} (hi : i < groupOrder) (hj : j < groupOrder)
    (h : double^[i] 1 = double^[j] 1) : i = j :=
  iterate_injOn_Iio_minimalPeriod (f := double) (x := 1) (by rwa [minimalPeriod_double])
    (by rwa [minimalPeriod_double]) h

theorem iterate_double_ne_zero (i : Nat) : double^[i] 1 ≠ 0 := by
  intro h
  have := double_injective.iterate i (h.trans (iterate_double_zero i).symm)
  exact absurd this (by decide)

/-- The orbit has as many members as there are nonzero bytes. -/
theorem exists_iterate {a : UInt8} (ha : a ≠ 0) : ∃ i < groupOrder, double^[i] 1 = a := by
  have hsub : (Finset.range groupOrder).image (double^[·] 1) ⊆ Finset.univ.erase 0 := by
    intro b hb
    obtain ⟨i, -, rfl⟩ := Finset.mem_image.1 hb
    exact Finset.mem_erase.2 ⟨iterate_double_ne_zero i, Finset.mem_univ _⟩
  have hcard : (Finset.univ.erase (0 : UInt8)).card ≤ ((Finset.range groupOrder).image (double^[·] 1)).card := by
    rw [Finset.card_image_of_injOn, Finset.card_range, Finset.card_erase_of_mem (Finset.mem_univ _),
      Finset.card_univ, ← FinEnum.card_eq_fintypeCard]
    · exact le_of_eq rfl
    · intro i hi j hj h
      exact iterate_inj (Finset.mem_range.1 hi) (Finset.mem_range.1 hj) h
  have hmem : a ∈ (Finset.range groupOrder).image (double^[·] 1) := by
    rw [Finset.eq_of_subset_of_card_le hsub hcard]
    exact Finset.mem_erase.2 ⟨ha, Finset.mem_univ _⟩
  obtain ⟨i, hi, h⟩ := Finset.mem_image.1 hmem
  exact ⟨i, Finset.mem_range.1 hi, h⟩

/-! ## The tables -/

@[simp] theorem length_orbit (n : Nat) (a : UInt8) : (orbit n a).length = n := by
  induction n generalizing a with
  | zero => rfl
  | succ n ih => rw [orbit, List.length_cons, ih]

theorem getElem_orbit (n : Nat) (a : UInt8) (i : Nat) (hi : i < (orbit n a).length) :
    (orbit n a)[i] = double^[i] a := by
  induction n generalizing a i with
  | zero => simp at hi
  | succ n ih =>
    cases i with
    | zero => rfl
    | succ i =>
      rw [iterate_succ_apply]
      exact ih (double a) i (by simpa using hi)

theorem exp_eq {i : Nat} (hi : i < 2 * groupOrder) : exp i = double^[i] 1 := by
  rw [exp, expTable, Array.getD_eq_getD_getElem?, List.getElem?_toArray,
    List.getElem?_eq_getElem (by simpa using hi), Option.getD_some, getElem_orbit]

/-- Entering the position of each byte of a list without repetitions, last position first if it is read backwards. -/
theorem getElem?_foldl_enter (l : List UInt8) (hl : l.Nodup) (t : Array Nat) (ht : t.size = 256) :
    (l.zipIdx.foldl (fun t (a, i) => t.setIfInBounds a.toNat i) t).size = 256 ∧
      ∀ i (hi : i < l.length),
        (l.zipIdx.foldl (fun t (a, i) => t.setIfInBounds a.toNat i) t)[l[i].toNat]? = some i := by
  induction l using List.reverseRecOn with
  | nil => exact ⟨ht, fun i hi => by simp at hi⟩
  | append_singleton l a ih =>
    obtain ⟨hsize, hget⟩ := ih (List.nodup_append.1 hl).1
    have ha : a ∉ l := fun h => (List.nodup_append.1 hl).2.2 a h a (List.mem_singleton_self a) rfl
    rw [List.zipIdx_append, List.foldl_append]
    simp only [List.zipIdx_cons, List.zipIdx_nil, List.foldl_cons, List.foldl_nil, Nat.zero_add,
      Array.size_setIfInBounds]
    refine ⟨hsize, fun i hi => ?_⟩
    by_cases hlt : i < l.length
    · have hne : a.toNat ≠ l[i].toNat := by
        intro h
        rw [UInt8.toNat_inj.1 h] at ha
        exact ha (List.getElem_mem hlt)
      rw [List.getElem_append_left hlt, Array.getElem?_setIfInBounds_ne hne, hget i hlt]
    · have : i = l.length := by
        simp only [List.length_append, List.length_singleton] at hi
        omega
      subst this
      rw [List.getElem_append_right le_rfl]
      simp only [Nat.sub_self, List.getElem_singleton]
      rw [Array.getElem?_setIfInBounds_self_of_lt (by rw [hsize]; exact a.toNat_lt)]

theorem log_iterate {i : Nat} (hi : i < groupOrder) : log (double^[i] 1) = i := by
  have hnodup : (orbit groupOrder 1).Nodup := by
    rw [List.nodup_iff_injective_getElem]
    rintro ⟨i, hi⟩ ⟨j, hj⟩ h
    simp only [getElem_orbit] at h
    exact Fin.ext (iterate_inj (by simpa using hi) (by simpa using hj) h)
  have h := (getElem?_foldl_enter (orbit groupOrder 1) hnodup (Array.replicate 256 0) (by simp)).2 i (by simpa using hi)
  rw [getElem_orbit] at h
  rw [log, logTable, Array.getD_eq_getD_getElem?, h, Option.getD_some]

theorem log_exp {i : Nat} (hi : i < groupOrder) : log (exp i) = i := by
  rw [exp_eq (by omega), log_iterate hi]

theorem log_lt {a : UInt8} (ha : a ≠ 0) : log a < groupOrder := by
  obtain ⟨i, hi, rfl⟩ := exists_iterate ha
  rwa [log_iterate hi]

theorem iterate_log {a : UInt8} (ha : a ≠ 0) : double^[log a] 1 = a := by
  obtain ⟨i, hi, rfl⟩ := exists_iterate ha
  rw [log_iterate hi]

theorem exp_log {a : UInt8} (ha : a ≠ 0) : exp (log a) = a := by
  have := log_lt ha
  rw [exp_eq (by omega), iterate_log ha]

end ShardCoding.GF256

import ShardCoding.Proofs.ByteMatrix.Vector

/-!
# Accumulating multiples of byte strings

What a sequence of accumulations does to the bytes depends on the sum of the multiples alone.

* `accumulate_eq` : accumulations that add the same do the same; `accumulate_perm` : their order makes no difference;
* `getElem?_mulAcc` : each byte after an accumulation, with the product written without tables;
* `mulAcc_mulAcc`, `mulAcc_self`, `mulAcc_comm` : two accumulations from one source are one, the same one twice is none,
  and those from different sources commute;
* `mulAcc_linear` : what an accumulation does.
-/

namespace ShardCoding

open GF256

section Sequences

variable {n : Nat} {steps steps' : List (UInt8 × Bytes)} {dst : Bytes}

theorem accumulate_eq (h : ∀ s ∈ steps, s.2.length = n) (h' : ∀ s ∈ steps', s.2.length = n) (hdst : dst.length = n)
    (heq : multiples n steps = multiples n steps') : accumulate steps dst = accumulate steps' dst := by
  apply eq_of_vec_eq (length_accumulate h hdst) (length_accumulate h' hdst)
  rw [vec_accumulate h hdst, vec_accumulate h' hdst, heq]

theorem accumulate_perm (hperm : steps.Perm steps') (h : ∀ s ∈ steps, s.2.length = n) (hdst : dst.length = n) :
    accumulate steps dst = accumulate steps' dst := by
  apply accumulate_eq h (fun s hs => h s (hperm.mem_iff.2 hs)) hdst
  exact (hperm.map _).sum_eq

end Sequences

namespace GF256

variable (c d : UInt8) {src src' dst : Bytes}

@[simp] theorem zero_mulAcc (src dst : Bytes) : mulAcc 0 src dst = dst := if_pos rfl

theorem getElem?_mulAcc (h : src.length = dst.length) {i : Nat} (hi : i < dst.length) :
    (mulAcc c src dst)[i]? = some (dst[i] ^^^ product c src[i]) := by
  have hsrc : i < src.length := by omega
  rw [mulAcc_eq c h, List.getElem?_zipWith, List.getElem?_eq_getElem hi, List.getElem?_eq_getElem hsrc, product_eq_mul]

theorem mulAcc_mulAcc (h : src.length = dst.length) : mulAcc d src (mulAcc c src dst) = mulAcc (c ^^^ d) src dst := by
  show accumulate [(c, src), (d, src)] dst = accumulate [(c ^^^ d, src)] dst
  apply accumulate_eq (by simpa) (by simpa) rfl
  simp [multiples, F256.mk_xor, add_smul]

theorem mulAcc_self (h : src.length = dst.length) : mulAcc c src (mulAcc c src dst) = dst := by
  rw [mulAcc_mulAcc c c h, UInt8.xor_self, zero_mulAcc]

theorem mulAcc_comm (h : src.length = dst.length) (h' : src'.length = dst.length) :
    mulAcc d src' (mulAcc c src dst) = mulAcc c src (mulAcc d src' dst) := by
  show accumulate [(c, src), (d, src')] dst = accumulate [(d, src'), (c, src)] dst
  apply accumulate_perm (List.Perm.swap (d, src') (c, src) []) _ rfl
  simp [h, h']

/-- **Accumulation is a linear action**: for every coefficient and all byte strings of one length, the byte of `dst` at
each place becomes its sum with the product of the coefficient and the byte of `src` there. So two accumulations from
one source are one with the sum of the coefficients, the same accumulation twice restores `dst`, and accumulations from
different sources commute. -/
theorem mulAcc_linear (c d : UInt8) (src src' dst : Bytes) (h : src.length = dst.length)
    (h' : src'.length = dst.length) :
    (mulAcc c src dst).length = dst.length ∧
      (∀ i (hi : i < dst.length), (mulAcc c src dst)[i]? = some (dst[i] ^^^ product c src[i])) ∧
      mulAcc d src (mulAcc c src dst) = mulAcc (c ^^^ d) src dst ∧
      mulAcc c src (mulAcc c src dst) = dst ∧
      mulAcc d src' (mulAcc c src dst) = mulAcc c src (mulAcc d src' dst) := by
  refine ⟨length_mulAcc c h, fun i hi => ?_, ?_, ?_, ?_⟩
  · exact getElem?_mulAcc c h hi
  · exact mulAcc_mulAcc c d h
  · exact mulAcc_self c h
  · exact mulAcc_comm c d h h'

/-- A zero, a one and an overflowing byte as the source, with the coefficients `x` and `x + 1`, whose sum is 1. -/
theorem mulAcc_linear_three :
    ([0, 1, 0x80] : Bytes).length = ([9, 9, 9] : Bytes).length ∧
      ([7, 0, 255] : Bytes).length = ([9, 9, 9] : Bytes).length ∧
      (mulAcc 2 [0, 1, 0x80] [9, 9, 9])[0]? = some 9 ∧ (mulAcc 2 [0, 1, 0x80] [9, 9, 9])[2]? = some 0x14 ∧
      mulAcc 3 [0, 1, 0x80] (mulAcc 2 [0, 1, 0x80] [9, 9, 9]) = mulAcc 1 [0, 1, 0x80] [9, 9, 9] ∧
      mulAcc 2 [0, 1, 0x80] (mulAcc 2 [0, 1, 0x80] [9, 9, 9]) = [9, 9, 9] ∧
      mulAcc 3 [7, 0, 255] (mulAcc 2 [0, 1, 0x80] [9, 9, 9]) =
        mulAcc 2 [0, 1, 0x80] (mulAcc 3 [7, 0, 255] [9, 9, 9]) := by
  obtain ⟨-, hbytes, hsum, htwice, hcomm⟩ := mulAcc_linear 2 3 [0, 1, 0x80] [7, 0, 255] [9, 9, 9] rfl rfl
  have hzero : 9 ^^^ product 2 0 = 9 := by decide
  have hoverflow : 9 ^^^ product 2 0x80 = 0x14 := by decide
  refine ⟨rfl, rfl, ?_, ?_, hsum, htwice, hcomm⟩
  · exact (hbytes 0 (by decide)).trans (congrArg some hzero)
  · exact (hbytes 2 (by decide)).trans (congrArg some hoverflow)

end GF256

end ShardCoding

import Mathlib.Algebra.BigOperators.Fin
import Mathlib.Data.List.GetD
import Mathlib.Data.Matrix.Mul
import ShardCoding.ByteMatrix.Basic
import ShardCoding.Proofs.GF256.Field

/-!
# Byte strings as vectors

* `vec n b` : the first `n` bytes of `b` as a vector over `F256`; byte operations on it (`vec_mulAcc`, `vec_map_mul`);
* `grid r c lines` : `r` byte strings as the rows of a matrix; equal grids of lines of one length are equal lines
  (`eq_of_grid_eq`);
* `accumulate` : accumulations one after another add the `multiples` of their sources (`vec_accumulate`);
* `vec_foldl_mulAcc` : a fold of `mulAcc` is a product of a vector and a grid.
-/

namespace ShardCoding

open GF256

/-- The first `n` bytes of `b`, with zeros past its end. -/
def vec (n : Nat) (b : Bytes) : Fin n → F256 := fun j => ⟨b.getD j 0⟩

/-- The lines as rows, with empty lines past the last. -/
def grid (r c : Nat) (lines : List Bytes) : Matrix (Fin r) (Fin c) F256 := fun i => vec c (lines.getD i [])

theorem vec_apply {n : Nat} {b : Bytes} (j : Fin n) (hj : (j : Nat) < b.length) : vec n b j = ⟨b[(j : Nat)]⟩ := by
  unfold vec
  rw [List.getD_eq_getElem _ _ hj]

theorem grid_apply {r : Nat} (c : Nat) {lines : List Bytes} (i : Fin r) (hi : (i : Nat) < lines.length) :
    grid r c lines i = vec c lines[(i : Nat)] := by
  unfold grid
  rw [List.getD_eq_getElem _ _ hi]

theorem eq_of_vec_eq {n : Nat} {a b : Bytes} (ha : a.length = n) (hb : b.length = n) (h : vec n a = vec n b) :
    a = b := by
  refine List.ext_getElem (ha.trans hb.symm) fun j hj hj' => ?_
  have hbyte := congrFun h ⟨j, ha ▸ hj⟩
  rw [vec_apply _ hj, vec_apply _ hj'] at hbyte
  exact congrArg F256.byte hbyte

theorem eq_of_grid_eq {r c : Nat} {x y : List Bytes} (hx : x.length = r) (hy : y.length = r)
    (hxc : ∀ l ∈ x, l.length = c) (hyc : ∀ l ∈ y, l.length = c) (h : grid r c x = grid r c y) : x = y := by
  refine List.ext_getElem (hx.trans hy.symm) fun i hi hi' => ?_
  have hrow := congrFun h ⟨i, hx ▸ hi⟩
  rw [grid_apply c _ hi, grid_apply c _ hi'] at hrow
  exact eq_of_vec_eq (hxc _ (List.getElem_mem hi)) (hyc _ (List.getElem_mem hi')) hrow

@[simp] theorem vec_replicate_zero (n m : Nat) : vec n (List.replicate m 0) = 0 := by
  funext j
  unfold vec
  by_cases hj : (j : Nat) < m <;> simp [List.getD_eq_getElem?_getD, hj] <;> rfl

/-! ## Multiples and sums of byte strings -/

theorem vec_map_mul (n : Nat) (c : UInt8) (b : Bytes) : vec n (b.map (mul · c)) = (⟨c⟩ : F256) • vec n b := by
  funext j
  unfold vec
  rw [Pi.smul_apply, smul_eq_mul, ← F256.mk_mul, GF256.mul_comm c, List.getD_eq_getElem?_getD, List.getElem?_map,
    List.getD_eq_getElem?_getD]
  cases b[(j : Nat)]? <;> simp

/-- The three cases of the accumulation are one. -/
theorem mulAcc_eq (c : UInt8) {src dst : Bytes} (h : src.length = dst.length) :
    mulAcc c src dst = List.zipWith (fun d s => d ^^^ mul c s) dst src := by
  unfold mulAcc
  split
  · next hc =>
    refine List.ext_getElem (by simp [h]) fun j hj _ => ?_
    simp [hc]
  · split
    · next hc =>
      subst hc
      congr 1
      funext d s
      rw [GF256.mul_comm, GF256.mul_one]
    · next hc _ =>
      dsimp only
      congr 1
      funext d s
      by_cases hs : s = 0 <;> simp [mul, hc, hs]

theorem length_mulAcc (c : UInt8) {src dst : Bytes} (h : src.length = dst.length) :
    (mulAcc c src dst).length = dst.length := by
  simp [mulAcc_eq c h, h]

theorem vec_mulAcc {n : Nat} (c : UInt8) {src dst : Bytes} (hs : src.length = n) (hd : dst.length = n) :
    vec n (mulAcc c src dst) = vec n dst + (⟨c⟩ : F256) • vec n src := by
  have h : src.length = dst.length := hs.trans hd.symm
  funext j
  have hjd : (j : Nat) < dst.length := hd ▸ j.2
  have hjs : (j : Nat) < src.length := hs ▸ j.2
  rw [vec_apply j (by rwa [length_mulAcc c h]), Pi.add_apply, Pi.smul_apply, smul_eq_mul, vec_apply j hjd,
    vec_apply j hjs, ← F256.mk_mul, ← F256.mk_xor]
  simp [mulAcc_eq c h]

/-! ## Sums of multiples -/

/-- Each coefficient times its source added to `dst`, one after another. -/
def accumulate (steps : List (UInt8 × Bytes)) (dst : Bytes) : Bytes :=
  steps.foldl (fun sum (c, src) => mulAcc c src sum) dst

/-- The sum of the multiples of the sources. -/
def multiples (n : Nat) (steps : List (UInt8 × Bytes)) : Fin n → F256 :=
  (steps.map fun (c, src) => (⟨c⟩ : F256) • vec n src).sum

section Accumulate

variable {n : Nat} {steps : List (UInt8 × Bytes)} {dst : Bytes}

theorem length_accumulate (h : ∀ s ∈ steps, s.2.length = n) (hdst : dst.length = n) :
    (accumulate steps dst).length = n := by
  induction steps generalizing dst with
  | nil => exact hdst
  | cons s steps ih =>
    have hs : s.2.length = n := h s List.mem_cons_self
    apply ih fun t ht => h t (List.mem_cons_of_mem s ht)
    exact (length_mulAcc s.1 (hs.trans hdst.symm)).trans hdst

theorem vec_accumulate (h : ∀ s ∈ steps, s.2.length = n) (hdst : dst.length = n) :
    vec n (accumulate steps dst) = vec n dst + multiples n steps := by
  induction steps generalizing dst with
  | nil => exact (add_zero _).symm
  | cons s steps ih =>
    have hs : s.2.length = n := h s List.mem_cons_self
    have hacc : (mulAcc s.1 s.2 dst).length = n := (length_mulAcc s.1 (hs.trans hdst.symm)).trans hdst
    calc vec n (accumulate (s :: steps) dst)
        = vec n (mulAcc s.1 s.2 dst) + multiples n steps := ih (fun t ht => h t (List.mem_cons_of_mem s ht)) hacc
      _ = vec n dst + ((⟨s.1⟩ : F256) • vec n s.2 + multiples n steps) := by rw [vec_mulAcc s.1 hs hdst, add_assoc]
      _ = vec n dst + multiples n (s :: steps) := by rw [multiples, multiples, List.map_cons, List.sum_cons]

end Accumulate

/-- The multiples of the lines add up to their grid times the vector of the coefficients. -/
theorem multiples_zip (n : Nat) (coefficients : Bytes) {lines : List Bytes}
    (hlen : coefficients.length = lines.length) : multiples n (coefficients.zip lines) =
      Matrix.vecMul (vec lines.length coefficients) (grid lines.length n lines) := by
  induction lines generalizing coefficients with
  | nil =>
    funext j
    simp [multiples, Matrix.vecMul, dotProduct]
  | cons line lines ih =>
    obtain _ | ⟨c, coefficients⟩ := coefficients
    · simp at hlen
    have hrest := ih coefficients (by simpa using hlen)
    funext j
    calc multiples n ((c, line) :: coefficients.zip lines) j
        = (⟨c⟩ : F256) * vec n line j + multiples n (coefficients.zip lines) j := by
          simp only [multiples, List.map_cons, List.sum_cons, Pi.add_apply, Pi.smul_apply, smul_eq_mul]
      _ = Matrix.vecMul (vec (line :: lines).length (c :: coefficients))
            (grid (line :: lines).length n (line :: lines)) j := by
          rw [hrest]
          simp only [Matrix.vecMul, dotProduct, List.length_cons, Fin.sum_univ_succ]
          rfl

theorem length_foldl_mulAcc {n : Nat} (coefficients : Bytes) {lines : List Bytes} (hn : ∀ l ∈ lines, l.length = n)
    {sum : Bytes} (hsum : sum.length = n) :
    ((coefficients.zip lines).foldl (fun sum (c, line) => mulAcc c line sum) sum).length = n :=
  length_accumulate (fun s hs => hn s.2 (List.of_mem_zip hs).2) hsum

/-- Adding up multiples of the lines is multiplying their grid by the vector of the coefficients. -/
theorem vec_foldl_mulAcc {n : Nat} (coefficients : Bytes) {lines : List Bytes}
    (hlen : coefficients.length = lines.length) (hn : ∀ l ∈ lines, l.length = n) {sum : Bytes} (hsum : sum.length = n) :
    vec n ((coefficients.zip lines).foldl (fun sum (c, line) => mulAcc c line sum) sum) =
      vec n sum + Matrix.vecMul (vec lines.length coefficients) (grid lines.length n lines) := by
  rw [← multiples_zip n coefficients hlen]
  exact vec_accumulate (fun s hs => hn s.2 (List.of_mem_zip hs).2) hsum

end ShardCoding

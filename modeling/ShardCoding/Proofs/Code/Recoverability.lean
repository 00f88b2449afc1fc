import Mathlib.Algebra.CharP.Two
import Mathlib.Algebra.Polynomial.EraseLead
import Mathlib.Algebra.Polynomial.OfFn
import Mathlib.Algebra.Polynomial.Roots
import Mathlib.Tactic.ComputeDegree
import Mathlib.Tactic.LinearCombination
import ShardCoding.Proofs.Code.Reconstruction

/-!
# Which selections are recoverable

A vector that the selected rows take to zero is the coefficients of a polynomial: a data row reads one of them, and a
parity row the value at its point.

* `Code.Obstruction` : a polynomial that stands against a selection; `recoverable_iff` : there is none exactly when the
  selection is recoverable;
* `recoverable_of_lt_add_two` : nothing obstructs a selection with no parity shard but the first two;
  `recoverable_of_few` : at most two parity or at most three data shards leave no obstruction to any selection;
* `BurstSelection` : all data shards but a block of them, and any parity shards instead; `BurstSelection.recoverable`;
* `not_recoverable_wideSelection` : with more than two parity and three data shards, some selection is obstructed.
-/

namespace ShardCoding

open Matrix Polynomial

/-! ## Polynomials with few terms -/

namespace F256

theorem two_pow (n : Nat) : (⟨2⟩ : F256) ^ n = ⟨GF256.double^[n] 1⟩ := by
  have htwo : (2 : UInt8) = GF256.double^[1] 1 := by decide
  induction n with
  | zero => rfl
  | succ n ih =>
    rw [pow_succ', ih, htwo, ← mk_mul, GF256.mul_iterate, ← Function.iterate_add_apply]

theorem two_pow_ne_one {n : Nat} (hpos : 0 < n) (hn : n < GF256.groupOrder) : (⟨2⟩ : F256) ^ n ≠ 1 := by
  intro h
  rw [two_pow, ← mk_one] at h
  exact hpos.ne' (GF256.iterate_inj hn (by decide) (congrArg byte h))

end F256

variable {f : F256[X]} {p q : F256}

theorem eq_zero_of_one_term (hcard : f.support.card ≤ 1) (hp : p ≠ 0) (hroot : f.eval p = 0) : f = 0 := by
  by_contra hf
  have hcard' : f.support.card = 1 := le_antisymm hcard (Finset.card_pos.2 (nonempty_support_iff.2 hf))
  obtain ⟨i, a, ha, rfl⟩ := card_support_eq_one.1 hcard'
  rw [eval_mul, eval_C, eval_pow, eval_X] at hroot
  exact mul_ne_zero ha (pow_ne_zero i hp) hroot

/-- The roots of a polynomial with two terms have one power in common. -/
theorem exists_pow_eq_of_two_terms (hcard : f.support.card = 2) (hp : p ≠ 0) (hq : q ≠ 0) (hfp : f.eval p = 0)
    (hfq : f.eval q = 0) : ∃ d, 0 < d ∧ d ≤ f.natDegree ∧ p ^ d = q ^ d := by
  obtain ⟨i, j, hij, a, b, ha, hb, rfl⟩ := card_support_eq_two.1 hcard
  have hpow : ∀ r : F256, r ≠ 0 → (C a * X ^ i + C b * X ^ j).eval r = 0 → a = b * r ^ (j - i) := by
    intro r hr hroot
    simp only [eval_add, eval_mul, eval_C, eval_pow, eval_X] at hroot
    rw [← Nat.add_sub_of_le hij.le, pow_add] at hroot
    have hfactor : r ^ i * (a + b * r ^ (j - i)) = 0 := by linear_combination hroot
    exact CharTwo.add_eq_zero.1 ((mul_eq_zero.1 hfactor).resolve_left (pow_ne_zero i hr))
  refine ⟨j - i, by omega, (Nat.sub_le j i).trans (le_natDegree_of_ne_zero ?_), ?_⟩
  · rw [coeff_add, coeff_C_mul_X_pow, coeff_C_mul_X_pow, if_neg (by omega), if_pos rfl, zero_add]
    exact hb
  · exact mul_left_cancel₀ hb ((hpow p hp hfp).symm.trans (hpow q hq hfq))

namespace Code

variable {code : Code} {selected : List Nat}

/-! ## The points of the parity rows -/

theorem point_inj {i j : Nat} (hi : code.scheme.data ≤ i) (hin : i < code.scheme.total) (hj : code.scheme.data ≤ j)
    (hjn : j < code.scheme.total) (h : code.point i = code.point j) : i = j := by
  have hbyte := congrArg UInt8.toNat (congrArg F256.byte h)
  have hmax : code.scheme.total ≤ 255 := code.total_le
  simp only [point, Nat.toUInt8_eq, UInt8.toNat_ofNat'] at hbyte
  omega

theorem point_ne_zero {i : Nat} (hin : i < code.scheme.total) : code.point i ≠ 0 := by
  intro h
  have hbyte := congrArg UInt8.toNat (F256.mk_eq_zero.1 h)
  have hmax : code.scheme.total ≤ 255 := code.total_le
  have hpos := code.valid.1
  simp only [Nat.toUInt8_eq, UInt8.toNat_ofNat', UInt8.toNat_zero] at hbyte
  omega

/-! ## Obstructions -/

/-- A polynomial of degree below `k` other than zero that has no term at the selected data indices and a root at the
point of every selected parity row. -/
structure Obstruction (code : Code) (selected : List Nat) (f : F256[X]) : Prop where
  ne_zero : f ≠ 0
  degree_lt : f.degree < code.scheme.data
  coeff_eq_zero : ∀ i ∈ selected, i < code.scheme.data → f.coeff i = 0
  eval_eq_zero : ∀ i ∈ selected, code.scheme.data ≤ i → f.eval (code.point i) = 0

/-- A row of the generator reads a coefficient or a value of the polynomial. -/
theorem coefficients_dotProduct (i : Fin code.scheme.total) (v : Fin code.scheme.data → F256) :
    code.coefficients i ⬝ᵥ v =
      if (i : Nat) < code.scheme.data then (ofFn _ v).coeff i else (ofFn _ v).eval (code.point i) := by
  split
  · next hi => rw [coefficients_data code i hi, single_one_dotProduct, ofFn_coeff_eq_val_of_lt v hi]
  · next hi =>
    rw [ofFn_eq_sum_monomial, eval_finsetSum]
    refine Finset.sum_congr rfl fun j _ => ?_
    rw [coefficients_parity code i (Nat.not_lt.1 hi), eval_monomial, mul_comm]

theorem mulVec_eq_zero_iff (hlen : selected.length = code.scheme.data) (hlt : ∀ i ∈ selected, i < code.scheme.total)
    (v : Fin code.scheme.data → F256) : code.selectedRows selected *ᵥ v = 0 ↔
      (∀ i ∈ selected, i < code.scheme.data → (ofFn _ v).coeff i = 0) ∧
      ∀ i ∈ selected, code.scheme.data ≤ i → (ofFn _ v).eval (code.point i) = 0 := by
  have hrow : ∀ (j : Nat) (hj : j < selected.length) (hj' : j < code.scheme.data),
      (code.selectedRows selected *ᵥ v) ⟨j, hj'⟩ =
        if selected[j] < code.scheme.data then (ofFn _ v).coeff selected[j]
        else (ofFn _ v).eval (code.point selected[j]) := by
    intro j hj hj'
    rw [Matrix.mulVec, selectedRows_apply hlen ⟨j, hj'⟩ (hlt _ (List.getElem_mem hj))]
    exact coefficients_dotProduct ⟨selected[j], _⟩ v
  constructor
  · intro h
    refine ⟨fun i hi hdata => ?_, fun i hi hparity => ?_⟩ <;> obtain ⟨j, hj, rfl⟩ := List.getElem_of_mem hi
    · have := hrow j hj (hlen ▸ hj)
      rwa [if_pos hdata, h, Pi.zero_apply, eq_comm] at this
    · have := hrow j hj (hlen ▸ hj)
      rwa [if_neg (Nat.not_lt.2 hparity), h, Pi.zero_apply, eq_comm] at this
  · rintro ⟨hcoeff, heval⟩
    funext ⟨j, hj⟩
    have hmem := List.getElem_mem (show j < selected.length by rwa [hlen])
    rw [hrow j (by rwa [hlen]) hj, Pi.zero_apply]
    split
    · next hdata => exact hcoeff _ hmem hdata
    · next hparity => exact heval _ hmem (Nat.not_lt.1 hparity)

/-- **Which selections are recoverable**: exactly those that no polynomial obstructs. -/
theorem recoverable_iff (hlen : selected.length = code.scheme.data) (hlt : ∀ i ∈ selected, i < code.scheme.total) :
    code.Recoverable selected ↔ ¬ ∃ f, code.Obstruction selected f := by
  rw [Recoverable, ← Matrix.mulVec_injective_iff_isUnit]
  constructor
  · rintro hinj ⟨f, hf⟩
    have hfn : ofFn code.scheme.data (toFn code.scheme.data f) = f :=
      ofFn_comp_toFn_eq_id_of_natDegree_lt ((natDegree_lt_iff_degree_lt hf.ne_zero).2 hf.degree_lt)
    have hzero : code.selectedRows selected *ᵥ toFn code.scheme.data f = 0 := by
      rw [mulVec_eq_zero_iff hlen hlt, hfn]
      exact ⟨hf.coeff_eq_zero, hf.eval_eq_zero⟩
    have := hinj (hzero.trans (Matrix.mulVec_zero _).symm)
    rw [this, map_zero] at hfn
    exact hf.ne_zero hfn.symm
  · intro hnone x y hxy
    by_contra hne
    have hzero : code.selectedRows selected *ᵥ (x - y) = 0 := by
      rw [Matrix.mulVec_sub]
      exact sub_eq_zero.2 hxy
    obtain ⟨hcoeff, heval⟩ := (mulVec_eq_zero_iff hlen hlt _).1 hzero
    refine hnone ⟨ofFn _ (x - y), fun h => hne (sub_eq_zero.1 (injective_ofFn _ ?_)), ofFn_degree_lt _, hcoeff, heval⟩
    rw [h, map_zero]

/-! ## Few shards of one kind -/

/-- The selected indices of parity shards. -/
def selectedParity (code : Code) (selected : List Nat) : Finset Nat :=
  selected.toFinset.filter (code.scheme.data ≤ ·)

theorem mem_selectedParity {i : Nat} : i ∈ code.selectedParity selected ↔ i ∈ selected ∧ code.scheme.data ≤ i := by
  simp [selectedParity]

theorem point_ne_zero_of_mem (hlt : ∀ i ∈ selected, i < code.scheme.total) {i : Nat}
    (hi : i ∈ code.selectedParity selected) : code.point i ≠ 0 :=
  point_ne_zero (hlt i (mem_selectedParity.1 hi).1)

theorem Obstruction.eval_eq_zero_of_mem (h : code.Obstruction selected f) {i : Nat}
    (hi : i ∈ code.selectedParity selected) : f.eval (code.point i) = 0 := by
  obtain ⟨hi, hik⟩ := mem_selectedParity.1 hi
  exact h.eval_eq_zero i hi hik

/-- For every parity row that is selected one data index is not. -/
theorem Obstruction.card_support_le (h : code.Obstruction selected f) (hlen : selected.length = code.scheme.data)
    (hnodup : selected.Nodup) : f.support.card ≤ (code.selectedParity selected).card := by
  have hsub : f.support ⊆ Finset.range code.scheme.data \ selected.toFinset.filter (¬ code.scheme.data ≤ ·) := by
    intro i hi
    have hik : i < code.scheme.data := by
      by_contra hge
      have hdegree : f.degree < i := h.degree_lt.trans_le (by exact_mod_cast Nat.not_lt.1 hge)
      exact mem_support_iff.1 hi (coeff_eq_zero_of_degree_lt hdegree)
    rw [Finset.mem_sdiff, Finset.mem_range, Finset.mem_filter, List.mem_toFinset]
    exact ⟨hik, fun hsel => mem_support_iff.1 hi (h.coeff_eq_zero i hsel.1 hik)⟩
  have hdata : selected.toFinset.filter (¬ code.scheme.data ≤ ·) ⊆ Finset.range code.scheme.data := by
    intro i hi
    simpa using (Finset.mem_filter.1 hi).2
  have hcard := Finset.card_filter_add_card_filter_not (s := selected.toFinset) (code.scheme.data ≤ ·)
  rw [List.toFinset_card_of_nodup hnodup, hlen] at hcard
  have hle := Finset.card_le_card hsub
  rw [Finset.card_sdiff_of_subset hdata, Finset.card_range] at hle
  unfold selectedParity
  omega

/-- A polynomial with a root at the point of every selected parity row has at least that degree. -/
theorem card_selectedParity_le_natDegree (hlt : ∀ i ∈ selected, i < code.scheme.total) {g : F256[X]} (hg : g ≠ 0)
    (hroot : ∀ i ∈ code.selectedParity selected, g.eval (code.point i) = 0) :
    (code.selectedParity selected).card ≤ g.natDegree := by
  have hinj : Set.InjOn code.point (code.selectedParity selected) := by
    intro i hi j hj hij
    obtain ⟨hi, hik⟩ := mem_selectedParity.1 hi
    obtain ⟨hj, hjk⟩ := mem_selectedParity.1 hj
    exact point_inj hik (hlt i hi) hjk (hlt j hj) hij
  rw [← Finset.card_image_of_injOn hinj]
  refine card_le_degree_of_subset_roots fun p hp => ?_
  rw [Finset.mem_val] at hp
  obtain ⟨i, hi, rfl⟩ := Finset.mem_image.1 hp
  exact (mem_roots hg).2 (hroot i hi)

theorem Obstruction.card_selectedParity_le (h : code.Obstruction selected f)
    (hlt : ∀ i ∈ selected, i < code.scheme.total) : (code.selectedParity selected).card ≤ f.natDegree :=
  card_selectedParity_le_natDegree hlt h.ne_zero fun _ hi => h.eval_eq_zero_of_mem hi

theorem Obstruction.natDegree_lt (h : code.Obstruction selected f) : f.natDegree < code.scheme.data :=
  (natDegree_lt_iff_degree_lt h.ne_zero).2 h.degree_lt

/-- Two parity rows do not have a common power below `k` when they are the first two, or when there are few data
shards. -/
theorem pow_point_ne {i j d : Nat} (hsmall : code.scheme.data ≤ 3 ∨ j < code.scheme.data + 2) (hik : code.scheme.data ≤ i)
    (hij : i < j) (hjn : j < code.scheme.total) (hpos : 0 < d) (hd : d < code.scheme.data) :
    code.point i ^ d ≠ code.point j ^ d := by
  intro h
  rcases hsmall with hk | hm
  · have hpoint : code.point i = code.point j := by
      obtain rfl | rfl : d = 1 ∨ d = 2 := by omega
      · simpa using h
      · exact CharTwo.sq_inj.1 h
    have := point_inj hik (hij.trans hjn) (hik.trans hij.le) hjn hpoint
    omega
  · rw [code.total_eq] at hjn
    have hmax : code.scheme.data + code.scheme.parity ≤ 255 := code.valid.2.2
    obtain rfl : i = code.scheme.data := by omega
    obtain rfl : j = code.scheme.data + 1 := by omega
    have hone : code.point code.scheme.data = 1 := by
      rw [point, Nat.sub_self]
      rfl
    have htwo : code.point (code.scheme.data + 1) = ⟨2⟩ := by
      rw [point, Nat.add_sub_cancel_left]
      rfl
    rw [hone, htwo, one_pow] at h
    refine F256.two_pow_ne_one hpos ?_ h.symm
    unfold GF256.groupOrder
    omega

/-- With few data shards, or with no parity shard but the first two, an obstruction could have at most two terms, too
few for its roots. -/
theorem recoverable_of_lt_add_two (hsmall : code.scheme.data ≤ 3 ∨ ∀ i ∈ selected, i < code.scheme.data + 2)
    (hlen : selected.length = code.scheme.data) (hlt : ∀ i ∈ selected, i < code.scheme.total)
    (hnodup : selected.Nodup) : code.Recoverable selected := by
  rw [recoverable_iff hlen hlt]
  rintro ⟨f, hf⟩
  have hterms := hf.card_support_le hlen hnodup
  have hroots := hf.card_selectedParity_le hlt
  have hdegree := hf.natDegree_lt
  have hpos : 0 < f.support.card := Finset.card_pos.2 (nonempty_support_iff.2 hf.ne_zero)
  have hnear : ∀ j ∈ selected, code.scheme.data ≤ 3 ∨ j < code.scheme.data + 2 := fun j hj => hsmall.imp_right (· j hj)
  have hparity : code.scheme.data ≤ 3 ∨ (code.selectedParity selected).card ≤ 2 := by
    refine hsmall.imp_right fun hsel => ?_
    have hsub : code.selectedParity selected ⊆ Finset.Ico code.scheme.data (code.scheme.data + 2) := by
      intro i hi
      obtain ⟨hi, hik⟩ := mem_selectedParity.1 hi
      exact Finset.mem_Ico.2 ⟨hik, hsel i hi⟩
    simpa using Finset.card_le_card hsub
  rcases Nat.lt_or_ge 1 f.support.card with htwo | hone
  · -- two terms at least, so that two points would have one power in common
    obtain ⟨i, hi, j, hj, hne⟩ := Finset.one_lt_card.1 (htwo.trans_le hterms)
    obtain ⟨d, hd, hdle, hpow⟩ := exists_pow_eq_of_two_terms (by omega) (point_ne_zero_of_mem hlt hi)
      (point_ne_zero_of_mem hlt hj) (hf.eval_eq_zero_of_mem hi) (hf.eval_eq_zero_of_mem hj)
    obtain ⟨hi, hik⟩ := mem_selectedParity.1 hi
    obtain ⟨hj, hjk⟩ := mem_selectedParity.1 hj
    rcases Nat.lt_or_gt_of_ne hne with hij | hij
    · exact pow_point_ne (hnear j hj) hik hij (hlt j hj) hd (by omega) hpow
    · exact pow_point_ne (hnear i hi) hjk hij (hlt i hi) hd (by omega) hpow.symm
  · obtain ⟨i, hi⟩ := Finset.card_pos.1 (hpos.trans_le hterms)
    exact hf.ne_zero (eq_zero_of_one_term hone (point_ne_zero_of_mem hlt hi) (hf.eval_eq_zero_of_mem hi))

theorem recoverable_of_few (hsmall : code.scheme.data ≤ 3 ∨ code.scheme.parity ≤ 2)
    (hlen : selected.length = code.scheme.data) (hlt : ∀ i ∈ selected, i < code.scheme.total)
    (hnodup : selected.Nodup) : code.Recoverable selected := by
  refine recoverable_of_lt_add_two (hsmall.imp_right fun hm i hi => ?_) hlen hlt hnodup
  have := hlt i hi
  rw [code.total_eq] at this
  omega

/-! ## A block of missing data shards -/

/-- An obstruction has no term outside the block, so that less the common power of `X` its degree is below the number
of its roots. -/
theorem recoverable_of_burst {first : Nat} (hlen : selected.length = code.scheme.data)
    (hlt : ∀ i ∈ selected, i < code.scheme.total)
    (houtside : ∀ i < code.scheme.data, i < first ∨ first + (code.selectedParity selected).card ≤ i → i ∈ selected) :
    code.Recoverable selected := by
  rw [recoverable_iff hlen hlt]
  rintro ⟨f, hf⟩
  have hdegree := hf.natDegree_lt
  have hzero : ∀ i, i < first ∨ first + (code.selectedParity selected).card ≤ i → f.coeff i = 0 := by
    intro i hi
    by_cases hik : i < code.scheme.data
    · exact hf.coeff_eq_zero i (houtside i hik hi) hik
    · apply coeff_eq_zero_of_natDegree_lt
      omega
  have hlead : f.coeff f.natDegree ≠ 0 := leadingCoeff_ne_zero.2 hf.ne_zero
  have hblock : first ≤ f.natDegree ∧ f.natDegree < first + (code.selectedParity selected).card := by
    by_contra hout
    apply hlead
    apply hzero
    omega
  obtain ⟨g, rfl⟩ : X ^ first ∣ f := X_pow_dvd_iff.2 fun i hi => hzero i (Or.inl hi)
  have hg : g ≠ 0 := right_ne_zero_of_mul hf.ne_zero
  have hroots : (code.selectedParity selected).card ≤ g.natDegree := by
    refine card_selectedParity_le_natDegree hlt hg fun i hi => ?_
    have heval := hf.eval_eq_zero_of_mem hi
    rw [eval_mul, eval_pow, eval_X] at heval
    exact (mul_eq_zero.1 heval).resolve_left (pow_ne_zero first (point_ne_zero_of_mem hlt hi))
  rw [natDegree_X_pow_mul first hg] at hblock
  omega

/-- The data indices outside the block of `t` from `first`. -/
def outsideBlock (code : Code) (first t : Nat) : List Nat :=
  (List.range code.scheme.data).filter fun i => i < first ∨ first + t ≤ i

theorem mem_outsideBlock {first t i : Nat} :
    i ∈ code.outsideBlock first t ↔ i < code.scheme.data ∧ (i < first ∨ first + t ≤ i) := by
  simp [outsideBlock]

theorem length_outsideBlock {first t : Nat} (h : first + t ≤ code.scheme.data) :
    (code.outsideBlock first t).length = code.scheme.data - t := by
  have hblock : ((List.range code.scheme.data).filter fun i => ¬ (i < first ∨ first + t ≤ i)).length = t := by
    have hperm : ((List.range code.scheme.data).filter fun i => ¬ (i < first ∨ first + t ≤ i)).Perm
        (List.range' first t) := by
      rw [List.perm_ext_iff_of_nodup (List.nodup_range.filter _) List.nodup_range']
      intro i
      simp only [List.mem_filter, List.mem_range, List.mem_range'_1, decide_eq_true_eq]
      omega
    rw [hperm.length_eq, List.length_range']
  have hsum := List.length_eq_length_filter_add (l := List.range code.scheme.data)
    fun i => decide (i < first ∨ first + t ≤ i)
  simp only [List.length_range, ← decide_not] at hsum
  unfold outsideBlock
  omega

/-- The data shards outside a block and as many parity shards as the block is long, in any order. -/
structure BurstSelection (code : Code) (first : Nat) (parity selected : List Nat) : Prop where
  block_le : first + parity.length ≤ code.scheme.data
  nodup : parity.Nodup
  mem_parity : ∀ i ∈ parity, code.scheme.data ≤ i ∧ i < code.scheme.total
  perm : selected.Perm (code.outsideBlock first parity.length ++ parity)

namespace BurstSelection

variable {first : Nat} {parity : List Nat}

theorem length_eq (h : code.BurstSelection first parity selected) : selected.length = code.scheme.data := by
  have := h.block_le
  rw [h.perm.length_eq, List.length_append, length_outsideBlock h.block_le]
  omega

theorem mem_iff (h : code.BurstSelection first parity selected) {i : Nat} :
    i ∈ selected ↔ (i < code.scheme.data ∧ (i < first ∨ first + parity.length ≤ i)) ∨ i ∈ parity := by
  rw [h.perm.mem_iff, List.mem_append, mem_outsideBlock]

theorem lt_total (h : code.BurstSelection first parity selected) : ∀ i ∈ selected, i < code.scheme.total := by
  intro i hi
  rcases h.mem_iff.1 hi with ⟨hik, -⟩ | hpar
  · exact Nat.lt_of_lt_of_le hik code.data_le_total
  · exact (h.mem_parity i hpar).2

theorem nodup_selected (h : code.BurstSelection first parity selected) : selected.Nodup := by
  rw [h.perm.nodup_iff, List.nodup_append]
  refine ⟨List.nodup_range.filter _, h.nodup, ?_⟩
  rintro i hi j hj rfl
  have hik := (mem_outsideBlock.1 hi).1
  have hpar := (h.mem_parity i hj).1
  omega

theorem selectedParity_eq (h : code.BurstSelection first parity selected) :
    code.selectedParity selected = parity.toFinset := by
  ext i
  rw [mem_selectedParity, h.mem_iff, List.mem_toFinset]
  constructor
  · rintro ⟨⟨hik, -⟩ | hpar, hki⟩
    · omega
    · exact hpar
  · intro hpar
    exact ⟨Or.inr hpar, (h.mem_parity i hpar).1⟩

/-- **Bursts are recoverable**: a block of data shards is made up for by any parity shards. -/
theorem recoverable (h : code.BurstSelection first parity selected) : code.Recoverable selected := by
  have houtside : ∀ i < code.scheme.data,
      i < first ∨ first + (code.selectedParity selected).card ≤ i → i ∈ selected := by
    intro i hik hi
    rw [h.selectedParity_eq, List.toFinset_card_of_nodup h.nodup] at hi
    exact h.mem_iff.2 (Or.inl ⟨hik, hi⟩)
  exact recoverable_of_burst h.length_eq h.lt_total houtside

end BurstSelection

/-! ## Many shards of both kinds -/

/-- The shards with three data shards missing, `0`, `1` and `3`, and three parity shards in their place. -/
def wideSelection (code : Code) : List Nat := 2 :: List.range' 4 (code.scheme.data - 1)

theorem take_wideSelection (hk : 4 ≤ code.scheme.data) :
    code.wideSelection.take code.scheme.data = code.wideSelection := by
  rw [List.take_of_length_le]
  rw [wideSelection, List.length_cons, List.length_range']
  omega

theorem mem_wideSelection {i : Nat} (hk : 4 ≤ code.scheme.data) (h : i ∈ code.wideSelection) :
    i = 2 ∨ 4 ≤ i ∧ i < code.scheme.data + 3 := by
  rcases List.mem_cons.1 h with rfl | h
  · exact Or.inl rfl
  · rw [List.mem_range'_1] at h
    omega

theorem selects_wideSelection (hk : 4 ≤ code.scheme.data) (hm : 3 ≤ code.scheme.parity) :
    code.Selects code.wideSelection := by
  refine ⟨?_, ?_, ?_⟩
  · rw [wideSelection, List.length_cons, List.length_range']
    omega
  · rw [take_wideSelection hk, wideSelection, List.nodup_cons, List.mem_range'_1]
    exact ⟨by omega, List.nodup_range'⟩
  · intro i hi
    rw [take_wideSelection hk] at hi
    have := mem_wideSelection hk hi
    rw [code.total_eq]
    omega

/-- The polynomial with the roots 1, 2 and 3 has no term of degree 2. -/
theorem not_recoverable_wideSelection (hk : 4 ≤ code.scheme.data) (hm : 3 ≤ code.scheme.parity) :
    ¬ code.Recoverable code.wideSelection := by
  have hsel := selects_wideSelection hk hm
  rw [← take_wideSelection hk, recoverable_iff hsel.length_take hsel.lt_total, not_not, take_wideSelection hk]
  have hdegree : (X ^ 3 + (C ⟨7⟩ * X + C ⟨6⟩) : F256[X]).degree = 3 := by compute_degree!
  refine ⟨X ^ 3 + (C ⟨7⟩ * X + C ⟨6⟩), ?_, ?_, ?_, ?_⟩
  · intro h
    rw [h, degree_zero] at hdegree
    cases hdegree
  · rw [hdegree]
    exact_mod_cast hk
  · intro i hi _
    have hi := mem_wideSelection hk hi
    rw [coeff_add, coeff_X_pow, if_neg (by omega), coeff_add, coeff_C_mul, coeff_X, if_neg (by omega), coeff_C,
      if_neg (by omega), mul_zero, add_zero, add_zero]
  · intro i hi hik
    have hi := mem_wideSelection hk hi
    obtain rfl | rfl | rfl : i = code.scheme.data ∨ i = code.scheme.data + 1 ∨ i = code.scheme.data + 2 := by omega
    all_goals simp only [eval_add, eval_pow, eval_X, eval_mul, eval_C, point, Nat.sub_self, Nat.add_sub_cancel_left]
    all_goals rfl

end Code

end ShardCoding

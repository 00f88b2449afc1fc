import Mathlib.Data.List.TakeWhile
import Mathlib.LinearAlgebra.Matrix.NonsingularInverse
import ShardCoding.ByteMatrix.Inverse
import ShardCoding.Proofs.ByteMatrix.Vector

/-!
# Elimination inverts a matrix or finds it singular

* `Augmented.Sound A` : the right block of a row tells how the left block is made of the rows of `A`;
* `Elimination.Reduced A col` : the state after `col` columns; `Reduced.step` : one more column;
* `Reduced.exists_mulVec_eq_zero` : without a pivot some nonzero vector is taken to zero;
* `invert_cases` : the outcome, an inverse or a nonzero vector taken to zero.
-/

namespace ShardCoding.ByteMatrix

open GF256 Matrix

variable {n : Nat} {A : Matrix (Fin n) (Fin n) F256}

/-! ## Row operations -/

/-- The left block of the row is the right block times `A`. -/
structure Augmented.Sound (A : Matrix (Fin n) (Fin n) F256) (a : Augmented) : Prop where
  length_left : a.left.length = n
  length_right : a.right.length = n
  left_eq : vec n a.left = vec n a.right ᵥ* A

namespace Augmented

theorem vec_left_scale (c : UInt8) (a : Augmented) : vec n (a.scale c).left = (⟨c⟩ : F256) • vec n a.left :=
  vec_map_mul n c a.left

theorem Sound.scale {a : Augmented} (h : a.Sound A) (c : UInt8) : (a.scale c).Sound A where
  length_left := by simpa [Augmented.scale] using h.length_left
  length_right := by simpa [Augmented.scale] using h.length_right
  left_eq := by
    rw [vec_left_scale, h.left_eq, ← smul_vecMul]
    exact congrArg (· ᵥ* A) (vec_map_mul n c a.right).symm

theorem vec_left_clear {p a : Augmented} (hp : p.Sound A) (ha : a.Sound A) (col : Fin n) :
    vec n (clear col p a).left = vec n a.left + vec n a.left col • vec n p.left := by
  unfold clear
  dsimp only
  split
  · next h =>
    have hz : vec n a.left col = 0 := F256.mk_eq_zero.2 h
    rw [hz, zero_smul, add_zero]
  · exact vec_mulAcc _ hp.length_left ha.length_left

theorem vec_right_clear {p a : Augmented} (hp : p.Sound A) (ha : a.Sound A) (col : Fin n) :
    vec n (clear col p a).right = vec n a.right + vec n a.left col • vec n p.right := by
  unfold clear
  dsimp only
  split
  · next h =>
    have hz : vec n a.left col = 0 := F256.mk_eq_zero.2 h
    rw [hz, zero_smul, add_zero]
  · exact vec_mulAcc _ hp.length_right ha.length_right

theorem Sound.clear {p a : Augmented} (hp : p.Sound A) (ha : a.Sound A) (col : Fin n) : (clear col p a).Sound A := by
  refine ⟨?_, ?_, ?_⟩
  · unfold Augmented.clear
    dsimp only
    split
    · exact ha.length_left
    · exact (length_mulAcc _ (hp.length_left.trans ha.length_left.symm)).trans ha.length_left
  · unfold Augmented.clear
    dsimp only
    split
    · exact ha.length_right
    · exact (length_mulAcc _ (hp.length_right.trans ha.length_right.symm)).trans ha.length_right
  · rw [vec_left_clear hp ha, vec_right_clear hp ha, add_vecMul, smul_vecMul, ← ha.left_eq, ← hp.left_eq]

/-- A row that is 1 in column `c` and 0 in the columns before it. -/
structure UnitAt (A : Matrix (Fin n) (Fin n) F256) (c : Fin n) (u : Augmented) : Prop where
  sound : u.Sound A
  left_eq : ∀ j : Fin n, (j : Nat) < c + 1 → vec n u.left j = if j = c then 1 else 0

theorem Sound.unitAt {a : Augmented} (h : a.Sound A) {c : Fin n} (hz : ∀ j : Fin n, (j : Nat) < c → vec n a.left j = 0)
    {inverse : UInt8} (hinv : inv? (a.left.getD c 0) = some inverse) : (a.scale inverse).UnitAt A c := by
  have hentry : vec n a.left c * ⟨inverse⟩ = 1 := F256.mk_inv? hinv
  refine ⟨h.scale inverse, fun j hj => ?_⟩
  rw [vec_left_scale, Pi.smul_apply, smul_eq_mul]
  split
  · next hjc => rw [hjc, mul_comm, hentry]
  · next hjc =>
    have hne : (j : Nat) ≠ c := fun h' => hjc (Fin.ext h')
    rw [hz j (by omega), mul_zero]

/-- Clearing leaves zero in column `c` and changes no column before it. -/
theorem UnitAt.vec_clear {u a : Augmented} {c : Fin n} (hu : u.UnitAt A c) (ha : a.Sound A) {j : Fin n}
    (hj : (j : Nat) < c + 1) : vec n (clear c u a).left j = if j = c then 0 else vec n a.left j := by
  rw [vec_left_clear hu.sound ha, Pi.add_apply, Pi.smul_apply, smul_eq_mul, hu.left_eq j hj]
  split
  · next hjc => rw [hjc, mul_one, F256.add_self]
  · rw [mul_zero, add_zero]

theorem UnitAt.clear_dotProduct {u a : Augmented} {c : Fin n} (hu : u.UnitAt A c) (ha : a.Sound A) {v : Fin n → F256}
    (hv : vec n u.left ⬝ᵥ v = 0) : vec n (clear c u a).left ⬝ᵥ v = vec n a.left ⬝ᵥ v := by
  rw [vec_left_clear hu.sound ha, add_dotProduct, smul_dotProduct, hv, smul_zero, add_zero]

theorem dotProduct_eq_zero_of_scale {a : Augmented} {c : Fin n} {inverse : UInt8}
    (hinv : inv? (a.left.getD c 0) = some inverse) {v : Fin n → F256}
    (hv : vec n (a.scale inverse).left ⬝ᵥ v = 0) : vec n a.left ⬝ᵥ v = 0 := by
  have hentry : vec n a.left c * ⟨inverse⟩ = 1 := F256.mk_inv? hinv
  rw [vec_left_scale, smul_dotProduct, smul_eq_mul] at hv
  rcases mul_eq_zero.1 hv with h0 | h0
  · rw [h0, mul_zero] at hentry
    exact absurd hentry.symm one_ne_zero
  · exact h0

end Augmented

/-! ## One column -/

/-- The state when the first `col` columns are done: finished rows are unit vectors there, pending ones vanish there,
and no operation so far has enlarged the kernel. -/
structure Elimination.Reduced (A : Matrix (Fin n) (Fin n) F256) (col : Nat) (e : Elimination) : Prop where
  sound : ∀ a ∈ e.pending ++ e.finished, a.Sound A
  length_finished : e.finished.length = col
  length_pending : e.pending.length + col = n
  pending_zero : ∀ a ∈ e.pending, ∀ j : Fin n, (j : Nat) < col → vec n a.left j = 0
  finished_unit : ∀ i (hi : i < e.finished.length), ∀ j : Fin n, (j : Nat) < col →
    vec n e.finished[i].left j = if (j : Nat) = i then 1 else 0
  kernel : ∀ v, (∀ a ∈ e.pending ++ e.finished, vec n a.left ⬝ᵥ v = 0) → A *ᵥ v = 0

/-- Either the column vanishes in all pending rows, or one of them becomes the finished row of the column. The entry that
is chosen has an inverse, since it is not zero. -/
theorem pivot_cases (col : Nat) (e : Elimination) :
    (pivot col e = .error .singularMatrix ∧ ∀ a ∈ e.pending, a.left.getD col 0 = 0) ∨
    ∃ before chosen after inverse, e.pending = before ++ chosen :: after ∧
      inv? (chosen.left.getD col 0) = some inverse ∧
      pivot col e = .ok {
        pending := (before ++ after).map (Augmented.clear col (chosen.scale inverse))
        finished := e.finished.map (Augmented.clear col (chosen.scale inverse)) ++ [chosen.scale inverse] } := by
  have hsplit : e.pending.takeWhile (fun a => a.left.getD col 0 = 0) ++
      e.pending.dropWhile (fun a => a.left.getD col 0 = 0) = e.pending := List.takeWhile_append_dropWhile
  unfold pivot
  rw [List.span_eq_takeWhile_dropWhile]
  cases hrest : e.pending.dropWhile (fun a => a.left.getD col 0 = 0) with
  | nil =>
    refine Or.inl ⟨rfl, fun a ha => ?_⟩
    simpa using List.dropWhile_eq_nil_iff.1 hrest a ha
  | cons chosen after =>
    right
    rw [hrest] at hsplit
    have hne : chosen.left.getD col 0 ≠ 0 := by
      have hhead := List.head?_dropWhile_not (fun a : Augmented => decide (a.left.getD col 0 = 0)) e.pending
      rw [hrest] at hhead
      simpa using hhead
    have hinv : inv? (chosen.left.getD col 0) = some _ := if_neg hne
    refine ⟨_, chosen, after, _, hsplit.symm, hinv, ?_⟩
    dsimp only
    rw [hinv]

namespace Elimination.Reduced

variable {e : Elimination} {c : Fin n} {before after : List Augmented} {chosen : Augmented} {inverse : UInt8}

theorem sound_pending (h : e.Reduced A c) : ∀ a ∈ e.pending, a.Sound A :=
  fun a ha => h.sound a (List.mem_append_left _ ha)

theorem sound_finished (h : e.Reduced A c) : ∀ a ∈ e.finished, a.Sound A :=
  fun a ha => h.sound a (List.mem_append_right _ ha)

theorem mem_pending_of_mem (hpending : e.pending = before ++ chosen :: after) :
    ∀ a ∈ before ++ after, a ∈ e.pending := by
  intro a ha
  rw [hpending]
  rcases List.mem_append.1 ha with h' | h'
  · exact List.mem_append_left _ h'
  · exact List.mem_append_right _ (List.mem_cons_of_mem _ h')

theorem unitAt (h : e.Reduced A c) (hpending : e.pending = before ++ chosen :: after)
    (hinv : inv? (chosen.left.getD c 0) = some inverse) : (chosen.scale inverse).UnitAt A c := by
  have hchosen : chosen ∈ e.pending := hpending ▸ List.mem_append_right _ List.mem_cons_self
  exact (h.sound_pending chosen hchosen).unitAt (h.pending_zero chosen hchosen) hinv

/-- Clearing keeps the finished rows unit vectors, and the new row is the one of column `c`. -/
theorem finished_unit_step (h : e.Reduced A c) {u : Augmented} (hu : u.UnitAt A c) (i : Nat)
    (hi : i < (e.finished.map (Augmented.clear c u) ++ [u]).length) (j : Fin n) (hj : (j : Nat) < c + 1) :
    vec n (e.finished.map (Augmented.clear c u) ++ [u])[i].left j = if (j : Nat) = i then 1 else 0 := by
  by_cases hlast : i < e.finished.length
  · have hic : i < c := by rwa [h.length_finished] at hlast
    rw [List.getElem_append_left (by simpa using hlast), List.getElem_map,
      hu.vec_clear (h.sound_finished _ (List.getElem_mem hlast)) hj]
    split
    · next hjc => rw [if_neg (by rw [hjc]; omega)]
    · next hjc =>
      have hne : (j : Nat) ≠ c := fun h' => hjc (Fin.ext h')
      exact h.finished_unit i hlast j (by omega)
  · have hic : i = c := by
      simp only [List.length_append, List.length_map, List.length_singleton, h.length_finished] at hi hlast
      omega
    rw [List.getElem_append_right (by simpa using Nat.le_of_not_lt hlast), List.getElem_singleton,
      hu.left_eq j hj, hic]
    simp only [Fin.ext_iff]

/-- A row and its cleared form differ by a multiple of the unit row, so both vanish where the rows of the next state
do. -/
theorem kernel_step (h : e.Reduced A c) (hpending : e.pending = before ++ chosen :: after)
    (hinv : inv? (chosen.left.getD c 0) = some inverse) {v : Fin n → F256}
    (hv : ∀ a ∈ (before ++ after).map (Augmented.clear c (chosen.scale inverse)) ++
      (e.finished.map (Augmented.clear c (chosen.scale inverse)) ++ [chosen.scale inverse]), vec n a.left ⬝ᵥ v = 0) :
    A *ᵥ v = 0 := by
  have hunit := h.unitAt hpending hinv
  have hu : vec n (chosen.scale inverse).left ⬝ᵥ v = 0 :=
    hv _ (List.mem_append_right _ (List.mem_append_right _ (List.mem_singleton_self _)))
  refine h.kernel v fun a ha => ?_
  rcases List.mem_append.1 ha with hp | hf
  · by_cases hac : a = chosen
    · exact hac ▸ Augmented.dotProduct_eq_zero_of_scale hinv hu
    · have hba : a ∈ before ++ after := by
        rw [hpending, List.mem_append, List.mem_cons] at hp
        rw [List.mem_append]
        tauto
      rw [← hunit.clear_dotProduct (h.sound_pending a hp) hu]
      exact hv _ (List.mem_append_left _ (List.mem_map_of_mem hba))
  · rw [← hunit.clear_dotProduct (h.sound_finished a hf) hu]
    exact hv _ (List.mem_append_right _ (List.mem_append_left _ (List.mem_map_of_mem hf)))

theorem step {e' : Elimination} (h : e.Reduced A c) (he : pivot c e = .ok e') : e'.Reduced A (c + 1) := by
  rcases pivot_cases c e with ⟨hnone, -⟩ | ⟨before, chosen, after, inverse, hpending, hinv, hsome⟩
  · rw [hnone] at he
    cases he
  cases he.symm.trans hsome
  have hmem := mem_pending_of_mem hpending
  have hunit := h.unitAt hpending hinv
  refine ⟨?_, ?_, ?_, ?_, h.finished_unit_step hunit, fun v hv => h.kernel_step hpending hinv hv⟩
  · intro a ha
    simp only [List.mem_append, List.mem_map, List.mem_singleton] at ha
    rcases ha with ⟨b, hb, rfl⟩ | ⟨b, hb, rfl⟩ | rfl
    · exact hunit.sound.clear (h.sound_pending b (hmem b (List.mem_append.2 hb))) c
    · exact hunit.sound.clear (h.sound_finished b hb) c
    · exact hunit.sound
  · simp [h.length_finished]
  · have hlen := h.length_pending
    rw [hpending] at hlen
    simp only [List.length_append, List.length_cons, List.length_map] at hlen ⊢
    omega
  · intro a ha j hj
    obtain ⟨b, hb, rfl⟩ := List.mem_map.1 ha
    rw [hunit.vec_clear (h.sound_pending b (hmem b hb)) hj]
    split
    · rfl
    · next hjc =>
      have hne : (j : Nat) ≠ c := fun h' => hjc (Fin.ext h')
      exact h.pending_zero b (hmem b hb) j (by omega)

end Elimination.Reduced

/-- Where no pending row has a pivot, the column depends on the ones before it: the finished rows tell how. -/
theorem Elimination.Reduced.exists_mulVec_eq_zero {e : Elimination} {c : Fin n} (h : e.Reduced A c)
    (hz : ∀ a ∈ e.pending, a.left.getD c 0 = 0) : ∃ v, v ≠ 0 ∧ A *ᵥ v = 0 := by
  have hlen := h.length_finished
  let w : Fin n → F256 := fun j =>
    if _ : (j : Nat) < e.finished.length then vec n e.finished[(j : Nat)].left c else 0
  have hw : ∀ j : Fin n, ¬ (j : Nat) < c → w j = 0 := fun j hj => dif_neg (by rwa [hlen])
  refine ⟨w + Pi.single c 1, fun h0 => ?_, h.kernel _ fun a ha => ?_⟩
  · have hc : w c + 1 = 0 := by simpa using congrFun h0 c
    rw [hw c (lt_irrefl _), zero_add] at hc
    exact one_ne_zero hc
  rw [dotProduct_add, dotProduct_single_one]
  rcases List.mem_append.1 ha with hp | hf
  · have hdot : vec n a.left ⬝ᵥ w = 0 := by
      refine Finset.sum_eq_zero fun j _ => ?_
      by_cases hj : (j : Nat) < c
      · rw [h.pending_zero a hp j hj, zero_mul]
      · rw [hw j hj, mul_zero]
    rw [hdot, zero_add]
    exact F256.mk_eq_zero.2 (hz a hp)
  · obtain ⟨i, hi, rfl⟩ := List.getElem_of_mem hf
    obtain ⟨d, rfl⟩ : ∃ d : Fin n, (d : Nat) = i := ⟨⟨i, by omega⟩, rfl⟩
    have hdot : vec n e.finished[(d : Nat)].left ⬝ᵥ w = w d := by
      refine (Finset.sum_eq_single d (fun j _ hjd => ?_) fun h' => absurd (Finset.mem_univ _) h').trans ?_
      · by_cases hj : (j : Nat) < c
        · rw [h.finished_unit d hi j hj, if_neg fun h' => hjd (Fin.ext h'), zero_mul]
        · rw [hw j hj, mul_zero]
      · rw [h.finished_unit d hi d (by omega), if_pos rfl, one_mul]
    rw [hdot, show w d = vec n e.finished[(d : Nat)].left c from dif_pos hi, F256.add_self]

/-! ## All columns -/

theorem vec_unit (i : Fin n) : vec n ((List.range n).map fun j => if (i : Nat) = j then 1 else 0) = Pi.single i 1 := by
  funext j
  rw [vec_apply j (by simp), Pi.single_apply]
  simp only [List.getElem_map, List.getElem_range]
  by_cases h : (i : Nat) = j
  · rw [if_pos h, if_pos (Fin.ext h.symm), F256.mk_one]
  · rw [if_neg h, if_neg fun h' => h (congrArg Fin.val h'.symm), F256.mk_zero]

theorem reduced_augment (m : ByteMatrix) (hr : m.rows = n) (hc : m.cols = n) :
    Elimination.Reduced (grid n n m.lines) 0 ⟨m.augment, []⟩ := by
  have hlen : m.lines.length = n := hr
  have hsize : m.augment.length = n := by simp [augment, identity, ofFn, hlen, hr]
  have hrow : ∀ i : Fin n, ∀ hi : (i : Nat) < m.augment.length, vec n m.augment[(i : Nat)].left = grid n n m.lines i ∧
      m.augment[(i : Nat)].right = (List.range n).map fun j => if (i : Nat) = j then 1 else 0 := by
    intro i hi
    rw [grid_apply n i (by omega)]
    exact ⟨by simp [augment], by simp [augment, identity, ofFn, hr]⟩
  refine ⟨?_, rfl, by simpa using hsize, fun _ _ _ hj => absurd hj (Nat.not_lt_zero _),
    fun i hi => absurd hi (Nat.not_lt_zero _), fun v hv => ?_⟩
  · intro a ha
    obtain ⟨i, hi, rfl⟩ := List.getElem_of_mem (show a ∈ m.augment by simpa using ha)
    obtain ⟨hleft, hright⟩ := hrow ⟨i, by omega⟩ hi
    refine ⟨?_, by rw [hright]; simp, ?_⟩
    · rw [show m.augment[i].left = m.lines[i] by simp [augment], m.uniform _ (List.getElem_mem _), hc]
    · rw [hleft, hright, vec_unit ⟨i, by omega⟩, single_one_vecMul]
      rfl
  · funext i
    have hi : (i : Nat) < m.augment.length := by omega
    have h0 := hv _ (List.mem_append_left _ (List.getElem_mem hi))
    rwa [(hrow i hi).1] at h0

/-- After any number of columns: the reduced state, or a nonzero vector taken to zero. -/
theorem foldlM_pivot_cases {e : Elimination} (he : e.Reduced A 0) (col : Nat) (hcol : col ≤ n) :
    (∃ e', (List.range col).foldlM (fun e col => pivot col e) e = .ok e' ∧ e'.Reduced A col) ∨
    ((List.range col).foldlM (fun e col => pivot col e) e = .error .singularMatrix ∧ ∃ v, v ≠ 0 ∧ A *ᵥ v = 0) := by
  induction col with
  | zero => exact Or.inl ⟨e, rfl, he⟩
  | succ col ih =>
    rw [List.range_succ, List.foldlM_append]
    rcases ih (by omega) with ⟨e', hrun, hred⟩ | ⟨hrun, hv⟩
    · let c : Fin n := ⟨col, by omega⟩
      have hlast : ((List.range col).foldlM (fun e col => pivot col e) e >>= fun e =>
          [col].foldlM (fun e col => pivot col e) e) = pivot col e' := by
        rw [hrun]
        show (pivot col e' >>= pure) = _
        rw [bind_pure]
      rw [hlast]
      rcases pivot_cases col e' with ⟨herr, hz⟩ | ⟨before, chosen, after, inverse, -, -, hok⟩
      · exact Or.inr ⟨herr, Elimination.Reduced.exists_mulVec_eq_zero (c := c) hred hz⟩
      · exact Or.inl ⟨_, hok, Elimination.Reduced.step (c := c) hred hok⟩
    · rw [hrun]
      exact Or.inr ⟨rfl, hv⟩

theorem lines_ofRows {lines : List Bytes} (h : ∀ l ∈ lines, l.length = n) (hlen : lines.length = n) :
    (ofRows lines).lines = lines ∧ (ofRows lines).cols = n := by
  have hcols : (lines.headD []).length = n := by
    cases lines with
    | nil => exact hlen
    | cons l lines => exact h l List.mem_cons_self
  refine ⟨?_, hcols⟩
  unfold ofRows
  dsimp only
  rw [hcols]
  refine (List.map_congr_left fun l hl => ?_).trans (List.map_id lines)
  rw [h l hl, Nat.sub_self, List.replicate_zero, List.append_nil, List.take_of_length_le (h l hl).le, id]

/-- **Inversion is correct and complete**: the outcome is a left inverse, or the matrix takes a nonzero vector to
zero. -/
theorem invert_cases (m : ByteMatrix) (hr : m.rows = n) (hc : m.cols = n) :
    (∃ b, m.invert = .ok b ∧ b.rows = n ∧ b.cols = n ∧ grid n n b.lines * grid n n m.lines = 1) ∨
    (m.invert = .error .singularMatrix ∧ ∃ v, v ≠ 0 ∧ grid n n m.lines *ᵥ v = 0) := by
  unfold invert eliminate
  rw [if_neg (by simp [hr, hc]), hr]
  rcases foldlM_pivot_cases (reduced_augment m hr hc) n le_rfl with ⟨e, hrun, he⟩ | ⟨hrun, hv⟩
  · left
    rw [hrun]
    have hsound : ∀ a ∈ e.finished, a.Sound (grid n n m.lines) := fun a ha => he.sound a (List.mem_append_right _ ha)
    have hlen : (e.finished.map (·.right)).length = n := by simpa using he.length_finished
    have hright : ∀ l ∈ e.finished.map (·.right), l.length = n := by
      intro l hl
      obtain ⟨a, ha, rfl⟩ := List.mem_map.1 hl
      exact (hsound a ha).length_right
    obtain ⟨hlines, hcols⟩ := lines_ofRows hright hlen
    refine ⟨_, rfl, by rw [rows, hlines, hlen], hcols, ?_⟩
    rw [hlines]
    funext i
    have hi : (i : Nat) < e.finished.length := by rw [he.length_finished]; exact i.2
    rw [mul_apply_eq_vecMul, grid_apply n i (by simpa using hi), List.getElem_map,
      ← (hsound _ (List.getElem_mem hi)).left_eq]
    funext j
    rw [he.finished_unit i hi j j.2, one_apply]
    simp only [Fin.ext_iff, eq_comm]
  · right
    rw [hrun]
    exact ⟨rfl, hv⟩

end ShardCoding.ByteMatrix

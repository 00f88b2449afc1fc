import ShardCoding.Proofs.ByteMatrix.Inverse

/-!
# Products and inverses of byte matrices

* `mk_dot` : the dot product of byte strings is that of their vectors; `grid_multiply` : so a product of byte matrices is
  the product of their grids;
* `eq_of_grid` : matrices of one shape with one grid are equal;
* `invert_exact` : inversion yields the inverse of each matrix that has one.
-/

namespace ShardCoding.ByteMatrix

open GF256 Matrix

/-! ## Products -/

theorem mk_foldl_xor (bytes : Bytes) (sum : UInt8) :
    (⟨bytes.foldl (· ^^^ ·) sum⟩ : F256) = ⟨sum⟩ + (bytes.map F256.mk).sum := by
  induction bytes generalizing sum with
  | nil => exact (add_zero _).symm
  | cons b bytes ih => rw [List.foldl_cons, ih, F256.mk_xor, List.map_cons, List.sum_cons, add_assoc]

theorem sum_zipWith_mul {n : Nat} {u v : Bytes} (hu : u.length = n) (hv : v.length = n) :
    ((List.zipWith mul u v).map F256.mk).sum = vec n u ⬝ᵥ vec n v := by
  induction u generalizing n v with
  | nil =>
    subst hu
    rfl
  | cons a u ih =>
    obtain _ | ⟨b, v⟩ := v
    · simp at hu hv
      omega
    obtain rfl : u.length + 1 = n := by simpa using hu
    rw [List.zipWith_cons_cons, List.map_cons, List.sum_cons, ih rfl (by simpa using hv), F256.mk_mul]
    exact (Fin.sum_univ_succ fun i => vec (u.length + 1) (a :: u) i * vec (u.length + 1) (b :: v) i).symm

theorem mk_dot {n : Nat} {u v : Bytes} (hu : u.length = n) (hv : v.length = n) :
    (⟨dot u v⟩ : F256) = vec n u ⬝ᵥ vec n v := by
  rw [dot, mk_foldl_xor, sum_zipWith_mul hu hv, F256.mk_zero, zero_add]

theorem vec_column (b : ByteMatrix) {j : Nat} (hj : j < b.cols) :
    vec b.rows (b.column j) = fun i => grid b.rows b.cols b.lines i ⟨j, hj⟩ := by
  funext i
  have hi : (i : Nat) < b.lines.length := i.2
  rw [vec_apply i (by simpa [column] using hi), grid_apply _ i hi]
  unfold vec
  simp only [column, List.getElem_map]

/-- Matrices whose shapes fit have a product, and it is that of their grids. -/
theorem grid_multiply (a b : ByteMatrix) (h : a.cols = b.rows) :
    ∃ c, a.multiply b = .ok c ∧ c.rows = a.rows ∧ c.cols = b.cols ∧
      grid a.rows b.cols c.lines = grid a.rows b.rows a.lines * grid b.rows b.cols b.lines := by
  unfold multiply
  rw [if_neg (not_not.2 h)]
  refine ⟨_, rfl, by simp [rows], rfl, ?_⟩
  funext i j
  have hi : (i : Nat) < a.lines.length := i.2
  have hline : a.lines[(i : Nat)].length = b.rows := (a.uniform _ (List.getElem_mem hi)).trans h
  rw [grid_apply _ i (by simpa using hi), vec_apply j (by simp), mul_apply', grid_apply _ i hi]
  simp only [List.getElem_map, List.getElem_range]
  rw [mk_dot hline (by simp [column, rows]), vec_column b j.2]

/-! ## Equal matrices -/

theorem eq_of_grid {a b : ByteMatrix} {r c : Nat} (har : a.rows = r) (hbr : b.rows = r) (hac : a.cols = c)
    (hbc : b.cols = c) (h : grid r c a.lines = grid r c b.lines) : a = b := by
  have hlines : a.lines = b.lines := eq_of_grid_eq har hbr (fun l hl => (a.uniform l hl).trans hac)
    (fun l hl => (b.uniform l hl).trans hbc) h
  cases a
  cases b
  obtain rfl := hac.trans hbc.symm
  obtain rfl := hlines
  rfl

theorem rows_identity (n : Nat) : (identity n).rows = n := by simp [identity, ofFn, rows]

theorem grid_identity (n : Nat) : grid n n (identity n).lines = 1 := by
  funext i
  have hi : (i : Nat) < (identity n).lines.length := by
    rw [show (identity n).lines.length = n from rows_identity n]
    exact i.2
  rw [grid_apply n i hi]
  simp only [identity, ofFn, List.getElem_map, List.getElem_range]
  rw [vec_unit i]
  funext j
  rw [Pi.single_apply, one_apply]
  simp only [eq_comm]

/-- The product of square matrices is the identity exactly when that of their grids is. -/
theorem multiply_eq_identity_iff {n : Nat} {a b : ByteMatrix} (har : a.rows = n) (hac : a.cols = n) (hbr : b.rows = n)
    (hbc : b.cols = n) : a.multiply b = .ok (identity n) ↔ grid n n a.lines * grid n n b.lines = 1 := by
  obtain ⟨c, hc, hcr, hcc, hgrid⟩ := grid_multiply a b (hac.trans hbr.symm)
  rw [har, hbr, hbc] at hgrid
  rw [hc, ← hgrid]
  constructor
  · rintro h
    obtain rfl := Except.ok.inj h
    exact grid_identity n
  · intro h
    rw [eq_of_grid (hcr.trans har) (rows_identity n) (hcc.trans hbc) rfl (h.trans (grid_identity n).symm)]

/-- A matrix that has products on both sides with a square one is of the same shape. -/
theorem shape_of_multiply {n : Nat} {a b : ByteMatrix} (har : a.rows = n) (hac : a.cols = n)
    (hab : a.multiply b = .ok (identity n)) (hba : b.multiply a = .ok (identity n)) : b.rows = n ∧ b.cols = n := by
  unfold multiply at hab hba
  split at hab
  · cases hab
  split at hba
  · cases hba
  next hrows hcols =>
    rw [not_not] at hrows hcols
    exact ⟨hrows.symm.trans hac, hcols.trans har⟩

/-! ## Inversion -/

/-- **Inversion**: a matrix that is not square is refused. A square one that has an inverse over the field yields it, the
one matrix both of whose products with it are the identity, and every other one is refused as singular. -/
theorem invert_exact (m : ByteMatrix) :
    (m.rows ≠ m.cols → m.invert = .error (.argument (.notSquare m.rows m.cols))) ∧
    (m.rows = m.cols →
      ((∃ b, m.invert = .ok b) ↔ IsUnit (grid m.rows m.rows m.lines)) ∧
      (∀ b, m.invert = .ok b ↔ m.multiply b = .ok (identity m.rows) ∧ b.multiply m = .ok (identity m.rows)) ∧
      (¬ IsUnit (grid m.rows m.rows m.lines) → m.invert = .error .singularMatrix)) := by
  refine ⟨fun hshape => if_pos hshape, fun hshape => ?_⟩
  have hcols : m.cols = m.rows := hshape.symm
  rcases m.invert_cases rfl hcols with ⟨b, hb, hbr, hbc, hleft⟩ | ⟨herr, v, hv, hzero⟩
  · have hright := mul_eq_one_comm.1 hleft
    have hunit : IsUnit (grid m.rows m.rows m.lines) := isUnit_iff_exists.2 ⟨_, hright, hleft⟩
    refine ⟨iff_of_true ⟨b, hb⟩ hunit, fun b' => ?_, fun h => absurd hunit h⟩
    rw [hb]
    constructor
    · intro h
      obtain rfl := Except.ok.inj h
      exact ⟨(multiply_eq_identity_iff rfl hcols hbr hbc).2 hright, (multiply_eq_identity_iff hbr hbc rfl hcols).2 hleft⟩
    · rintro ⟨hab, hba⟩
      obtain ⟨hbr', hbc'⟩ := shape_of_multiply rfl hcols hab hba
      -- A left inverse and a right inverse are one.
      have hright' := (multiply_eq_identity_iff rfl hcols hbr' hbc').1 hab
      rw [eq_of_grid hbr hbr' hbc hbc' (left_inv_eq_right_inv hleft hright')]
  · have hunit : ¬ IsUnit (grid m.rows m.rows m.lines) :=
      fun h => hv (mulVec_injective_of_isUnit h (hzero.trans (mulVec_zero _).symm))
    refine ⟨iff_of_false ?_ hunit, fun b' => ?_, fun _ => herr⟩
    · rintro ⟨b, hb⟩
      rw [herr] at hb
      cases hb
    · rw [herr]
      refine iff_of_false nofun ?_
      rintro ⟨hab, hba⟩
      obtain ⟨hbr', hbc'⟩ := shape_of_multiply rfl hcols hab hba
      exact hunit (isUnit_iff_exists.2 ⟨_, (multiply_eq_identity_iff rfl hcols hbr' hbc').1 hab,
        (multiply_eq_identity_iff hbr' hbc' rfl hcols).1 hba⟩)

/-- A matrix whose first pivot is in its second row, one of rank one, and one that is not square. -/
theorem invert_exact_two_two : ∃ b : ByteMatrix,
    (ofRows [[0, 1], [2, 3]]).invert = .ok b ∧ b.lines = [[143, 142], [1, 0]] ∧
    (ofRows [[0, 1], [2, 3]]).multiply b = .ok (identity 2) ∧ b.multiply (ofRows [[0, 1], [2, 3]]) = .ok (identity 2) ∧
    ¬ IsUnit (grid 2 2 (ofRows [[1, 2], [1, 2]]).lines) ∧
    (ofRows [[1, 2]]).invert = .error (.argument (.notSquare 1 2)) := by
  have hruns : (ofRows [[0, 1], [2, 3]]).invert = .ok (ofRows [[143, 142], [1, 0]]) ∧
      (ofRows [[1, 2], [1, 2]]).invert = .error .singularMatrix := by decide +kernel
  obtain ⟨hb, hsingular⟩ := hruns
  obtain ⟨hab, hba⟩ := (((invert_exact (ofRows [[0, 1], [2, 3]])).2 rfl).2.1 _).1 hb
  refine ⟨_, hb, rfl, hab, hba, fun hunit => ?_, (invert_exact (ofRows [[1, 2]])).1 (by decide)⟩
  obtain ⟨b, hok⟩ := ((invert_exact (ofRows [[1, 2], [1, 2]])).2 rfl).1.2 hunit
  rw [hsingular] at hok
  cases hok

end ShardCoding.ByteMatrix

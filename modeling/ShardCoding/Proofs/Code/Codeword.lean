import ShardCoding.Code.Basic
import ShardCoding.Proofs.GF256.Accumulation

/-!
# Codewords

* `flatten_splitData` : the data shards, one after another, are the data filled up with zeros;
* `vec_combine` : a combination of shards is a product with their grid;
* `Code.coefficients` : the generator over `F256`, its data rows (`coefficients_data`) and its parity rows
  (`coefficients_parity`);
* `Code.grid_shardsOf` : the shards are the generator times the data shards.
-/

namespace ShardCoding

/-! ## Data shards -/

variable {k size : Nat} {data : Bytes}

@[simp] theorem length_splitData : (splitData k size data).length = k := by simp [splitData]

theorem length_of_mem_splitData {piece : Bytes} (h : piece ∈ splitData k size data) : piece.length = size := by
  obtain ⟨i, -, rfl⟩ := List.mem_map.1 h
  simp

theorem splitData_succ : splitData (k + 1) size data =
    (data.take size ++ List.replicate (size - data.length) 0) :: splitData k size (data.drop size) := by
  unfold splitData
  rw [List.range_succ_eq_map, List.map_cons, List.map_map]
  congr 1
  · rw [Nat.zero_mul, List.drop_zero]
    simp only [List.length_take]
    congr 2
    omega
  · refine List.map_congr_left fun i _ => ?_
    simp only [Function.comp_apply, List.drop_drop, Nat.succ_mul, Nat.add_comm size]

theorem flatten_splitData (h : data.length ≤ k * size) :
    (splitData k size data).flatten = data ++ List.replicate (k * size - data.length) 0 := by
  induction k generalizing data with
  | zero =>
    obtain rfl : data = [] := List.length_eq_zero_iff.1 (by omega)
    simp [splitData]
  | succ k ih =>
    rw [Nat.succ_mul] at h
    have hrest : (data.drop size).length ≤ k * size := by
      rw [List.length_drop]
      omega
    rw [splitData_succ, List.flatten_cons, ih hrest, List.length_drop, List.append_assoc]
    rcases Nat.le_total size data.length with hfull | hshort
    · rw [Nat.sub_eq_zero_of_le hfull, List.replicate_zero, List.nil_append, ← List.append_assoc,
        List.take_append_drop, Nat.succ_mul]
      congr 2
      omega
    · rw [List.take_of_length_le hshort, List.drop_of_length_le hshort, List.nil_append,
        List.replicate_append_replicate, Nat.succ_mul]
      congr 2
      omega

theorem length_combine {lines : List Bytes} (hn : ∀ l ∈ lines, l.length = size) (coefficients : Bytes) :
    (combine size coefficients lines).length = size :=
  length_foldl_mulAcc coefficients hn (List.length_replicate ..)

theorem vec_combine {lines : List Bytes} (hn : ∀ l ∈ lines, l.length = size) {coefficients : Bytes}
    (hlen : coefficients.length = lines.length) :
    vec size (combine size coefficients lines) =
      Matrix.vecMul (vec lines.length coefficients) (grid lines.length size lines) := by
  unfold combine
  rw [vec_foldl_mulAcc coefficients hlen hn (List.length_replicate ..), vec_replicate_zero, zero_add]

/-! ## Shard lengths -/

namespace Scheme

variable {s : Scheme}

theorem le_mul_shardSizeFor (hs : s.Valid) (size : Nat) : size ≤ s.data * s.shardSizeFor size := by
  have hdiv := Nat.lt_div_mul_add (a := size + s.data - 1) hs.1
  unfold shardSizeFor
  rw [Nat.mul_comm]
  have := hs.1
  omega

theorem mul_shardSizeFor_lt (hs : s.Valid) (size : Nat) : s.data * s.shardSizeFor size < size + s.data := by
  have hdiv := Nat.mul_div_le (size + s.data - 1) s.data
  unfold shardSizeFor
  have := hs.1
  omega

/-- The shards of a buffer are never too long for their sum to fit in a word. -/
theorem mul_shardSizeFor_lt_wordLimit (hs : s.Valid) {size : Nat} (hsize : size < bufferLimit) :
    s.data * s.shardSizeFor size < wordLimit := by
  have hlt := mul_shardSizeFor_lt hs size
  have hk : s.data ≤ 255 := le_trans (Nat.le_add_right ..) hs.2.2
  change size < 2 ^ 63 at hsize
  show s.data * s.shardSizeFor size < 2 ^ 64
  omega

end Scheme

/-! ## The generator -/

namespace Code

variable (code : Code)

/-- Every code is the one that is made from its counts. -/
theorem ofScheme_scheme : ofScheme code.scheme = .ok code := by
  obtain ⟨scheme, valid, generator, rfl⟩ := code
  unfold ofScheme
  split
  · next hfault =>
    rw [Scheme.fault?_eq_none_iff.2 valid.accepted] at hfault
    cases hfault
  · exact dif_pos valid

variable {code} in
theorem scheme_of_ofScheme {s : Scheme} (h : ofScheme s = .ok code) : code.scheme = s := by
  unfold ofScheme at h
  split at h
  · cases h
  · split at h
    · obtain rfl := Except.ok.inj h
      rfl
    · split at h <;> cases h

theorem mem_parityRange {i : Nat} : i ∈ List.range' code.scheme.data code.scheme.parity ↔
    code.scheme.data ≤ i ∧ i < code.scheme.total := by
  rw [List.mem_range'_1, code.total_eq]

/-- The generator over the field. -/
def coefficients : Matrix (Fin code.scheme.total) (Fin code.scheme.data) F256 :=
  grid code.scheme.total code.scheme.data code.generator.lines

theorem lines_generator : code.generator.lines = (List.range code.scheme.total).map fun i =>
    (List.range code.scheme.data).map fun j =>
      if i < code.scheme.data then (if i = j then 1 else 0) else GF256.pow (i - code.scheme.data + 1).toUInt8 j := by
  rw [code.generator_eq, code.total_eq]
  rfl

@[simp] theorem rows_generator : code.generator.rows = code.scheme.total := by
  rw [ByteMatrix.rows, lines_generator]
  simp

@[simp] theorem cols_generator : code.generator.cols = code.scheme.data := by
  rw [code.generator_eq]
  rfl

theorem row_generator {i : Nat} (hi : i < code.scheme.total) : code.generator.row i =
    (List.range code.scheme.data).map fun j =>
      if i < code.scheme.data then (if i = j then 1 else 0) else GF256.pow (i - code.scheme.data + 1).toUInt8 j := by
  rw [ByteMatrix.row, lines_generator, List.getD_eq_getElem _ _ (by simpa using hi), List.getElem_map, List.getElem_range]

@[simp] theorem length_row_generator {i : Nat} (hi : i < code.scheme.total) :
    (code.generator.row i).length = code.scheme.data := by
  simp [row_generator code hi]

theorem coefficients_row (i : Fin code.scheme.total) :
    code.coefficients i = vec code.scheme.data (code.generator.row i) :=
  rfl

/-- Data passes through unchanged. -/
theorem coefficients_data (i : Fin code.scheme.total) (hi : (i : Nat) < code.scheme.data) :
    code.coefficients i = Pi.single ⟨i, hi⟩ 1 := by
  funext j
  rw [coefficients_row, vec_apply j (by simp), Pi.single_apply]
  simp only [row_generator code i.2, List.getElem_map, List.getElem_range, if_pos hi, Fin.ext_iff]
  by_cases h : (i : Nat) = j
  · rw [if_pos h, if_pos h.symm, F256.mk_one]
  · rw [if_neg h, if_neg (Ne.symm h), F256.mk_zero]

/-- The point at which parity row `i` takes the powers. -/
def point (i : Nat) : F256 := ⟨(i - code.scheme.data + 1).toUInt8⟩

theorem coefficients_parity (i : Fin code.scheme.total) (hi : code.scheme.data ≤ i) (j : Fin code.scheme.data) :
    code.coefficients i j = code.point i ^ (j : Nat) := by
  rw [coefficients_row, vec_apply j (by simp), point, ← F256.mk_pow]
  simp only [row_generator code i.2, List.getElem_map, List.getElem_range, if_neg (Nat.not_lt.2 hi)]

/-! ## Encoding -/

@[simp] theorem length_shardsOf : (code.shardsOf size data).length = code.scheme.total := by
  simp [shardsOf, code.total_eq]

theorem length_of_mem_shardsOf {shard : Bytes} (h : shard ∈ code.shardsOf size data) : shard.length = size := by
  rcases List.mem_append.1 h with hdata | hparity
  · exact length_of_mem_splitData hdata
  · obtain ⟨p, -, rfl⟩ := List.mem_map.1 hparity
    exact length_combine (fun _ => length_of_mem_splitData) _

theorem length_getD_shardsOf {i : Nat} (hi : i < code.scheme.total) :
    ((code.shardsOf size data).getD i []).length = size := by
  have hshard : i < (code.shardsOf size data).length := by rwa [length_shardsOf]
  rw [List.getD_eq_getElem _ _ hshard]
  exact length_of_mem_shardsOf code (List.getElem_mem hshard)

/-- Every shard is its row of the generator times the data shards. -/
theorem grid_shardsOf : grid code.scheme.total size (code.shardsOf size data) =
    code.coefficients * grid code.scheme.data size (splitData code.scheme.data size data) := by
  funext i
  rw [Matrix.mul_apply_eq_vecMul, grid_apply size i (by simp)]
  rcases Nat.lt_or_ge i code.scheme.data with hi | hi
  · have hpiece : (i : Nat) < (splitData code.scheme.data size data).length := by rwa [length_splitData]
    rw [coefficients_data code i hi, Matrix.single_one_vecMul]
    change _ = grid code.scheme.data size (splitData code.scheme.data size data) ⟨i, hi⟩
    rw [grid_apply size ⟨i, hi⟩ hpiece]
    simp only [shardsOf, List.getElem_append_left hpiece]
  · have hlen : (i : Nat) < (code.shardsOf size data).length := by simp
    have hshard : (code.shardsOf size data)[(i : Nat)] =
        code.parityShard (i - code.scheme.data) size (splitData code.scheme.data size data) := by
      simp [shardsOf, List.getElem_append_right, hi]
    rw [hshard, parityShard, Nat.add_sub_of_le hi,
      vec_combine (fun _ => length_of_mem_splitData) (by simp), length_splitData]
    rfl

end Code

end ShardCoding

import ShardCoding.Proofs.Code.Reconstruction

/-!
# The code is linear

* `xorBytes`, `scaleBytes` : sums and multiples of byte strings, byte by byte; as vectors (`vec_xorBytes`,
  `vec_scaleBytes`) and, line by line, as matrices (`grid_zipWith_xorBytes`, `grid_map_scaleBytes`);
* `grid_splitData` : which byte of the data stands where in the data shards;
* `Code.shardsOf_xorBytes`, `Code.shardsOf_scaleBytes` : the shards of sums and multiples; `Code.encode_linear` :
  encoding them.
-/

namespace ShardCoding

open GF256

/-- The sum of two byte strings, byte by byte. -/
def xorBytes (x y : Bytes) : Bytes := List.zipWith (· ^^^ ·) x y

/-- `c` times a byte string, byte by byte. -/
def scaleBytes (c : UInt8) (x : Bytes) : Bytes := x.map (mul c)

variable {x y : Bytes}

theorem length_xorBytes (h : x.length = y.length) : (xorBytes x y).length = x.length := by
  simp [xorBytes, h]

@[simp] theorem length_scaleBytes (c : UInt8) (x : Bytes) : (scaleBytes c x).length = x.length := by
  simp [scaleBytes]

/-- Past the end of both strings the sum is zero, like the bytes that data is filled up with. -/
theorem getD_xorBytes (h : x.length = y.length) (j : Nat) :
    (xorBytes x y).getD j 0 = x.getD j 0 ^^^ y.getD j 0 := by
  unfold xorBytes
  rcases Nat.lt_or_ge j x.length with hj | hj
  · have hj' : j < y.length := h ▸ hj
    simp [List.getD_eq_getElem?_getD, hj, hj']
  · have hj' : y.length ≤ j := h ▸ hj
    simp [List.getD_eq_getElem?_getD, hj, hj']

theorem getD_scaleBytes (c : UInt8) (x : Bytes) (j : Nat) : (scaleBytes c x).getD j 0 = mul c (x.getD j 0) := by
  unfold scaleBytes
  rcases Nat.lt_or_ge j x.length with hj | hj
  · simp [List.getD_eq_getElem?_getD, hj]
  · simp [List.getD_eq_getElem?_getD, hj]

theorem vec_xorBytes (n : Nat) (h : x.length = y.length) : vec n (xorBytes x y) = vec n x + vec n y := by
  funext j
  show (⟨(xorBytes x y).getD j 0⟩ : F256) = _
  rw [getD_xorBytes h, F256.mk_xor]
  rfl

theorem vec_scaleBytes (n : Nat) (c : UInt8) (x : Bytes) : vec n (scaleBytes c x) = (⟨c⟩ : F256) • vec n x := by
  funext j
  show (⟨(scaleBytes c x).getD j 0⟩ : F256) = _
  rw [getD_scaleBytes, F256.mk_mul]
  rfl

/-! ## Line by line -/

theorem grid_zipWith_xorBytes {r n : Nat} {a b : List Bytes} (ha : a.length = r) (hb : b.length = r)
    (han : ∀ l ∈ a, l.length = n) (hbn : ∀ l ∈ b, l.length = n) :
    grid r n (List.zipWith xorBytes a b) = grid r n a + grid r n b := by
  funext i
  have hia : (i : Nat) < a.length := ha ▸ i.2
  have hib : (i : Nat) < b.length := hb ▸ i.2
  have hi : (i : Nat) < (List.zipWith xorBytes a b).length := by
    rw [List.length_zipWith]
    omega
  have hlen : a[(i : Nat)].length = b[(i : Nat)].length := by
    rw [han _ (List.getElem_mem hia), hbn _ (List.getElem_mem hib)]
  rw [grid_apply n i hi, List.getElem_zipWith, vec_xorBytes n hlen]
  show _ = grid r n a i + grid r n b i
  rw [grid_apply n i hia, grid_apply n i hib]

theorem grid_map_scaleBytes {r : Nat} (n : Nat) (c : UInt8) {a : List Bytes} (ha : a.length = r) :
    grid r n (a.map (scaleBytes c)) = (⟨c⟩ : F256) • grid r n a := by
  funext i
  have hi : (i : Nat) < a.length := ha ▸ i.2
  rw [grid_apply n i (by rwa [List.length_map]), List.getElem_map, vec_scaleBytes]
  show _ = (⟨c⟩ : F256) • grid r n a i
  rw [grid_apply n i hi]

/-! ## Data shards -/

/-- Byte `j` of data shard `i` is byte `i * size + j` of the data, zero past its end. -/
theorem grid_splitData {k size : Nat} (data : Bytes) (i : Fin k) (j : Fin size) :
    grid k size (splitData k size data) i j = ⟨data.getD (i * size + j) 0⟩ := by
  have hj := j.2
  rw [grid_apply size i (by rw [length_splitData]; exact i.2)]
  simp only [splitData, List.getElem_map, List.getElem_range, vec]
  congr 1
  rcases Nat.lt_or_ge (i * size + j) data.length with hin | hout
  · have hpiece : (j : Nat) < ((data.drop (i * size)).take size).length := by
      rw [List.length_take, List.length_drop]
      omega
    simp only [List.getD_eq_getElem?_getD]
    rw [List.getElem?_append_left hpiece, List.getElem?_take_of_lt hj, List.getElem?_drop]
  · have hpiece : ((data.drop (i * size)).take size).length ≤ j := by
      rw [List.length_take, List.length_drop]
      omega
    simp only [List.getD_eq_getElem?_getD]
    rw [List.getElem?_append_right hpiece, List.getElem?_eq_none hout]
    rcases Nat.lt_or_ge (j - ((data.drop (i * size)).take size).length)
      (size - ((data.drop (i * size)).take size).length) with hfill | hend
    · rw [List.getElem?_replicate_of_lt hfill]
      rfl
    · rw [List.getElem?_eq_none (by rwa [List.length_replicate])]

theorem grid_splitData_xorBytes {k size : Nat} (h : x.length = y.length) :
    grid k size (splitData k size (xorBytes x y)) =
      grid k size (splitData k size x) + grid k size (splitData k size y) := by
  funext i j
  show _ = grid k size (splitData k size x) i j + grid k size (splitData k size y) i j
  rw [grid_splitData, grid_splitData, grid_splitData, getD_xorBytes h, F256.mk_xor]

theorem grid_splitData_scaleBytes {k size : Nat} (c : UInt8) (x : Bytes) :
    grid k size (splitData k size (scaleBytes c x)) = (⟨c⟩ : F256) • grid k size (splitData k size x) := by
  funext i j
  show _ = (⟨c⟩ : F256) * grid k size (splitData k size x) i j
  rw [grid_splitData, grid_splitData, getD_scaleBytes, F256.mk_mul]

/-! ## All shards -/

namespace Code

variable (code : Code) (size : Nat)

/-- Shards are sums of multiples of the data shards, and so the shards of a sum are the sums of the shards. -/
theorem shardsOf_xorBytes (h : x.length = y.length) :
    code.shardsOf size (xorBytes x y) = List.zipWith xorBytes (code.shardsOf size x) (code.shardsOf size y) := by
  have hx : ∀ l ∈ code.shardsOf size x, l.length = size := fun _ => length_of_mem_shardsOf code
  have hy : ∀ l ∈ code.shardsOf size y, l.length = size := fun _ => length_of_mem_shardsOf code
  apply eq_of_grid_eq (length_shardsOf code) (by simp) fun _ => length_of_mem_shardsOf code
  · intro l hl
    obtain ⟨i, hi, rfl⟩ := List.getElem_of_mem hl
    rw [List.getElem_zipWith, length_xorBytes, hx _ (List.getElem_mem _)]
    rw [hx _ (List.getElem_mem _), hy _ (List.getElem_mem _)]
  · calc grid code.scheme.total size (code.shardsOf size (xorBytes x y))
        = code.coefficients * grid code.scheme.data size (splitData code.scheme.data size (xorBytes x y)) :=
          code.grid_shardsOf
      _ = code.coefficients * grid code.scheme.data size (splitData code.scheme.data size x) +
            code.coefficients * grid code.scheme.data size (splitData code.scheme.data size y) := by
          rw [grid_splitData_xorBytes h, Matrix.mul_add]
      _ = grid code.scheme.total size (code.shardsOf size x) + grid code.scheme.total size (code.shardsOf size y) := by
          rw [grid_shardsOf, grid_shardsOf]
      _ = grid code.scheme.total size (List.zipWith xorBytes (code.shardsOf size x) (code.shardsOf size y)) :=
          (grid_zipWith_xorBytes (length_shardsOf code) (length_shardsOf code) hx hy).symm

theorem shardsOf_scaleBytes (c : UInt8) (x : Bytes) :
    code.shardsOf size (scaleBytes c x) = (code.shardsOf size x).map (scaleBytes c) := by
  apply eq_of_grid_eq (length_shardsOf code) (by simp) fun _ => length_of_mem_shardsOf code
  · intro l hl
    obtain ⟨s, hs, rfl⟩ := List.mem_map.1 hl
    rw [length_scaleBytes, length_of_mem_shardsOf code hs]
  · calc grid code.scheme.total size (code.shardsOf size (scaleBytes c x))
        = code.coefficients * grid code.scheme.data size (splitData code.scheme.data size (scaleBytes c x)) :=
          code.grid_shardsOf
      _ = (⟨c⟩ : F256) • (code.coefficients * grid code.scheme.data size (splitData code.scheme.data size x)) := by
          rw [grid_splitData_scaleBytes, Matrix.mul_smul]
      _ = (⟨c⟩ : F256) • grid code.scheme.total size (code.shardsOf size x) := by rw [grid_shardsOf]
      _ = grid code.scheme.total size ((code.shardsOf size x).map (scaleBytes c)) :=
          (grid_map_scaleBytes size c (length_shardsOf code)).symm

/-- **The code is linear**: each shard of the sum of two byte strings of one length is the sum of their shards, and each
shard of a multiple is the multiple of the shard. -/
theorem encode_linear (code : Code) (x y : Bytes) (h : x.length = y.length) (c : UInt8) :
    ∃ ex ey sum multiple,
      (code.encode x).result = .ok ex ∧ (code.encode y).result = .ok ey ∧
      (code.encode (xorBytes x y)).result = .ok sum ∧ (code.encode (scaleBytes c x)).result = .ok multiple ∧
      sum.shards.map Shard.data = List.zipWith xorBytes (ex.shards.map Shard.data) (ey.shards.map Shard.data) ∧
      multiple.shards.map Shard.data = (ex.shards.map Shard.data).map (scaleBytes c) := by
  refine ⟨_, _, _, _, result_encode code x, result_encode code y, result_encode code _, result_encode code _, ?_, ?_⟩
  · rw [map_data_encode (result_encode code _), map_data_encode (result_encode code x),
      map_data_encode (result_encode code y), length_xorBytes h, ← h]
    exact code.shardsOf_xorBytes _ h
  · rw [map_data_encode (result_encode code _), map_data_encode (result_encode code x), length_scaleBytes]
    exact code.shardsOf_scaleBytes _ c x

/-- Two strings of three bytes, of which one shard of two is filled up with a zero, and a multiple by `x^4 + x^3 + 1`. -/
theorem encode_linear_two_two : ∃ ex ey sum multiple,
    ((ofValid ⟨2, 2⟩ (by decide)).encode [1, 2, 3]).result = .ok ex ∧
    ((ofValid ⟨2, 2⟩ (by decide)).encode [255, 2, 128]).result = .ok ey ∧
    ((ofValid ⟨2, 2⟩ (by decide)).encode [254, 0, 131]).result = .ok sum ∧
    ((ofValid ⟨2, 2⟩ (by decide)).encode [25, 50, 43]).result = .ok multiple ∧
    sum.shards.map Shard.data = List.zipWith xorBytes (ex.shards.map Shard.data) (ey.shards.map Shard.data) ∧
    multiple.shards.map Shard.data = (ex.shards.map Shard.data).map (scaleBytes 25) := by
  have hsum : xorBytes [1, 2, 3] [255, 2, 128] = [254, 0, 131] := by decide
  have hmultiple : scaleBytes 25 [1, 2, 3] = [25, 50, 43] := by
    simp only [scaleBytes, List.map_cons, List.map_nil, ← product_eq_mul]
    decide
  obtain ⟨ex, ey, sum, multiple, hx, hy, hs, hm, h⟩ :=
    encode_linear (ofValid ⟨2, 2⟩ (by decide)) [1, 2, 3] [255, 2, 128] rfl 25
  rw [hsum] at hs
  rw [hmultiple] at hm
  exact ⟨ex, ey, sum, multiple, hx, hy, hs, hm, h⟩

end Code

end ShardCoding

import Mathlib.Algebra.Order.Floor.Div
import ShardCoding.Proofs.Code.Recoverability

/-!
# Encoding as evaluation

* `Encoded.symbol` : a byte of a shard as an element of the field, whose product is the carry-less one;
* `Code.symbol_parity` : a byte of a parity shard is the value of a polynomial with the bytes of the data shards as its
  coefficients; `Code.flatten_data` : the data shards, one after another;
* `Code.encode_evaluates` : all that an encode yields.
-/

namespace ShardCoding

open Polynomial

/-- Byte `t` of shard `i`. -/
def Encoded.symbol (e : Encoded) (i t : Nat) : F256 := ⟨((e.shards.map Shard.data).getD i []).getD t 0⟩

namespace Code

variable {code : Code} {data : Bytes} {e : Encoded}

/-- Each shard carries its index, and whether it is a parity shard. -/
theorem getElem_shards_encode (he : (code.encode data).result = .ok e) {i : Nat} (hi : i < e.shards.length) :
    e.shards[i].index = i ∧ (e.shards[i].isParity = true ↔ code.scheme.data ≤ i) ∧
      e.shards[i].data.length = e.shardSize := by
  obtain rfl := Except.ok.inj he
  rw [List.getElem_map, List.getElem_zipIdx]
  refine ⟨Nat.zero_add i, ?_, length_of_mem_shardsOf code (List.getElem_mem _)⟩
  rw [Nat.zero_add, decide_eq_true_iff]

theorem length_shards_encode (he : (code.encode data).result = .ok e) : e.shards.length = code.scheme.total := by
  obtain rfl := Except.ok.inj he
  simp

/-- The data shards, one after another, are the data filled up with zeros. -/
theorem flatten_data (he : (code.encode data).result = .ok e) :
    (e.shards.take code.scheme.data).flatMap Shard.data =
      data ++ List.replicate (code.scheme.data * e.shardSize - data.length) 0 := by
  have hfill : data.length ≤ code.scheme.data * e.shardSize := by
    rw [shardSize_encode he]
    exact Scheme.le_mul_shardSizeFor code.valid _
  have hpieces : (code.shardsOf e.shardSize data).take code.scheme.data = splitData code.scheme.data e.shardSize data :=
    List.take_left' length_splitData
  rw [List.flatMap_def, List.map_take, map_data_encode he, ← shardSize_encode he, hpieces, flatten_splitData hfill]

/-- The value at the point of the parity shard. -/
theorem symbol_parity (he : (code.encode data).result = .ok e) {p t : Nat} (hp : p < code.scheme.parity)
    (ht : t < e.shardSize) : e.symbol (code.scheme.data + p) t =
      (ofFn code.scheme.data fun j => e.symbol j t).eval ⟨UInt8.ofNat (p + 1)⟩ := by
  have hshards := map_data_encode he
  rw [← shardSize_encode he] at hshards
  let row : Fin code.scheme.total := ⟨code.scheme.data + p, code.total_eq ▸ Nat.add_lt_add_left hp _⟩
  let column : Fin code.scheme.data → F256 := fun j =>
    grid code.scheme.data e.shardSize (splitData code.scheme.data e.shardSize data) j ⟨t, ht⟩
  have hcolumn : (fun j : Fin code.scheme.data => e.symbol j t) = column := by
    funext j
    have hj : (j : Nat) < (splitData code.scheme.data e.shardSize data).length := by
      rw [length_splitData]
      exact j.2
    show (⟨((e.shards.map Shard.data).getD j []).getD t 0⟩ : F256) = _
    rw [hshards, shardsOf, List.getD_append _ _ _ _ hj]
    rfl
  have hpoint : code.point (code.scheme.data + p) = ⟨UInt8.ofNat (p + 1)⟩ := by
    rw [point, Nat.add_sub_cancel_left, Nat.toUInt8_eq]
  calc e.symbol (code.scheme.data + p) t
      = grid code.scheme.total e.shardSize (code.shardsOf e.shardSize data) row ⟨t, ht⟩ := by
        rw [← hshards]
        rfl
    _ = code.coefficients row ⬝ᵥ column := by
        rw [grid_shardsOf]
        rfl
    _ = (ofFn code.scheme.data column).eval (code.point (code.scheme.data + p)) := by
        rw [coefficients_dotProduct, if_neg (Nat.not_lt.2 (Nat.le_add_right _ p))]
    _ = (ofFn code.scheme.data fun j => e.symbol j t).eval ⟨UInt8.ofNat (p + 1)⟩ := by rw [hcolumn, hpoint]

/-- **What an encode yields**: it always succeeds, with the `n` shards in the order of their indices, all as long as the
`k`-th part of the data rounded up. The data shards, one after another, are the data and less than `k` zeros. Each byte
of parity shard `k + p` is the value at the field element `p + 1` of the polynomial whose coefficients are the bytes at
its place in the data shards, in the field in which bytes add up by exclusive or and multiply without carry modulo
`x^8 + x^4 + x^3 + x^2 + 1`. -/
theorem encode_evaluates (code : Code) (data : Bytes) :
    ∃ e, (code.encode data).result = .ok e ∧ e.dataSize = data.length ∧
      e.shardSize = data.length ⌈/⌉ code.scheme.data ∧ e.shards.length = code.scheme.total ∧
      (∀ (i : Nat) (hi : i < e.shards.length), e.shards[i].index = i ∧
        (e.shards[i].isParity = true ↔ code.scheme.data ≤ i) ∧ e.shards[i].data.length = e.shardSize) ∧
      (e.shards.take code.scheme.data).flatMap Shard.data =
        data ++ List.replicate (code.scheme.data * e.shardSize - data.length) 0 ∧
      code.scheme.data * e.shardSize - data.length < code.scheme.data ∧
      ∀ p < code.scheme.parity, ∃ x : UInt8, x.toNat = p + 1 ∧ ∀ t < e.shardSize,
        e.symbol (code.scheme.data + p) t = (ofFn code.scheme.data fun j => e.symbol j t).eval ⟨x⟩ := by
  have he := result_encode code data
  have hsize := shardSize_encode he
  refine ⟨_, he, rfl, ?_, length_shards_encode he, fun i hi => getElem_shards_encode he hi, flatten_data he, ?_,
    fun p hp => ⟨UInt8.ofNat (p + 1), ?_, fun t ht => symbol_parity he hp ht⟩⟩
  · rw [hsize, Nat.ceilDiv_eq_add_pred_div]
    rfl
  · have hlt := Scheme.mul_shardSizeFor_lt code.valid data.length
    have hpos := code.valid.1
    rw [hsize]
    omega
  · have hmax : code.scheme.data + code.scheme.parity ≤ 255 := code.valid.2.2
    rw [UInt8.toNat_ofNat', Nat.mod_eq_of_lt (by omega)]

end Code

end ShardCoding

import ShardCoding.Proofs.Code.Recoverability
import ShardCoding.Proofs.Code.Verification

/-!
# A selection determines one codeword

* `Code.Codeword` : the shards of some data; `Code.Stores` : slots whose selected shards are all of one length, whatever
  they are;
* `agrees_iff` : a codeword agrees with the selected slots when the selected rows take its data shards to what is read;
  `eq_of_agrees` : there is at most one;
* `agrees_of_decode` : the encoding of what is decoded is one; `encode_decode` : so encoding undoes decoding.
-/

namespace ShardCoding.Code

variable {code : Code} {slots : Slots} {selected present : List Nat} {size : Nat} {inputs : List Bytes} {data : Bytes}

/-- The shards of some data, of `size` bytes each. -/
def Codeword (code : Code) (size : Nat) (word : List Bytes) : Prop :=
  ∃ data e, (code.encode data).result = .ok e ∧ e.shardSize = size ∧ word = e.shards.map Shard.data

/-- As many slots as there are shards, of which the selected ones hold any `size` bytes. -/
structure Stores (code : Code) (slots : Slots) (selected : List Nat) (size : Nat) : Prop where
  length_eq : slots.length = code.scheme.total
  held : ∀ i ∈ selected, ∃ shard, slots[i]? = some (some shard) ∧ shard.length = size

theorem Codeword.exists_shardsOf {word : List Bytes} (h : code.Codeword size word) :
    ∃ data, word = code.shardsOf size data := by
  obtain ⟨data, e, he, hsize, rfl⟩ := h
  refine ⟨data, ?_⟩
  rw [map_data_encode he, ← hsize, shardSize_encode he]

theorem Stores.exists_mapM (h : code.Stores slots selected size) :
    ∃ inputs, selected.mapM (presentShard slots size) = .ok inputs := by
  choose! shard hslot hsize using h.held
  refine ⟨selected.map shard, mapM_ok fun i hi => ?_⟩
  exact presentShard_eq_ok.2 ⟨hslot i hi, hsize i hi⟩

theorem length_of_mem_inputs (hin : selected.mapM (presentShard slots size) = .ok inputs) :
    inputs.length = selected.length ∧ ∀ l ∈ inputs, l.length = size := by
  have hread := forall₂_of_mapM hin
  refine ⟨hread.length_eq.symm, ?_⟩
  clear hin
  induction hread with
  | nil => exact fun _ hl => absurd hl List.not_mem_nil
  | cons hslot _ ih => exact List.forall_mem_cons.2 ⟨(presentShard_eq_ok.1 hslot).2, ih⟩

/-- The selected slots hold the shards of some data when these are what is read from them. -/
theorem agrees_iff (hlt : ∀ i ∈ selected, i < code.scheme.total)
    (hin : selected.mapM (presentShard slots size) = .ok inputs) :
    (∀ i ∈ selected, slots[i]? = (code.shardsOf size data)[i]?.map some) ↔
      selected.map (fun i => (code.shardsOf size data).getD i []) = inputs := by
  have hshard : ∀ i ∈ selected, (code.shardsOf size data)[i]? = some ((code.shardsOf size data).getD i []) := by
    intro i hi
    have hlen : i < (code.shardsOf size data).length := by rw [length_shardsOf]; exact hlt i hi
    rw [List.getD_eq_getElem _ _ hlen, List.getElem?_eq_getElem hlen]
  constructor
  · intro h
    have hread : selected.mapM (presentShard slots size) =
        .ok (selected.map fun i => (code.shardsOf size data).getD i []) := by
      apply mapM_ok
      intro i hi
      apply presentShard_eq_ok.2
      rw [h i hi, hshard i hi]
      exact ⟨rfl, length_getD_shardsOf code (hlt i hi)⟩
    exact Except.ok.inj (hread.symm.trans hin)
  · rintro rfl i hi
    have hread := forall₂_of_mapM hin
    rw [List.forall₂_map_right_iff, List.forall₂_same] at hread
    rw [hshard i hi, (presentShard_eq_ok.1 (hread i hi)).1]
    rfl

theorem holds_of_agrees {e : Encoded} (he : (code.encode data).result = .ok e)
    (hslots : slots.length = code.scheme.total)
    (h : ∀ i ∈ selected, slots[i]? = (code.shardsOf (code.scheme.shardSizeFor data.length) data)[i]?.map some) :
    code.Holds e slots selected := by
  refine ⟨hslots, fun i hi => ?_⟩
  rw [h i hi, ← map_data_encode he, List.getElem?_map, Option.map_map]
  rfl

/-- At most one codeword agrees with the selected slots. -/
theorem eq_of_agrees (hrec : code.Recoverable selected) (hlen : selected.length = code.scheme.data)
    (hlt : ∀ i ∈ selected, i < code.scheme.total) (hin : selected.mapM (presentShard slots size) = .ok inputs)
    {data' : Bytes} (h : ∀ i ∈ selected, slots[i]? = (code.shardsOf size data)[i]?.map some)
    (h' : ∀ i ∈ selected, slots[i]? = (code.shardsOf size data')[i]?.map some) :
    code.shardsOf size data = code.shardsOf size data' := by
  have hsol : code.Solution selected size inputs (splitData code.scheme.data size data) := by
    rw [← (agrees_iff hlt hin).1 h]
    exact solution_splitData hlen hlt
  have hsol' : code.Solution selected size inputs (splitData code.scheme.data size data') := by
    rw [← (agrees_iff hlt hin).1 h']
    exact solution_splitData hlen hlt
  unfold shardsOf
  rw [hsol.unique hrec hsol']

/-- The encoding of what is decoded to the full capacity agrees with the slots that it was decoded from. -/
theorem agrees_of_decode (h : (code.decode slots present (code.scheme.data * size) size).result = .ok data) :
    code.scheme.shardSizeFor data.length = size ∧
      ∀ i ∈ present.take code.scheme.data, slots[i]? = (code.shardsOf size data)[i]?.map some := by
  rw [result_decode] at h
  obtain ⟨hslots, hword, hcapacity, hsel, inputs, hin⟩ := checks_of_decodeShards h
  obtain ⟨hcount, huniform⟩ := length_of_mem_inputs hin
  have hcount' : inputs.length = code.scheme.data := hcount.trans hsel.length_take
  rcases decodeShards_cases hslots hword hcapacity hsel hin with ⟨-, inverse, hsolves, hok⟩ | ⟨-, herr⟩
  swap
  · rw [herr] at h
    cases h
  obtain ⟨pieces, hsolution, hflat⟩ := hsolves size inputs hcount' huniform
  have hlen : pieces.flatten.length = code.scheme.data * size := by
    rw [length_flatten_of_uniform hsolution.uniform, hsolution.length_eq]
  have hdata : data = pieces.flatten := by
    rw [hok, hflat, List.take_of_length_le hlen.le] at h
    exact (Except.ok.inj h).symm
  refine ⟨by rw [hdata, hlen, Scheme.shardSizeFor_mul code.valid], ?_⟩
  -- The inverse is one on the right as well: the selected rows take the pieces to what was read.
  rw [agrees_iff hsel.lt_total hin]
  apply eq_of_grid_eq (by rw [List.length_map, hsel.length_take]) hcount' (length_of_mem_selected hsel.lt_total) huniform
  rw [grid_selected hsel.length_take hsel.lt_total, hdata, splitData_flatten hsolution.length_eq hsolution.uniform]
  exact hsolution.eq

/-- **Encoding undoes decoding**: whatever the selected slots hold, if they decode to some data of the full capacity then
that data is encoded to shards of their length, which are the selected slots again. A selection of recoverable rows
decodes every content, and exactly one codeword agrees with it. -/
theorem encode_decode (code : Code) (slots : Slots) (present : List Nat) (size : Nat) :
    (∀ data, (code.decode slots present (code.scheme.data * size) size).result = .ok data →
      ∃ e, (code.encode data).result = .ok e ∧ e.shardSize = size ∧ code.Selects present ∧
        code.Holds e slots (present.take code.scheme.data)) ∧
    (code.Selects present → code.Recoverable (present.take code.scheme.data) →
      code.Stores slots (present.take code.scheme.data) size → code.scheme.data * size < wordLimit →
      (∃ data, (code.decode slots present (code.scheme.data * size) size).result = .ok data) ∧
      ∃! word, code.Codeword size word ∧ ∀ i ∈ present.take code.scheme.data, slots[i]? = word[i]?.map some) := by
  constructor
  · intro data h
    obtain ⟨hsize, hagrees⟩ := agrees_of_decode h
    have hchecks := h
    rw [result_decode] at hchecks
    obtain ⟨hslots, -, -, hsel, -⟩ := checks_of_decodeShards hchecks
    rw [← hsize] at hagrees
    exact ⟨_, result_encode code data, hsize, hsel, holds_of_agrees (result_encode code data) hslots hagrees⟩
  · intro hsel hrec hstores hword
    obtain ⟨inputs, hin⟩ := hstores.exists_mapM
    have hword' : size * code.scheme.data < wordLimit := by rwa [Nat.mul_comm]
    have hcapacity : code.scheme.data * size ≤ size * code.scheme.data := (Nat.mul_comm ..).le
    have hdecode : ∃ data, (code.decode slots present (code.scheme.data * size) size).result = .ok data := by
      rcases decodeShards_cases hstores.length_eq hword' hcapacity hsel hin with ⟨-, inverse, -, hok⟩ | ⟨hnot, -⟩
      · exact ⟨_, (result_decode ..).trans hok⟩
      · exact absurd hrec hnot
    refine ⟨hdecode, ?_⟩
    obtain ⟨data, h⟩ := hdecode
    obtain ⟨hsize, hagrees⟩ := agrees_of_decode h
    refine ⟨code.shardsOf size data, ⟨⟨data, _, result_encode code data, hsize, ?_⟩, hagrees⟩, ?_⟩
    · rw [map_data_encode (result_encode code data), hsize]
    · rintro word ⟨hcodeword, hagrees'⟩
      obtain ⟨data', rfl⟩ := hcodeword.exists_shardsOf
      exact eq_of_agrees hrec hsel.length_take hsel.lt_total hin hagrees' hagrees

/-- Two bytes in the slot of a parity shard and two in that of a data shard, none of them encoded from anything. -/
theorem encode_decode_two_one : ∃ data e,
    ((ofValid ⟨2, 1⟩ (by decide)).decode [some [5, 6], none, some [7, 8]] [2, 0] (2 * 2) 2).result = .ok data ∧
    ((ofValid ⟨2, 1⟩ (by decide)).encode data).result = .ok e ∧ e.shardSize = 2 ∧
    (ofValid ⟨2, 1⟩ (by decide)).Holds e [some [5, 6], none, some [7, 8]] [2, 0] ∧
    ∃! word, (ofValid ⟨2, 1⟩ (by decide)).Codeword 2 word ∧
      ∀ i ∈ [2, 0], [some [5, 6], none, some [7, 8]][i]? = word[i]?.map some := by
  obtain ⟨hencode, hdecode⟩ := encode_decode (ofValid ⟨2, 1⟩ (by decide)) [some [5, 6], none, some [7, 8]] [2, 0] 2
  have hrec : (ofValid ⟨2, 1⟩ (by decide)).Recoverable [2, 0] :=
    recoverable_of_few (Or.inr (by decide)) (by decide) (by decide) (by decide)
  have hstores : (ofValid ⟨2, 1⟩ (by decide)).Stores [some [5, 6], none, some [7, 8]] [2, 0] 2 := by
    refine ⟨rfl, ?_⟩
    rintro i (_ | ⟨_, _ | ⟨_, hi⟩⟩)
    · exact ⟨[7, 8], rfl, rfl⟩
    · exact ⟨[5, 6], rfl, rfl⟩
    · cases hi
  obtain ⟨⟨data, hdata⟩, hword⟩ := hdecode ⟨by decide, by decide, by decide⟩ hrec hstores (by decide)
  obtain ⟨e, he, hsize, -, hholds⟩ := hencode data hdata
  exact ⟨data, e, hdata, he, hsize, hholds, hword⟩

end ShardCoding.Code

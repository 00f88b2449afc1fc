import ShardCoding.Proofs.Code.Repair
import ShardCoding.Proofs.Stream.Encode

/-!
# Streamed shards are codewords

* `combine_append` : combining shards that were put together piece by piece combines the pieces;
* `Code.parityShard_streamShard` : so the parity shards of a stream are the parity shards of its data shards;
  `Code.fullSet_streamShards`, `Code.reencoded_streamShards` : its shards are an encoding of one buffer;
* `Code.length_le_mul_streamSize` : the data shards hold the whole stream;
* `Code.verify_repair_encodeStream` : verifying and repairing what a streaming encode wrote.
-/

namespace ShardCoding

open GF256

/-! ## Shards in two pieces -/

theorem mulAcc_append (c : UInt8) {src src' dst dst' : Bytes} (h : src.length = dst.length)
    (h' : src'.length = dst'.length) :
    mulAcc c (src ++ src') (dst ++ dst') = mulAcc c src dst ++ mulAcc c src' dst' := by
  have hboth : (src ++ src').length = (dst ++ dst').length := by rw [List.length_append, List.length_append, h, h']
  rw [mulAcc_eq c hboth, mulAcc_eq c h, mulAcc_eq c h', List.zipWith_append h.symm]

theorem foldl_mulAcc_append {a b : Nat} (coefficients : Bytes) {indices : List Nat} {front back : Nat → Bytes}
    (hfront : ∀ i ∈ indices, (front i).length = a) (hback : ∀ i ∈ indices, (back i).length = b) {sum sum' : Bytes}
    (hsum : sum.length = a) (hsum' : sum'.length = b) :
    (coefficients.zip (indices.map fun i => front i ++ back i)).foldl (fun sum (c, line) => mulAcc c line sum)
        (sum ++ sum') =
      (coefficients.zip (indices.map front)).foldl (fun sum (c, line) => mulAcc c line sum) sum ++
        (coefficients.zip (indices.map back)).foldl (fun sum (c, line) => mulAcc c line sum) sum' := by
  induction indices generalizing coefficients sum sum' with
  | nil => simp
  | cons i indices ih =>
    obtain _ | ⟨c, coefficients⟩ := coefficients
    · simp
    have hf : (front i).length = sum.length := (hfront i List.mem_cons_self).trans hsum.symm
    have hb : (back i).length = sum'.length := (hback i List.mem_cons_self).trans hsum'.symm
    simp only [List.map_cons, List.zip_cons_cons, List.foldl_cons]
    rw [mulAcc_append c hf hb]
    exact ih coefficients (fun j hj => hfront j (List.mem_cons_of_mem i hj))
      (fun j hj => hback j (List.mem_cons_of_mem i hj)) ((length_mulAcc c hf).trans hsum)
      ((length_mulAcc c hb).trans hsum')

/-- A combination is taken byte by byte, so it does not matter where shards are cut. -/
theorem combine_append {a b : Nat} (coefficients : Bytes) {indices : List Nat} {front back : Nat → Bytes}
    (hfront : ∀ i ∈ indices, (front i).length = a) (hback : ∀ i ∈ indices, (back i).length = b) :
    combine (a + b) coefficients (indices.map fun i => front i ++ back i) =
      combine a coefficients (indices.map front) ++ combine b coefficients (indices.map back) := by
  unfold combine
  rw [← List.replicate_append_replicate]
  exact foldl_mulAcc_append coefficients hfront hback (List.length_replicate ..) (List.length_replicate ..)

namespace Code

variable (code : Code)

/-! ## The shards of a stream -/

/-- The data segments of a chunk are its data shards. -/
theorem map_segment_data (chunk : Bytes) : (List.range code.scheme.data).map (fun i => code.segment i chunk) =
    (code.shardsOf (code.scheme.shardSizeFor chunk.length) chunk).take code.scheme.data := by
  have hk : code.scheme.data ≤ code.scheme.total := code.data_le_total
  refine List.ext_getElem (by simpa using hk) fun i hi hi' => ?_
  rw [List.length_map, List.length_range] at hi
  rw [List.getElem_map, List.getElem_range, List.getElem_take, segment, List.getD_eq_getElem]

/-- The parity shards of a chunk, from its data segments. -/
theorem parityShard_segment {p : Nat} (hp : p < code.scheme.parity) (chunk : Bytes) :
    code.parityShard p (code.scheme.shardSizeFor chunk.length)
        ((List.range code.scheme.data).map fun i => code.segment i chunk) =
      code.segment (code.scheme.data + p) chunk := by
  have hfull : code.FullSet (code.scheme.shardSizeFor chunk.length)
      (code.shardsOf (code.scheme.shardSizeFor chunk.length) chunk) := fullSet_shardsOf
  have hparity := hfull.getElem?_reencoded_parity hp
  rw [reencoded_shardsOf] at hparity
  rw [map_segment_data, segment, List.getD_eq_getElem?_getD, hparity, Option.getD_some]

/-- Chunk by chunk the parity segments are those of the data segments, whatever the lengths of the chunks. -/
theorem parityShard_streamShard {p : Nat} (hp : p < code.scheme.parity) (chunks : List Bytes) :
    code.parityShard p (code.streamSize chunks) ((List.range code.scheme.data).map (code.streamShard chunks)) =
      code.streamShard chunks (code.scheme.data + p) := by
  induction chunks with
  | nil =>
    apply List.eq_nil_of_length_eq_zero
    refine length_combine ?_ _
    intro l hl
    obtain ⟨i, -, rfl⟩ := List.mem_map.1 hl
    rfl
  | cons chunk chunks ih =>
    -- The segments of the first chunk are cut off from all data shards at once.
    have hlt : ∀ i ∈ List.range code.scheme.data, i < code.scheme.total := by
      intro i hi
      exact (List.mem_range.1 hi).trans_le code.data_le_total
    have happend := combine_append (code.generator.row (code.scheme.data + p))
      (fun i hi => length_segment code (hlt i hi) chunk) (fun i hi => length_streamShard code (hlt i hi) chunks)
    have hsegment := code.parityShard_segment hp chunk
    unfold parityShard at hsegment ih ⊢
    rw [hsegment, ih] at happend
    exact happend

theorem fullSet_streamShards (chunks : List Bytes) :
    code.FullSet (code.streamSize chunks) ((List.range code.scheme.total).map (code.streamShard chunks)) := by
  refine ⟨by simp, fun s hs => ?_⟩
  obtain ⟨i, hi, rfl⟩ := List.mem_map.1 hs
  exact length_streamShard code (List.mem_range.1 hi) chunks

/-- The shards of a stream are an encoding of the data shards among them. -/
theorem reencoded_streamShards (chunks : List Bytes) :
    code.reencoded (code.streamSize chunks) ((List.range code.scheme.total).map (code.streamShard chunks)) =
      (List.range code.scheme.total).map (code.streamShard chunks) := by
  have hsplit : (List.range code.scheme.total).map (code.streamShard chunks) =
      (List.range code.scheme.data).map (code.streamShard chunks) ++
        (List.range code.scheme.parity).map fun p => code.streamShard chunks (code.scheme.data + p) := by
    rw [code.total_eq, List.range_add, List.map_append, List.map_map]
    rfl
  have htake : ((List.range code.scheme.total).map (code.streamShard chunks)).take code.scheme.data =
      (List.range code.scheme.data).map (code.streamShard chunks) := by
    rw [hsplit]
    exact List.take_left' (by simp)
  rw [(code.fullSet_streamShards chunks).reencoded_eq, htake, hsplit]
  congr 1
  apply List.map_congr_left
  intro p hp
  exact code.parityShard_streamShard (List.mem_range.1 hp) chunks

/-- The data shards hold the whole stream. -/
theorem length_le_mul_streamSize {o : StreamOptions} (ho : o.Valid) (data : Bytes) :
    data.length ≤ code.scheme.data * code.streamSize (o.chunks [] data) := by
  have hchunk : ∀ chunks : List Bytes, (chunks.map List.length).sum ≤ code.scheme.data * code.streamSize chunks := by
    intro chunks
    rw [streamSize, ← List.sum_map_mul_left]
    apply List.sum_le_sum
    intro chunk _
    exact Scheme.le_mul_shardSizeFor code.valid _
  exact (ho.length_le_sum_chunks (Nat.lt_of_le_of_lt (Nat.zero_le _) ho) data).trans (hchunk _)

theorem length_flatten_streamShards (chunks : List Bytes) :
    ((List.range code.scheme.total).map (code.streamShard chunks)).flatten.length =
      code.scheme.total * code.streamSize chunks := by
  have hfull := code.fullSet_streamShards chunks
  rw [length_flatten_of_uniform hfull.uniform, hfull.length_eq]

/-- **Maintenance of a stream**: the outputs of a streaming encode into fresh sinks, in chunks that a buffer has room for
and whatever pieces its source hands out, are a valid set; and if they fit in memory, a repair that is told the totals of
the encode rebuilds, from the outputs that are left, exactly the parity outputs that were dropped. -/
theorem verify_repair_encodeStream (code : Code) (data : Bytes) (pacing : Pacing) (hpacing : pacing.Steady)
    (o : StreamOptions) (ho : o.Valid) (hfits : o.chunk < bufferLimit) :
    ∃ summary,
      let encoding := code.encodeStream { rest := data, pacing := pacing } (List.replicate code.scheme.total {}) o
      let outputs := encoding.sinks.map Sink.content
      encoding.outcome.result = .ok summary ∧
      (code.verify (outputs.map some)).result = .ok ⟨true, []⟩ ∧
      (outputs.flatten.length < wordLimit → ∀ dropped present : List Nat,
        (∀ i ∈ dropped, code.scheme.data ≤ i ∧ i < code.scheme.total) →
        (∀ i, i ∈ present ↔ i < code.scheme.total ∧ i ∉ dropped) →
        (code.repair (without outputs dropped) present summary.totalBytes summary.shardBytes).result = .ok {
          slots := outputs.map some
          repairedIndices := (List.range' code.scheme.data code.scheme.parity).filter (· ∈ dropped)
          bytesRepaired :=
            ((List.range' code.scheme.data code.scheme.parity).filter (· ∈ dropped)).length * summary.shardBytes }) := by
  have hsource : ({ rest := data, pacing := pacing } : Source).pacing.Steady := hpacing
  obtain ⟨summary, hok, htotal, -, hsize, houtputs⟩ := code.encodeStream_replicate ho hfits hsource
  have hfull := code.fullSet_streamShards (o.chunks [] data)
  have hword := (code.reencoded_streamShards (o.chunks [] data)).symm
  refine ⟨summary, ?_⟩
  dsimp only
  rw [houtputs, htotal, hsize]
  refine ⟨hok, ?_, ?_⟩
  · rw [hfull.result_verify, hfull.mismatches_eq_nil_iff.2 hword]
    rfl
  · intro hmemory dropped present hdropped hpresent
    rw [length_flatten_streamShards] at hmemory
    have hcapacity : code.streamSize (o.chunks [] data) * code.scheme.data < wordLimit := by
      refine lt_of_le_of_lt ?_ hmemory
      rw [Nat.mul_comm]
      exact Nat.mul_le_mul_right _ code.data_le_total
    have hholds : data.length ≤ code.streamSize (o.chunks [] data) * code.scheme.data := by
      rw [Nat.mul_comm]
      exact code.length_le_mul_streamSize ho data
    exact hfull.result_repair hword hcapacity hholds (fun i hi => (hdropped i hi).1) hpresent

/-- Five bytes in two chunks of three with one byte repeated, from a source of single bytes; one of two parity outputs is
dropped, and the indices of the others are listed in no order and one of them twice. -/
theorem verify_repair_encodeStream_two_two : ∃ (code : Code) (encoding : EncodeStreamRun) (summary : StreamSummary)
    (outputs : List Bytes), code.scheme = ⟨2, 2⟩ ∧
    encoding = code.encodeStream { rest := [1, 2, 3, 4, 5], pacing := { turn := fun _ _ => .atMost 1 } }
      (List.replicate code.scheme.total {}) ⟨3, 1⟩ ∧
    encoding.outcome.result = .ok summary ∧ outputs = encoding.sinks.map Sink.content ∧
    outputs.flatten.length < wordLimit ∧
    (code.verify (outputs.map some)).result = .ok ⟨true, []⟩ ∧
    (code.repair (without outputs [3]) [2, 0, 1, 0] summary.totalBytes summary.shardBytes).result =
      .ok ⟨outputs.map some, [3], 1 * summary.shardBytes⟩ := by
  have hpacing : ({ turn := fun _ _ => .atMost 1 } : Pacing).Steady := ⟨fun _ _ => nofun, fun _ _ _ => nofun⟩
  obtain ⟨summary, hok, hverify, hrepair⟩ := verify_repair_encodeStream (ofValid ⟨2, 2⟩ (by decide)) [1, 2, 3, 4, 5]
    { turn := fun _ _ => .atMost 1 } hpacing ⟨3, 1⟩ (by decide) (by decide)
  have hmemory : (((ofValid ⟨2, 2⟩ (by decide)).encodeStream
      { rest := [1, 2, 3, 4, 5], pacing := { turn := fun _ _ => .atMost 1 } } (List.replicate 4 {})
      ⟨3, 1⟩).sinks.map Sink.content).flatten.length < wordLimit := by
    have hsource : ({ rest := [1, 2, 3, 4, 5], pacing := { turn := fun _ _ => .atMost 1 } } : Source).pacing.Steady :=
      hpacing
    have ho : (⟨3, 1⟩ : StreamOptions).Valid := by decide
    have hchunks : StreamOptions.chunks ⟨3, 1⟩ [] [1, 2, 3, 4, 5] = [[1, 2, 3], [3, 4, 5]] := by
      simp [StreamOptions.chunks]
    obtain ⟨-, -, -, -, -, houtputs⟩ := (ofValid ⟨2, 2⟩ (by decide)).encodeStream_replicate ho (by decide) hsource
    rw [hchunks] at houtputs
    refine lt_of_eq_of_lt (congrArg (fun outputs => outputs.flatten.length) houtputs) ?_
    rw [length_flatten_streamShards]
    decide
  have hpresent : ∀ i, i ∈ [2, 0, 1, 0] ↔ i < 4 ∧ i ∉ [3] := by
    intro i
    simp only [List.mem_cons, List.not_mem_nil, or_false]
    omega
  exact ⟨_, _, summary, _, rfl, rfl, hok, rfl, hmemory, hverify,
    hrepair hmemory [3] [2, 0, 1, 0] (by decide) hpresent⟩

end Code

end ShardCoding

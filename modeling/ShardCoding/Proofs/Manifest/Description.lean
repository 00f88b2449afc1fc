import ShardCoding.Manifest
import ShardCoding.Proofs.Digest.Hex
import ShardCoding.Proofs.Manifest.Check
import ShardCoding.Proofs.Stream.DigestSink
import ShardCoding.Proofs.Stream.RoundTrip
import ShardCoding.Proofs.Stream.SingleChunk

/-!
# What manifests say of the shards

* `Manifest.entriesOf` : an entry for each shard, under its index; `Manifest.checkEntries_entriesOf` : such entries pass;
* `Manifest.Describes` : a manifest passes its check, tells the shards from other bytes and has a streaming decode restore
  the data; `Manifest.describes_streamShards` : the manifest of the shards of a stream;
* `Manifest.describes_encoded` : the manifests of a buffered and of a streaming encode.
-/

namespace ShardCoding

namespace Manifest

theorem readDigest_hexEncode (index : Nat) (d : Digest) : readDigest index (hexEncode d.bytes) = .ok d := by
  have hdigest : Digest.ofBytes? d.bytes = some d := dif_pos d.length_bytes
  unfold readDigest
  rw [hexDecode_hexEncode]
  dsimp only
  rw [hdigest]

theorem matchesDigest_bytes (d : Digest) (bytes : Bytes) :
    matchesDigest d.bytes bytes = decide (ShardCoding.sha256 bytes = d) := by
  unfold matchesDigest
  rw [Bool.eq_iff_iff, beq_iff_eq, decide_eq_true_iff]
  constructor
  · intro h
    cases hd : ShardCoding.sha256 bytes
    cases d
    simp_all
  · rintro rfl
    rfl

/-! ## Entries -/

/-- An entry for each of the shards, the first of which has the index `first`. -/
def entriesOf (s : Scheme) (first : Nat) (shards : List Bytes) : List Entry :=
  (shards.zipIdx first).map fun (shard, i) => ⟨i, s.data ≤ i, shard.length, hexEncode (ShardCoding.sha256 shard).bytes⟩

theorem entriesOf_cons (s : Scheme) (first : Nat) (shard : Bytes) (shards : List Bytes) :
    entriesOf s first (shard :: shards) =
      ⟨first, s.data ≤ first, shard.length, hexEncode (ShardCoding.sha256 shard).bytes⟩ ::
        entriesOf s (first + 1) shards := rfl

theorem length_entriesOf (s : Scheme) (first : Nat) (shards : List Bytes) :
    (entriesOf s first shards).length = shards.length := by simp [entriesOf]

theorem getElem?_entriesOf (s : Scheme) (shards : List Bytes) (i : Nat) :
    (entriesOf s 0 shards)[i]? = shards[i]?.map fun shard =>
      ⟨i, s.data ≤ i, shard.length, hexEncode (ShardCoding.sha256 shard).bytes⟩ := by
  simp only [entriesOf, List.getElem?_map, List.getElem?_zipIdx, Option.map_map, Nat.zero_add]
  rfl

theorem checkEntries_entriesOf (s : Scheme) (first : Nat) (shards : List Bytes) :
    checkEntries first (entriesOf s first shards) = .ok () := by
  induction shards generalizing first with
  | nil => rfl
  | cons shard shards ih =>
    rw [entriesOf_cons, checkEntries, if_neg (not_not.2 rfl), readDigest_hexEncode]
    exact ih (first + 1)

/-! ## Descriptions -/

/-- `m` describes the `shards` of `data`. -/
structure Describes (m : Manifest) (code : Code) (data : Bytes) (shards : List Bytes) : Prop where
  check_eq : m.check = .ok ()
  dataSize_eq : m.dataSize = data.length
  length_entries : m.shards.length = shards.length
  /-- All shards have the length that the manifest states. -/
  uniform : ∀ shard ∈ shards, shard.length = m.shardSize
  /-- An entry has the index of its shard, and the parity shards come after the first `k`. -/
  entry : ∀ i e, m.shards[i]? = some e → e.index = i ∧ e.isParity = decide (code.scheme.data ≤ i) ∧ e.size = m.shardSize
  /-- Nothing but a shard's digest counts. -/
  verifies : ∀ i shard, shards[i]? = some shard →
    ∀ bytes, m.verifyShard i bytes = .ok (decide (ShardCoding.sha256 bytes = ShardCoding.sha256 shard))
  /-- A streaming decode by the manifest, if its buffers can be made, restores the data from any recoverable selection of
  the shards. -/
  restores : code.decodeBuffer m.stream < bufferLimit → ∀ present sources, code.Selects present →
    code.Recoverable (present.take code.scheme.data) → code.SuppliesShards shards present sources →
      (code.decodeStream sources present m.dataSize {} m.stream).outcome.result = .ok data.length ∧
      (code.decodeStream sources present m.dataSize {} m.stream).sink.content = data

variable {m : Manifest} {code : Code} {data : Bytes}

/-- The shards of a stream that is cut as the manifest states. -/
theorem describes_streamShards (hversion : m.version = currentVersion) (hscheme : m.scheme = code.scheme)
    (hstream : m.stream.Valid) (hdata : m.dataSize = data.length)
    (hsize : m.shardSize = code.streamSize (m.stream.chunks [] data)) {shards : List Bytes}
    (hshards : shards = (List.range code.scheme.total).map (code.streamShard (m.stream.chunks [] data)))
    (hentries : m.shards = entriesOf code.scheme 0 shards) : m.Describes code data shards := by
  have hlen : shards.length = code.scheme.total := by rw [hshards, List.length_map, List.length_range]
  have hget : ∀ {i : Nat}, i < code.scheme.total →
      shards[i]? = some (code.streamShard (m.stream.chunks [] data) i) := by
    intro i hi
    rw [hshards, List.getElem?_map, List.getElem?_range hi]
    rfl
  have huniform : ∀ shard ∈ shards, shard.length = m.shardSize := by
    intro shard hshard
    rw [hshards] at hshard
    obtain ⟨i, hi, rfl⟩ := List.mem_map.1 hshard
    rw [hsize, Code.length_streamShard code (List.mem_range.1 hi)]
  refine ⟨?_, hdata, ?_, huniform, ?_, ?_, ?_⟩
  · have hentriesCount : ¬ m.shards.length ≠ m.scheme.total := by
      rw [hentries, length_entriesOf, hlen, hscheme, not_not]
    unfold check
    rw [if_neg (not_not.2 hversion), if_neg hentriesCount, hscheme, Scheme.check_eq_ok code.valid.accepted,
      StreamOptions.check_eq_ok hstream, hentries]
    exact checkEntries_entriesOf code.scheme 0 shards
  · rw [hentries, length_entriesOf]
  · intro i e he
    rw [hentries] at he
    rw [getElem?_entriesOf, Option.map_eq_some_iff] at he
    obtain ⟨shard, hshard, rfl⟩ := he
    exact ⟨rfl, rfl, huniform shard (List.mem_of_getElem? hshard)⟩
  · intro i shard hshard bytes
    unfold verifyShard digest
    rw [hentries, getElem?_entriesOf, hshard, Option.map_some]
    dsimp only
    rw [readDigest_hexEncode]
    exact congrArg Except.ok (matchesDigest_bytes _ _)
  · intro hroom present sources hsel hrec hsupplies
    have hstock : List.Forall₂ (fun i s => s.pacing.Steady ∧ s.rest = code.streamShard (m.stream.chunks [] data) i)
        (present.take code.scheme.data) (sources.take code.scheme.data) := by
      refine ((List.forall₂_and_left _ _).2 ⟨hsel.lt_total, hsupplies.stocked⟩).imp ?_
      rintro i s ⟨hi, hsteady, hrest⟩
      exact ⟨hsteady, hrest _ (hget hi)⟩
    obtain ⟨-, -, -, -, hresult, hcontent, -⟩ := Code.decodeStream_stocked hstream hroom hsel hrec
      hsupplies.length_eq hstock
    rw [hdata]
    exact ⟨hresult, hcontent⟩

/-- The shards of one chunk have the least shard length. -/
theorem streamSize_one_chunk (code : Code) {o : StreamOptions} (hle : data.length ≤ o.chunk) :
    code.streamSize (o.chunks [] data) = code.scheme.shardSizeFor data.length := by
  have hpos : 0 < code.scheme.total := code.valid.1.trans_le code.data_le_total
  rw [← Code.length_streamShard code hpos, Code.streamShard_chunks hle hpos, Code.length_segment code hpos]

/-- A buffered encode is a streaming one in a single chunk. -/
theorem describes_ofEncoded (now : Instant) {e : Encoded} (he : (code.encode data).result = .ok e) :
    (ofEncoded code.scheme e now).Describes code data (e.shards.map Shard.data) := by
  have hshards := Code.map_data_encode he
  rw [Code.result_encode, Except.ok.injEq] at he
  subst he
  have hle : data.length ≤ max data.length 1 := Nat.le_max_left _ _
  have hvalid : StreamOptions.Valid ⟨max data.length 1, 0⟩ := Nat.lt_of_lt_of_le Nat.one_pos (Nat.le_max_right _ _)
  refine describes_streamShards rfl rfl hvalid rfl (streamSize_one_chunk code hle).symm ?_ ?_
  · rw [hshards]
    refine List.ext_getElem (by simp) ?_
    intro i hi hi'
    have hi'' : i < code.scheme.total := by rwa [Code.length_shardsOf] at hi
    rw [List.getElem_map, List.getElem_range]
    show _ = code.streamShard (StreamOptions.chunks ⟨max data.length 1, 0⟩ [] data) i
    rw [Code.streamShard_chunks hle hi'', Code.segment, List.getD_eq_getElem _ _ hi]
  · rw [hshards]
    exact List.map_map

theorem describes_ofStream (code : Code) {o : StreamOptions} (ho : o.Valid) (hfits : o.chunk < bufferLimit)
    (now : Instant) {source : Source} (hsource : source.pacing.Steady) {sinks : List Sink}
    (hlen : sinks.length = code.scheme.total) (hfresh : ∀ s ∈ sinks, s.Fresh) :
    ∃ summary, (code.encodeStream source sinks o).outcome.result = .ok summary ∧
      (ofStream code.scheme o summary now).Describes code source.rest
        ((code.encodeStream source sinks o).sinks.map Sink.content) := by
  obtain ⟨summary, hok, htotal, -, hsize, hcontents⟩ := code.encodeStream_steady ho hfits hsource hlen
    (fun s hs => (hfresh s hs).steady) (fun s hs => (hfresh s hs).flushes)
  have hshards : (code.encodeStream source sinks o).sinks.map Sink.content =
      (List.range code.scheme.total).map (code.streamShard (o.chunks [] source.rest)) := by
    rw [hcontents]
    refine List.ext_getElem (by simp [hlen]) ?_
    intro i hi hi'
    simp [(hfresh _ (List.getElem_mem _)).empty]
  have hchecksums : summary.checksums =
      ((code.encodeStream source sinks o).sinks.map Sink.content).map ShardCoding.sha256 := by
    rw [(Code.checksums_encodeStream hok).2, gained_eq hcontents, hlen, hshards]
  refine ⟨summary, hok, describes_streamShards rfl rfl ho htotal hsize hshards ?_⟩
  show summary.checksums.zipIdx.map _ = _
  rw [hchecksums, List.zipIdx_map, List.map_map]
  refine List.map_congr_left ?_
  rintro ⟨shard, i⟩ hmem
  have hshard : shard.length = summary.shardBytes := by
    have hcontent := List.fst_mem_of_mem_zipIdx hmem
    rw [hshards] at hcontent
    obtain ⟨j, hj, rfl⟩ := List.mem_map.1 hcontent
    rw [Code.length_streamShard code (List.mem_range.1 hj), hsize]
  show (⟨i, _, summary.shardBytes, _⟩ : Entry) = ⟨i, _, shard.length, _⟩
  rw [hshard]
  rfl

/-- **Manifests**: the manifest of a buffered encode describes the shards that it yields, and the manifest of a streaming
encode with a chunk that a buffer holds, whatever pieces its endpoints move, describes what each sink got. -/
theorem describes_encoded (code : Code) (data : Bytes) (now : Instant) :
    (∃ e, (code.encode data).result = .ok e ∧
      (ofEncoded code.scheme e now).Describes code data (e.shards.map Shard.data)) ∧
    ∀ (o : StreamOptions) (source : Source) (sinks : List Sink), o.Valid → o.chunk < bufferLimit →
      source.rest = data → source.pacing.Steady → sinks.length = code.scheme.total → (∀ s ∈ sinks, s.Fresh) →
        ∃ summary, (code.encodeStream source sinks o).outcome.result = .ok summary ∧
          (ofStream code.scheme o summary now).Describes code data
            ((code.encodeStream source sinks o).sinks.map Sink.content) := by
  refine ⟨⟨_, Code.result_encode code data, describes_ofEncoded now (Code.result_encode code data)⟩, ?_⟩
  rintro o source sinks ho hfits rfl hsource hlen hfresh
  exact describes_ofStream code ho hfits now hsource hlen hfresh

/-- Sources that hand out what the sinks got hand out the shards that these hold. -/
theorem suppliesShards_content {sinks : List Sink} {present : List Nat} {sources : List Source}
    (h : code.Supplies sinks present sources) : code.SuppliesShards (sinks.map Sink.content) present sources := by
  refine ⟨h.length_eq, h.stocked.imp ?_⟩
  rintro i s ⟨hsteady, hrest⟩
  refine ⟨hsteady, ?_⟩
  intro shard hshard
  rw [List.getElem?_map, Option.map_eq_some_iff] at hshard
  obtain ⟨sink, hsink, rfl⟩ := hshard
  rw [hrest, List.getD_eq_getElem?_getD, hsink, Option.getD_some]

/-- Five bytes, buffered and in chunks of two with one repeated: both manifests pass their check, and by the second the
data comes back from the parity sink and a data sink. -/
theorem describes_encoded_two_one : ∃ (code : Code) (now : Instant) (e : Encoded) (summary : StreamSummary)
    (sinks : List Sink),
    code.scheme = ⟨2, 1⟩ ∧ now = ⟨2024, 1, 2, 3, 4, 5, 0⟩ ∧ (code.encode [1, 2, 3, 4, 5]).result = .ok e ∧
    (code.encodeStream { rest := [1, 2, 3, 4, 5] } [{}, {}, {}] ⟨2, 1⟩).outcome.result = .ok summary ∧
    sinks = (code.encodeStream { rest := [1, 2, 3, 4, 5] } [{}, {}, {}] ⟨2, 1⟩).sinks ∧
    let m := ofStream code.scheme ⟨2, 1⟩ summary now
    (ofEncoded code.scheme e now).check = .ok () ∧ m.check = .ok () ∧
    (code.decodeStream (Code.sourcesOf sinks [(2, {}), (0, {})]) [2, 0] m.dataSize {} m.stream).sink.content =
      [1, 2, 3, 4, 5] := by
  let code := Code.ofValid ⟨2, 1⟩ (by decide)
  have hfresh : ∀ s ∈ [{}, {}, ({} : Sink)], s.Fresh := by
    intro s hs
    obtain rfl : s = {} := by simpa using hs
    exact ⟨rfl, Pacing.steady_default, rfl⟩
  obtain ⟨⟨e, he, hbuffered⟩, hstreamed⟩ := describes_encoded code [1, 2, 3, 4, 5] ⟨2024, 1, 2, 3, 4, 5, 0⟩
  obtain ⟨summary, hok, hdescribes⟩ := hstreamed ⟨2, 1⟩ { rest := [1, 2, 3, 4, 5] } [{}, {}, {}] (by decide)
    (by decide) rfl Pacing.steady_default rfl hfresh
  have hsel : code.Selects [2, 0] := ⟨by decide, by decide, by decide⟩
  have hrec : code.Recoverable [2, 0] := Code.recoverable_of_few (Or.inr (by decide)) (by decide) (by decide) (by decide)
  have hsteady : ∀ l ∈ ([(2, {}), (0, {})] : List (Nat × Pacing)).take 2, l.2.Steady := by
    intro l hl
    obtain rfl | rfl : l = (2, {}) ∨ l = (0, {}) := by simpa using hl
    · exact Pacing.steady_default
    · exact Pacing.steady_default
  have hsupplies := suppliesShards_content (Code.supplies_sourcesOf code
    (code.encodeStream { rest := [1, 2, 3, 4, 5] } [{}, {}, {}] ⟨2, 1⟩).sinks hsteady)
  have hroom : code.decodeBuffer ⟨2, 1⟩ < bufferLimit := by decide
  obtain ⟨-, hcontent⟩ := hdescribes.restores hroom _ _ hsel hrec hsupplies
  exact ⟨code, _, e, summary, _, rfl, rfl, he, hok, rfl, hbuffered.check_eq, hdescribes.check_eq, hcontent⟩

end Manifest

end ShardCoding

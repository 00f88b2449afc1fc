import ShardCoding.Proofs.Code.Verification
import ShardCoding.Proofs.Stream.Outcome

/-!
# Streams of one chunk

A stream that fits in one chunk is encoded and decoded like a buffer.

* `Sink.Fresh`, `Code.SuppliesShards` : the endpoints; sources hand out any shards, codeword or not;
* `Code.streamShard_chunks` : the shards of one chunk are the shards of a buffer;
* `FullSet.decodeShards_eq` : a buffered decode of a full set, by the plan of a streaming one;
  `Code.decodeStream_one_chunk` : what the streaming decode writes;
* `Code.stream_eq_buffered` : both ways agree.
-/

namespace ShardCoding

/-- An empty sink that takes all that it is given, in pieces of any length. -/
structure Sink.Fresh (s : Sink) : Prop where
  empty : s.content = []
  steady : s.pacing.Steady
  flushes : s.flushFault = none

theorem Scheme.shardSizeFor_zero {s : Scheme} (hs : s.Valid) : s.shardSizeFor 0 = 0 := by
  have hzero := Scheme.shardSizeFor_mul hs 0
  rwa [Nat.mul_zero] at hzero

namespace Code

variable {code : Code} {o : StreamOptions}

/-! ## Encoding -/

/-- An empty buffer has no chunk, and its shards are empty. -/
theorem streamShard_chunks {data : Bytes} (hle : data.length ≤ o.chunk) {i : Nat} (hi : i < code.scheme.total) :
    code.streamShard (o.chunks [] data) i = code.segment i data := by
  by_cases hdata : data = []
  · subst hdata
    rw [StreamOptions.chunks_nil]
    symm
    apply List.eq_nil_of_length_eq_zero
    rw [length_segment code hi]
    exact Scheme.shardSizeFor_zero code.valid
  · rw [StreamOptions.chunks_of_length_le hdata hle, streamShard, List.flatMap_singleton]

/-! ## Decoding -/

/-- As many sources as indices, the first `k` of them steady, each with the shard that its index names, if there is
one. -/
structure SuppliesShards (code : Code) (shards : List Bytes) (present : List Nat) (sources : List Source) : Prop where
  length_eq : sources.length = present.length
  stocked : List.Forall₂ (fun i s => s.pacing.Steady ∧ ∀ shard, shards[i]? = some shard → s.rest = shard)
    (present.take code.scheme.data) (sources.take code.scheme.data)

variable {size dataSize : Nat} {shards : List Bytes} {present : List Nat} {sources : List Source}

theorem FullSet.presentShard_eq (h : code.FullSet size shards) {i : Nat} (hi : i < code.scheme.total) :
    presentShard (shards.map some) size i = .ok (shards.getD i []) := by
  have hlen : i < shards.length := by rwa [h.length_eq]
  rw [presentShard_eq_ok, List.getD_eq_getElem _ _ hlen]
  refine ⟨?_, h.uniform _ (List.getElem_mem hlen)⟩
  rw [List.getElem?_map, List.getElem?_eq_getElem hlen]
  rfl

/-- All that a buffered decode of a full set can refuse is refused by the plan of a streaming decode as well, and in the
same order. -/
theorem FullSet.decodeShards_eq (h : code.FullSet size shards) (hword : size * code.scheme.data < wordLimit)
    (hcapacity : dataSize ≤ size * code.scheme.data) (present : List Nat) :
    code.decodeShards (shards.map some) present dataSize size =
      (code.planDecodeStream present).map fun plan =>
        (reconstruct plan.inverse size
          ((present.take code.scheme.data).map fun i => shards.getD i [])).take dataSize := by
  have hslots : (shards.map some).length = code.scheme.total := by rw [List.length_map, h.length_eq]
  unfold decodeShards checkSlotCount checkCapacity planDecodeStream
  rw [if_pos hslots, if_neg (by omega)]
  cases hselect : code.select present with
  | error e => rfl
  | ok selected =>
    obtain ⟨hsel, rfl⟩ := selects_of_select hselect
    have hin := mapM_ok fun i hi => h.presentShard_eq (hsel.lt_total i hi)
    simp only [bind, Except.bind, hin]
    cases code.inverseFor (present.take code.scheme.data) <;> rfl

theorem planDecodeStream_eq_ok {plan : ChunkDecoder.Plan} (h : code.planDecodeStream present = .ok plan) :
    code.Selects present ∧ plan.code = code := by
  unfold planDecodeStream at h
  cases hselect : code.select present with
  | error e =>
    rw [hselect] at h
    cases h
  | ok selected =>
    obtain ⟨hsel, rfl⟩ := selects_of_select hselect
    simp only [hselect, bind, Except.bind] at h
    cases hinverse : code.inverseFor (present.take code.scheme.data) with
    | error e =>
      rw [hinverse] at h
      cases h
    | ok inverse =>
      rw [hinverse] at h
      obtain rfl := Except.ok.inj h
      exact ⟨hsel, rfl⟩

theorem SuppliesShards.forall₂ (h : code.SuppliesShards shards present sources) (hfull : code.FullSet size shards)
    (hsel : code.Selects present) :
    List.Forall₂ (fun i s => s.pacing.Steady ∧ s.rest = shards.getD i [] ++ []) (present.take code.scheme.data)
      (sources.take code.scheme.data) := by
  refine ((List.forall₂_and_left _ _).2 ⟨hsel.lt_total, h.stocked⟩).imp fun i s hs => ⟨hs.2.1, ?_⟩
  have hlen : i < shards.length := by
    rw [hfull.length_eq]
    exact hs.1
  rw [List.append_nil, List.getD_eq_getElem _ _ hlen]
  exact hs.2.2 _ (List.getElem?_eq_getElem hlen)

/-- One round reads all shards and writes what is reconstructed from them; no round at all is needed for no data. -/
theorem decodeStream_one_chunk (ho : o.Valid) (hroom : code.decodeBuffer o < bufferLimit) (hle : dataSize ≤ o.chunk)
    (hfull : code.FullSet (code.scheme.shardSizeFor dataSize) shards)
    (hsupplies : code.SuppliesShards shards present sources) {plan : ChunkDecoder.Plan}
    (hplan : code.planDecodeStream present = .ok plan) {sink : Sink} (hsink : sink.Fresh) :
    (code.decodeStream sources present dataSize sink o).outcome.result = .ok dataSize ∧
      (code.decodeStream sources present dataSize sink o).sink.content =
        (reconstruct plan.inverse (code.scheme.shardSizeFor dataSize)
          ((present.take code.scheme.data).map fun i => shards.getD i [])).take dataSize := by
  obtain ⟨hsel, rfl⟩ := planDecodeStream_eq_ok hplan
  have hcheck := plan.code.checkDecodeStream_eq_ok ho hsupplies.length_eq hsel.enough
  let start : ChunkDecoder := { sources := sources, sink := sink, remaining := dataSize }
  by_cases hzero : dataSize = 0
  · subst hzero
    have hrounds : ChunkDecoder.Rounds plan o 0 start start := .done rfl
    obtain ⟨hresult, hlast, -⟩ := decodeStream_of_rounds ho hroom hcheck hplan hrounds hsink.flushes
    refine ⟨hresult, ?_⟩
    rw [hlast, List.take_zero]
    exact hsink.empty
  · have hfresh : start.fresh o = dataSize := Nat.min_eq_right hle
    have hsize : ∀ i ∈ present.take plan.code.scheme.data,
        (shards.getD i []).length = plan.code.scheme.shardSizeFor (start.carry + dataSize) := by
      intro i hi
      have hlen : i < shards.length := by
        rw [hfull.length_eq]
        exact hsel.lt_total i hi
      rw [List.getD_eq_getElem _ _ hlen, hfull.uniform _ (List.getElem_mem hlen)]
      exact congrArg _ (Nat.zero_add dataSize).symm
    obtain ⟨d, hchunk, htakes, hwritten, hremaining, -⟩ := ChunkDecoder.decodeChunk_reads o.overlap
      (hsupplies.forall₂ hfull hsel) hsel.length_take hsize hsink.steady
    have hlast : d.remaining = 0 := hremaining.trans (Nat.sub_self dataSize)
    have hrounds : ChunkDecoder.Rounds plan o 1 start d := .round hzero (hfresh ▸ hchunk) (.done hlast)
    have hflush := htakes.flushFault_eq.trans hsink.flushes
    obtain ⟨hresult, hsinkEq, -⟩ := decodeStream_of_rounds ho hroom hcheck hplan hrounds hflush
    rw [hresult, hsinkEq, hwritten, htakes.content_eq]
    refine ⟨congrArg Except.ok (Nat.zero_add dataSize), ?_⟩
    show sink.content ++ List.drop 0 (List.take (0 + dataSize)
      (reconstruct _ (plan.code.scheme.shardSizeFor (0 + dataSize)) _)) = _
    rw [hsink.empty, List.nil_append, List.drop_zero, Nat.zero_add]

/-- A list that is too short is refused before the plan is made, but as the plan would refuse it. -/
theorem decodeStream_of_plan_error (ho : o.Valid) (hcount : sources.length = present.length) {e : CodingError}
    (hplan : code.planDecodeStream present = .error e) {sink : Sink} :
    (code.decodeStream sources present dataSize sink o).outcome.result = .error e := by
  unfold decodeStream
  by_cases henough : code.scheme.data ≤ present.length
  · rw [code.checkDecodeStream_eq_ok ho hcount henough, hplan]
    rfl
  · have hcheck : code.checkDecodeStream sources present o =
        .error (.insufficientShards present.length code.scheme.data) := by
      unfold checkDecodeStream
      rw [StreamOptions.check_eq_ok ho, hcount, if_pos (Nat.not_le.1 henough)]
      rfl
    have hselect : code.select present = .error (.insufficientShards present.length code.scheme.data) := by
      unfold select
      rw [if_pos (Nat.not_le.1 henough)]
    have hfirst : code.planDecodeStream present = .error (.insufficientShards present.length code.scheme.data) := by
      unfold planDecodeStream
      rw [hselect]
      rfl
    obtain rfl := Except.error.inj (hfirst.symm.trans hplan)
    rw [hcheck]
    rfl

/-! ## Both ways -/

/-- **One chunk is a buffer**: a streaming encode of what fits in one chunk gives each sink its shard of the buffered
encode. A streaming decode of as many bytes from slots of the least shard length, whatever they hold and whichever of
them are selected, writes what the buffered decode yields, or fails as it does. Chunks that no buffer has room for are
valid as well: with those the encode panics, and so does the decode wherever the buffered one succeeds. -/
theorem stream_eq_buffered (code : Code) (o : StreamOptions) (ho : o.Valid) :
    (∀ (source : Source) (sinks : List Sink), source.pacing.Steady → source.rest.length ≤ o.chunk →
      sinks.length = code.scheme.total → (∀ s ∈ sinks, s.Fresh) →
      let streamed := code.encodeStream source sinks o
      (o.chunk < bufferLimit → ∃ e summary, (code.encode source.rest).result = .ok e ∧
        streamed.outcome.result = .ok summary ∧ streamed.sinks.map Sink.content = e.shards.map Shard.data) ∧
      (bufferLimit ≤ o.chunk → streamed.outcome.result = .error (.panicked .capacityOverflow) ∧
        streamed.source = source ∧ streamed.sinks = sinks)) ∧
    (∀ dataSize : Nat, dataSize ≤ o.chunk → dataSize < bufferLimit →
      ∀ (shards : List Bytes) (present : List Nat) (sources : List Source) (sink : Sink),
        code.FullSet (code.scheme.shardSizeFor dataSize) shards → code.SuppliesShards shards present sources →
        sink.Fresh →
        let streamed := code.decodeStream sources present dataSize sink o
        let buffered := code.decode (shards.map some) present dataSize (code.scheme.shardSizeFor dataSize)
        (code.decodeBuffer o < bufferLimit →
          (streamed.outcome.result.map fun _ => streamed.sink.content) = buffered.result ∧
          ∀ written, streamed.outcome.result = .ok written → written = dataSize) ∧
        (bufferLimit ≤ code.decodeBuffer o →
          streamed.outcome.result = buffered.result.bind fun _ => .error (.panicked .capacityOverflow))) := by
  constructor
  · intro source sinks hsource hle hlen hfresh streamed
    refine ⟨fun hfits => ?_, fun hlarge => ?_⟩
    case refine_2 =>
      dsimp only [streamed]
      rw [encodeStream_panicked ho hlen hlarge source]
      exact ⟨rfl, rfl, rfl⟩
    obtain ⟨summary, hok, -, -, -, hcontents⟩ := code.encodeStream_steady ho hfits hsource hlen
      (fun s hs => (hfresh s hs).steady) (fun s hs => (hfresh s hs).flushes)
    refine ⟨_, summary, result_encode code source.rest, hok, ?_⟩
    rw [hcontents, map_data_encode (result_encode code source.rest)]
    refine List.ext_getElem (by rw [List.length_map, List.length_zipIdx, hlen, length_shardsOf]) fun i hi hi' => ?_
    have hi'' : i < code.scheme.total := by rwa [length_shardsOf] at hi'
    rw [List.getElem_map, List.getElem_zipIdx, Nat.zero_add]
    dsimp only
    rw [(hfresh _ (List.getElem_mem _)).empty, List.nil_append, streamShard_chunks hle hi'', segment,
      List.getD_eq_getElem _ _ hi']
  · intro dataSize hle hlimit shards present sources sink hfull hsupplies hsink
    have hword : code.scheme.shardSizeFor dataSize * code.scheme.data < wordLimit := by
      rw [Nat.mul_comm]
      exact Scheme.mul_shardSizeFor_lt_wordLimit code.valid hlimit
    have hcapacity : dataSize ≤ code.scheme.shardSizeFor dataSize * code.scheme.data := by
      rw [Nat.mul_comm]
      exact Scheme.le_mul_shardSizeFor code.valid dataSize
    dsimp only
    rw [result_decode, hfull.decodeShards_eq hword hcapacity]
    cases hplan : code.planDecodeStream present with
    | ok plan =>
      refine ⟨fun hroom => ?_, fun hlarge => ?_⟩
      · obtain ⟨hresult, hcontent⟩ := decodeStream_one_chunk ho hroom hle hfull hsupplies hplan hsink
        rw [hresult, hcontent]
        exact ⟨rfl, fun written hwritten => (Except.ok.inj hwritten).symm⟩
      · have henough := (planDecodeStream_eq_ok hplan).1.enough
        rw [decodeStream_panicked (code.checkDecodeStream_eq_ok ho hsupplies.length_eq henough) hplan hlarge]
        rfl
    | error e =>
      rw [decodeStream_of_plan_error ho hsupplies.length_eq hplan]
      exact ⟨fun _ => ⟨rfl, nofun⟩, fun _ => rfl⟩

/-- Three bytes in one chunk of eight, into sinks that take a byte at a time, and five bytes in slots of three that no
encode has filled, of which a parity slot and a data slot are read. -/
theorem stream_eq_buffered_two_one : ∃ (code : Code) (e : Encoded) (summary : StreamSummary) (streamed : DecodeStreamRun),
    code.scheme = ⟨2, 1⟩ ∧ (code.encode [1, 2, 3]).result = .ok e ∧
    (code.encodeStream { rest := [1, 2, 3] } (List.replicate 3 { pacing := { turn := fun _ _ => .atMost 1 } })
      ⟨8, 3⟩).outcome.result = .ok summary ∧
    (code.encodeStream { rest := [1, 2, 3] } (List.replicate 3 { pacing := { turn := fun _ _ => .atMost 1 } })
      ⟨8, 3⟩).sinks.map Sink.content = e.shards.map Shard.data ∧
    streamed = code.decodeStream [{ rest := [7, 8, 9] }, { rest := [4, 5, 6] }] [2, 0] 5 {} ⟨8, 3⟩ ∧
    (streamed.outcome.result.map fun _ => streamed.sink.content) =
      (code.decode [some [4, 5, 6], some [1, 1, 1], some [7, 8, 9]] [2, 0] 5 3).result := by
  obtain ⟨hencode, hdecode⟩ := stream_eq_buffered (ofValid ⟨2, 1⟩ (by decide)) ⟨8, 3⟩ (by decide)
  have hsteady : ({ turn := fun _ _ => .atMost 1 } : Pacing).Steady := ⟨fun _ _ => nofun, fun _ _ _ => nofun⟩
  have hfresh : ∀ s ∈ List.replicate 3 ({ pacing := { turn := fun _ _ => .atMost 1 } } : Sink), s.Fresh := by
    intro s hs
    rw [List.eq_of_mem_replicate hs]
    exact ⟨rfl, hsteady, rfl⟩
  obtain ⟨hone, -⟩ := hencode { rest := [1, 2, 3] } _ Pacing.steady_default (by decide) rfl hfresh
  obtain ⟨e, summary, he, hok, hcontents⟩ := hone (by decide)
  have hfull : (ofValid ⟨2, 1⟩ (by decide)).FullSet 3 [[4, 5, 6], [1, 1, 1], [7, 8, 9]] := ⟨rfl, by decide⟩
  have hsupplies : (ofValid ⟨2, 1⟩ (by decide)).SuppliesShards [[4, 5, 6], [1, 1, 1], [7, 8, 9]] [2, 0]
      [{ rest := [7, 8, 9] }, { rest := [4, 5, 6] }] := by
    refine ⟨rfl, .cons ⟨Pacing.steady_default, ?_⟩ (.cons ⟨Pacing.steady_default, ?_⟩ .nil)⟩
    · exact fun shard hshard => Option.some.inj hshard
    · exact fun shard hshard => Option.some.inj hshard
  obtain ⟨hboth, -⟩ := hdecode 5 (by decide) (by decide) _ _ _ {} hfull hsupplies ⟨rfl, Pacing.steady_default, rfl⟩
  obtain ⟨hagree, -⟩ := hboth (by decide)
  exact ⟨_, e, summary, _, rfl, he, hok, hcontents, rfl, hagree⟩

/-- One byte from both shards of it, in chunks of half the words: the buffered decode succeeds and the streaming one
panics. -/
theorem stream_eq_buffered_panics : ∃ (code : Code) (o : StreamOptions) (sources : List Source),
    code.scheme = ⟨1, 1⟩ ∧ o = ⟨2 ^ 63, 0⟩ ∧ o.check = .ok () ∧ sources = [{ rest := [7] }, { rest := [7] }] ∧
    (code.decode [some [7], some [7]] [0, 1] 1 1).result = .ok [7] ∧
    (code.decodeStream sources [0, 1] 1 {} o).outcome.result = .error (.panicked .capacityOverflow) := by
  refine ⟨ofValid ⟨1, 1⟩ (by decide), ⟨2 ^ 63, 0⟩, _, rfl, rfl, by decide, rfl, ?_, ?_⟩
  all_goals decide +kernel

end Code

end ShardCoding

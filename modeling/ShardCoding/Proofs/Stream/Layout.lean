import ShardCoding.Proofs.Coder.Session
import ShardCoding.Proofs.Digest.Cache
import ShardCoding.Proofs.Stream.DigestSink

/-!
# The layout of an encoded stream

* `StreamOptions.window` : one chunk of a stream, by its number; `StreamOptions.chunks_start` : the chunks of a whole
  stream are these;
* `Code.streamShard_windows` : a shard of the stream is made of the shards of buffered encodes;
* `Coder.digests_encodeStream` : the digests kept after a streaming encode, even when observers call back;
* `Coder.encodeStream_layout` : all that a streaming encode with steady endpoints does.
-/

namespace ShardCoding

namespace StreamOptions

variable {o : StreamOptions}

/-- Chunk `j` of a stream: as many bytes as a chunk holds, or as there are, from the start of its stride on. -/
def window (o : StreamOptions) (data : Bytes) (j : Nat) : Bytes := (data.drop (j * o.stride)).take o.chunk

/-- The windows after the first are those of what is left after one stride. -/
theorem window_drop_stride (o : StreamOptions) (data : Bytes) (j : Nat) :
    o.window (data.drop o.stride) j = o.window data (j + 1) := by
  rw [window, window, List.drop_drop, Nat.succ_mul, Nat.add_comm]

/-- A full chunk leaves to the next one what follows its first stride. -/
theorem carry_append_drop (ho : o.Valid) (carry rest : Bytes) (hcarry : carry.length ≤ o.chunk)
    (hfull : o.chunk ≤ carry.length + rest.length) :
    let chunk := carry ++ rest.take (o.chunk - carry.length)
    (chunk.drop (chunk.length - o.overlap)).length = o.overlap ∧
    chunk.drop (chunk.length - o.overlap) ++ rest.drop (o.chunk - carry.length) = (carry ++ rest).drop o.stride := by
  intro chunk
  have hlength : chunk.length = o.chunk := by
    rw [List.length_append, List.length_take]
    omega
  have hstride : chunk.length - o.overlap = o.stride := by rw [hlength]; rfl
  have hle : o.stride ≤ chunk.length := hstride ▸ Nat.sub_le ..
  refine ⟨?_, ?_⟩
  · rw [List.length_drop, hlength]
    exact Nat.sub_sub_self (Nat.le_of_lt ho)
  · calc chunk.drop (chunk.length - o.overlap) ++ rest.drop (o.chunk - carry.length)
        = (chunk ++ rest.drop (o.chunk - carry.length)).drop o.stride := by
          rw [hstride, List.drop_append_of_le_length hle]
      _ = (carry ++ rest).drop o.stride := by rw [List.append_assoc, List.take_append_drop]

/-- After a full chunk each further chunk is a window on the bytes that it repeats and those that are left. -/
theorem chunks_overlap (ho : o.Valid) {carry : Bytes} (hcarry : carry.length = o.overlap) (rest : Bytes) :
    o.chunks carry rest = (List.range ((rest.length + (o.stride - 1)) / o.stride)).map (o.window (carry ++ rest)) := by
  have hstride := ho.stride_pos
  have hchunk : o.chunk = o.overlap + o.stride := (Nat.add_sub_of_le (Nat.le_of_lt ho)).symm
  induction hn : rest.length using Nat.strong_induction_on generalizing carry rest with
  | _ n ih =>
    subst hn
    have hfresh : o.chunk - carry.length = o.stride := by rw [hcarry]; rfl
    by_cases hnil : rest = []
    · rw [hnil, chunks_nil, List.length_nil, Nat.div_eq_of_lt (by omega)]
      rfl
    have hpos := List.length_pos_iff.2 hnil
    have hwindow : carry ++ rest.take (o.chunk - carry.length) = o.window (carry ++ rest) 0 := by
      rw [window, Nat.zero_mul, List.drop_zero, List.take_append, List.take_of_length_le (l := carry) (by omega)]
    by_cases hfull : o.stride ≤ rest.length
    · obtain ⟨hlength, happend⟩ := carry_append_drop ho carry rest (by omega) (by omega)
      have hlater := ih (rest.drop (o.chunk - carry.length)).length (by rw [List.length_drop]; omega) hlength _ rfl
      rw [chunks_of_ne_nil hnil (by omega), hlater, happend, hwindow, List.length_drop, hfresh]
      obtain ⟨later, hrest⟩ := Nat.exists_eq_add_of_le' hfull
      rw [hrest, Nat.add_sub_cancel, ceil_add_step hstride, List.range_succ_eq_map, List.map_cons, List.map_map]
      exact congrArg _ (List.map_congr_left fun j _ => o.window_drop_stride (carry ++ rest) j)
    · have hle : rest.length ≤ o.chunk - carry.length := by omega
      rw [chunks_of_ne_nil hnil (by omega), List.drop_of_length_le hle, chunks_nil, hwindow,
        ceil_eq_one hpos (by omega)]
      rfl

/-- The chunks of a whole stream are its windows. -/
theorem chunks_start (ho : o.Valid) (data : Bytes) :
    o.chunks [] data = (List.range (o.chunkCount data.length)).map (o.window data) := by
  have hstride := ho.stride_pos
  have hchunk : o.chunk = o.overlap + o.stride := (Nat.add_sub_of_le (Nat.le_of_lt ho)).symm
  unfold chunkCount
  by_cases hnil : data = []
  · rw [hnil, chunks_nil, List.length_nil, if_pos rfl]
    rfl
  have hpos := List.length_pos_iff.2 hnil
  rw [if_neg (by omega), Nat.add_comm 1]
  by_cases hfull : o.chunk ≤ data.length
  · obtain ⟨hlength, happend⟩ := carry_append_drop ho [] data (Nat.zero_le _) (by simpa using hfull)
    rw [chunks_of_ne_nil hnil (Nat.lt_of_le_of_lt (Nat.zero_le _) ho), chunks_overlap ho hlength, happend,
      List.range_succ_eq_map, List.map_cons, List.map_map, List.length_drop, List.length_nil, Nat.sub_zero]
    refine List.cons_eq_cons.2 ⟨?_, List.map_congr_left fun j _ => o.window_drop_stride data j⟩
    rw [window, Nat.zero_mul]
    rfl
  · have hwindow : o.window data 0 = data := by
      rw [window, Nat.zero_mul, List.drop_zero, List.take_of_length_le (by omega)]
    rw [chunks_of_length_le hnil (by omega), Nat.sub_eq_zero_of_le (by omega), Nat.zero_add,
      Nat.div_eq_of_lt (by omega)]
    exact congrArg (fun chunk => [chunk]) hwindow.symm

end StreamOptions

/-! ## The shards of a stream -/

/-- The bytes of shard `i`. -/
def Encoded.bytesOf (e : Encoded) (i : Nat) : Bytes := (e.shards.map Shard.data).getD i []

/-- A segment of a stream is a shard of the buffered encode of its chunk. -/
theorem Code.bytesOf_encode {code : Code} {chunk : Bytes} {e : Encoded} (he : (code.encode chunk).result = .ok e)
    (i : Nat) : e.bytesOf i = code.segment i chunk := by
  rw [Encoded.bytesOf, map_data_encode he]
  rfl

theorem Code.streamShard_windows (code : Code) {o : StreamOptions} (ho : o.Valid) {data : Bytes}
    {encoded : Nat → Encoded} (he : ∀ j, (code.encode (o.window data j)).result = .ok (encoded j)) (i : Nat) :
    code.streamShard (o.chunks [] data) i =
      (List.range (o.chunkCount data.length)).flatMap fun j => (encoded j).bytesOf i := by
  rw [streamShard, StreamOptions.chunks_start ho, List.flatMap_map]
  exact List.flatMap_congr fun j _ => (bytesOf_encode (he j) i).symm

namespace Coder

/-- A streaming encode that succeeds has its digests kept, whatever its observers did while it announced its chunks. -/
theorem digests_encodeStream (c : Coder) {source : Source} {sinks : List Sink} {o : StreamOptions}
    {summary : StreamSummary} (h : (c.code.encodeStream source sinks o).outcome.result = .ok summary) :
    (c.run (c.code.encodeStream source sinks o).outcome).2.digests = .ofDigests summary.checksums := by
  obtain ⟨-, r, e, -, heq⟩ := Code.exists_run_of_encodeStream h
  rw [heq] at h ⊢
  have hending : e.ending r = .ok summary := h
  show (c.perform (e.conclude r).outcome.effects).digests = _
  rw [ChunkEncoder.conclude, hending, List.append_assoc]
  obtain ⟨c', hc'⟩ := exists_perform_append_silent
    (.acquire .shared :: .count .encodes 1 :: e.announced.reverse.map .announce)
    (encodeClosing (.ok summary) ++ [.release .shared]) rfl c
  rw [hc']
  rfl

/-- **The layout of a stream**: in chunks that a buffer has room for, a steady source is encoded into steady sinks without
failure, whatever the pieces and the interruptions are, and whatever the coder's state is and its observers do. Sink `i`
receives shard `i` of the buffered encodes of all windows, one after another; the length and the digests are those of what
the sinks received, and the coder keeps these digests and no others. Larger chunks, which are valid too, make the call
panic before it reads or writes anything. -/
theorem encodeStream_layout (c : Coder) {o : StreamOptions} (ho : o.Valid) {source : Source}
    (hsource : source.pacing.Steady) {sinks : List Sink} (hlen : sinks.length = c.code.scheme.total)
    (hsteady : ∀ s ∈ sinks, s.pacing.Steady) (hflush : ∀ s ∈ sinks, s.flushFault = none) :
    let encoding := c.code.encodeStream source sinks o
    let done := c.run encoding.outcome
    (o.chunk < bufferLimit → ∃ (summary : StreamSummary) (encoded : Nat → Encoded), done.1 = .ok summary ∧
      summary.totalBytes = source.rest.length ∧ summary.chunks = o.chunkCount source.rest.length ∧
      (∀ j, (c.code.encode (o.window source.rest j)).result = .ok (encoded j)) ∧
      let received := fun i => (List.range summary.chunks).flatMap fun j => (encoded j).bytesOf i
      encoding.sinks.map Sink.content = sinks.zipIdx.map (fun (s, i) => s.content ++ received i) ∧
      (∀ i < c.code.scheme.total, (received i).length = summary.shardBytes) ∧
      summary.checksums = (List.range c.code.scheme.total).map (fun i => sha256 (received i)) ∧
      done.2.digests.entries = (List.range c.code.scheme.total).map fun i => (i, sha256 (received i))) ∧
    (bufferLimit ≤ o.chunk → done.1 = .error (.panicked .capacityOverflow) ∧
      encoding.source = source ∧ encoding.sinks = sinks ∧ done.2.digests = c.digests) := by
  intro encoding done
  refine ⟨fun hfits => ?_, fun hlarge => ?_⟩
  case refine_2 =>
    dsimp only [done, encoding]
    rw [Code.encodeStream_panicked ho hlen hlarge source, Coder.run, perform_of_silent rfl]
    exact ⟨rfl, rfl, rfl, rfl⟩
  obtain ⟨summary, hok, htotal, hchunks, hsize, hcontents⟩ :=
    c.code.encodeStream_steady ho hfits hsource hlen hsteady hflush
  have hencoded : ∀ j, ∃ e, (c.code.encode (o.window source.rest j)).result = .ok e := by
    intro j
    exact ⟨_, c.code.result_encode _⟩
  choose encoded he using hencoded
  have hcount : summary.chunks = o.chunkCount source.rest.length := by
    rw [hchunks, StreamOptions.chunks_start ho, List.length_map, List.length_range]
  have hshards (i : Nat) : c.code.streamShard (o.chunks [] source.rest) i =
      (List.range summary.chunks).flatMap fun j => (encoded j).bytesOf i := by
    rw [hcount, c.code.streamShard_windows ho he]
  have hchecksums : summary.checksums = (List.range c.code.scheme.total).map fun i =>
      sha256 (c.code.streamShard (o.chunks [] source.rest) i) := by
    rw [(Code.checksums_encodeStream hok).2, gained_eq hcontents, hlen, List.map_map]
    rfl
  refine ⟨summary, encoded, hok, htotal, hcount, he, ?_⟩
  simp only [← hshards]
  refine ⟨hcontents, fun i hi => ?_, hchecksums, ?_⟩
  · rw [hsize, c.code.length_streamShard hi]
  · rw [c.digests_encodeStream hok, DigestCache.entries_ofDigests, hchecksums]
    refine List.ext_getElem (by simp) fun i hi hi' => ?_
    simp

/-- Six bytes in three chunks, read one at a time with an interruption before each call, into sinks that take at most two
bytes a call and of which the first holds a byte already. An observer encodes another buffer at the first chunk. -/
theorem encodeStream_layout_two_one : ∃ (c : Coder) (source : Source) (sinks : List Sink) (summary : StreamSummary),
    c.code.scheme = ⟨2, 1⟩ ∧ c.bus.issued = [.mk .encodings [[.call (.encode [7])]]] ∧
    source.rest = [1, 2, 3, 4, 5, 6] ∧ sinks.map Sink.content = [[9], [], []] ∧
    let encoding := c.code.encodeStream source sinks ⟨3, 1⟩
    let done := c.run encoding.outcome
    done.1 = .ok summary ∧ summary.totalBytes = 6 ∧ summary.chunks = 3 ∧ summary.shardBytes = 5 ∧
    encoding.sinks.map Sink.content = [[9, 1, 2, 3, 4, 5], [3, 0, 5, 0, 6], [2, 2, 6, 4, 3]] ∧
    done.2.digests.entries =
      [(0, sha256 [1, 2, 3, 4, 5]), (1, sha256 [3, 0, 5, 0, 6]), (2, sha256 [2, 2, 6, 4, 3])] := by
  -- with the generator written out no table of powers has to be computed
  let code : Code := ⟨⟨2, 1⟩, by decide, ⟨2, [[1, 0], [0, 1], [1, 1]], by decide⟩, by
    simp [ByteMatrix.generator, ByteMatrix.ofFn, List.range_succ, GF256.pow, Nat.repeat]⟩
  let c : Coder := { code, bus := EventBus.subscribe {} (.mk .encodings [[.call (.encode [7])]]) }
  let slow : Pacing := { turn := fun _ _ => .atMost 2 }
  let source : Source :=
    { rest := [1, 2, 3, 4, 5, 6], pacing := { turn := fun _ _ => .atMost 1, interruptions := fun _ => 1 } }
  let sinks : List Sink := [{ received := #[9], pacing := slow }, { pacing := slow }, { pacing := slow }]
  have hsource : source.pacing.Steady := ⟨by rintro _ _ ⟨⟩, by rintro _ _ _ ⟨⟩⟩
  have hslow : slow.Steady := ⟨by rintro _ _ ⟨⟩, by rintro _ _ _ ⟨⟩⟩
  have hsteady : ∀ s ∈ sinks, s.pacing.Steady := by
    simp [sinks, hslow]
  have hflush : ∀ s ∈ sinks, s.flushFault = none := by
    simp [sinks]
  have hlen : sinks.length = c.code.scheme.total := rfl
  obtain ⟨hlayout, -⟩ := encodeStream_layout c (o := ⟨3, 1⟩) (by decide) hsource hlen hsteady hflush
  obtain ⟨summary, encoded, hok, htotal, hcount, he, hcontents, hsize, -, hkept⟩ := hlayout (by decide)
  have hthree : summary.chunks = 3 := hcount.trans (by decide)
  let shard (i : Nat) : Bytes :=
    (List.range 3).flatMap fun j => code.segment i ((⟨3, 1⟩ : StreamOptions).window [1, 2, 3, 4, 5, 6] j)
  have hreceived (i : Nat) : ((List.range summary.chunks).flatMap fun j => (encoded j).bytesOf i) = shard i := by
    rw [hthree]
    exact List.flatMap_congr fun j _ => Code.bytesOf_encode (he j) i
  have hshards : shard 0 = [1, 2, 3, 4, 5] ∧ shard 1 = [3, 0, 5, 0, 6] ∧ shard 2 = [2, 2, 6, 4, 3] := by
    decide +kernel
  simp only [hreceived] at hcontents hsize hkept
  refine ⟨c, source, sinks, summary, rfl, rfl, rfl, rfl, hok, htotal, hthree, ?_, hcontents.trans ?_, hkept.trans ?_⟩
  · rw [← hsize 0 (by decide), hshards.1]
    rfl
  · show [[9] ++ shard 0, [] ++ shard 1, [] ++ shard 2] = _
    rw [hshards.1, hshards.2.1, hshards.2.2]
    rfl
  · show [(0, sha256 (shard 0)), (1, sha256 (shard 1)), (2, sha256 (shard 2))] = _
    rw [hshards.1, hshards.2.1, hshards.2.2]

/-- Six bytes in chunks of half the words: the options are valid, and the endpoints steady, but the call panics. -/
theorem encodeStream_layout_panics : ∃ (c : Coder) (source : Source) (sinks : List Sink) (o : StreamOptions),
    c.code.scheme = ⟨2, 1⟩ ∧ source = { rest := [1, 2, 3, 4, 5, 6] } ∧ sinks = [{}, {}, {}] ∧ o = ⟨2 ^ 63, 1⟩ ∧
    o.check = .ok () ∧ source.pacing.Steady ∧ (∀ s ∈ sinks, s.pacing.Steady ∧ s.flushFault = none) ∧
    sinks.length = c.code.scheme.total ∧
    ¬ ∃ summary, (c.run (c.code.encodeStream source sinks o).outcome).1 = .ok summary := by
  let c : Coder := { code := .ofValid ⟨2, 1⟩ (by decide) }
  have ho : StreamOptions.Valid ⟨2 ^ 63, 1⟩ := by decide
  have hlen : [({} : Sink), {}, {}].length = c.code.scheme.total := rfl
  have hpanic := Code.encodeStream_panicked ho hlen (le_refl _) { rest := [1, 2, 3, 4, 5, 6] }
  refine ⟨c, _, _, _, rfl, rfl, rfl, rfl, by decide, Pacing.steady_default, ?_, rfl, ?_⟩
  · simp [Pacing.steady_default]
  · rw [hpanic]
    rintro ⟨summary, hok⟩
    cases hok

end Coder

end ShardCoding

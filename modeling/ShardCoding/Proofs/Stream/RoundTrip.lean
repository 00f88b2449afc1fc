import ShardCoding.Proofs.Code.Recoverability
import ShardCoding.Proofs.Stream.Outcome

/-!
# Streaming there and back

* `Code.Supplies` : sources that hand out what the selected sinks got;
* `Code.decodeStream_stocked` : a streaming decode of sources that hold the selected shards of a stream;
* `Code.decodeStream_encodeStream` : a streaming decode of what a streaming encode wrote.
-/

namespace ShardCoding

namespace Code

/-- As many sources as indices, the first `k` of them steady, each with the content of the sink that its index names. -/
structure Supplies (code : Code) (sinks : List Sink) (present : List Nat) (sources : List Source) : Prop where
  length_eq : sources.length = present.length
  stocked : List.Forall₂ (fun i s => s.pacing.Steady ∧ s.rest = (sinks.getD i {}).content)
    (present.take code.scheme.data) (sources.take code.scheme.data)

/-- A source with a pacing of its own for each listed sink. -/
def sourcesOf (sinks : List Sink) (listed : List (Nat × Pacing)) : List Source :=
  listed.map fun (i, pacing) => { rest := (sinks.getD i {}).content, pacing := pacing }

theorem supplies_sourcesOf (code : Code) (sinks : List Sink) {listed : List (Nat × Pacing)}
    (h : ∀ l ∈ listed.take code.scheme.data, l.2.Steady) :
    code.Supplies sinks (listed.map Prod.fst) (sourcesOf sinks listed) := by
  refine ⟨by simp [sourcesOf], ?_⟩
  rw [sourcesOf, ← List.map_take, ← List.map_take, List.forall₂_map_left_iff, List.forall₂_map_right_iff,
    List.forall₂_same]
  exact fun l hl => ⟨h l hl, rfl⟩

variable {code : Code} {o : StreamOptions} {present : List Nat} {sources : List Source} {data : Bytes}

theorem decodeStream_stocked (ho : o.Valid) (hroom : code.decodeBuffer o < bufferLimit) (hsel : code.Selects present)
    (hrec : code.Recoverable (present.take code.scheme.data)) (hcount : sources.length = present.length)
    (hstock : List.Forall₂ (fun i s => s.pacing.Steady ∧ s.rest = code.streamShard (o.chunks [] data) i)
      (present.take code.scheme.data) (sources.take code.scheme.data)) :
    ∃ plan d, code.planDecodeStream present = .ok plan ∧
      ChunkDecoder.Rounds plan o (o.chunks [] data).length
        { sources := sources, sink := {}, remaining := data.length } d ∧
      (code.decodeStream sources present data.length {} o).outcome.result = .ok data.length ∧
      (code.decodeStream sources present data.length {} o).sink.content = data ∧
      ReadsAll (code.streamSize (o.chunks [] data)) (sources.take code.scheme.data)
        ((code.decodeStream sources present data.length {} o).sources.take code.scheme.data) ∧
      (code.decodeStream sources present data.length {} o).sources.drop code.scheme.data =
        sources.drop code.scheme.data := by
  obtain ⟨inverse, hplan, hp⟩ := code.planDecodeStream_eq hsel hrec
  let start : ChunkDecoder := { sources := sources, sink := {}, remaining := data.length }
  have hchunk : ([] : Bytes).length < o.chunk := Nat.lt_of_le_of_lt (Nat.zero_le _) ho
  have hcarry : start.carry = ([] : Bytes).length := rfl
  have hsink : start.sink.pacing.Steady := Pacing.steady_default
  have hstart : ChunkDecoder.Stocked ⟨code, inverse, present.length⟩ (present.take code.scheme.data) (o.chunks [] data)
    start.sources := hstock
  obtain ⟨d, hrounds, hadvances⟩ := ChunkDecoder.rounds_steady ho hp hcarry hchunk rfl hstart hsink
  have hcheck := code.checkDecodeStream_eq_ok ho hcount hsel.enough
  have hflush : d.sink.flushFault = none := hadvances.takes.flushFault_eq
  obtain ⟨hresult, hlast, hsources⟩ := decodeStream_of_rounds ho hroom hcheck hplan hrounds hflush
  refine ⟨_, d, hplan, hrounds, ?_⟩
  rw [hresult, hlast, hsources]
  refine ⟨?_, ?_, hadvances.reads, hadvances.others_eq⟩
  · exact congrArg Except.ok (hadvances.written_eq.trans (Nat.zero_add _))
  · exact hadvances.takes.content_eq.trans (List.nil_append data)

/-- A streaming encode into sinks in memory. -/
theorem encodeStream_fresh (code : Code) (ho : o.Valid) (hfits : o.chunk < bufferLimit) (source : Source)
    (hsource : source.pacing.Steady) :
    ∃ summary,
      (code.encodeStream source (List.replicate code.scheme.total {}) o).outcome.result = .ok summary ∧
      summary.chunks = (o.chunks [] source.rest).length ∧
      summary.shardBytes = code.streamSize (o.chunks [] source.rest) ∧
      ∀ i < code.scheme.total,
        ((code.encodeStream source (List.replicate code.scheme.total {}) o).sinks.getD i {}).content =
          code.streamShard (o.chunks [] source.rest) i := by
  obtain ⟨summary, hok, -, hchunks, hsize, hcontents⟩ := code.encodeStream_replicate ho hfits hsource
  refine ⟨summary, hok, hchunks, hsize, fun i hi => ?_⟩
  have hget := congrArg (·[i]?) hcontents
  simp only [List.getElem?_map, List.getElem?_range hi, Option.map_some, Option.map_eq_some_iff] at hget
  obtain ⟨sink, hsink, hcontent⟩ := hget
  rw [List.getD_eq_getElem?_getD, hsink, Option.getD_some, hcontent]

/-- **Streaming round trip**: what a streaming encode writes into fresh sinks, whatever pieces its source hands out, a
streaming decode of any recoverable selection of the sinks gives back, byte for byte. It reads from each of the first
`k` sources all that was written to the sink and from the others nothing, in as many rounds as there were chunks. So it is
if buffers have room for a chunk; for larger chunks, which are valid too, both panic before they read or write anything. -/
theorem decodeStream_encodeStream (code : Code) (data : Bytes) (pacing : Pacing) (hpacing : pacing.Steady)
    (o : StreamOptions) (ho : o.Valid) (present : List Nat) (hsel : code.Selects present)
    (hrec : code.Recoverable (present.take code.scheme.data)) :
    let source : Source := { rest := data, pacing := pacing }
    let sinks : List Sink := List.replicate code.scheme.total {}
    let encoding := code.encodeStream source sinks o
    (o.chunk < bufferLimit → ∃ summary, encoding.outcome.result = .ok summary ∧
      ∀ sources, code.Supplies encoding.sinks present sources →
        let decoding := code.decodeStream sources present data.length {} o
        (code.decodeBuffer o < bufferLimit →
          decoding.outcome.result = .ok data.length ∧
          decoding.sink.content = data ∧
          List.Forall₂ (fun s s' => s'.consumed = s.consumed + summary.shardBytes ∧ s'.rest = [])
            (sources.take code.scheme.data) (decoding.sources.take code.scheme.data) ∧
          decoding.sources.drop code.scheme.data = sources.drop code.scheme.data ∧
          ∃ plan last, code.planDecodeStream present = .ok plan ∧
            ChunkDecoder.Rounds plan o summary.chunks
              { sources := sources, sink := {}, remaining := data.length } last) ∧
        (bufferLimit ≤ code.decodeBuffer o → decoding.outcome.result = .error (.panicked .capacityOverflow) ∧
          decoding.sources = sources ∧ decoding.sink = {})) ∧
    (bufferLimit ≤ o.chunk → encoding.outcome.result = .error (.panicked .capacityOverflow) ∧
      encoding.source = source ∧ encoding.sinks = sinks) := by
  intro source sinks encoding
  refine ⟨fun hfits => ?_, fun hlarge => ?_⟩
  case refine_2 =>
    dsimp only [encoding]
    rw [encodeStream_panicked ho List.length_replicate hlarge source]
    exact ⟨rfl, rfl, rfl⟩
  obtain ⟨summary, hok, hchunks, hsize, hcontents⟩ := code.encodeStream_fresh ho hfits source hpacing
  refine ⟨summary, hok, fun sources hsupplies => ⟨fun hroom => ?_, fun hlarge => ?_⟩⟩
  case refine_2 =>
    obtain ⟨inverse, hplan, -⟩ := code.planDecodeStream_eq hsel hrec
    have hcheck := code.checkDecodeStream_eq_ok ho hsupplies.length_eq hsel.enough
    dsimp only
    rw [decodeStream_panicked hcheck hplan hlarge]
    exact ⟨rfl, rfl, rfl⟩
  have hsupplied := (List.forall₂_and_left _ _).2 ⟨hsel.lt_total, hsupplies.stocked⟩
  have hstock : List.Forall₂ (fun i s => s.pacing.Steady ∧ s.rest = code.streamShard (o.chunks [] data) i)
      (present.take code.scheme.data) (sources.take code.scheme.data) := by
    refine hsupplied.imp fun i s hs => ⟨hs.2.1, ?_⟩
    rw [hs.2.2, hcontents i hs.1]
  have hlen : ∀ s ∈ sources.take code.scheme.data, s.rest.length = code.streamSize (o.chunks [] data) := by
    refine forall_mem_of_forall₂ hsupplied fun i s hs => ?_
    rw [hs.2.2, hcontents i hs.1, length_streamShard code hs.1]
  obtain ⟨plan, last, hplan, hrounds, hdecode, hwritten, hreads, hothers⟩ :=
    decodeStream_stocked ho hroom hsel hrec hsupplies.length_eq hstock
  refine ⟨hdecode, hwritten, ?_, hothers, plan, last, hplan, by rwa [hchunks]⟩
  rw [hsize]
  exact hreads.consumed_eq hlen

/-- Five bytes in chunks of two with one repeated, from a source of single bytes with ever more interruptions, read back
from the parity sink, in pieces of three, and a data sink, while the source of the other data sink would fail. -/
theorem decodeStream_encodeStream_two_one : ∃ (code : Code) (data : Bytes) (decoding : DecodeStreamRun),
    code.scheme = ⟨2, 1⟩ ∧ data = [1, 2, 3, 4, 5] ∧
    decoding = code.decodeStream
      (sourcesOf
        (code.encodeStream
          { rest := data, pacing := { turn := fun _ _ => .atMost 1, interruptions := fun calls => calls } }
          (List.replicate code.scheme.total {}) ⟨2, 1⟩).sinks
        [(2, { turn := fun _ _ => .atMost 3 }), (0, {}), (1, { turn := fun _ _ => .fails .connectionReset })])
      [2, 0, 1] data.length {} ⟨2, 1⟩ ∧
    decoding.outcome.result = .ok data.length ∧ decoding.sink.content = data := by
  have hsel : (ofValid ⟨2, 1⟩ (by decide)).Selects [2, 0, 1] := ⟨by decide, by decide, by decide⟩
  have hrec : (ofValid ⟨2, 1⟩ (by decide)).Recoverable [2, 0] :=
    recoverable_of_few (Or.inr (by decide)) (by decide) (by decide) (by decide)
  have hsteady : ∀ l ∈ ([(2, { turn := fun _ _ => .atMost 3 }), (0, {}),
      (1, { turn := fun _ _ => .fails .connectionReset })] : List (Nat × Pacing)).take 2, l.2.Steady := by
    rintro l (_ | ⟨_, _ | ⟨_, hl⟩⟩)
    · exact ⟨fun _ _ => nofun, fun _ _ _ => nofun⟩
    · exact Pacing.steady_default
    · cases hl
  obtain ⟨h, -⟩ := decodeStream_encodeStream (ofValid ⟨2, 1⟩ (by decide)) [1, 2, 3, 4, 5]
    { turn := fun _ _ => .atMost 1, interruptions := fun calls => calls } ⟨fun _ _ => nofun, fun _ _ _ => nofun⟩
    ⟨2, 1⟩ (by decide) _ hsel hrec
  obtain ⟨summary, -, h⟩ := h (by decide)
  obtain ⟨h, -⟩ := h _ (supplies_sourcesOf (ofValid ⟨2, 1⟩ (by decide)) _ hsteady)
  obtain ⟨hok, hcontent, -⟩ := h (by decide)
  exact ⟨_, _, _, rfl, rfl, rfl, hok, hcontent⟩

/-- One byte in chunks of half the words: nothing is encoded that could be decoded, though the options are valid and the
selection is recoverable. -/
theorem decodeStream_encodeStream_panics : ∃ (code : Code) (data : Bytes) (o : StreamOptions) (present : List Nat),
    code.scheme = ⟨1, 1⟩ ∧ data = [7] ∧ o = ⟨2 ^ 63, 0⟩ ∧ present = [0] ∧
    o.check = .ok () ∧ code.Selects present ∧ code.Recoverable (present.take code.scheme.data) ∧
    ¬ ∃ summary, (code.encodeStream { rest := data } (List.replicate code.scheme.total {}) o).outcome.result =
      .ok summary := by
  let code := ofValid ⟨1, 1⟩ (by decide)
  have hrec : code.Recoverable [0] := recoverable_of_few (Or.inl (by decide)) (by decide) (by decide) (by decide)
  have ho : StreamOptions.Valid ⟨2 ^ 63, 0⟩ := by decide
  have hlen : [({} : Sink), {}].length = code.scheme.total := rfl
  have hpanic := encodeStream_panicked ho hlen (le_refl _) { rest := [7] }
  refine ⟨code, [7], ⟨2 ^ 63, 0⟩, [0], rfl, rfl, rfl, rfl, by decide, ⟨by decide, by decide, by decide⟩, hrec, ?_⟩
  rintro ⟨summary, hok⟩
  cases (congrArg (fun run => run.outcome.result) hpanic).symm.trans hok

end Code

end ShardCoding

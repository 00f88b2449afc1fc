import ShardCoding.Proofs.Stream.Outcome
import ShardCoding.Proofs.Stream.SingleChunk

/-!
# Buffers that are used again

A streaming encode keeps its chunks in one buffer and a streaming decode its segments in `k` of them. What is read goes
over what was read before, and a short chunk leaves bytes of earlier ones behind it. None of these get into a shard or into
the output.

* `overwrite` : bytes laid over others; `Source.fill` : a part of a buffer filled from a source, piece by piece;
  `Source.fill_eq` : with the bytes of `Source.readUpTo`;
* `InPlaceEncoder`, `InPlaceDecoder` : the two loops on buffers, round by round;
* `InPlaceEncoder.ended_resume_round`, `InPlaceDecoder.decodeChunk_view` : one round; `InPlaceEncoder.ended_run`,
  `InPlaceDecoder.run_view` : whole runs;
* `Code.encodeStream_inPlace`, `Code.decodeStream_inPlace` : the operations.
-/

namespace ShardCoding

/-! ## The loops, unrolled once -/

theorem ChunkEncoder.run_eq (code : Code) (o : StreamOptions) (e : ChunkEncoder) : run code o e =
    match e.source.readUpTo (o.chunk - e.carry.length) with
    | (.error kind, source) => (.error kind, { e with source := source })
    | (.ok [], source) => (.ok (), { e with source := source })
    | (.ok (b :: fresh), source) =>
      match encodeChunk code o.overlap (b :: fresh) { e with source := source } with
      | (.error kind, e') => (.error kind, e')
      | (.ok (), e') =>
        if e.carry.length + (fresh.length + 1) < o.chunk then (.ok (), e') else run code o e' := by
  rw [run]
  split
  · next h => rw [h]
  · next h => rw [h]
  · next h =>
    rw [h]
    dsimp only
    split
    · next h' => rw [h']
    · next h' => rw [h']

theorem ChunkDecoder.run_eq (p : Plan) (o : StreamOptions) (d : ChunkDecoder) : run p o d =
    if min (o.chunk - d.carry) d.remaining = 0 then (.ok (), d)
    else
      match decodeChunk p o.overlap (min (o.chunk - d.carry) d.remaining) d with
      | (.error kind, d') => (.error kind, d')
      | (.ok (), d') => run p o d' := by
  rw [run]
  split
  · rfl
  · split
    · next h => rw [h]
    · next h => rw [h]

/-! ## Bytes laid over others -/

/-- `bytes` laid over those of `buffer` from `start` on. -/
def overwrite (buffer : Bytes) (start : Nat) (bytes : Bytes) : Bytes :=
  buffer.take start ++ bytes ++ buffer.drop (start + bytes.length)

section

variable {buffer bytes : Bytes} {start : Nat}

@[simp] theorem overwrite_nil (buffer : Bytes) (start : Nat) : overwrite buffer start [] = buffer := by
  simp [overwrite]

theorem length_overwrite (h : start + bytes.length ≤ buffer.length) :
    (overwrite buffer start bytes).length = buffer.length := by
  rw [overwrite, List.length_append, List.length_append, List.length_take_of_le (Nat.le_of_add_right_le h),
    List.length_drop, Nat.add_sub_cancel' h]

/-- The bytes up to the last one laid down. -/
theorem take_overwrite (h : start ≤ buffer.length) (bytes : Bytes) :
    (overwrite buffer start bytes).take (start + bytes.length) = buffer.take start ++ bytes := by
  have hlen : (buffer.take start ++ bytes).length = start + bytes.length := by
    rw [List.length_append, List.length_take_of_le h]
  rw [overwrite, List.take_left' hlen]

/-- The bytes in front of those laid down. -/
theorem take_start_overwrite (h : start ≤ buffer.length) (bytes : Bytes) :
    (overwrite buffer start bytes).take start = buffer.take start := by
  rw [overwrite, List.append_assoc, List.take_left' (List.length_take_of_le h)]

theorem overwrite_overwrite (h : start ≤ buffer.length) (bytes more : Bytes) :
    overwrite (overwrite buffer start bytes) (start + bytes.length) more = overwrite buffer start (bytes ++ more) := by
  have hlen : (buffer.take start ++ bytes).length = start + bytes.length := by
    rw [List.length_append, List.length_take_of_le h]
  have hback : (overwrite buffer start bytes).drop (start + bytes.length + more.length) =
      buffer.drop (start + (bytes ++ more).length) := by
    rw [overwrite, ← hlen, List.drop_length_add_append, List.drop_drop, hlen, List.length_append, Nat.add_assoc]
  rw [overwrite, take_overwrite h, hback, overwrite, List.append_assoc _ bytes]

end

/-! ## Reading into a buffer -/

namespace Source

/-- Fill `buffer` from `start` up to `stop`, `filled` bytes of which have come, piece by piece; fewer than all of them come
only at the end of the source. -/
def fill (start stop filled : Nat) (buffer : Bytes) (s : Source) : Except IoKind (Nat × Bytes) × Source :=
  if stop - (start + filled) = 0 then (.ok (filled, buffer), s)
  else
    match s.readThrough (stop - (start + filled)) with
    | (.error kind, s') => (.error kind, s')
    | (.ok [], s') => (.ok (filled, buffer), s')
    | (.ok (b :: piece), s') =>
      fill start stop (filled + (piece.length + 1)) (overwrite buffer (start + filled) (b :: piece)) s'
termination_by stop - (start + filled)

theorem fill_go {start stop : Nat} {buffer : Bytes} (hstart : start ≤ buffer.length) {want : Nat} {got : Bytes}
    {s : Source} (hwant : stop - (start + got.length) = want) :
    s.fill start stop got.length (overwrite buffer start got.reverse) =
      ((readUpTo.go want got s).1.map fun bytes => (bytes.length, overwrite buffer start bytes),
        (readUpTo.go want got s).2) := by
  fun_induction readUpTo.go want got s with
  | case1 got s =>
    rw [fill, if_pos hwant, Except.map, List.length_reverse]
  | case2 want got s hw kind s₁ hr =>
    rw [fill, if_neg (hwant ▸ hw), hwant, hr]
    rfl
  | case3 want got s hw s₁ hr =>
    rw [fill, if_neg (hwant ▸ hw), hwant, hr, Except.map, List.length_reverse]
  | case4 want got s hw b piece s₁ hr ih =>
    have hgot : (piece.reverseAux (b :: got)).length = got.length + (piece.length + 1) := by
      rw [List.reverseAux_eq, List.length_append, List.length_reverse, List.length_cons]
      omega
    have hlaid : overwrite (overwrite buffer start got.reverse) (start + got.length) (b :: piece) =
        overwrite buffer start (piece.reverseAux (b :: got)).reverse := by
      have h := overwrite_overwrite hstart got.reverse (b :: piece)
      rw [List.length_reverse] at h
      rw [h, List.reverseAux_eq]
      simp
    rw [fill, if_neg (hwant ▸ hw), hwant, hr]
    dsimp only
    rw [hlaid, ← hgot]
    exact ih (by rw [hgot]; omega)

/-- The bytes that come are those of a read, laid into the buffer. -/
theorem fill_eq {start : Nat} {buffer : Bytes} (hstart : start ≤ buffer.length) (stop : Nat) (s : Source) :
    s.fill start stop 0 buffer =
      ((s.readUpTo (stop - start)).1.map fun bytes => (bytes.length, overwrite buffer start bytes),
        (s.readUpTo (stop - start)).2) := by
  have hwant : stop - (start + ([] : Bytes).length) = stop - start := rfl
  have h := fill_go hstart hwant (s := s)
  rwa [List.length_nil, List.reverse_nil, overwrite_nil] at h

/-- What has not come is still there. -/
theorem rest_of_fill {start stop filled n : Nat} {buffer buffer' : Bytes} {s s' : Source}
    (h : s.fill start stop filled buffer = (.ok (n, buffer'), s')) : n + s'.rest.length = filled + s.rest.length := by
  fun_induction fill start stop filled buffer s with
  | case1 => cases h; rfl
  | case2 => cases h
  | case3 filled buffer s hw s₁ hr =>
    cases h
    rw [← append_rest_of_readThrough hr, List.nil_append]
  | case4 filled buffer s hw b piece s₁ hr ih =>
    rw [ih h, ← append_rest_of_readThrough hr, List.length_append, List.length_cons, Nat.add_assoc]

end Source

/-! ## Encoding -/

/-- A streaming encode between two chunks that keeps its chunk in a buffer. -/
structure InPlaceEncoder where
  source : Source
  sinks : List DigestSink
  /-- As long as a whole chunk; behind the bytes that count are those of earlier chunks. -/
  chunk : Bytes
  /-- How many bytes of the buffer the next chunk begins with. -/
  carry : Nat := 0
  totalBytes : Nat := 0
  chunks : Nat := 0
  shardBytes : Nat := 0
  announced : List Event := []

namespace InPlaceEncoder

/-- What counts of the buffer, and the rest as it is. -/
def view (e : InPlaceEncoder) : ChunkEncoder where
  source := e.source
  sinks := e.sinks
  carry := e.chunk.take e.carry
  totalBytes := e.totalBytes
  chunks := e.chunks
  shardBytes := e.shardBytes
  announced := e.announced

/-- Encode the first `carry + fresh` bytes of the buffer. -/
def encodeFront (code : Code) (fresh : Nat) (e : InPlaceEncoder) : Except IoKind Unit × InPlaceEncoder :=
  let length := e.carry + fresh
  let size := code.scheme.shardSizeFor length
  match writeShards e.sinks (code.shardsOf size (e.chunk.take length)) with
  | (.error kind, sinks) => (.error kind, { e with sinks := sinks })
  | (.ok (), sinks) =>
    let total := e.totalBytes + fresh
    (.ok (), { e with
      sinks := sinks
      totalBytes := total
      chunks := e.chunks + 1
      shardBytes := e.shardBytes + size
      announced := .encoding ⟨total, code.scheme.data, code.scheme.parity, size⟩ :: e.announced })

/-- Copy the last bytes of a chunk of `length` bytes to the front of the buffer. -/
def shift (overlap length : Nat) (e : InPlaceEncoder) : InPlaceEncoder :=
  let carry := min overlap length
  { e with chunk := overwrite e.chunk 0 ((e.chunk.take length).drop (length - carry)), carry := carry }

/-- One round of the loop, and whether another one follows. -/
def round (code : Code) (options : StreamOptions) (e : InPlaceEncoder) : Except IoKind Bool × InPlaceEncoder :=
  match e.source.fill e.carry e.chunk.length 0 e.chunk with
  | (.error kind, source) => (.error kind, { e with source := source })
  | (.ok (0, chunk), source) => (.ok false, { e with source := source, chunk := chunk })
  | (.ok (fresh + 1, chunk), source) =>
    match encodeFront code (fresh + 1) { e with source := source, chunk := chunk } with
    | (.error kind, e') => (.error kind, e')
    | (.ok (), e') =>
      let length := e.carry + (fresh + 1)
      if length < options.chunk then (.ok false, e') else (.ok true, e'.shift options.overlap length)

theorem source_encodeFront (code : Code) (fresh : Nat) (e : InPlaceEncoder) :
    (encodeFront code fresh e).2.source = e.source := by
  unfold encodeFront
  dsimp only
  split <;> rfl

theorem rest_lt_of_round {code : Code} {options : StreamOptions} {e e' : InPlaceEncoder}
    (h : round code options e = (.ok true, e')) : e'.source.rest.length < e.source.rest.length := by
  unfold round at h
  split at h
  · cases h
  · cases h
  · next fresh chunk source hfill =>
    have hrest := Source.rest_of_fill hfill
    have hsource := source_encodeFront code (fresh + 1) { e with source := source, chunk := chunk }
    split at h
    · cases h
    · next e₁ hchunk =>
      dsimp only at h
      split at h
      · cases h
      · obtain ⟨-, rfl⟩ := Prod.mk.inj h
        rw [hchunk] at hsource
        show e₁.source.rest.length < _
        rw [hsource]
        show source.rest.length < _
        omega

def run (code : Code) (options : StreamOptions) (e : InPlaceEncoder) : Except IoKind Unit × InPlaceEncoder :=
  match _ : round code options e with
  | (.error kind, e') => (.error kind, e')
  | (.ok false, e') => (.ok (), e')
  | (.ok true, e') => run code options e'
termination_by e.source.rest.length
decreasing_by exact rest_lt_of_round ‹_›

end InPlaceEncoder

/-- A streaming encode with no chunk to come; what one would begin with makes no difference any more. -/
def ChunkEncoder.settled (e : ChunkEncoder) : ChunkEncoder := { e with carry := [] }

/-- How a run ends. -/
def ChunkEncoder.ended (run : Except IoKind Unit × ChunkEncoder) : Except IoKind Unit × ChunkEncoder :=
  (run.1, run.2.settled)

namespace InPlaceEncoder

variable {code : Code} {o : StreamOptions} {e e' : InPlaceEncoder}

/-- The buffer is as long as a chunk may be, and the next chunk begins in it. -/
structure Fits (o : StreamOptions) (e : InPlaceEncoder) : Prop where
  length_chunk : e.chunk.length = o.chunk
  carry_lt : e.carry < o.chunk

/-- What is copied to the front is what a chunk leaves to the next one. -/
theorem view_shift {length : Nat} (hlength : length ≤ e.chunk.length) (overlap : Nat) :
    (e.shift overlap length).view = { e.view with
      carry := (e.chunk.take length).drop (length - overlap) } := by
  have htail : ((e.chunk.take length).drop (length - min overlap length)).length = min overlap length := by
    rw [List.length_drop, List.length_take_of_le hlength, Nat.sub_sub_self (Nat.min_le_right ..)]
  have hfront := take_overwrite (Nat.zero_le e.chunk.length) ((e.chunk.take length).drop (length - min overlap length))
  rw [htail, Nat.zero_add, List.take_zero, List.nil_append] at hfront
  have hsame : length - min overlap length = length - overlap := by omega
  rw [hsame] at hfront
  unfold view shift
  dsimp only
  rw [hsame, hfront]

theorem fits_shift (ho : o.Valid) (hchunk : e.chunk.length = o.chunk) (length : Nat) :
    (e.shift o.overlap length).Fits o where
  length_chunk := by
    rw [← hchunk]
    refine length_overwrite ?_
    rw [List.length_drop, List.length_take]
    omega
  carry_lt := Nat.lt_of_le_of_lt (Nat.min_le_left ..) ho

/-- The state once `bytes` have come from a source into the buffer, behind what was kept. -/
def received (source : Source) (bytes : Bytes) (e : InPlaceEncoder) : InPlaceEncoder :=
  { e with source := source, chunk := overwrite e.chunk e.carry bytes }

theorem view_received (hcarry : e.carry ≤ e.chunk.length) (source : Source) (bytes : Bytes) :
    (e.received source bytes).view = { e.view with source := source } := by
  unfold view received
  dsimp only
  rw [take_start_overwrite hcarry]

/-- The front of the buffer is encoded like a chunk of what was kept and what was read. -/
theorem encodeFront_received (code : Code) (h : e.Fits o) {fresh : Bytes} (hroom : e.carry + fresh.length ≤ o.chunk)
    (source : Source) :
    (∃ kind e', encodeFront code fresh.length (e.received source fresh) = (.error kind, e') ∧
      ChunkEncoder.encodeChunk code o.overlap fresh { e.view with source := source } = (.error kind, e'.view)) ∨
    ∃ e', encodeFront code fresh.length (e.received source fresh) = (.ok (), e') ∧ e'.chunk.length = o.chunk ∧
      ChunkEncoder.encodeChunk code o.overlap fresh { e.view with source := source } =
        (.ok (), (e'.shift o.overlap (e.carry + fresh.length)).view) := by
  have hcarry : e.carry ≤ e.chunk.length := h.length_chunk ▸ Nat.le_of_lt h.carry_lt
  have hlength : (e.received source fresh).chunk.length = o.chunk :=
    (length_overwrite (h.length_chunk ▸ hroom)).trans h.length_chunk
  have hroom' : e.carry + fresh.length ≤ (e.received source fresh).chunk.length := hlength ▸ hroom
  rw [← view_received hcarry source fresh]
  have hfront : (e.received source fresh).view.carry ++ fresh =
      (e.received source fresh).chunk.take (e.carry + fresh.length) := by
    rw [view_received hcarry]
    exact (take_overwrite hcarry fresh).symm
  have hsinks : (e.received source fresh).view.sinks = (e.received source fresh).sinks := rfl
  have hkept : (e.received source fresh).carry = e.carry := rfl
  unfold encodeFront ChunkEncoder.encodeChunk
  dsimp only
  rw [hfront, List.length_take_of_le hroom', hsinks, hkept]
  rcases writeShards (e.received source fresh).sinks (code.shardsOf (code.scheme.shardSizeFor (e.carry + fresh.length))
    ((e.received source fresh).chunk.take (e.carry + fresh.length))) with ⟨kind | _, sinks⟩
  · exact Or.inl ⟨kind, _, rfl, rfl⟩
  · refine Or.inr ⟨_, rfl, hlength, ?_⟩
    rw [view_shift (by exact hroom')]
    rfl

/-- What is left of a run after a round. -/
def resume (code : Code) (o : StreamOptions) : Except IoKind Bool × InPlaceEncoder → Except IoKind Unit × ChunkEncoder
  | (.error kind, e) => (.error kind, e.view)
  | (.ok false, e) => (.ok (), e.view)
  | (.ok true, e) => ChunkEncoder.run code o e.view

/-- A round on the buffer does as much of the run as a chunk that is made afresh. -/
theorem ended_resume_round (code : Code) (ho : o.Valid) (h : e.Fits o) :
    ChunkEncoder.ended (resume code o (round code o e)) = ChunkEncoder.ended (ChunkEncoder.run code o e.view) ∧
      ∀ e', round code o e = (.ok true, e') → e'.Fits o := by
  have hcarry : e.carry ≤ e.chunk.length := h.length_chunk ▸ Nat.le_of_lt h.carry_lt
  have hkept : e.view.carry.length = e.carry := List.length_take_of_le hcarry
  have hfill := Source.fill_eq hcarry e.chunk.length e.source
  have hsource : e.view.source = e.source := rfl
  rw [round, hfill, ChunkEncoder.run_eq, hkept, h.length_chunk, hsource]
  rcases hread : e.source.readUpTo (o.chunk - e.carry) with ⟨kind | _ | ⟨b, fresh⟩, source⟩
  · exact ⟨rfl, nofun⟩
  · exact ⟨rfl, nofun⟩
  have hlt := h.carry_lt
  have hle := (Source.hands_of_readUpTo hread).2.1
  have hroom : e.carry + (b :: fresh).length ≤ o.chunk := by omega
  have hchunk := encodeFront_received code h hroom source
  dsimp only [Except.map, List.length_cons, received] at hchunk ⊢
  rcases hchunk with ⟨kind, e', hencode, hencode'⟩ | ⟨e', hencode, hlength, hencode'⟩ <;> rw [hencode, hencode'] <;>
    dsimp only
  · exact ⟨rfl, nofun⟩
  · by_cases hshort : e.carry + (fresh.length + 1) < o.chunk
    · rw [if_pos hshort, if_pos hshort]
      exact ⟨rfl, nofun⟩
    · rw [if_neg hshort, if_neg hshort]
      refine ⟨rfl, ?_⟩
      rintro e'' ⟨⟩
      exact fits_shift ho hlength _

/-- **Reuse of the chunk buffer**: a run on one buffer ends like a run on chunks that are made afresh, and leaves the
same behind. -/
theorem ended_run (ho : o.Valid) (h : e.Fits o) :
    ChunkEncoder.ended ((run code o e).1, (run code o e).2.view) = ChunkEncoder.ended (ChunkEncoder.run code o e.view) := by
  fun_induction run code o e with
  | case1 e kind e' hround =>
    have hstep := (ended_resume_round code ho h).1
    rw [hround] at hstep
    exact hstep
  | case2 e e' hround =>
    have hstep := (ended_resume_round code ho h).1
    rw [hround] at hstep
    exact hstep
  | case3 e e' hround ih =>
    obtain ⟨hstep, hfits⟩ := ended_resume_round code ho h
    rw [hround] at hstep
    exact (ih (hfits e' hround)).trans hstep

/-- A streaming encode before its first read, with a buffer for a chunk. -/
def start (o : StreamOptions) (source : Source) (sinks : List Sink) : InPlaceEncoder :=
  { source := source, sinks := sinks.map fun s => { inner := s }, chunk := List.replicate o.chunk 0 }

theorem fits_start (ho : o.Valid) (source : Source) (sinks : List Sink) : (start o source sinks).Fits o :=
  ⟨List.length_replicate, Nat.lt_of_le_of_lt (Nat.zero_le _) ho⟩

end InPlaceEncoder

theorem ChunkEncoder.conclude_eq_of_ended {r r' : Except IoKind Unit} {e e' : ChunkEncoder}
    (h : ended (r, e) = ended (r', e')) : e.conclude r = e'.conclude r' := by
  obtain ⟨hresult : r = r', hsettled : e.settled = e'.settled⟩ := Prod.mk.inj h
  show e.settled.conclude r = e'.settled.conclude r'
  rw [hresult, hsettled]

/-- A streaming encode may keep all its chunks in one buffer. -/
theorem Code.encodeStream_inPlace (code : Code) {o : StreamOptions} (ho : o.Valid) (hfits : o.chunk < bufferLimit)
    (source : Source) {sinks : List Sink} (hlen : sinks.length = code.scheme.total) :
    let run := InPlaceEncoder.run code o (.start o source sinks)
    code.encodeStream source sinks o = run.2.view.conclude run.1 := by
  intro run
  have hended : ChunkEncoder.ended (run.1, run.2.view) = _ :=
    InPlaceEncoder.ended_run ho (InPlaceEncoder.fits_start ho source sinks)
  have hview : (InPlaceEncoder.start o source sinks).view = .start source sinks := rfl
  rw [hview] at hended
  rw [encodeStream_eq ho hfits hlen rfl]
  exact ChunkEncoder.conclude_eq_of_ended hended.symm

/-- Five bytes in chunks of three: the last byte of the first chunk is still in the buffer, and is not encoded again. -/
example :
    let run := InPlaceEncoder.run (.ofValid ⟨1, 1⟩ (by decide)) ⟨3, 0⟩ (.start ⟨3, 0⟩ { rest := [1, 2, 3, 4, 5] } [{}, {}])
    run.2.chunk = [4, 5, 3] ∧ run.2.sinks.map (·.inner.content) = [[1, 2, 3, 4, 5], [1, 2, 3, 4, 5]] := by
  decide +kernel

/-! ## Decoding -/

namespace Source

/-- Fill the first `size` bytes of `buffer`; a source that ends before fails. -/
def fillExact (size : Nat) (buffer : Bytes) (s : Source) : Except IoKind Bytes × Source :=
  match s.fill 0 size 0 buffer with
  | (.error kind, s') => (.error kind, s')
  | (.ok (n, buffer'), s') => if n < size then (.error .unexpectedEof, s') else (.ok buffer', s')

theorem fillExact_cases {size : Nat} {buffer : Bytes} (hsize : size ≤ buffer.length) (s : Source) :
    (∃ kind s', s.fillExact size buffer = (.error kind, s') ∧ s.readExact size = (.error kind, s')) ∨
    ∃ buffer' s', s.fillExact size buffer = (.ok buffer', s') ∧ s.readExact size = (.ok (buffer'.take size), s') ∧
      buffer'.length = buffer.length := by
  unfold fillExact readExact
  rw [fill_eq (Nat.zero_le _), Nat.sub_zero]
  rcases hread : s.readUpTo size with ⟨kind | bytes, s'⟩
  · exact Or.inl ⟨kind, s', rfl, rfl⟩
  have hle := (hands_of_readUpTo hread).2.1
  dsimp only [Except.map]
  by_cases hshort : bytes.length < size
  · rw [if_pos hshort, if_pos hshort]
    exact Or.inl ⟨_, s', rfl, rfl⟩
  · rw [if_neg hshort, if_neg hshort]
    obtain rfl : size = bytes.length := Nat.le_antisymm (Nat.not_lt.1 hshort) hle
    have hfront := take_overwrite (Nat.zero_le buffer.length) bytes
    rw [Nat.zero_add, List.take_zero, List.nil_append] at hfront
    refine Or.inr ⟨_, s', rfl, by rw [hfront], length_overwrite ?_⟩
    rwa [Nat.zero_add]

end Source

/-- Fill the first `size` bytes of each buffer from a source of its own; sources without a buffer are not read. -/
def fillSegments (size : Nat) : List Source → List Bytes → Except IoKind (List Bytes) × List Source
  | source :: sources, buffer :: buffers =>
    match source.fillExact size buffer with
    | (.error kind, source') => (.error kind, source' :: sources)
    | (.ok buffer', source') =>
      match fillSegments size sources buffers with
      | (.error kind, sources') => (.error kind, source' :: sources')
      | (.ok buffers', sources') => (.ok (buffer' :: buffers'), source' :: sources')
  | sources, buffers => (.ok buffers, sources)

/-- The fronts of the buffers are the segments that are read from the sources. -/
theorem fillSegments_cases {size : Nat} {buffers : List Bytes} (hsize : ∀ b ∈ buffers, size ≤ b.length)
    {sources : List Source} (hcount : buffers.length ≤ sources.length) :
    (∃ kind sources', fillSegments size sources buffers = (.error kind, sources' ++ sources.drop buffers.length) ∧
      readSegments size (sources.take buffers.length) = (.error kind, sources')) ∨
    ∃ buffers' sources', fillSegments size sources buffers = (.ok buffers', sources' ++ sources.drop buffers.length) ∧
      readSegments size (sources.take buffers.length) = (.ok (buffers'.map (·.take size)), sources') ∧
      buffers'.map List.length = buffers.map List.length ∧ sources'.length = buffers.length := by
  induction buffers generalizing sources with
  | nil => exact Or.inr ⟨[], [], by cases sources <;> rfl, rfl, rfl, rfl⟩
  | cons buffer buffers ih =>
    cases sources with
    | nil => exact absurd hcount (Nat.not_succ_le_zero _)
    | cons source sources =>
      rw [List.length_cons, List.take_succ_cons, List.drop_succ_cons, fillSegments, readSegments]
      rcases source.fillExact_cases (hsize buffer List.mem_cons_self) with
        ⟨kind, s', hfill, hread⟩ | ⟨buffer', s', hfill, hread, hlength⟩ <;> rw [hfill, hread] <;> dsimp only
      · exact Or.inl ⟨kind, _, by rw [List.cons_append, List.take_append_drop], rfl⟩
      · rcases ih (fun b hb => hsize b (List.mem_cons_of_mem buffer hb)) (Nat.le_of_succ_le_succ hcount) with
          ⟨kind, sources', hfills, hreads⟩ | ⟨buffers', sources', hfills, hreads, hlengths, hlen⟩ <;>
          rw [hfills, hreads] <;> dsimp only
        · exact Or.inl ⟨kind, s' :: sources', rfl, rfl⟩
        · refine Or.inr ⟨buffer' :: buffers', s' :: sources', rfl, rfl, ?_, by rw [List.length_cons, hlen]⟩
          rw [List.map_cons, List.map_cons, hlength, hlengths]

/-- A streaming decode between two chunks that keeps its segments in buffers. -/
structure InPlaceDecoder where
  sources : List Source
  sink : Sink
  /-- One for each source that is read, as long as the segments of a whole chunk. -/
  segments : List Bytes
  carry : Nat := 0
  remaining : Nat
  written : Nat := 0
  announced : List Event := []

namespace InPlaceDecoder

open ChunkDecoder (Plan)

/-- All but the buffers. -/
def view (d : InPlaceDecoder) : ChunkDecoder where
  sources := d.sources
  sink := d.sink
  carry := d.carry
  remaining := d.remaining
  written := d.written
  announced := d.announced

/-- Decode one chunk of `carry` repeated and `fresh` new bytes from the fronts of the buffers. -/
def decodeFront (p : Plan) (overlap fresh : Nat) (d : InPlaceDecoder) : Except IoKind Unit × InPlaceDecoder :=
  let length := d.carry + fresh
  let size := p.code.scheme.shardSizeFor length
  match fillSegments size d.sources d.segments with
  | (.error kind, sources) => (.error kind, { d with sources := sources })
  | (.ok segments, sources) =>
    let chunk := Code.reconstruct p.inverse size (segments.map (·.take size))
    match d.sink.writeAll ((chunk.take length).drop d.carry) with
    | (.error kind, sink) => (.error kind, { d with sources := sources, segments := segments, sink := sink })
    | (.ok (), sink) =>
      (.ok (), {
        sources := sources
        sink := sink
        segments := segments
        carry := min overlap length
        remaining := d.remaining - fresh
        written := d.written + fresh
        announced := p.event (d.written + fresh) :: d.announced })

theorem remaining_decodeFront {p : Plan} {overlap fresh : Nat} {d d' : InPlaceDecoder}
    (h : decodeFront p overlap fresh d = (.ok (), d')) : d'.remaining = d.remaining - fresh := by
  unfold decodeFront at h
  dsimp only at h
  split at h
  · cases h
  · split at h
    · cases h
    · obtain ⟨-, rfl⟩ := Prod.mk.inj h
      rfl

def run (p : Plan) (options : StreamOptions) (d : InPlaceDecoder) : Except IoKind Unit × InPlaceDecoder :=
  let fresh := min (options.chunk - d.carry) d.remaining
  if fresh = 0 then (.ok (), d)
  else
    match _ : decodeFront p options.overlap fresh d with
    | (.error kind, d') => (.error kind, d')
    | (.ok (), d') => run p options d'
termination_by d.remaining
decreasing_by
  rw [remaining_decodeFront ‹_›]
  omega

variable {p : Plan} {o : StreamOptions} {d d' : InPlaceDecoder}

/-- A buffer for each of the `k` sources that are read, with room for a segment of any chunk. -/
structure Fits (p : Plan) (o : StreamOptions) (d : InPlaceDecoder) : Prop where
  length_segments : d.segments.length = p.code.scheme.data
  room : ∀ b ∈ d.segments, b.length = p.code.scheme.shardSizeFor o.chunk
  le_length : p.code.scheme.data ≤ d.sources.length
  carry_lt : d.carry < o.chunk

/-- A round on the buffers is one on segments that are made afresh. -/
theorem decodeChunk_view (ho : o.Valid) (h : d.Fits p o) {fresh : Nat} (hfresh : d.carry + fresh ≤ o.chunk) :
    ChunkDecoder.decodeChunk p o.overlap fresh d.view =
      ((decodeFront p o.overlap fresh d).1, (decodeFront p o.overlap fresh d).2.view) ∧
      ∀ d', decodeFront p o.overlap fresh d = (.ok (), d') → d'.Fits p o := by
  have hsize : ∀ b ∈ d.segments, p.code.scheme.shardSizeFor (d.carry + fresh) ≤ b.length := by
    intro b hb
    rw [h.room b hb]
    exact Nat.div_le_div_right (by omega)
  have hcount : d.segments.length ≤ d.sources.length := h.length_segments ▸ h.le_length
  have hsegments := fillSegments_cases hsize hcount
  rw [h.length_segments] at hsegments
  unfold decodeFront ChunkDecoder.decodeChunk
  dsimp only [view]
  rcases hsegments with ⟨kind, sources, hfill, hread⟩ | ⟨segments, sources, hfill, hread, hlengths, hlength⟩ <;>
    rw [hfill, hread] <;> dsimp only
  · exact ⟨rfl, nofun⟩
  · rcases d.sink.writeAll (((Code.reconstruct p.inverse (p.code.scheme.shardSizeFor (d.carry + fresh))
      (segments.map (·.take (p.code.scheme.shardSizeFor (d.carry + fresh))))).take (d.carry + fresh)).drop d.carry)
      with ⟨kind | _, sink⟩
    · exact ⟨rfl, nofun⟩
    · refine ⟨rfl, ?_⟩
      rintro d' ⟨⟩
      have hsame := congrArg List.length hlengths
      rw [List.length_map, List.length_map] at hsame
      refine ⟨hsame.trans h.length_segments, fun b hb => ?_, ?_, Nat.lt_of_le_of_lt (Nat.min_le_left ..) ho⟩
      · have hmem : b.length ∈ d.segments.map List.length := hlengths ▸ List.mem_map_of_mem hb
        obtain ⟨b', hb', heq⟩ := List.mem_map.1 hmem
        rw [← heq, h.room b' hb']
      · rw [List.length_append, hlength]
        exact Nat.le_add_right ..

/-- **Reuse of the segment buffers**: a run on buffers ends like a run on segments that are made afresh. -/
theorem run_view (ho : o.Valid) (h : d.Fits p o) :
    ChunkDecoder.run p o d.view = ((run p o d).1, (run p o d).2.view) := by
  have hround : ∀ d : InPlaceDecoder, d.Fits p o → d.carry + min (o.chunk - d.carry) d.remaining ≤ o.chunk := by
    intro d h
    have hlt := h.carry_lt
    omega
  fun_induction run p o d with
  | case1 d fresh hnone =>
    rw [ChunkDecoder.run_eq]
    exact if_pos hnone
  | case2 d fresh hsome kind d' hdecode =>
    have hstep := (decodeChunk_view ho h (hround d h)).1
    rw [hdecode] at hstep
    rw [ChunkDecoder.run_eq]
    refine (if_neg hsome).trans ?_
    have hfresh : min (o.chunk - d.view.carry) d.view.remaining = fresh := rfl
    rw [hfresh, hstep]
  | case3 d fresh hsome d' hdecode ih =>
    obtain ⟨hstep, hfits⟩ := decodeChunk_view ho h (hround d h)
    rw [hdecode] at hstep
    rw [ChunkDecoder.run_eq]
    refine (if_neg hsome).trans ?_
    have hfresh : min (o.chunk - d.view.carry) d.view.remaining = fresh := rfl
    rw [hfresh, hstep]
    exact ih (hfits d' hdecode)

/-- A streaming decode before its first read, with the buffers of a plan. -/
def start (p : Plan) (o : StreamOptions) (sources : List Source) (sink : Sink) (dataSize : Nat) : InPlaceDecoder where
  sources := sources
  sink := sink
  segments := List.replicate p.code.scheme.data (List.replicate (p.code.scheme.shardSizeFor o.chunk) 0)
  remaining := dataSize

theorem fits_start (ho : o.Valid) {sources : List Source} (hcount : p.code.scheme.data ≤ sources.length) (sink : Sink)
    (dataSize : Nat) : (start p o sources sink dataSize).Fits p o where
  length_segments := List.length_replicate
  room := fun b hb => by rw [List.eq_of_mem_replicate hb, List.length_replicate]
  le_length := hcount
  carry_lt := Nat.lt_of_le_of_lt (Nat.zero_le _) ho

end InPlaceDecoder

/-- A streaming decode may keep all its segments in the same buffers. -/
theorem Code.decodeStream_inPlace (code : Code) {o : StreamOptions} (ho : o.Valid)
    (hroom : code.decodeBuffer o < bufferLimit) {sources : List Source} {present : List Nat}
    (henough : code.scheme.data ≤ sources.length) (hcount : present.length = sources.length) {plan : ChunkDecoder.Plan}
    (hplan : code.planDecodeStream present = .ok plan) (dataSize : Nat) (sink : Sink) :
    let run := InPlaceDecoder.run plan o (.start plan o sources sink dataSize)
    code.decodeStream sources present dataSize sink o = run.2.view.conclude plan run.1 := by
  intro run
  have hcode : plan.code.scheme.data ≤ sources.length := by
    rw [(planDecodeStream_eq_ok hplan).2]
    exact henough
  have hview := InPlaceDecoder.run_view ho (InPlaceDecoder.fits_start ho hcode sink dataSize)
  exact decodeStream_eq (code.checkDecodeStream_eq_ok ho hcount.symm (hcount ▸ henough)) hplan hroom hview

end ShardCoding

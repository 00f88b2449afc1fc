import ShardCoding.Code.Decode
import ShardCoding.Stream.Endpoint
import ShardCoding.Stream.Options

/-!
# Streaming decode

The chunks are cut from the number of bytes still to come, in the way that a streaming encode cuts its input; of each
chunk's bytes those that repeat the chunk before are dropped.

* `ChunkDecoder` : where a streaming decode stands between two chunks; `ChunkDecoder.run` : its loop;
* `Code.decodeStream` : the whole operation, with the sources and the sink as it leaves them.
-/

namespace ShardCoding

/-- A streaming decode between two chunks. -/
structure ChunkDecoder where
  sources : List Source
  sink : Sink
  /-- How many bytes of the next chunk were written already. -/
  carry : Nat := 0
  remaining : Nat
  written : Nat := 0
  /-- What was announced, latest first. -/
  announced : List Event := []

/-- `size` bytes from each source in turn; after a failure the sources that follow are not read. -/
def readSegments (size : Nat) : List Source → Except IoKind (List Bytes) × List Source
  | [] => (.ok [], [])
  | source :: sources =>
    match source.readExact size with
    | (.error kind, source') => (.error kind, source' :: sources)
    | (.ok segment, source') =>
      match readSegments size sources with
      | (.error kind, sources') => (.error kind, source' :: sources')
      | (.ok segments, sources') => (.ok (segment :: segments), source' :: sources')

namespace ChunkDecoder

/-- How a decode reads its chunks: the matrix to undo, if any, and what its events say of the sources. -/
structure Plan where
  code : Code
  inverse : Option ByteMatrix
  presentShards : Nat

/-- The event after `written` bytes. -/
def Plan.event (p : Plan) (written : Nat) : Event :=
  .decoding ⟨written, p.presentShards, p.code.scheme.total, p.presentShards < p.code.scheme.total⟩

/-- Decode one chunk of `carry` repeated and `fresh` new bytes. -/
def decodeChunk (p : Plan) (overlap fresh : Nat) (d : ChunkDecoder) : Except IoKind Unit × ChunkDecoder :=
  let length := d.carry + fresh
  let size := p.code.scheme.shardSizeFor length
  let k := p.code.scheme.data
  match readSegments size (d.sources.take k) with
  | (.error kind, read) => (.error kind, { d with sources := read ++ d.sources.drop k })
  | (.ok segments, read) =>
    let chunk := Code.reconstruct p.inverse size segments
    match d.sink.writeAll ((chunk.take length).drop d.carry) with
    | (.error kind, sink) => (.error kind, { d with sources := read ++ d.sources.drop k, sink := sink })
    | (.ok (), sink) =>
      (.ok (), {
        sources := read ++ d.sources.drop k
        sink := sink
        carry := min overlap length
        remaining := d.remaining - fresh
        written := d.written + fresh
        announced := p.event (d.written + fresh) :: d.announced })

theorem remaining_decodeChunk {p : Plan} {overlap fresh : Nat} {d d' : ChunkDecoder}
    (h : decodeChunk p overlap fresh d = (.ok (), d')) : d'.remaining = d.remaining - fresh := by
  unfold decodeChunk at h
  dsimp only at h
  split at h
  · simp at h
  · split at h
    · simp at h
    · obtain ⟨-, rfl⟩ := Prod.mk.inj h
      rfl

/-- Chunk by chunk until no byte remains, or something fails. A chunk without new bytes, which valid options rule out,
ends the run too. -/
def run (p : Plan) (options : StreamOptions) (d : ChunkDecoder) : Except IoKind Unit × ChunkDecoder :=
  let fresh := min (options.chunk - d.carry) d.remaining
  if fresh = 0 then (.ok (), d)
  else
    match _ : decodeChunk p options.overlap fresh d with
    | (.error kind, d') => (.error kind, d')
    | (.ok (), d') => run p options d'
termination_by d.remaining
decreasing_by
  rw [remaining_decodeChunk ‹_›]
  omega

end ChunkDecoder

structure DecodeStreamRun where
  outcome : Traced Nat
  sources : List Source
  sink : Sink

namespace Code

variable (code : Code)

/-- What is refused before the call counts as a decode. -/
def checkDecodeStream (sources : List Source) (present : List Nat) (options : StreamOptions) :
    Except CodingError Unit := do
  options.check
  if sources.length < code.scheme.data then throw (.insufficientShards sources.length code.scheme.data)
  if present.length ≠ sources.length then throw (.argument (.indexCount present.length sources.length))

/-- The checks that are left once the call counts. -/
def planDecodeStream (present : List Nat) : Except CodingError ChunkDecoder.Plan := do
  let selected ← code.select present
  let inverse ← code.inverseFor selected
  return ⟨code, inverse, present.length⟩

/-- The length of the buffer that holds a whole chunk: a segment of the greatest length for each of `k` sources. -/
def decodeBuffer (options : StreamOptions) : Nat := code.scheme.shardSizeFor options.chunk * code.scheme.data

/-- The bytes written, `dataSize` unless something fails. `present` names the shard of each source; only the first
`k` sources are read. The buffers are made once the sources are known to be solvable, before anything is read. -/
def decodeStream (sources : List Source) (present : List Nat) (dataSize : Nat) (sink : Sink)
    (options : StreamOptions) : DecodeStreamRun :=
  match code.checkDecodeStream sources present options with
  | .error e => ⟨.fail e, sources, sink⟩
  | .ok () =>
    match code.planDecodeStream present with
    | .error e => ⟨Traced.guarded .shared (do Traced.emit (.count .decodes 1); Traced.fail e), sources, sink⟩
    | .ok plan =>
      if bufferLimit ≤ code.decodeBuffer options then
        let outcome := Traced.guarded .shared do
          Traced.emit (.count .decodes 1)
          Traced.fail (.panicked .capacityOverflow)
        ⟨outcome, sources, sink⟩
      else
        let (r, d) := ChunkDecoder.run plan options { sources := sources, sink := sink, remaining := dataSize }
        let outcome := Traced.guarded .shared do
          Traced.emit (.count .decodes 1)
          Traced.announceAll d.announced.reverse
          match r with
          | .error kind => Traced.fail (.io kind)
          | .ok () =>
            match d.sink.flushFault with
            | some kind => Traced.fail (.io kind)
            | none =>
              Traced.emit (.count .bytesDecoded d.written)
              Traced.emit (.time .streamDecode)
              Traced.emit (.announce (plan.event d.written))
              return d.written
        ⟨outcome, d.sources, d.sink⟩

end Code

end ShardCoding

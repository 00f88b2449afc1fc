import ShardCoding.Code.Basic
import ShardCoding.Stream.DigestSink
import ShardCoding.Stream.Options

/-!
# Streaming encode

The input is read in chunks, each of them encoded like a buffer of its own; every shard goes to a sink of its own, and
each chunk after the first begins with the last bytes of the one before.

* `ChunkEncoder` : where a streaming encode stands between two chunks; `ChunkEncoder.run` : its loop;
* `Code.encodeStream` : the whole operation, with the source and the sinks as it leaves them.
-/

namespace ShardCoding

structure StreamSummary where
  /-- Input bytes consumed. -/
  totalBytes : Nat
  chunks : Nat
  /-- Bytes written to each sink. -/
  shardBytes : Nat
  /-- One digest for each sink. -/
  checksums : List Digest
  deriving DecidableEq

/-- A streaming encode between two chunks. -/
structure ChunkEncoder where
  source : Source
  sinks : List DigestSink
  /-- The bytes that the next chunk begins with. -/
  carry : Bytes := []
  totalBytes : Nat := 0
  chunks : Nat := 0
  shardBytes : Nat := 0
  /-- What was announced, latest first. -/
  announced : List Event := []

/-- Write the shards to their sinks in turn; after a failure the sinks that follow get nothing. -/
def writeShards : List DigestSink → List Bytes → Except IoKind Unit × List DigestSink
  | sink :: sinks, shard :: shards =>
    match sink.writeAll shard with
    | (.error kind, sink') => (.error kind, sink' :: sinks)
    | (.ok (), sink') =>
      let (r, sinks') := writeShards sinks shards
      (r, sink' :: sinks')
  | sinks, _ => (.ok (), sinks)

namespace ChunkEncoder

/-- Encode one chunk, `carry` followed by `fresh`. -/
def encodeChunk (code : Code) (overlap : Nat) (fresh : Bytes) (e : ChunkEncoder) : Except IoKind Unit × ChunkEncoder :=
  let chunk := e.carry ++ fresh
  let size := code.scheme.shardSizeFor chunk.length
  match writeShards e.sinks (code.shardsOf size chunk) with
  | (.error kind, sinks) => (.error kind, { e with sinks := sinks })
  | (.ok (), sinks) =>
    let total := e.totalBytes + fresh.length
    (.ok (), { e with
      sinks := sinks
      carry := chunk.drop (chunk.length - overlap)
      totalBytes := total
      chunks := e.chunks + 1
      shardBytes := e.shardBytes + size
      announced := .encoding ⟨total, code.scheme.data, code.scheme.parity, size⟩ :: e.announced })

theorem source_encodeChunk (code : Code) (overlap : Nat) (fresh : Bytes) (e : ChunkEncoder) :
    (encodeChunk code overlap fresh e).2.source = e.source := by
  unfold encodeChunk
  dsimp only
  split <;> rfl

/-- Chunk by chunk until a read comes back short or empty, or something fails. -/
def run (code : Code) (options : StreamOptions) (e : ChunkEncoder) : Except IoKind Unit × ChunkEncoder :=
  match _ : e.source.readUpTo (options.chunk - e.carry.length) with
  | (.error kind, source) => (.error kind, { e with source := source })
  | (.ok [], source) => (.ok (), { e with source := source })
  | (.ok (b :: fresh), source) =>
    match _ : encodeChunk code options.overlap (b :: fresh) { e with source := source } with
    | (.error kind, e') => (.error kind, e')
    | (.ok (), e') =>
      if e.carry.length + (fresh.length + 1) < options.chunk then (.ok (), e')
      else run code options e'
termination_by e.source.rest.length
decreasing_by
  have h := Source.append_rest_of_readUpTo ‹Source.readUpTo _ _ = _›
  have hs := source_encodeChunk code options.overlap (b :: fresh) { e with source := source }
  rw [‹encodeChunk _ _ _ _ = _›] at hs
  rw [hs, ← h, List.length_append, List.length_cons]
  show source.rest.length < _
  omega

end ChunkEncoder

/-- The first sink that cannot be flushed. -/
def flushFault? (sinks : List DigestSink) : Option IoKind := sinks.findSome? DigestSink.flushFault

structure EncodeStreamRun where
  outcome : Traced StreamSummary
  source : Source
  sinks : List Sink

namespace Code

variable (code : Code)

/-- What is refused before any byte is read. -/
def checkEncodeStream (sinks : List Sink) (options : StreamOptions) : Except CodingError Unit := do
  options.check
  if sinks.length ≠ code.scheme.total then throw (.shardCount code.scheme.total sinks.length)

/-- The buffer for a chunk is made once the call counts, before anything is read. -/
def encodeStream (source : Source) (sinks : List Sink) (options : StreamOptions) : EncodeStreamRun :=
  match code.checkEncodeStream sinks options with
  | .error e => ⟨.fail e, source, sinks⟩
  | .ok () =>
    if bufferLimit ≤ options.chunk then
      let outcome := Traced.guarded .shared do
        Traced.emit (.count .encodes 1)
        Traced.fail (.panicked .capacityOverflow)
      ⟨outcome, source, sinks⟩
    else
      let (r, e) := ChunkEncoder.run code options { source := source, sinks := sinks.map fun s => { inner := s } }
      let outcome := Traced.guarded .shared do
        Traced.emit (.count .encodes 1)
        Traced.announceAll e.announced.reverse
        match r with
        | .error kind => Traced.fail (.io kind)
        | .ok () =>
          match flushFault? e.sinks with
          | some kind => Traced.fail (.io kind)
          | none =>
            let checksums := e.sinks.map DigestSink.digest
            Traced.emit (.keepDigests checksums)
            Traced.emit (.count .bytesEncoded e.totalBytes)
            Traced.emit (.time .streamEncode)
            return ⟨e.totalBytes, e.chunks, e.shardBytes, checksums⟩
      ⟨outcome, e.source, e.sinks.map DigestSink.inner⟩

end Code

end ShardCoding

import ShardCoding.ByteMatrix.Inverse
import ShardCoding.Digest.Sha256
import ShardCoding.Effect
import ShardCoding.Scheme

/-!
# The code

Data is cut into `k` shards of one length, the last ones filled up with zeros, and each of the `m` parity shards is a
combination of them with the coefficients of one row of the generator.

* `Code` : valid shard counts with their generator;
* `splitData` : the data shards; `combine` : a linear combination of shards, byte by byte;
* `Code.shardsOf` : all shards of some data; `Code.encode` : the same as an operation of a coder;
* `Code.encodeParallel` : an encode that computes the parity shards at the same time.
-/

namespace ShardCoding

structure Code where
  scheme : Scheme
  valid : scheme.Valid
  generator : ByteMatrix
  generator_eq : generator = .generator scheme.data scheme.parity

/-- A slot for each shard index, empty where the shard is absent. -/
abbrev Slots := List (Option Bytes)

structure Shard where
  index : Nat
  data : Bytes
  isParity : Bool
  deriving DecidableEq, Repr

structure Encoded where
  /-- All shards in the order of their indices, data before parity. -/
  shards : List Shard
  shardSize : Nat
  dataSize : Nat
  deriving DecidableEq, Repr

/-- `data` in `k` pieces of `size` bytes, the last ones filled up with zeros. -/
def splitData (k size : Nat) (data : Bytes) : List Bytes :=
  (List.range k).map fun i =>
    let piece := (data.drop (i * size)).take size
    piece ++ List.replicate (size - piece.length) 0

/-- The sum of the `shards`, all of length `size`, each times its coefficient. -/
def combine (size : Nat) (coefficients : Bytes) (shards : List Bytes) : Bytes :=
  (coefficients.zip shards).foldl (fun sum (c, shard) => GF256.mulAcc c shard sum) (List.replicate size 0)

namespace Code

/-- The code with the given counts. -/
def ofValid (s : Scheme) (h : s.Valid) : Code := ⟨s, h, .generator s.data s.parity, rfl⟩

/-- The code with the given counts. Those that pass the check because their sum wraps have fewer rows than columns, so
that no generator is built for them: its ones are set past its end, if there is a buffer for it at all. -/
def ofScheme (s : Scheme) : Except CodingError Code :=
  match s.fault? with
  | some f => .error (.scheme f)
  | none =>
    if h : s.Valid then .ok (ofValid s h)
    else if bufferLimit ≤ s.total * s.data % wordLimit then .error (.panicked .capacityOverflow)
    else .error (.panicked .indexOutOfBounds)

variable (code : Code)

/-- The counts of a code are small, so their sum does not wrap. -/
theorem total_eq : code.scheme.total = code.scheme.data + code.scheme.parity := code.valid.total_eq

theorem total_le : code.scheme.total ≤ maxShards := code.valid.accepted.2.2

theorem data_le_total : code.scheme.data ≤ code.scheme.total := code.total_eq ▸ Nat.le_add_right ..

/-- Parity shard `k + p` of the given data shards. -/
def parityShard (p size : Nat) (data : List Bytes) : Bytes :=
  combine size (code.generator.row (code.scheme.data + p)) data

/-- All shards of `data` at shard length `size`. -/
def shardsOf (size : Nat) (data : Bytes) : List Bytes :=
  let dataShards := splitData code.scheme.data size data
  dataShards ++ (List.range code.scheme.parity).map fun p => code.parityShard p size dataShards

/-- What both ways to encode do with the `shards` of `data`: their digests are kept, and the event comes after the guard
is released. -/
def finishEncode (data : Bytes) (size : Nat) (shards : List Bytes) : Traced Encoded := do
  Traced.guarded .shared do
    Traced.emit (.count .encodes 1)
    Traced.emit (.keepDigests (shards.map sha256))
    Traced.emit (.count .bytesEncoded data.length)
    Traced.emit (.time .encode)
  Traced.emit (.announce (.encoding {
    bytesProcessed := data.length
    dataShards := code.scheme.data
    parityShards := code.scheme.parity
    shardSize := size }))
  return {
    shards := shards.zipIdx.map fun (shard, i) => ⟨i, shard, code.scheme.data ≤ i⟩
    shardSize := size
    dataSize := data.length }

/-- The shards of `data` at the least shard length. -/
def encode (data : Bytes) : Traced Encoded :=
  let size := code.scheme.shardSizeFor data.length
  code.finishEncode data size (code.shardsOf size data)

/-- The parity shards of the given data shards, each computed by a task of its own. -/
def parityInParallel (size : Nat) (data : List Bytes) : List Bytes :=
  let tasks := (List.range code.scheme.parity).map fun p => Task.spawn fun _ => code.parityShard p size data
  tasks.map Task.get

/-- `encode` with the parity shards computed at the same time. -/
def encodeParallel (data : Bytes) : Traced Encoded :=
  let size := code.scheme.shardSizeFor data.length
  let dataShards := splitData code.scheme.data size data
  code.finishEncode data size (dataShards ++ code.parityInParallel size dataShards)

theorem parityInParallel_eq (size : Nat) (data : List Bytes) :
    code.parityInParallel size data = (List.range code.scheme.parity).map fun p => code.parityShard p size data := by
  rw [parityInParallel, List.map_map]
  rfl

/-- Each parity shard depends on the data shards only, so when it is computed makes no difference. -/
theorem encodeParallel_eq (data : Bytes) : code.encodeParallel data = code.encode data := by
  unfold encodeParallel encode shardsOf
  dsimp only
  rw [parityInParallel_eq]

end Code

end ShardCoding

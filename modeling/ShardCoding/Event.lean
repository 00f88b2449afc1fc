/-!
# Events

What a coder tells its observers: how far an encode or a decode has come, and which shards a repair rebuilt.
-/

namespace ShardCoding

/-- After a buffered encode, or after each chunk of a streaming one. -/
structure EncodingEvent where
  /-- Input bytes consumed so far. -/
  bytesProcessed : Nat
  dataShards : Nat
  parityShards : Nat
  shardSize : Nat
  deriving DecidableEq, Repr

/-- After a decode, after each chunk of a streaming one, and once more at its end. -/
structure DecodingEvent where
  /-- Data bytes produced so far. -/
  bytesProcessed : Nat
  presentShards : Nat
  totalShards : Nat
  /-- Whether fewer than all shards were supplied. -/
  hadLoss : Bool
  deriving DecidableEq, Repr

/-- After a repair that rebuilt at least one shard. -/
structure RepairEvent where
  repairedIndices : List Nat
  shardSize : Nat
  deriving DecidableEq, Repr

inductive Event where
  | encoding (e : EncodingEvent)
  | decoding (e : DecodingEvent)
  | repair (e : RepairEvent)
  deriving DecidableEq, Repr

end ShardCoding

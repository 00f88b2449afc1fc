import ShardCoding.Coder.Counters
import ShardCoding.Code.Maintenance
import ShardCoding.Json.Record
import ShardCoding.Manifest
import ShardCoding.Network.Context

/-!
# The records of the engine

How shards, results, events, counters and network conditions are written in JSON. What happened at some time is written
with that time.

* `Stamped α` : a value and the time that it belongs to.
-/

namespace ShardCoding

structure Stamped (α : Type) where
  value : α
  time : Instant

/-! ## Shards and results -/

instance : Recorded Shard where
  toJson s := .record [("index", .nat s.index), ("data", .ofBytes s.data), ("is_parity", .bool s.isParity)]
  ofJson? j := do
    let m ← Members.of? ["index", "data", "is_parity"] j
    return ⟨← m.required "index" (Json.word? 256), ← m.required "data" Json.bytes?,
      ← m.required "is_parity" Json.bool?⟩

instance : Recorded (Stamped Verification) where
  toJson s := .record [("valid", .bool s.value.valid),
    ("corrupted_indices", .array (s.value.corruptedIndices.map .nat)), ("verified_at", .ofInstant s.time)]
  ofJson? j := do
    let m ← Members.of? ["valid", "corrupted_indices", "verified_at"] j
    return ⟨⟨← m.required "valid" Json.bool?, ← m.required "corrupted_indices" (Json.list? Json.size?)⟩,
      ← m.required "verified_at" Json.instant?⟩

/-- A digest is an array of exactly 32 bytes. -/
def Json.digest? : Json → Option Digest
  | .array items => (Json.array items).bytes?.bind Digest.ofBytes?
  | _ => none

instance : Recorded (Stamped StreamSummary) where
  toJson s := .record [("total_bytes", .nat s.value.totalBytes), ("chunks_processed", .nat s.value.chunks),
    ("shard_bytes", .nat s.value.shardBytes),
    ("checksums", .array (s.value.checksums.map fun d => .ofBytes d.bytes)), ("completed_at", .ofInstant s.time)]
  ofJson? j := do
    let m ← Members.of? ["total_bytes", "chunks_processed", "shard_bytes", "checksums", "completed_at"] j
    return ⟨⟨← m.required "total_bytes" Json.size?, ← m.required "chunks_processed" Json.size?,
      ← m.required "shard_bytes" Json.size?, ← m.required "checksums" (Json.list? Json.digest?)⟩,
      ← m.required "completed_at" Json.instant?⟩

/-! ## Events -/

instance : Recorded (Stamped EncodingEvent) where
  toJson s := .record [("bytes_processed", .nat s.value.bytesProcessed), ("data_shards", .nat s.value.dataShards),
    ("parity_shards", .nat s.value.parityShards), ("shard_size", .nat s.value.shardSize),
    ("timestamp", .ofInstant s.time)]
  ofJson? j := do
    let m ← Members.of? ["bytes_processed", "data_shards", "parity_shards", "shard_size", "timestamp"] j
    return ⟨⟨← m.required "bytes_processed" Json.size?, ← m.required "data_shards" Json.size?,
      ← m.required "parity_shards" Json.size?, ← m.required "shard_size" Json.size?⟩,
      ← m.required "timestamp" Json.instant?⟩

instance : Recorded (Stamped DecodingEvent) where
  toJson s := .record [("bytes_processed", .nat s.value.bytesProcessed),
    ("present_shards", .nat s.value.presentShards), ("total_shards", .nat s.value.totalShards),
    ("had_loss", .bool s.value.hadLoss), ("timestamp", .ofInstant s.time)]
  ofJson? j := do
    let m ← Members.of? ["bytes_processed", "present_shards", "total_shards", "had_loss", "timestamp"] j
    return ⟨⟨← m.required "bytes_processed" Json.size?, ← m.required "present_shards" Json.size?,
      ← m.required "total_shards" Json.size?, ← m.required "had_loss" Json.bool?⟩,
      ← m.required "timestamp" Json.instant?⟩

instance : Recorded (Stamped RepairEvent) where
  toJson s := .record [("repaired_indices", .array (s.value.repairedIndices.map .nat)),
    ("shard_size", .nat s.value.shardSize), ("timestamp", .ofInstant s.time)]
  ofJson? j := do
    let m ← Members.of? ["repaired_indices", "shard_size", "timestamp"] j
    return ⟨⟨← m.required "repaired_indices" (Json.list? Json.size?), ← m.required "shard_size" Json.size?⟩,
      ← m.required "timestamp" Json.instant?⟩

/-! ## Counters -/

instance : Recorded Counters where
  toJson c := .record [("encode_count", .nat c.encodes.toNat), ("decode_count", .nat c.decodes.toNat),
    ("repair_count", .nat c.repairs.toNat), ("bytes_encoded", .nat c.bytesEncoded.toNat),
    ("bytes_decoded", .nat c.bytesDecoded.toNat), ("bytes_repaired", .nat c.bytesRepaired.toNat)]
  ofJson? j := do
    let m ← Members.of?
      ["encode_count", "decode_count", "repair_count", "bytes_encoded", "bytes_decoded", "bytes_repaired"] j
    let count (name : String) : Option UInt64 := (m.required name Json.size?).map Nat.toUInt64
    return ⟨← count "encode_count", ← count "decode_count", ← count "repair_count", ← count "bytes_encoded",
      ← count "bytes_decoded", ← count "bytes_repaired"⟩

/-! ## Networks -/

/-- A name, alone or as the only member of an object with the value `null`. -/
def Health.ofJson? : Json → Option Health
  | .string (.text s) => Health.ofText? s
  | .object [(.text s, .null)] => Health.ofText? s
  | _ => none

instance : Recorded Health where
  toJson h := .str h.text
  ofJson? := Health.ofJson?

instance : Recorded (Thresholds Float) where
  toJson t := .record [("max_parity", .nat t.maxParity), ("degraded_max_parity", .nat t.degradedMaxParity),
    ("min_parity", .nat t.minParity), ("high_latency_ms", .ofFloat t.highLatency),
    ("low_latency_ms", .ofFloat t.lowLatency), ("high_packet_loss", .ofFloat t.highLoss),
    ("low_packet_loss", .ofFloat t.lowLoss)]
  ofJson? j := do
    let m ← Members.of? ["max_parity", "degraded_max_parity", "min_parity", "high_latency_ms", "low_latency_ms",
      "high_packet_loss", "low_packet_loss"] j
    return ⟨← m.required "max_parity" Json.size?, ← m.required "degraded_max_parity" Json.size?,
      ← m.required "min_parity" Json.size?, ← m.required "high_latency_ms" Json.float?,
      ← m.required "low_latency_ms" Json.float?, ← m.required "high_packet_loss" Json.float?,
      ← m.required "low_packet_loss" Json.float?⟩

instance : Recorded (PeerMetrics Float) where
  toJson p := .record [("success_count", .nat p.successes), ("failure_count", .nat p.failures),
    ("avg_latency_ms", .nat p.averageLatency), ("min_latency_ms", .nat p.minLatency),
    ("max_latency_ms", .nat p.maxLatency), ("success_rate", .ofFloat p.successRate)]
  ofJson? j := do
    let m ← Members.of? ["success_count", "failure_count", "avg_latency_ms", "min_latency_ms", "max_latency_ms",
      "success_rate"] j
    return ⟨← m.required "success_count" Json.size?, ← m.required "failure_count" Json.size?,
      ← m.required "avg_latency_ms" Json.size?, ← m.required "min_latency_ms" Json.size?,
      ← m.required "max_latency_ms" Json.size?, ← m.required "success_rate" Json.float?⟩

instance : Recorded (Candidate Float) where
  toJson p := .record [("peer_id", .str p.id), ("score", .ofFloat p.score), ("latency_ms", .nat p.latency),
    ("health", toJson p.health)]
  ofJson? j := do
    let m ← Members.of? ["peer_id", "score", "latency_ms", "health"] j
    return ⟨← m.required "peer_id" Json.text?, ← m.required "score" Json.float?,
      ← m.required "latency_ms" Json.size?, ← m.required "health" Health.ofJson?⟩

/-- Conditions with the time of their last update, if any. -/
structure NetworkSnapshot where
  conditions : Conditions Float
  lastUpdate : Option Instant

instance : Recorded NetworkSnapshot where
  toJson n := .record [("health", toJson n.conditions.health),
    ("average_latency_ms", .ofFloat n.conditions.averageLatency),
    ("packet_loss_rate", .ofFloat n.conditions.packetLoss), ("last_update", .ofNullable .ofInstant n.lastUpdate)]
  ofJson? j := do
    let m ← Members.of? ["health", "average_latency_ms", "packet_loss_rate", "last_update"] j
    return ⟨⟨← m.required "health" Health.ofJson?, ← m.required "average_latency_ms" Json.float?,
      ← m.required "packet_loss_rate" Json.float?⟩, ← m.optional "last_update" Json.instant?⟩

end ShardCoding

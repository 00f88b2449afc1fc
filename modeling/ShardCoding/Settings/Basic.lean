import ShardCoding.Environment
import ShardCoding.Decimal.Text
import ShardCoding.Json.Writer
import ShardCoding.Network.Selection
import ShardCoding.Stream.Options
import ShardCoding.Toml.Record

/-!
# Settings

What a settings file says of shard counts, chunking and the network. Shard counts that it does not give come from the
environment.

* `Settings`, `NetworkSettings` : the record; `Settings.standard` : without a file;
* `Settings.ofToml?` : the record in a document; `Settings.toText?` : the document of a record;
* `Settings.summary` : the record for people.
-/

namespace ShardCoding

structure NetworkSettings where
  conditions : Conditions Float
  thresholds : Thresholds Float

/-- Settings; whether the shard counts are valid shows when they are used. -/
structure Settings where
  scheme : Scheme
  stream : StreamOptions
  network : NetworkSettings

namespace NetworkSettings

def standard : NetworkSettings := ⟨⟨.unknown, 0, 0⟩, .standard⟩

end NetworkSettings

namespace Settings

def standard (e : Environment) : Settings := ⟨e.scheme, {}, .standard⟩

/-! ## Reading -/

def scheme? (e : Environment) (v : Toml) : Option Scheme := do
  let es ← v.fields? ["data_shards", "parity_shards"]
  return ⟨← Toml.field es "data_shards" e.scheme.data Toml.size?,
    ← Toml.field es "parity_shards" e.scheme.parity Toml.size?⟩

def stream? (v : Toml) : Option StreamOptions := do
  let standard : StreamOptions := {}
  let es ← v.fields? ["chunk_size", "overlap_size"]
  return ⟨← Toml.field es "chunk_size" standard.chunk Toml.size?,
    ← Toml.field es "overlap_size" standard.overlap Toml.size?⟩

/-- Thresholds are given all together or not at all. -/
def thresholds? (v : Toml) : Option (Thresholds Float) := do
  let es ← v.fields? ["max_parity", "degraded_max_parity", "min_parity", "high_latency_ms", "low_latency_ms",
    "high_packet_loss", "low_packet_loss"]
  return {
    maxParity := ← Toml.required es "max_parity" Toml.size?
    degradedMaxParity := ← Toml.required es "degraded_max_parity" Toml.size?
    minParity := ← Toml.required es "min_parity" Toml.size?
    highLatency := ← Toml.required es "high_latency_ms" Toml.real?
    lowLatency := ← Toml.required es "low_latency_ms" Toml.real?
    highLoss := ← Toml.required es "high_packet_loss" Toml.real?
    lowLoss := ← Toml.required es "low_packet_loss" Toml.real? }

def network? (v : Toml) : Option NetworkSettings := do
  let es ← v.fields? ["health", "average_latency_ms", "packet_loss_rate", "thresholds"]
  let health ← Toml.field es "health" .unknown fun v => v.name?.bind Health.ofText?
  let latency ← Toml.field es "average_latency_ms" 0 Toml.real?
  let loss ← Toml.field es "packet_loss_rate" 0 Toml.real?
  let thresholds ← Toml.field es "thresholds" .standard thresholds?
  return ⟨⟨health, latency, loss⟩, thresholds⟩

def ofToml? (e : Environment) (es : Toml.Entries) : Option Settings := do
  let s := standard e
  return ⟨← Toml.field es "erasure" s.scheme (scheme? e), ← Toml.field es "stream" s.stream stream?,
    ← Toml.field es "network" s.network network?⟩

/-! ## Writing -/

/-- Positional, whole numbers with `.0`. -/
def floatFormat : FloatFormat := ⟨true, none, .up⟩

def floatText (format : FloatFormat) (nan : String) (x : Float) : String :=
  match format.numeral? x with
  | some n => String.ofList n.chars
  | none => if x.isNaN then nan else nonFiniteText x

def tableText (name : String) (entries : List (String × String)) : String :=
  s!"[{name}]\n" ++ String.join (entries.map fun (key, v) => s!"{key} = {v}\n")

/-- The document, unless a count does not fit into a signed word. -/
def toText? (s : Settings) : Option String :=
  let c := s.network.conditions
  let t := s.network.thresholds
  let number (n : Nat) : String := toString n
  let real (x : Float) : String := floatText floatFormat "nan" x
  if [s.scheme.data, s.scheme.parity, s.stream.chunk, s.stream.overlap, t.maxParity, t.degradedMaxParity,
      t.minParity].any (Nat.pow 2 63 ≤ ·) then none
  else some <| "\n".intercalate [
    tableText "erasure" [("data_shards", number s.scheme.data), ("parity_shards", number s.scheme.parity)],
    tableText "stream" [("chunk_size", number s.stream.chunk), ("overlap_size", number s.stream.overlap)],
    tableText "network" [("health", s!"\"{c.health.text}\""), ("average_latency_ms", real c.averageLatency),
      ("packet_loss_rate", real c.packetLoss)],
    tableText "network.thresholds" [("max_parity", number t.maxParity),
      ("degraded_max_parity", number t.degradedMaxParity), ("min_parity", number t.minParity),
      ("high_latency_ms", real t.highLatency), ("low_latency_ms", real t.lowLatency),
      ("high_packet_loss", real t.highLoss), ("low_packet_loss", real t.lowLoss)]]

/-- The sections with their entries indented; thresholds are left out. -/
def summary (s : Settings) : String :=
  let c := s.network.conditions
  let real (x : Float) : String := floatText .positional "NaN" x
  "\nSupernode Configuration\n\n" ++
    s!"[erasure]\n  data_shards = {s.scheme.data}\n  parity_shards = {s.scheme.parity}\n\n" ++
    s!"[stream]\n  chunk_size = {s.stream.chunk}\n  overlap_size = {s.stream.overlap}\n\n" ++
    s!"[network]\n  health = \"{c.health.text}\"\n  average_latency_ms = {real c.averageLatency}\n" ++
    s!"  packet_loss_rate = {real c.packetLoss}\n\n"

end Settings

end ShardCoding

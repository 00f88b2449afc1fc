import ShardCoding.Code.Basic
import ShardCoding.Digest.Sha256
import ShardCoding.Json.Record
import ShardCoding.Json.Writer
import ShardCoding.Stream.Encode

/-!
# Manifests

A manifest describes one encoded file: the shard counts and the chunking, the sizes that a decode needs, and a digest
for each shard.

* `Manifest`, `Manifest.Entry` : the record;
* `ofEncoded`, `ofStream` : the manifest of what an encode has made;
* `check` : whether the parts fit together; `digest`, `verifyShard`, `updateDigest` : one entry;
* `toText`, `ofText` : the JSON text.
-/

namespace ShardCoding

instance : Recorded Scheme where
  toJson s := .record [("data_shards", .nat s.data), ("parity_shards", .nat s.parity)]
  ofJson? j := do
    let m ← Members.of? ["data_shards", "parity_shards"] j
    return ⟨← m.required "data_shards" Json.size?, ← m.required "parity_shards" Json.size?⟩

instance : Recorded StreamOptions where
  toJson o := .record [("chunk_size", .nat o.chunk), ("overlap_size", .nat o.overlap)]
  ofJson? j := do
    let m ← Members.of? ["chunk_size", "overlap_size"] j
    let standard : StreamOptions := {}
    return ⟨← m.withDefault "chunk_size" standard.chunk Json.size?,
      ← m.withDefault "overlap_size" standard.overlap Json.size?⟩

structure Manifest.Entry where
  index : Nat
  isParity : Bool
  size : Nat
  /-- The digest in hexadecimal. -/
  sha256 : String
  deriving DecidableEq, Repr

structure Manifest where
  version : Nat
  fileName : Option String
  scheme : Scheme
  stream : StreamOptions
  dataSize : Nat
  /-- The length of every shard. -/
  shardSize : Nat
  createdAt : Instant
  shards : List Manifest.Entry
  deriving DecidableEq, Repr

namespace Manifest

def currentVersion : Nat := 1

/-- The chunk is the whole of the data, so that a streaming decode can read the shards too. -/
def ofEncoded (scheme : Scheme) (e : Encoded) (now : Instant) : Manifest where
  version := currentVersion
  fileName := none
  scheme := scheme
  stream := { chunk := max e.dataSize 1, overlap := 0 }
  dataSize := e.dataSize
  shardSize := e.shardSize
  createdAt := now
  shards := e.shards.map fun s => ⟨s.index, s.isParity, s.data.length, hexEncode (ShardCoding.sha256 s.data).bytes⟩

def ofStream (scheme : Scheme) (options : StreamOptions) (s : StreamSummary) (now : Instant) : Manifest where
  version := currentVersion
  fileName := none
  scheme := scheme
  stream := options
  dataSize := s.totalBytes
  shardSize := s.shardBytes
  createdAt := now
  shards := s.checksums.zipIdx.map fun (d, i) => ⟨i, scheme.data ≤ i, s.shardBytes, hexEncode d.bytes⟩

/-! ## Entries -/

/-- The digest that a text of 64 hexadecimal digits spells. -/
def readDigest (index : Nat) (text : String) : Except CodingError Digest :=
  match hexDecode text with
  | .error cause => .error (.manifest (.digestText index cause))
  | .ok bytes =>
    match Digest.ofBytes? bytes with
    | none => .error (.manifest (.digestLength index digestSize))
    | some d => .ok d

def digest (m : Manifest) (index : Nat) : Except CodingError Digest :=
  match m.shards[index]? with
  | none => .error (.shardIndex index (m.shards.length - 1))
  | some entry => readDigest index entry.sha256

/-- Whether `data` has the digest of shard `index`. -/
def verifyShard (m : Manifest) (index : Nat) (data : Bytes) : Except CodingError Bool :=
  (m.digest index).map fun d => matchesDigest d.bytes data

/-- The manifest with the digest and the size of `data` for shard `index`. -/
def updateDigest (m : Manifest) (index : Nat) (data : Bytes) : Except CodingError Manifest :=
  if index < m.shards.length then
    .ok { m with shards := m.shards.modify index fun e =>
      { e with sha256 := hexEncode (ShardCoding.sha256 data).bytes, size := data.length } }
  else .error (.shardIndex index (m.shards.length - 1))

/-! ## Consistency -/

/-- Each entry has the index of its place and a digest that can be read. -/
def checkEntries : (place : Nat) → List Entry → Except CodingError Unit
  | _, [] => .ok ()
  | place, e :: rest =>
    if e.index ≠ place then .error (.manifest (.entryIndex place e.index))
    else
      match readDigest place e.sha256 with
      | .error fault => .error fault
      | .ok _ => checkEntries (place + 1) rest

def check (m : Manifest) : Except CodingError Unit := do
  if m.version ≠ currentVersion then throw (.manifest (.version m.version))
  m.scheme.check
  m.stream.check
  if m.shards.length ≠ m.scheme.total then throw (.shardCount m.scheme.total m.shards.length)
  checkEntries 0 m.shards

/-! ## Text -/

instance : Recorded Entry where
  toJson e := .record [("index", .nat e.index), ("is_parity", .bool e.isParity), ("size", .nat e.size),
    ("sha256", .str e.sha256)]
  ofJson? j := do
    let m ← Members.of? ["index", "is_parity", "size", "sha256"] j
    return ⟨← m.required "index" Json.size?, ← m.required "is_parity" Json.bool?, ← m.required "size" Json.size?,
      ← m.required "sha256" Json.text?⟩

def fields : List String :=
  ["version", "file_name", "erasure", "stream", "original_size", "shard_size", "created_at", "shards"]

instance : Recorded Manifest where
  toJson m :=
    let name := match m.fileName with
      | none => []
      | some s => [("file_name", Json.str s)]
    .record ([("version", .nat m.version)] ++ name ++
      [("erasure", toJson m.scheme), ("stream", toJson m.stream), ("original_size", .nat m.dataSize),
        ("shard_size", .nat m.shardSize), ("created_at", .ofInstant m.createdAt),
        ("shards", .array (m.shards.map toJson))])
  ofJson? j := do
    let m ← Members.of? fields j
    return {
      version := ← m.required "version" (Json.word? (Nat.pow 2 32))
      fileName := ← m.withDefault "file_name" none (Json.nullable? Json.text?)
      scheme := ← m.required "erasure" ofJson?
      stream := ← m.required "stream" ofJson?
      dataSize := ← m.required "original_size" Json.size?
      shardSize := ← m.required "shard_size" Json.size?
      createdAt := ← m.required "created_at" Json.instant?
      shards := ← m.required "shards" (Json.list? ofJson?) }

def toText (m : Manifest) : String := (toJson m).pretty

/-- A manifest that can be read and whose parts fit together. -/
def ofText (s : String) : Except CodingError Manifest := do
  match (Json.parse? s).bind ofJson? with
  | none => throw (.manifest .malformed)
  | some m => (m : Manifest).check; return m

end Manifest

end ShardCoding

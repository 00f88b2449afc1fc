import ShardCoding.Code.Decode

/-!
# Checking and rebuilding parity

Both take the data shards as true.

* `Code.verify` : which stored parity shards differ from the ones recomputed;
* `Code.repair` : the slots with every parity shard that is not listed as present computed anew.
-/

namespace ShardCoding

structure Verification where
  valid : Bool
  /-- Parity indices whose bytes differ from the recomputed ones, ascending. -/
  corruptedIndices : List Nat
  deriving DecidableEq, Repr

structure Repair where
  slots : Slots
  /-- The parity indices that were rebuilt, ascending. -/
  repairedIndices : List Nat
  bytesRepaired : Nat
  deriving DecidableEq, Repr

namespace Code

variable (code : Code)

/-- The parity indices among the shards of a full set that do not fit its data shards. -/
def mismatches (size : Nat) (shards : List Bytes) : List Nat :=
  let k := code.scheme.data
  ((List.range code.scheme.parity).filter fun p =>
    some (code.parityShard p size (shards.take k)) ≠ shards[k + p]?).map (k + ·)

/-- All shards have to be there and of the length of the first. -/
def fullSet (slots : Slots) : Except CodingError (List Bytes) := do
  code.checkSlotCount slots
  let available := (slots.filter Option.isSome).length
  if available < code.scheme.total then
    throw (.insufficientShards available code.scheme.total)
  let size := ((slots.findSome? id).getD []).length
  (List.range code.scheme.total).mapM (presentShard slots size)

def verify (slots : Slots) : Traced Verification :=
  Traced.guarded .shared do
    let shards ← Traced.ofExcept (code.fullSet slots)
    let corrupted := code.mismatches (shards.headD []).length shards
    unless corrupted.isEmpty do
      Traced.emit (.count .parityMismatches corrupted.length)
    Traced.emit (.time .verify)
    return ⟨corrupted.isEmpty, corrupted⟩

/-- The parity indices that are not listed. -/
def unlisted (present : List Nat) : List Nat :=
  ((List.range code.scheme.parity).map (code.scheme.data + ·)).filter (· ∉ present)

/-- The slots and the rebuilt indices, by the checks that come before them. -/
def repairShards (slots : Slots) (present : List Nat) (dataSize shardSize : Nat) :
    Except CodingError (Slots × List Nat) := do
  let k := code.scheme.data
  let n := code.scheme.total
  code.checkSlotCount slots
  code.checkCapacity dataSize shardSize
  if let some i := present.find? (n ≤ ·) then
    throw (.shardIndex i (n - 1))
  let dataPresent := ((List.range k).filter (· ∈ present)).length
  if dataPresent < k then
    throw (.insufficientShards dataPresent k)
  for i in present.filter (k ≤ ·) do
    let _ ← presentShard slots shardSize i
  let data ← (List.range k).mapM (presentShard slots shardSize)
  let missing := code.unlisted present
  return (missing.foldl (fun s i => s.set i (some (code.parityShard (i - k) shardSize data))) slots, missing)

def repair (slots : Slots) (present : List Nat) (dataSize shardSize : Nat) : Traced Repair := do
  let repair ← Traced.guarded .exclusive do
    let (rebuilt, missing) ← Traced.ofExcept (code.repairShards slots present dataSize shardSize)
    let bytes := missing.length * shardSize
    Traced.emit (.count .repairs 1)
    Traced.emit (.count .bytesRepaired bytes)
    Traced.emit (.time .repair)
    return ⟨rebuilt, missing, bytes⟩
  unless repair.repairedIndices.isEmpty do
    Traced.emit (.announce (.repair ⟨repair.repairedIndices, shardSize⟩))
  return repair

end Code

end ShardCoding

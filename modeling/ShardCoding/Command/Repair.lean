import ShardCoding.Code.Maintenance
import ShardCoding.Command.Shards
import ShardCoding.Decimal.Text

/-!
# Repairing files

Rebuilds the parity shard files that do not fit the manifest, from data shard files that all do.
-/

namespace ShardCoding

structure RepairReport where
  /-- The indices of the files that were written, ascending. -/
  repaired : List Nat
  bytes : Nat

/-- Write a rebuilt shard, provided that it has the digest of the manifest. -/
def writeRebuilt {m : Type → Type} [Monad m] [FileSystem m] (layout : Layout) (manifest : Manifest) (slots : Slots)
    (index : Nat) : Command m Unit := do
  let content ← Command.ofExcept id ((slots[index]?.getD none).elim (.error (.notRebuilt index)) .ok)
  if ← Command.ofExcept .coding (manifest.verifyShard index content) then
    let path := layout.shardPath index
    Command.file .write path (FileSystem.writeFile path content)
  else throw (.wrongRebuilt index)

/-- Counts whose sum wraps are more data shards than there are states to look up. -/
def repairFiles {m : Type → Type} [Monad m] [FileSystem m] (manifestPath : Path) : Command m RepairReport := do
  let layout ← Command.ofExcept .layout (Layout.ofManifestPath manifestPath)
  let manifest ← loadManifest layout
  let states ← inspectShards layout manifest
  if states.length < manifest.scheme.data then throw (.coding (.panicked .indexOutOfBounds))
  let damaged := (List.range manifest.scheme.data).filter fun i => states[i]? ≠ some .valid
  unless damaged.isEmpty do throw (.damagedData damaged)
  let slots ← readShards layout states (· = .valid)
  let code ← Command.ofExcept .coding (Code.ofScheme manifest.scheme)
  let repair ← Command.ofExcept .repair
    (code.repair slots (usableShards states) manifest.dataSize manifest.shardSize).result
  repair.repairedIndices.forM (writeRebuilt layout manifest repair.slots)
  return ⟨repair.repairedIndices, repair.bytesRepaired⟩

/-- What was done, and in what time. -/
def RepairReport.text (r : RepairReport) (elapsed : String) : String :=
  if r.repaired.isEmpty then s!"{checkMark} All parity shards intact\n"
  else s!"{checkMark} Rebuilt parity shard(s) {listText r.repaired} ({byteCountText r.bytes}) in {elapsed}\n"

end ShardCoding

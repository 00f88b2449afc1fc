import ShardCoding.Command.Basic
import ShardCoding.Manifest

/-!
# The files of an encoded input

* `loadManifest`, `saveManifest` : the manifest file of a layout;
* `ShardState`, `inspectShards` : how each shard file stands to the manifest;
* `usableShards` : the indices of the shard files that fit it;
* `readShards` : the content of the shard files in chosen states.
-/

namespace ShardCoding

inductive ShardState where
  | valid
  /-- There, but with other bytes than the manifest tells of. -/
  | corrupt
  | missing
  deriving DecidableEq, Repr

def ShardState.text : ShardState → String
  | valid => "ok"
  | corrupt => "corrupt"
  | missing => "missing"

/-- Whether a shard file with these bytes fits the manifest. -/
def Manifest.stateOf (manifest : Manifest) (digest : Digest) (content : Bytes) : ShardState :=
  if content.length = manifest.shardSize ∧ sha256 content = digest then .valid else .corrupt

/-- The indices of the shards that are there and fit the manifest, ascending. -/
def usableShards (states : List ShardState) : List Nat :=
  (List.range states.length).filter fun i => states[i]? = some .valid

variable {m : Type → Type} [Monad m] [FileSystem m]

/-! ## Manifests -/

/-- A manifest from the bytes of its file. -/
def decodeManifest (path : Path) (content : Bytes) : Except CommandError Manifest :=
  match String.fromUTF8? (ByteArray.mk content.toArray) with
  | none => .error (.file .readManifest path .invalidData)
  | some text => (Manifest.ofText text).mapError (.invalidManifest path)

def loadManifest (layout : Layout) : Command m Manifest := do
  let path := layout.manifestPath
  let content ← Command.file .readManifest path (FileSystem.readFile path)
  Command.ofExcept id (decodeManifest path content)

def saveManifest (layout : Layout) (manifest : Manifest) : Command m Unit :=
  let path := layout.manifestPath
  Command.file .writeManifest path (FileSystem.writeFile path manifest.toText.toUTF8.toList)

/-! ## Shard files -/

def inspectShard (layout : Layout) (manifest : Manifest) (index : Nat) : Command m ShardState := do
  let path := layout.shardPath index
  if ← (FileSystem.isPresent path : m Bool) then
    Command.file .openFile path (FileSystem.openFile path)
    let content ← Command.file .read path (FileSystem.readFile path)
    let digest ← Command.ofExcept .coding (manifest.digest index)
    return manifest.stateOf digest content
  else return .missing

/-- The state of each shard file, in the order of the indices. -/
def inspectShards (layout : Layout) (manifest : Manifest) : Command m (List ShardState) :=
  (List.range manifest.shards.length).mapM (inspectShard layout manifest)

/-- A slot for each shard, filled where `keep` says so. -/
def readShards (layout : Layout) (states : List ShardState) (keep : ShardState → Bool) : Command m Slots :=
  states.zipIdx.mapM fun (state, index) => do
    if keep state then
      let path := layout.shardPath index
      return some (← Command.file .read path (FileSystem.readFile path))
    else return none

end ShardCoding

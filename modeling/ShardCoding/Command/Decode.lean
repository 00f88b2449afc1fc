import ShardCoding.Command.Shards
import ShardCoding.Decimal.Text
import ShardCoding.Stream.Decode

/-!
# Decoding to a file

Restores an encoded input from the shard files that still fit its manifest.
-/

namespace ShardCoding

structure DecodeRequest where
  manifest : Path
  output : Path

structure DecodeReport where
  output : Path
  written : Nat
  /-- How many shard files are missing or corrupt. -/
  lost : Nat
  /-- The indices of the shards that were read. -/
  read : List Nat

/-- The output is emptied once all shards are open, and gets all that is restored before a failure. -/
def decodeFile {m : Type → Type} [Monad m] [FileSystem m] (r : DecodeRequest) : Command m DecodeReport := do
  let layout ← Command.ofExcept .layout (Layout.ofManifestPath r.manifest)
  let manifest ← loadManifest layout
  let states ← inspectShards layout manifest
  let present := usableShards states
  let k := manifest.scheme.data
  if present.length < k then throw (.tooFewShards present.length states.length k)
  let code ← Command.ofExcept .coding (Code.ofScheme manifest.scheme)
  present.forM fun i => Command.file .openFile (layout.shardPath i) (FileSystem.openFile (layout.shardPath i))
  Command.file .create r.output (FileSystem.writeFile r.output [])
  let sources ← present.mapM fun i => Source.ofRead <$> (FileSystem.readFile (layout.shardPath i) : m _)
  let run := code.decodeStream sources present manifest.dataSize {} manifest.stream
  Command.fileOr (fun kind => .decoding (.io kind)) (FileSystem.writeFile r.output run.sink.content)
  let written ← Command.ofExcept .decoding run.outcome.result
  return { output := r.output, written, lost := states.length - present.length, read := present.take k }

def DecodeReport.text (r : DecodeReport) : String :=
  s!"{checkMark} Restored {byteCountText r.written} to {r.output.text}\n" ++
    if r.lost = 0 then ""
    else s!"  {warnMark} {r.lost} shard(s) unavailable; reconstructed from shards {listText r.read}\n"

end ShardCoding

import ShardCoding.Command.Shards
import ShardCoding.Decimal.Text

/-!
# Encoding a file

Makes the shard files of an input and, once they are complete, its manifest.
-/

namespace ShardCoding

structure EncodeRequest where
  input : Path
  outDir : Path
  scheme : Scheme
  stream : StreamOptions

structure EncodeReport where
  name : String
  layout : Layout
  manifest : Manifest
  summary : StreamSummary

/-- An input that ends in a name is encoded into files that are emptied first and get all that comes through before a
failure. -/
def encodeFile {m : Type → Type} [Monad m] [FileSystem m] (now : Instant) (r : EncodeRequest) :
    Command m EncodeReport := do
  let name ← Command.ofExcept id (r.input.fileName?.elim (.error .noInputName) .ok)
  Command.file .openFile r.input (FileSystem.openFile r.input)
  Command.file .create r.outDir (makeDirectories r.outDir)
  let layout : Layout := ⟨r.outDir, name⟩
  let code ← Command.ofExcept .coding (Code.ofScheme r.scheme)
  let paths := (List.range r.scheme.total).map layout.shardPath
  paths.forM fun path => Command.file .create path (FileSystem.writeFile path [])
  let source ← Source.ofRead <$> (FileSystem.readFile r.input : m _)
  let run := code.encodeStream source (paths.map fun _ => {}) r.stream
  (paths.zip run.sinks).forM fun (path, sink) =>
    Command.fileOr (fun kind => .encoding (.io kind)) (FileSystem.writeFile path sink.content)
  let summary ← Command.ofExcept .encoding run.outcome.result
  let manifest := { Manifest.ofStream r.scheme r.stream summary now with fileName := some name }
  saveManifest layout manifest
  return { name, layout, manifest, summary }

def EncodeReport.text (r : EncodeReport) : String :=
  let s := r.manifest.scheme
  s!"{checkMark} Encoded {r.name} ({byteCountText r.summary.totalBytes}) into {s.total} shards of " ++
    s!"{byteCountText r.summary.shardBytes}\n" ++
    s!"  Layout:    {s.data} data + {s.parity} parity ({r.summary.chunks} chunks)\n" ++
    s!"  Manifest:  {r.layout.manifestPath.text}\n"

end ShardCoding

import ShardCoding.Program
import Std.Time.DateTime.Timestamp

/-!
# The command line

Runs the program on the files, the environment and the clock of the machine.
-/

namespace ShardCoding

/-- A directory in place of a file, and the other way round, differ in the code of the operating system only; so do a
name that is too long and a text that is no path. -/
def IoKind.ofError : IO.Error → IoKind
  | .noFileOrDirectory .. => .notFound
  | .alreadyExists .. => .alreadyExists
  | .inappropriateType _ code _ => if code = 21 then .isADirectory else .notADirectory
  | .permissionDenied .. => .permissionDenied
  | .invalidArgument _ code _ => if code = 36 then .invalidFilename else .invalidInput
  | .interrupted .. => .interrupted
  | .unexpectedEof => .unexpectedEof
  | .resourceVanished .. => .brokenPipe
  | _ => .other

def caught {α : Type} (x : IO α) : IO (Except IoKind α) := do
  try
    return .ok (← x)
  catch e => return .error (.ofError e)

def openForReading (p : Path) : IO (Except IoKind Unit) :=
  caught do discard (IO.FS.Handle.mk p.text .read)

instance : FileSystem IO where
  isPresent p := do
    match ← openForReading p with
    | .ok () => return true
    | .error kind => return kind ∉ [.notFound, .notADirectory, .invalidFilename, .invalidInput]
  openFile := openForReading
  readFile p := caught do return (← IO.FS.readBinFile p.text).data.toList
  writeFile p content := caught (IO.FS.writeBinFile p.text (ByteArray.mk content.toArray))
  isDirectory p := return (← caught do (← IO.FS.Handle.mk p.text .read).read 1) matches .error .isADirectory
  makeDirectory p := caught (IO.FS.createDir p.text)

def currentTime : IO Instant := do
  let d := (← Std.Time.Timestamp.now).toDurationSinceUnixEpoch
  return .ofUnixTime d.second.val d.nano.val.toNat

def readEnvironment : IO Environment := do
  return {
    dataShards := ← IO.getEnv "ERASURE_DATA_SHARDS"
    parityShards := ← IO.getEnv "ERASURE_PARITY_SHARDS"
    configFile := ← IO.getEnv "SUPERNODE_CONFIG" }

/-- Answer an invocation, and yield the exit code. -/
def serve (e : Environment) (i : Invocation) : IO UInt32 := do
  let start ← IO.monoNanosNow
  match ← (i.run (← currentTime) e : Command IO Reply).run with
  | .ok reply =>
    let stop ← IO.monoNanosNow
    IO.print (reply.text (durationText (stop - start)))
    return reply.exitCode.toUInt32
  | .error failure =>
    IO.eprint failure.report
    return failure.exitCode.toUInt32

end ShardCoding

open ShardCoding in
def main (args : List String) : IO UInt32 := do
  let e ← readEnvironment
  match Invocation.read e args with
  | .ok i => serve e i
  | .error .version => IO.print versionText; return 0
  | .error .help => IO.print usageText; return 0
  | .error .misuse => IO.eprint usageText; return 2

import ShardCoding.Layout
import ShardCoding.Error

/-!
# Why a command fails

* `CommandError` : the failures of the commands;
* `Cause`, `CommandError.causes` : what is told of a failure, from what was tried down to the reason;
* `CommandError.panic?` : the panic in place of a failure;
* `CommandError.report`, `CommandError.exitCode` : how a program tells of it that ends.
-/

namespace ShardCoding

/-- What was tried with a file. -/
inductive FileAction where
  | openFile
  | create
  | read
  | write
  | readManifest
  | writeManifest
  | readSettings
  | writeSettings
  deriving DecidableEq, Repr

def FileAction.text : FileAction → String
  | openFile => "open"
  | create => "create"
  | read => "read"
  | write => "write"
  | readManifest => "read manifest"
  | writeManifest => "write manifest"
  | readSettings => "read config file"
  | writeSettings => "write config file"

inductive CommandError where
  /-- A refusal of the coding engine. -/
  | coding (e : CodingError)
  | layout (fault : LayoutFault)
  /-- An input whose path ends in no name. -/
  | noInputName
  | file (action : FileAction) (path : Path) (kind : IoKind)
  | invalidManifest (path : Path) (e : CodingError)
  | encoding (e : CodingError)
  | decoding (e : CodingError)
  | repair (e : CodingError)
  | tooFewShards (usable total required : Nat)
  | damagedData (indices : List Nat)
  | notRebuilt (index : Nat)
  | wrongRebuilt (index : Nat)
  | malformedSettings (path : Path)
  | invalidStream (e : CodingError)
  | invalidScheme (e : CodingError)
  /-- Settings with a number that the file format has no room for. -/
  | unwritableSettings
  deriving DecidableEq, Repr

/-- One line of what is told of a failure. -/
inductive Cause where
  | note (text : String)
  | coding (e : CodingError)
  | io (kind : IoKind)
  /-- What a settings text breaks of its format. -/
  | format
  deriving DecidableEq, Repr

/-- Numbers in brackets. -/
def listText (ns : List Nat) : String := "[" ++ ", ".intercalate (ns.map toString) ++ "]"

/-- A refusal, and the failure of an endpoint behind it, if any. -/
def CodingError.causes (e : CodingError) : List Cause :=
  match e with
  | io kind => [.coding e, .io kind]
  | _ => [.coding e]

namespace CommandError

/-- What the coding engine answered, if the failure comes from there. -/
def coding? : CommandError → Option CodingError
  | coding e | invalidManifest _ e | encoding e | decoding e | repair e | invalidStream e | invalidScheme e => some e
  | _ => none

def panic? (e : CommandError) : Option Panic := e.coding?.bind CodingError.panic?

def causes : CommandError → List Cause
  | coding e => e.causes
  | layout f => [.note f.message]
  | noInputName => [.note "Input path has no file name"]
  | file action path kind => [.note s!"Failed to {action.text} {path.text}", .io kind]
  | invalidManifest path e => .note s!"Invalid manifest {path.text}" :: e.causes
  | encoding e => .note "Encoding failed" :: e.causes
  | decoding e => .note "Decoding failed" :: e.causes
  | repair e => .note "Repair failed" :: e.causes
  | tooFewShards usable total required =>
    [.note s!"Only {usable} of {total} shards are usable; at least {required} are required"]
  | damagedData indices =>
    [.note s!"Data shard(s) {listText indices} are damaged; decode and re-encode the file instead"]
  | notRebuilt index => [.note s!"Shard {index} was not rebuilt"]
  | wrongRebuilt index => [.note s!"Rebuilt shard {index} does not match the manifest digest"]
  | malformedSettings path => [.note s!"Failed to parse config file {path.text}", .format]
  | invalidStream e => .note "Invalid [stream] section" :: e.causes
  | invalidScheme e => .note "Invalid erasure configuration" :: e.causes
  | unwritableSettings => [.note "Failed to serialize config", .format]

end CommandError

def Cause.message : Cause → String
  | note text => text
  | coding e => e.message
  | io kind => kind.name
  | format => "not a settings file"

/-- The first cause, and those behind it, numbered if there are several; of a panic the cause alone. -/
def CommandError.report (e : CommandError) : String :=
  match e.panic?, e.causes.map Cause.message with
  | some cause, _ => s!"thread 'main' panicked:\n{cause.message}\n"
  | none, [] => "Error"
  | none, [m] => s!"Error: {m}\n"
  | none, [m, why] => s!"Error: {m}\n\nCaused by:\n    {why}\n"
  | none, m :: whys =>
    s!"Error: {m}\n\nCaused by:\n" ++ String.join (whys.zipIdx.map fun (why, i) => s!"    {i}: {why}\n")

/-- A panic aborts the program: the code is the one that a shell gives for this signal. -/
def CommandError.exitCode (e : CommandError) : Nat := if e.panic?.isSome then 134 else 1

end ShardCoding

import ShardCoding.Command.Basic
import ShardCoding.Settings.Basic

/-!
# The settings file

* `Settings.ofBytes` : settings from the bytes of a file;
* `loadSettings`, `saveSettings` : the file at a path; one that is not there stands for the standard settings.
-/

namespace ShardCoding

namespace Settings

/-- The shard counts with those given elsewhere in their place. -/
def resolve (s : Settings) (data parity : Option Nat) : Except CommandError Scheme :=
  let scheme : Scheme := ⟨data.getD s.scheme.data, parity.getD s.scheme.parity⟩
  match scheme.check with
  | .ok () => .ok scheme
  | .error e => .error (.invalidScheme e)

/-- Settings whose chunking is valid. -/
def ofBytes (e : Environment) (path : Path) (content : Bytes) : Except CommandError Settings := do
  let some text := String.fromUTF8? (ByteArray.mk content.toArray) | throw (.file .readSettings path .invalidData)
  let some settings := (Toml.parse? text).bind (ofToml? e) | throw (.malformedSettings path)
  settings.stream.check.mapError .invalidStream
  return settings

end Settings

variable {m : Type → Type} [Monad m] [FileSystem m]

def loadSettings (e : Environment) (path : Path) : Command m Settings := do
  if ← (FileSystem.isPresent path : m Bool) then
    let content ← Command.file .readSettings path (FileSystem.readFile path)
    Command.ofExcept id (Settings.ofBytes e path content)
  else return .standard e

def saveSettings (path : Path) (s : Settings) : Command m Unit := do
  let text ← Command.ofExcept id (s.toText?.elim (.error .unwritableSettings) .ok)
  Command.file .writeSettings path (FileSystem.writeFile path text.toUTF8.toList)

end ShardCoding

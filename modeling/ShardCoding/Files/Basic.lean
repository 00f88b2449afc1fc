import ShardCoding.Error
import ShardCoding.GF256
import ShardCoding.Path
import ShardCoding.Stream.Endpoint

/-!
# Operations on files

* `FileSystem m` : what the commands need of the files that programs in `m` work on;
* `makeDirectories` : a directory with those above it;
* `Source.ofRead` : a file as a source of bytes.
-/

namespace ShardCoding

class FileSystem (m : Type → Type) where
  /-- Whether a path leads to a file or a directory. -/
  isPresent : Path → m Bool
  /-- A directory may be opened too; only reading it fails. -/
  openFile : Path → m (Except IoKind Unit)
  readFile : Path → m (Except IoKind Bytes)
  /-- Make the file, or replace what is in it. -/
  writeFile : Path → Bytes → m (Except IoKind Unit)
  isDirectory : Path → m Bool
  /-- Make one directory, in a directory that is there. -/
  makeDirectory : Path → m (Except IoKind Unit)

section

variable {m : Type → Type} [Monad m] [FileSystem m]

/-- Make a directory unless it is there. -/
def ensureDirectory (p : Path) : m (Except IoKind Unit) := do
  match ← FileSystem.makeDirectory p with
  | .ok () => return .ok ()
  | .error kind => if ← FileSystem.isDirectory p then return .ok () else return .error kind

/-- Make a directory, after those above it where they are not there; at most `depth` directories in all. -/
def makeDirectoriesWithin : (depth : Nat) → Path → m (Except IoKind Unit)
  | 0, _ => return .ok ()
  | depth + 1, p => do
    if p.text.isEmpty then return .ok ()
    match ← ensureDirectory p with
    | .error .notFound =>
      match ← makeDirectoriesWithin depth p.parent with
      | .ok () => ensureDirectory p
      | .error kind => return .error kind
    | r => return r

/-- A path without names leads to a directory that is there. -/
def makeDirectories (p : Path) : m (Except IoKind Unit) := makeDirectoriesWithin (p.names.length + 1) p

end

/-- What reading a file gives, as a source; a file that cannot be read fails at its first byte. -/
def Source.ofRead : Except IoKind Bytes → Source
  | .ok bytes => { rest := bytes }
  | .error kind => { rest := [], pacing := { turn := fun _ _ => .fails kind } }

end ShardCoding

import ShardCoding.Path

/-!
# Where the files of an encoded input are

The manifest of an input named `base` is `base.manifest.json`, and its shard `i` is `base.i.shard` in the same
directory, with at least three digits for `i`.

* `Layout` : the directory and the base name; `manifestPath`, `shardPath` : the paths;
* `Layout.ofManifestPath` : the layout that a manifest belongs to.
-/

namespace ShardCoding

/-- Why a path is not the path of a manifest. -/
inductive LayoutFault where
  | noFileName
  | noManifestName
  deriving DecidableEq, Repr

def manifestSuffix : String := ".manifest.json"

def LayoutFault.message : LayoutFault → String
  | noFileName => "Manifest path has no file name"
  | noManifestName => s!"Manifest file name must end with {manifestSuffix}"

structure Layout where
  dir : Path
  base : String
  deriving DecidableEq, Repr

/-- The text in front of `suffix`. -/
def stripEnd? (suffix s : String) : Option String :=
  let cs := s.toList
  let n := cs.length - suffix.toList.length
  if cs.drop n = suffix.toList then some (String.ofList (cs.take n)) else none

namespace Layout

/-- At least three digits. -/
def indexText (i : Nat) : String :=
  let ds := Nat.toDigits 10 i
  String.ofList (List.replicate (3 - ds.length) '0' ++ ds)

def manifestPath (l : Layout) : Path := l.dir.append (l.base ++ manifestSuffix)

def shardPath (l : Layout) (i : Nat) : Path := l.dir.append s!"{l.base}.{indexText i}.shard"

def ofManifestPath (p : Path) : Except LayoutFault Layout :=
  match p.fileName? with
  | none => .error .noFileName
  | some name =>
    match stripEnd? manifestSuffix name with
    | none => .error .noManifestName
    | some base => .ok ⟨p.parent, base⟩

end Layout

end ShardCoding

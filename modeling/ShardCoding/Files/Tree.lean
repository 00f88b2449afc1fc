import ShardCoding.Files.Basic

/-!
# Files in memory

A tree of directories and files below a working directory. The root and the directories above the working directory are
there, and nothing else is known of them. Links are left out, symbolic ones and second names of a file alike, so distinct
places hold distinct files: a change to one of them leaves what the others hold as it is.

* `FileTree` : files and directories by the names that lead to them;
* `FileTree.walk`, `FileTree.locate`, `FileTree.find` : where a path leads;
* `FileTree.write`, `makeDirectory`, `remove`, `rename` : changes;
* programs in `StateM FileTree` work on such a tree.
-/

namespace ShardCoding

/-- The names that lead from the working directory to a file; in front of them two dots for each directory up, or a
slash for the root. -/
abbrev Location := List (List Char)

namespace Location

/-- The root, or the working directory or one above it. -/
def isBase (l : Location) : Bool := l = [['/']] || l.all (· = ['.', '.'])

/-- One name further; a dot stays, two dots lead up. -/
def step (l : Location) (name : List Char) : Location :=
  if name = ['.'] ∨ (name = ['.', '.'] ∧ l = [['/']]) then l
  else if name = ['.', '.'] ∧ ¬ l.isBase then l.dropLast
  else l ++ [name]

/-- Where the names of a path start. -/
def ofAnchor : Anchor → Location
  | .root => [['/']]
  | .implicit | .dot => []

/-- Whether a place is below the working directory. -/
def isInside (l : Location) : Bool := !isBase (l.take 1)

end Location

/-- The most bytes that a name may have. -/
def nameLimit : Nat := 255

/-- The most bytes that a path may have. -/
def pathLimit : Nat := 4095

inductive FileNode where
  | file (content : Bytes)
  | directory
  deriving DecidableEq, Repr

structure FileTree where
  nodes : List (Location × FileNode) := []
  deriving Repr

namespace FileTree

def get? (t : FileTree) (l : Location) : Option FileNode :=
  if l.isBase then some .directory else t.nodes.lookup l

def put (t : FileTree) (l : Location) (n : FileNode) : FileTree :=
  ⟨(l, n) :: t.nodes.filter (·.1 ≠ l)⟩

/-- Where names lead from a place, through directories that are there. -/
def walk (t : FileTree) (l : Location) : List (List Char) → Except IoKind Location
  | [] => .ok l
  | name :: names =>
    match t.get? l with
    | some .directory =>
      if nameLimit < (String.ofList name).utf8ByteSize then .error .invalidFilename else walk t (l.step name) names
    | some (.file _) => .error .notADirectory
    | none => .error .notFound

/-- Where a path leads, whether there is something or not. -/
def locate (t : FileTree) (p : Path) : Except IoKind Location :=
  if '\x00' ∈ p.text.toList then .error .invalidInput
  else if p.text.isEmpty then .error .notFound
  else if pathLimit < p.text.utf8ByteSize then .error .invalidFilename
  else t.walk (.ofAnchor p.anchor) p.steps

def find (t : FileTree) (p : Path) : Except IoKind FileNode :=
  match t.locate p with
  | .error kind => .error kind
  | .ok l =>
    match t.get? l with
    | none => .error .notFound
    | some (.file b) => if p.endsInSlash then .error .notADirectory else .ok (.file b)
    | some .directory => .ok .directory

def read (t : FileTree) (p : Path) : Except IoKind Bytes :=
  match t.find p with
  | .error kind => .error kind
  | .ok .directory => .error .isADirectory
  | .ok (.file b) => .ok b

def write (t : FileTree) (p : Path) (content : Bytes) : Except IoKind FileTree :=
  match t.locate p with
  | .error kind => .error kind
  | .ok l =>
    if p.endsInSlash ∨ t.get? l = some .directory then .error .isADirectory
    else .ok (t.put l (.file content))

def makeDirectory (t : FileTree) (p : Path) : Except IoKind FileTree :=
  match t.locate p with
  | .error kind => .error kind
  | .ok l => if (t.get? l).isSome then .error .alreadyExists else .ok (t.put l .directory)

/-- Take away what a path leads to, with all that is below it. -/
def remove (t : FileTree) (p : Path) : FileTree :=
  match t.locate p with
  | .ok l => ⟨t.nodes.filter fun (k, _) => !l.isPrefixOf k⟩
  | .error _ => t

/-- Move what `p` leads to, with all that is below it, to `q`. -/
def rename (t : FileTree) (p q : Path) : FileTree :=
  match t.locate p, t.locate q with
  | .ok l, .ok l' =>
    let (moved, others) := t.nodes.partition fun (k, _) => l.isPrefixOf k
    if moved.isEmpty then t
    else ⟨moved.map (fun (k, n) => (l' ++ k.drop l.length, n)) ++ others.filter fun (k, _) => !l'.isPrefixOf k⟩
  | _, _ => t

/-- The text of a location. -/
def locationText (l : Location) : String := String.ofList (joinSegments l)

/-- All files below the working directory with their content, in the order of their paths. -/
def files (t : FileTree) : List (String × Bytes) :=
  let found := t.nodes.filterMap fun
    | (l, .file b) => if l.isInside then some (locationText l, b) else none
    | (_, .directory) => none
  found.mergeSort fun a b => !(b.1 < a.1)

end FileTree

/-- A change that may fail, which then leaves the tree as it is. -/
def changeFiles (change : FileTree → Except IoKind FileTree) : StateM FileTree (Except IoKind Unit) := fun t =>
  match change t with
  | .ok t' => (.ok (), t')
  | .error kind => (.error kind, t)

instance : FileSystem (StateM FileTree) where
  isPresent p := return (← get).find p |>.isOk
  openFile p := return (← get).find p |>.map fun _ => ()
  readFile p := return (← get).read p
  writeFile p content := changeFiles (·.write p content)
  isDirectory p := return (← get).find p matches .ok .directory
  makeDirectory p := changeFiles (·.makeDirectory p)

end ShardCoding

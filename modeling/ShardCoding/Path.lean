/-!
# Paths

A path is a text; slashes part it into names. Empty segments and single dots name nothing, apart from a dot in front
and from the slash of an absolute path, which its anchor keeps. Paths whose bytes are no text in UTF-8 are left out.

* `segments`, `joinSegments` : the text between the slashes, and back;
* `Path.anchor`, `Path.names` : what a path means; `Path.steps` : its names with the dots among them;
* `Path.fileName?`, `Path.parent`, `Path.append` : taking off the last name, and putting a name behind a path.
-/

namespace ShardCoding

/-! ## Segments -/

/-- The text up to the first slash, and the segments behind it. -/
def cutSegment : List Char → List Char × List (List Char)
  | [] => ([], [])
  | c :: cs =>
    let (s, ss) := cutSegment cs
    if c = '/' then ([], s :: ss) else (c :: s, ss)

/-- The text between the slashes; a text without any is one segment. -/
def segments (cs : List Char) : List (List Char) := (cutSegment cs).1 :: (cutSegment cs).2

/-- Segments with slashes between them. -/
def joinSegments : List (List Char) → List Char
  | [] => []
  | [s] => s
  | s :: ss => s ++ '/' :: joinSegments ss

theorem joinSegments_segments (cs : List Char) : joinSegments (segments cs) = cs := by
  induction cs with
  | nil => rfl
  | cons c cs ih =>
    unfold segments at ih
    by_cases hc : c = '/'
    · subst hc
      simp only [segments, cutSegment, if_true, joinSegments, List.nil_append]
      rw [ih]
    · simp only [segments, cutSegment, if_neg hc]
      cases h : (cutSegment cs).2 with
      | nil => simp_all [joinSegments]
      | cons s ss => simp_all [joinSegments]

/-- A segment that names nothing. -/
def isFiller (s : List Char) : Bool := s.isEmpty || s = ['.']

/-- The segments up to the last that names something. -/
def trimFillers (ss : List (List Char)) : List (List Char) := (ss.reverse.dropWhile isFiller).reverse

/-! ## Paths -/

structure Path where
  text : String
  deriving DecidableEq, Repr

/-- Where the names of a path start. -/
inductive Anchor where
  /-- From the working directory. -/
  | implicit
  /-- From the working directory, said with a dot. -/
  | dot
  | root
  deriving DecidableEq, Repr

namespace Path

def ofChars (cs : List Char) : Path := ⟨String.ofList cs⟩

/-- The anchor, and the segments that follow it. -/
def split (p : Path) : Anchor × List (List Char) :=
  match segments p.text.toList with
  | [] :: s :: ss => (.root, s :: ss)
  | ['.'] :: ss => (.dot, ss)
  | ss => (.implicit, ss)

def anchor (p : Path) : Anchor := p.split.1

def names (p : Path) : List (List Char) := p.split.2.filter fun s => !isFiller s

/-- The segments that are not empty. One behind another may be reached only if that one is a directory, a dot too. -/
def steps (p : Path) : List (List Char) := p.split.2.filter fun s => !s.isEmpty

/-- The text of an anchor with segments behind it. -/
def ofSegments (a : Anchor) (ss : List (List Char)) : Path :=
  match a, ss with
  | .root, ss => ofChars ('/' :: joinSegments ss)
  | .dot, [] => ofChars ['.']
  | .dot, ss => ofChars ('.' :: '/' :: joinSegments ss)
  | .implicit, ss => ofChars (joinSegments ss)

/-- The last name, unless it stands for the directory above. -/
def fileName? (p : Path) : Option String :=
  match p.names.getLast? with
  | none => none
  | some s => if s = ['.', '.'] then none else some (String.ofList s)

/-- The path without its last name and what follows that. -/
def parent (p : Path) : Path :=
  let (a, ss) := p.split
  ofSegments a (trimFillers (trimFillers ss).dropLast)

/-- The path of `name` below the path `p`. -/
def append (p : Path) (name : String) : Path :=
  match p.text.toList.getLast? with
  | none => ⟨name⟩
  | some c => if c = '/' then ⟨p.text ++ name⟩ else ⟨p.text ++ "/" ++ name⟩

/-- Whether there is a slash at the end, as only behind a directory. -/
def endsInSlash (p : Path) : Bool := p.text.toList.getLast? = some '/'

end Path

end ShardCoding

/-!
# TOML values

* `Toml` : a value; dates are kept without their parts;
* `TomlStatement` : what a line of a document says;
* `addEntry`, `openTable`, `openTables` : its effect on the tables so far, `none` where it would define something twice;
* `TomlDocument.ofStatements?` : the root table of a document.
-/

namespace ShardCoding

/-- How a table was first written, which settles what may be added to it later. -/
inductive TableOrigin where
  /-- Under a header of its own. -/
  | header
  /-- In the middle of a longer header. -/
  | implied
  /-- In the middle of a dotted key. -/
  | dotted
  /-- In braces. -/
  | braces
  deriving DecidableEq, Repr

inductive Toml where
  | string (s : String)
  | integer (n : Int)
  | float (x : Float)
  | bool (b : Bool)
  | date
  | array (items : List Toml)
  | table (origin : TableOrigin) (entries : List (String × Toml))
  /-- The tables under headers in double brackets, latest first. -/
  | tables (latest : List (String × Toml)) (earlier : List (List (String × Toml)))

namespace Toml

abbrev Entries := List (String × Toml)

namespace Entries

def get? (key : String) (es : Entries) : Option Toml := (List.find? (·.1 = key) es).map (·.2)

/-- The entries with `v` at `key`. -/
def put (key : String) (v : Toml) : Entries → Entries
  | [] => [(key, v)]
  | (other, w) :: es => if other = key then (key, v) :: es else (other, w) :: put key v es

/-- Change the table at the end of a path; tables on the way that are not there yet are made. The origin of the table
that the entries belong to comes along. -/
def modify? (dotted : Bool) (change : TableOrigin → Entries → Option Entries) :
    (path : List String) → TableOrigin → Entries → Option Entries
  | [], origin, es => change origin es
  | key :: path, _, es =>
    match es.get? key with
    | none => do
      let made : TableOrigin := if dotted then .dotted else .implied
      let sub ← modify? dotted change path made []
      return es.put key (.table made sub)
    | some (.table origin sub) =>
      if origin = .braces ∨ (dotted ∧ origin = .header) then none
      else do
        let sub ← modify? dotted change path origin sub
        return es.put key (.table origin sub)
    | some (.tables latest earlier) => do
      let latest ← modify? dotted change path .header latest
      return es.put key (.tables latest earlier)
    | some _ => none

/-- Set a key that has no value yet; a table under a dotted key is one that dotted keys have made. -/
def addEntry (path : List String) (key : String) (v : Toml) : TableOrigin → Entries → Option Entries :=
  modify? true
    (fun origin es =>
      if decide (origin = .dotted) = path.isEmpty ∨ (es.get? key).isSome then none else some (es.put key v))
    path

/-- A header in brackets. -/
def openTable (path : List String) (key : String) : Entries → Option Entries :=
  modify? false
    (fun _ es =>
      match es.get? key with
      | none => some (es.put key (.table .header []))
      | some (.table .implied sub) => some (es.put key (.table .header sub))
      | some _ => none)
    path .header

/-- A header in double brackets. -/
def openTables (path : List String) (key : String) : Entries → Option Entries :=
  modify? false
    (fun _ es =>
      match es.get? key with
      | none => some (es.put key (.tables [] []))
      | some (.tables latest earlier) => some (es.put key (.tables [] (latest :: earlier)))
      | some _ => none)
    path .header

end Entries

end Toml

/-! ## Documents -/

inductive TomlStatement where
  | entry (path : List String) (key : String) (v : Toml)
  | header (path : List String) (key : String)
  | headers (path : List String) (key : String)

/-- The tables read so far, and the path of the one that entries go to. -/
structure TomlDocument where
  root : Toml.Entries := []
  current : List String := []

namespace TomlDocument

def step (d : TomlDocument) : TomlStatement → Option TomlDocument
  | .entry path key v =>
    (Toml.Entries.modify? false (Toml.Entries.addEntry path key v) d.current .header d.root).map fun root =>
      { d with root }
  | .header path key => (d.root.openTable path key).map fun root => { root, current := path ++ [key] }
  | .headers path key => (d.root.openTables path key).map fun root => { root, current := path ++ [key] }

def ofStatements? (ss : List TomlStatement) : Option Toml.Entries :=
  (ss.foldlM step {}).map root

end TomlDocument

end ShardCoding

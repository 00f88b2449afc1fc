import ShardCoding.GF256
import ShardCoding.Error

/-!
# Matrices of bytes

* `ByteMatrix` : a list of rows of one length; `rows`, `row`, `get`, `set`;
* `zeros`, `identity`, `generator k m` : the matrices that the code is made of;
* `selectRows` : some rows of a matrix, in a given order;
* `multiply` : the product over `GF256`.
-/

namespace ShardCoding

structure ByteMatrix where
  cols : Nat
  lines : List Bytes
  uniform : ∀ l ∈ lines, l.length = cols
  deriving DecidableEq

namespace ByteMatrix

def rows (m : ByteMatrix) : Nat := m.lines.length

/-- Row `i`, empty past the last row. -/
def row (m : ByteMatrix) (i : Nat) : Bytes := m.lines.getD i []

/-- Entry `(r, c)`; a column past the end of a row runs on into the rows below. -/
def get (m : ByteMatrix) (r c : Nat) : UInt8 :=
  (m.row (r + c / m.cols)).getD (c % m.cols) 0

/-- `m` with the entry that `get m r c` reads replaced by `v`. -/
def set (m : ByteMatrix) (r c : Nat) (v : UInt8) : ByteMatrix where
  cols := m.cols
  lines := m.lines.modify (r + c / m.cols) (·.set (c % m.cols) v)
  uniform l hl := by
    obtain ⟨i, hi, rfl⟩ := List.mem_iff_getElem.1 hl
    have hi' : i < m.lines.length := by simpa using hi
    rw [List.getElem_modify]
    split
    · simpa using m.uniform _ (List.getElem_mem hi')
    · exact m.uniform _ (List.getElem_mem hi')

/-- The matrix whose `(i, j)` entry is `f i j`. -/
def ofFn (rows cols : Nat) (f : Nat → Nat → UInt8) : ByteMatrix where
  cols := cols
  lines := (List.range rows).map fun i => (List.range cols).map (f i)
  uniform l hl := by
    obtain ⟨i, -, rfl⟩ := List.mem_map.1 hl
    simp

/-- The matrix with the given rows, each cut or filled up with zeros to the length of the first. -/
def ofRows (lines : List Bytes) : ByteMatrix :=
  let cols := (lines.headD []).length
  { cols := cols
    lines := lines.map fun l => l.take cols ++ List.replicate (cols - l.length) 0
    uniform := by
      intro l hl
      obtain ⟨r, -, rfl⟩ := List.mem_map.1 hl
      simp
      omega }

def zeros (rows cols : Nat) : ByteMatrix :=
  ofFn rows cols fun _ _ => 0

def identity (n : Nat) : ByteMatrix :=
  ofFn n n fun i j => if i = j then 1 else 0

/-- The systematic generator of `k` data rows and `m` parity rows: the identity on top, so that data passes through
unchanged, and below it the powers `0` to `k - 1` of the points `1, 2, ..., m`. -/
def generator (k m : Nat) : ByteMatrix :=
  ofFn (k + m) k fun i j =>
    if i < k then (if i = j then 1 else 0)
    else GF256.pow (i - k + 1).toUInt8 j

/-- The rows of `m` named by `indices`, in that order. -/
def selectRows (m : ByteMatrix) (indices : List Nat) : Except CodingError ByteMatrix :=
  match indices.find? (m.rows ≤ ·) with
  | some i => .error (.shardIndex i (m.rows - 1))
  | none => .ok {
      cols := m.cols
      lines := indices.filterMap (m.lines[·]?)
      uniform := by
        intro l hl
        obtain ⟨i, -, h⟩ := List.mem_filterMap.1 hl
        exact m.uniform l (List.mem_of_getElem? h) }

/-- The sum of the products of corresponding entries. -/
def dot (u v : Bytes) : UInt8 :=
  (List.zipWith GF256.mul u v).foldl (· ^^^ ·) 0

def column (m : ByteMatrix) (j : Nat) : Bytes :=
  m.lines.map (·.getD j 0)

def multiply (a b : ByteMatrix) : Except CodingError ByteMatrix :=
  if a.cols ≠ b.rows then .error (.argument (.shapes a.rows a.cols b.rows b.cols))
  else
    let columns := (List.range b.cols).map b.column
    .ok {
      cols := b.cols
      lines := a.lines.map fun l => columns.map (dot l)
      uniform := by
        intro l hl
        obtain ⟨r, -, rfl⟩ := List.mem_map.1 hl
        simp [columns] }

end ByteMatrix

end ShardCoding

import ShardCoding.ByteMatrix.Basic

/-!
# Inversion by Gauss-Jordan elimination

Every row operation is done on the left block and on the unit block beside it at once, so each augmented row `(l, r)`
keeps the equation `l = r * A` for the matrix `A` being inverted.

* `Augmented` : a row of `[A | I]` on its way to `[I | A⁻¹]`;
* `pivot` : one column's step, from the rows still to be used and the rows already finished;
* `invert` : the inverse, or `singularMatrix` when some column has no pivot left.
-/

namespace ShardCoding

namespace ByteMatrix

structure Augmented where
  left : Bytes
  right : Bytes

namespace Augmented

def scale (c : UInt8) (a : Augmented) : Augmented :=
  ⟨a.left.map (GF256.mul · c), a.right.map (GF256.mul · c)⟩

/-- `a` less the multiple of the normalised row `p` that clears column `col`. -/
def clear (col : Nat) (p a : Augmented) : Augmented :=
  let factor := a.left.getD col 0
  if factor = 0 then a
  else ⟨GF256.mulAcc factor p.left a.left, GF256.mulAcc factor p.right a.right⟩

end Augmented

/-- Rows that hold no pivot yet, and the finished rows, the one of column `i` at place `i`. -/
structure Elimination where
  pending : List Augmented
  finished : List Augmented

/-- Normalise the first pending row with a nonzero entry in column `col` and clear that column in every other row. -/
def pivot (col : Nat) (e : Elimination) : Except CodingError Elimination :=
  match e.pending.span fun a => a.left.getD col 0 = 0 with
  | (_, []) => .error .singularMatrix
  | (before, chosen :: after) =>
    match GF256.inv? (chosen.left.getD col 0) with
    | none => .error .zeroInverse
    | some inverse =>
      let unit := chosen.scale inverse
      .ok {
        pending := (before ++ after).map (Augmented.clear col unit)
        finished := e.finished.map (Augmented.clear col unit) ++ [unit] }

/-- `[A | I]`. -/
def augment (m : ByteMatrix) : List Augmented :=
  List.zipWith Augmented.mk m.lines (identity m.rows).lines

def eliminate (m : ByteMatrix) : Except CodingError Elimination :=
  (List.range m.rows).foldlM (fun e col => pivot col e) ⟨m.augment, []⟩

def invert (m : ByteMatrix) : Except CodingError ByteMatrix :=
  if m.rows ≠ m.cols then .error (.argument (.notSquare m.rows m.cols))
  else m.eliminate.map fun e => ofRows (e.finished.map (·.right))

end ByteMatrix

end ShardCoding

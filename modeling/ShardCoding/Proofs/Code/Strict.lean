import ShardCoding.Proofs.Code.Uniqueness

/-!
# Decoding read strictly

The definitions are total: past the end of a list they read a default, and their numbers are unbounded. Here decoding is
written once more with every access checked, as a program that stops with a `Fault` where an index or a slice leaves its
list, two strings that are walked side by side differ in length, a number leaves the range of a word, or a buffer does
not fit in memory.

* `Strict` : programs that yield a value or a refusal, or stop; `safe` : the ones that do not stop;
* `entry`, `front`, `sized`, `word`, `difference`, `reserve` : the checked accesses;
* `Strict.mul` to `Strict.decodeShards` : arithmetic, elimination, selection and decoding over them;
* `invert_eq`, `inverseFor_eq` : solving for the data stops nowhere, whether there is a solution or not;
* `decodeShards_eq` : decoding stops nowhere but for want of as much memory as the selected shards themselves take.
-/

namespace ShardCoding

open GF256 ByteMatrix

/-- The number of bytes in slot `i`, none where it is empty. -/
def storedLength (slots : Slots) (i : Nat) : Nat := (slots[i]?.join.getD []).length

/-- The number of bytes in the selected slots. -/
def storedBytes (slots : Slots) (selected : List Nat) : Nat := (selected.map (storedLength slots)).sum

/-! ## Programs that may stop -/

/-- What a checked access stops at. -/
inductive Fault where
  /-- An index, or the end of a slice, past the end of a list. -/
  | pastEnd (place length : Nat)
  /-- Lengths that have to be equal. -/
  | unequal (length length' : Nat)
  | overflow (value : Nat)
  | negative (value less : Nat)
  /-- More bytes than there is room for. -/
  | memory (size : Nat)
  deriving DecidableEq, Repr

/-- A value, a refusal, or a fault. -/
abbrev Strict : Type → Type := ExceptT CodingError (Except Fault)

namespace Strict

variable {α β : Type}

/-- The program stops. -/
def stop (f : Fault) : Strict α := ExceptT.mk (.error f)

/-- The outcome `x`, reached without a fault. -/
def safe (x : Except CodingError α) : Strict α := ExceptT.mk (.ok x)

def entry (l : List α) (i : Nat) : Strict α :=
  match l[i]? with
  | some a => pure a
  | none => stop (.pastEnd i l.length)

/-- The slice of the first `n` entries. -/
def front (l : List α) (n : Nat) : Strict (List α) :=
  if n ≤ l.length then pure (l.take n) else stop (.pastEnd n l.length)

/-- `l`, which is copied to a place of `n` entries. -/
def sized (n : Nat) (l : List α) : Strict (List α) :=
  if l.length = n then pure l else stop (.unequal l.length n)

def word (value : Nat) : Strict Nat :=
  if value < wordLimit then pure value else stop (.overflow value)

def difference (value less : Nat) : Strict Nat :=
  if less ≤ value then pure (value - less) else stop (.negative value less)

/-- A buffer of `size` bytes, where no buffer is longer than `room`. -/
def reserve (room size : Nat) : Strict Unit :=
  if size ≤ room then pure () else stop (.memory size)

/-! ### Without a fault -/

theorem safe_ok (a : α) : safe (.ok a) = pure a := rfl

theorem entry_eq {l : List α} {i : Nat} {a : α} (h : l[i]? = some a) : entry l i = pure a := by
  rw [entry, h]

theorem entry_getElem {l : List α} {i : Nat} (h : i < l.length) : entry l i = pure l[i] :=
  entry_eq (List.getElem?_eq_getElem h)

theorem entry_getD {l : List α} {i : Nat} (h : i < l.length) (d : α) : entry l i = pure (l.getD i d) := by
  rw [entry_getElem h, List.getD_eq_getElem _ _ h]

theorem front_length {l : List α} {n : Nat} (h : l.length = n) : front l n = pure l := by
  rw [front, if_pos h.ge, List.take_of_length_le h.le]

theorem sized_eq {l : List α} {n : Nat} (h : l.length = n) : sized n l = pure l := if_pos h

/-- What follows a program without faults has to be without faults only on the value that it yields. -/
theorem safe_bind {x : Except CodingError α} {next : α → Strict β} {f : α → Except CodingError β}
    (h : ∀ a, x = .ok a → next a = safe (f a)) : safe x >>= next = safe (x >>= f) := by
  cases x with
  | error e => rfl
  | ok a => exact h a rfl

theorem mapM_safe {l : List α} {f : α → Strict β} {g : α → Except CodingError β} (h : ∀ a ∈ l, f a = safe (g a)) :
    l.mapM f = safe (l.mapM g) := by
  induction l with
  | nil => rfl
  | cons a l ih =>
    rw [List.mapM_cons, List.mapM_cons, h a List.mem_cons_self, ih fun b hb => h b (List.mem_cons_of_mem _ hb)]
    exact safe_bind fun b _ => safe_bind fun bs _ => rfl

theorem mapM_pure {l : List α} {f : α → Strict β} {g : α → β} (h : ∀ a ∈ l, f a = pure (g a)) :
    l.mapM f = pure (l.map g) :=
  (mapM_safe h).trans (congrArg safe (mapM_ok fun _ _ => rfl))

/-! ## Arithmetic -/

def exp (i : Nat) : Strict UInt8 := entry expTable.toList i

def log (a : UInt8) : Strict Nat := entry logTable.toList a.toNat

def mul (a b : UInt8) : Strict UInt8 := do
  if a = 0 ∨ b = 0 then return 0
  exp ((← log a) + (← log b))

def inverse (a : UInt8) : Strict UInt8 := do
  if a = 0 then throw .zeroInverse
  exp (← difference groupOrder (← log a))

/-- `d` plus `s` times the element with the logarithm `shift`. -/
def addMultiple (shift : Nat) (d s : UInt8) : Strict UInt8 := do
  if s = 0 then return d
  return d ^^^ (← exp (shift + (← log s)))

/-- `dst + c * src`, for strings of one length. -/
def mulAcc (c : UInt8) (src dst : Bytes) : Strict Bytes := do
  let src ← sized dst.length src
  if c = 0 then return dst
  if c = 1 then return List.zipWith (· ^^^ ·) dst src
  let shift ← log c
  (dst.zip src).mapM fun p => addMultiple shift p.1 p.2

def combine (size : Nat) (coefficients : Bytes) (shards : List Bytes) : Strict Bytes :=
  (coefficients.zip shards).foldlM (fun sum (c, shard) => do mulAcc c (← front shard size) sum) (List.replicate size 0)

theorem exp_eq {i : Nat} (h : i < 2 * groupOrder) : exp i = pure (GF256.exp i) := by
  have hi : i < expTable.toList.length := by simpa [expTable] using h
  rw [exp, entry_getD hi 0, GF256.exp, Array.getD_eq_getD_getElem?, ← Array.getElem?_toList,
    List.getD_eq_getElem?_getD]

theorem size_logTable : logTable.size = 256 :=
  List.foldlRecOn (motive := fun t : Array Nat => t.size = 256) _ _ Array.size_replicate fun _ ht _ _ =>
    Array.size_setIfInBounds.trans ht

theorem log_eq (a : UInt8) : log a = pure (GF256.log a) := by
  have ha : a.toNat < logTable.toList.length := by
    rw [Array.length_toList, size_logTable]
    exact a.toNat_lt
  rw [log, entry_getD ha 0, GF256.log, Array.getD_eq_getD_getElem?, ← Array.getElem?_toList,
    List.getD_eq_getElem?_getD]

theorem mul_eq (a b : UInt8) : mul a b = pure (GF256.mul a b) := by
  unfold mul GF256.mul
  split
  · rfl
  · next h =>
    obtain ⟨ha, hb⟩ := not_or.1 h
    have hla := log_lt ha
    have hlb := log_lt hb
    rw [log_eq, log_eq, pure_bind, pure_bind, exp_eq (by omega)]

theorem inverse_eq (a : UInt8) : inverse a = safe (match inv? a with
    | none => .error .zeroInverse
    | some b => .ok b) := by
  unfold inverse inv?
  by_cases ha : a = 0
  · rw [if_pos ha, if_pos ha]
    rfl
  · have hlog := log_lt ha
    rw [if_neg ha, if_neg ha, log_eq]
    simp only [pure_bind]
    rw [difference, if_pos hlog.le, pure_bind, exp_eq (by omega), safe_ok]

theorem addMultiple_eq {c : UInt8} (hc : c ≠ 0) (d s : UInt8) : addMultiple (GF256.log c) d s =
    pure (if s = 0 then d else d ^^^ GF256.exp (GF256.log c + GF256.log s)) := by
  unfold addMultiple
  split
  · rfl
  · next hs =>
    have hlogc := log_lt hc
    have hlogs := log_lt hs
    rw [log_eq, pure_bind, exp_eq (by omega), pure_bind]

theorem mulAcc_eq (c : UInt8) {src dst : Bytes} (h : src.length = dst.length) :
    mulAcc c src dst = pure (GF256.mulAcc c src dst) := by
  unfold mulAcc GF256.mulAcc
  rw [sized_eq h, pure_bind]
  split
  · rfl
  split
  · rfl
  next hc _ =>
  have hbytes : (dst.zip src).mapM (fun p => addMultiple (GF256.log c) p.1 p.2) = pure ((dst.zip src).map fun p =>
      if p.2 = 0 then p.1 else p.1 ^^^ GF256.exp (GF256.log c + GF256.log p.2)) :=
    mapM_pure fun p _ => addMultiple_eq hc p.1 p.2
  rw [log_eq, pure_bind, hbytes, List.zip, List.map_zipWith]

/-- The sum keeps the length of the shards, so no multiple is added to a shorter or longer string. -/
theorem foldlM_mulAcc_eq {size : Nat} (coefficients : Bytes) {shards : List Bytes} (h : ∀ l ∈ shards, l.length = size)
    {sum : Bytes} (hsum : sum.length = size) :
    (coefficients.zip shards).foldlM (fun sum (c, shard) => do mulAcc c (← front shard size) sum) sum =
      (pure ((coefficients.zip shards).foldl (fun sum (c, shard) => GF256.mulAcc c shard sum) sum) :
        Strict Bytes) := by
  induction shards generalizing coefficients sum with
  | nil => simp
  | cons shard shards ih =>
    obtain _ | ⟨c, coefficients⟩ := coefficients
    · simp
    have hshard : shard.length = size := h shard List.mem_cons_self
    have hsame : shard.length = sum.length := hshard.trans hsum.symm
    rw [List.zip_cons_cons, List.foldlM_cons, List.foldl_cons]
    dsimp only
    rw [front_length hshard, pure_bind, mulAcc_eq c hsame, pure_bind]
    exact ih coefficients (fun l hl => h l (List.mem_cons_of_mem _ hl)) ((length_mulAcc c hsame).trans hsum)

theorem combine_eq {size : Nat} (coefficients : Bytes) {shards : List Bytes} (h : ∀ l ∈ shards, l.length = size) :
    combine size coefficients shards = pure (ShardCoding.combine size coefficients shards) :=
  foldlM_mulAcc_eq coefficients h List.length_replicate

/-! ## Inversion -/

variable {n : Nat} {A : Matrix (Fin n) (Fin n) F256}

def scale (c : UInt8) (a : Augmented) : Strict Augmented := do
  return ⟨← a.left.mapM (mul · c), ← a.right.mapM (mul · c)⟩

def clear (col : Nat) (p a : Augmented) : Strict Augmented := do
  let factor ← entry a.left col
  if factor = 0 then return a
  return ⟨← mulAcc factor p.left a.left, ← mulAcc factor p.right a.right⟩

/-- The rows before the first one with a nonzero entry in column `col`, and the rows from there on. -/
def splitPivot (col : Nat) : List Augmented → Strict (List Augmented × List Augmented)
  | [] => return ([], [])
  | a :: rest => do
    if (← entry a.left col) ≠ 0 then return ([], a :: rest)
    let (before, found) ← splitPivot col rest
    return (a :: before, found)

def pivot (col : Nat) (e : Elimination) : Strict Elimination := do
  let (before, rest) ← splitPivot col e.pending
  match rest with
  | [] => throw .singularMatrix
  | chosen :: after =>
    let unit ← scale (← inverse (← entry chosen.left col)) chosen
    return {
      pending := ← (before ++ after).mapM (clear col unit)
      finished := (← e.finished.mapM (clear col unit)) ++ [unit] }

def augment (m : ByteMatrix) : Strict (List Augmented) :=
  (m.lines.zip (identity m.rows).lines).mapM fun p => do
    return ⟨← sized m.rows p.1, ← sized m.rows p.2⟩

def invert (m : ByteMatrix) : Strict ByteMatrix := do
  if m.rows ≠ m.cols then throw (.argument (.notSquare m.rows m.cols))
  let e ← (List.range m.rows).foldlM (fun e col => pivot col e) ⟨← augment m, []⟩
  return ofRows (← (← sized m.rows e.finished).mapM fun a => sized m.rows a.right)

theorem scale_eq (c : UInt8) (a : Augmented) : scale c a = pure (a.scale c) := by
  unfold scale Augmented.scale
  rw [mapM_pure fun b _ => mul_eq b c, mapM_pure fun b _ => mul_eq b c, pure_bind, pure_bind]

theorem clear_eq {p a : Augmented} (hp : p.Sound A) (ha : a.Sound A) (col : Fin n) :
    clear col p a = pure (Augmented.clear col p a) := by
  unfold clear Augmented.clear
  rw [entry_getD (by rw [ha.length_left]; exact col.2) 0, pure_bind]
  dsimp only
  split
  · rfl
  · rw [mulAcc_eq _ (hp.length_left.trans ha.length_left.symm), pure_bind,
      mulAcc_eq _ (hp.length_right.trans ha.length_right.symm), pure_bind]

theorem splitPivot_eq {l : List Augmented} (h : ∀ a ∈ l, a.Sound A) (col : Fin n) :
    splitPivot col l = pure (l.span fun a => a.left.getD col 0 = 0) := by
  rw [List.span_eq_takeWhile_dropWhile]
  induction l with
  | nil => rfl
  | cons a l ih =>
    have ha := h a List.mem_cons_self
    rw [splitPivot, entry_getD (by rw [ha.length_left]; exact col.2) 0, pure_bind,
      ih fun b hb => h b (List.mem_cons_of_mem _ hb), pure_bind]
    by_cases hz : a.left.getD col 0 = 0
    · rw [if_neg (not_not.2 hz), List.takeWhile_cons_of_pos (by simpa using hz),
        List.dropWhile_cons_of_pos (by simpa using hz)]
    · rw [if_pos hz, List.takeWhile_cons_of_neg (by simpa using hz), List.dropWhile_cons_of_neg (by simpa using hz)]

theorem pivot_eq {e : Elimination} {c : Fin n} (he : e.Reduced A c) : pivot c e = safe (ByteMatrix.pivot c e) := by
  unfold pivot ByteMatrix.pivot
  have hjoin : (e.pending.span fun a => a.left.getD c 0 = 0).1 ++ (e.pending.span fun a => a.left.getD c 0 = 0).2 =
      e.pending := by
    rw [List.span_eq_takeWhile_dropWhile]
    exact List.takeWhile_append_dropWhile
  rw [splitPivot_eq he.sound_pending, pure_bind]
  generalize e.pending.span (fun a => decide (a.left.getD c 0 = 0)) = parts at hjoin
  obtain ⟨before, _ | ⟨chosen, after⟩⟩ := parts
  · rfl
  have hchosen : chosen.Sound A := he.sound_pending chosen (hjoin ▸ List.mem_append_right _ List.mem_cons_self)
  have hothers := Elimination.Reduced.mem_pending_of_mem hjoin.symm
  dsimp only
  rw [entry_getD (by rw [hchosen.length_left]; exact c.2) 0, pure_bind, inverse_eq]
  cases inv? (chosen.left.getD c 0) with
  | none => rfl
  | some inverse =>
    have hunit := hchosen.scale inverse
    dsimp only
    rw [safe_ok, pure_bind, scale_eq, pure_bind,
      mapM_pure fun a ha => clear_eq hunit (he.sound_pending a (hothers a ha)) c, pure_bind,
      mapM_pure fun a ha => clear_eq hunit (he.sound_finished a ha) c, pure_bind]
    rfl

theorem foldlM_pivot_eq {e : Elimination} (he : e.Reduced A 0) {col : Nat} (hcol : col ≤ n) :
    (List.range col).foldlM (fun e col => pivot col e) e =
      safe ((List.range col).foldlM (fun e col => ByteMatrix.pivot col e) e) := by
  induction col with
  | zero => rfl
  | succ col ih =>
    rw [List.range_succ, List.foldlM_append, List.foldlM_append, ih (by omega)]
    refine safe_bind fun e' he' => ?_
    have hred : e'.Reduced A col := by
      rcases foldlM_pivot_cases he col (by omega) with ⟨e'', hrun, hred⟩ | ⟨herr, -⟩
      · rw [hrun] at he'
        exact Except.ok.inj he' ▸ hred
      · rw [herr] at he'
        cases he'
    rw [List.foldlM_cons, List.foldlM_cons, pivot_eq (c := ⟨col, by omega⟩) hred]
    exact safe_bind fun _ _ => rfl

theorem augment_eq {m : ByteMatrix} (hsquare : m.rows = m.cols) : augment m = pure m.augment := by
  have hline : ∀ p ∈ m.lines.zip (identity m.rows).lines, (do return ⟨← sized m.rows p.1, ← sized m.rows p.2⟩) =
      (pure ⟨p.1, p.2⟩ : Strict Augmented) := by
    intro p hp
    obtain ⟨hp1, hp2⟩ := List.of_mem_zip hp
    have hright : p.2.length = m.rows := (identity m.rows).uniform _ hp2
    rw [sized_eq ((m.uniform _ hp1).trans hsquare.symm), pure_bind, sized_eq hright, pure_bind]
  rw [augment, mapM_pure hline, ByteMatrix.augment, List.zip, List.map_zipWith]

/-- Every row has as many entries as there are columns at every step, whether or not the matrix has an inverse. -/
theorem invert_eq (m : ByteMatrix) : invert m = safe m.invert := by
  unfold invert ByteMatrix.invert
  by_cases hsquare : m.rows = m.cols
  swap
  · rw [if_pos hsquare, if_pos hsquare]
    rfl
  have hstart := reduced_augment m rfl hsquare.symm
  rw [if_neg (not_not.2 hsquare), if_neg (not_not.2 hsquare), augment_eq hsquare, pure_bind,
    foldlM_pivot_eq hstart le_rfl]
  rw [eliminate]
  rcases foldlM_pivot_cases hstart m.rows le_rfl with ⟨e, hrun, he⟩ | ⟨hrun, -⟩
  · have hright : ∀ a ∈ e.finished, sized m.rows a.right = pure a.right := fun a ha =>
      sized_eq (he.sound a (List.mem_append_right _ ha)).length_right
    rw [hrun, safe_ok, pure_bind, sized_eq he.length_finished, pure_bind, mapM_pure hright, pure_bind]
    rfl
  · rw [hrun]
    rfl

/-! ## Decoding -/

variable {code : Code} {slots : Slots} {present selected : List Nat} {size : Nat}

def selectRows (m : ByteMatrix) (indices : List Nat) : Strict ByteMatrix := do
  return ofRows (← indices.mapM fun i => do
    if m.rows ≤ i then throw (.shardIndex i (← difference m.rows 1))
    sized m.cols (← entry m.lines i))

def inverseFor (code : Code) (selected : List Nat) : Strict (Option ByteMatrix) := do
  if selected = List.range code.scheme.data then return none
  return some (← invert (← selectRows code.generator selected))

/-- One shard at a time is computed in a buffer of its own. -/
def reconstruct (room : Nat) (inverse : Option ByteMatrix) (size : Nat) (inputs : List Bytes) : Strict Bytes :=
  match inverse with
  | none => return inputs.flatten
  | some m => do
    reserve room size
    return (← m.lines.mapM fun row => combine size row inputs).flatten

def presentShard (slots : Slots) (size i : Nat) : Strict Bytes := do
  match ← entry slots i with
  | some shard => if shard.length = size then return shard else throw (.shardSize size shard.length)
  | none => throw (.missingShard i)

def checkIndices (n : Nat) (seen : List Nat) : List Nat → Strict Unit
  | [] => return ()
  | i :: rest => do
    if n ≤ i then throw (.shardIndex i (← difference n 1))
    if i ∈ seen then throw (.argument (.listedTwice i))
    checkIndices n (i :: seen) rest

def select (code : Code) (present : List Nat) : Strict (List Nat) := do
  if present.length < code.scheme.data then throw (.insufficientShards present.length code.scheme.data)
  let selected ← front present code.scheme.data
  checkIndices code.scheme.total [] selected
  return selected

/-- Decoding with every access checked, where no buffer is longer than `room`. -/
def decodeShards (room : Nat) (code : Code) (slots : Slots) (present : List Nat) (dataSize shardSize : Nat) :
    Strict Bytes := do
  safe (code.checkSlotCount slots)
  safe (code.checkCapacity dataSize shardSize)
  let selected ← select code present
  let inputs ← selected.mapM (presentShard slots shardSize)
  reserve room (← word (shardSize * code.scheme.data))
  let inverse ← inverseFor code selected
  let output ← reconstruct room inverse shardSize inputs
  return output.take dataSize

theorem eq_of_lines {a b : ByteMatrix} (hlines : a.lines = b.lines) (hcols : a.cols = b.cols) : a = b := by
  cases a
  cases b
  cases hlines
  cases hcols
  rfl

theorem selectRows_eq {m : ByteMatrix} {indices : List Nat} (hlen : indices.length = m.cols)
    (h : ∀ i ∈ indices, i < m.rows) : selectRows m indices = safe (m.selectRows indices) := by
  obtain ⟨b, hb, hlines, hcols⟩ := ByteMatrix.selectRows_ok h
  have hread : ∀ i ∈ indices, (do
      if m.rows ≤ i then throw (.shardIndex i (← difference m.rows 1))
      sized m.cols (← entry m.lines i)) = (pure (m.row i) : Strict Bytes) := by
    intro i hi
    have hrow : i < m.lines.length := h i hi
    rw [if_neg (Nat.not_le.2 (h i hi)), entry_getElem hrow]
    dsimp only
    rw [pure_bind, sized_eq (m.uniform _ (List.getElem_mem hrow)), row, List.getD_eq_getElem _ _ hrow]
  have huniform : ∀ l ∈ indices.map m.row, l.length = m.cols := by
    rw [← hlines, ← hcols]
    exact b.uniform
  obtain ⟨hlines', hcols'⟩ := lines_ofRows huniform (by rw [List.length_map, hlen])
  have hsame : ofRows (indices.map m.row) = b := eq_of_lines (hlines'.trans hlines.symm) (hcols'.trans hcols.symm)
  rw [selectRows, mapM_pure hread, pure_bind, hb, safe_ok, hsame]

theorem inverseFor_eq (hlen : selected.length = code.scheme.data) (hlt : ∀ i ∈ selected, i < code.scheme.total) :
    inverseFor code selected = safe (code.inverseFor selected) := by
  unfold inverseFor Code.inverseFor
  split
  · rfl
  rw [selectRows_eq (by rw [hlen, Code.cols_generator]) (by simpa using hlt)]
  cases hrows : code.generator.selectRows selected with
  | error e => rfl
  | ok m =>
    rw [safe_ok, pure_bind, invert_eq]
    dsimp only
    cases m.invert <;> rfl

/-- The pieces that an inverse yields are computed from inputs of the length of the buffer. -/
theorem reconstruct_eq {room : Nat} (hroom : size ≤ room) (inverse : Option ByteMatrix) {inputs : List Bytes}
    (hsize : ∀ l ∈ inputs, l.length = size) :
    reconstruct room inverse size inputs = pure (Code.reconstruct inverse size inputs) := by
  cases inverse with
  | none => rfl
  | some m =>
    unfold reconstruct Code.reconstruct
    dsimp only
    rw [reserve, if_pos hroom, pure_bind, mapM_pure fun row _ => combine_eq row hsize, pure_bind, List.flatMap]

theorem presentShard_eq {i : Nat} (hi : i < slots.length) :
    presentShard slots size i = safe (ShardCoding.presentShard slots size i) := by
  unfold presentShard ShardCoding.presentShard
  rw [entry_getElem hi, pure_bind, List.getElem?_eq_getElem hi]
  cases slots[i] with
  | none => rfl
  | some shard =>
    dsimp only
    split <;> rfl

theorem checkIndices_eq {n : Nat} (hn : 0 < n) (seen l : List Nat) :
    checkIndices n seen l = safe (ShardCoding.checkIndices n seen l) := by
  induction l generalizing seen with
  | nil => rfl
  | cons i l ih =>
    unfold checkIndices ShardCoding.checkIndices
    by_cases hi : n ≤ i
    · rw [if_pos hi, if_pos hi, difference, if_pos (Nat.succ_le_of_lt hn)]
      rfl
    by_cases hseen : i ∈ seen
    · rw [if_neg hi, if_neg hi, if_pos hseen, if_pos hseen]
      rfl
    · rw [if_neg hi, if_neg hi, if_neg hseen, if_neg hseen]
      exact ih (i :: seen)

theorem select_eq (code : Code) (present : List Nat) : select code present = safe (code.select present) := by
  unfold select Code.select
  split
  · rfl
  · next henough =>
    have htotal : 0 < code.scheme.total := code.valid.1.trans_le code.data_le_total
    rw [front, if_pos (Nat.le_of_not_lt henough), pure_bind]
    dsimp only
    rw [checkIndices_eq htotal]
    cases ShardCoding.checkIndices code.scheme.total [] (present.take code.scheme.data) <;> rfl

theorem storedBytes_eq {inputs : List Bytes}
    (hin : selected.mapM (ShardCoding.presentShard slots size) = .ok inputs) :
    storedBytes slots selected = size * selected.length := by
  have hread := forall₂_of_mapM hin
  clear hin
  induction hread with
  | nil => rfl
  | @cons i shard selected inputs hshard _ ih =>
    obtain ⟨hslot, hlen⟩ := presentShard_eq_ok.1 hshard
    have hstored : storedLength slots i = size := by simp [storedLength, hslot, hlen]
    have hcons : storedBytes slots (i :: selected) = storedLength slots i + storedBytes slots selected := rfl
    rw [hcons, ih, hstored, List.length_cons, Nat.mul_succ, Nat.add_comm]

/-- Once the selected shards are read, only the buffers can be refused, and they are no longer than these shards. -/
theorem solve_eq {room : Nat} (hsel : code.Selects present) {inputs : List Bytes}
    (hin : (present.take code.scheme.data).mapM (ShardCoding.presentShard slots size) = .ok inputs)
    (hroom : size * code.scheme.data ≤ room) (dataSize : Nat) :
    (do
      let inverse ← inverseFor code (present.take code.scheme.data)
      let output ← reconstruct room inverse size inputs
      return output.take dataSize) =
    safe ((code.inverseFor (present.take code.scheme.data)).map fun inverse =>
      (Code.reconstruct inverse size inputs).take dataSize) := by
  have hbuffer : size ≤ room := (Nat.le_mul_of_pos_right size code.valid.1).trans hroom
  rw [inverseFor_eq hsel.length_take hsel.lt_total]
  cases code.inverseFor (present.take code.scheme.data) with
  | error e => rfl
  | ok inverse =>
    rw [safe_ok, pure_bind, reconstruct_eq hbuffer inverse (Code.length_of_mem_inputs hin).2, pure_bind]
    rfl

/-- `x` reaches the outcome `y`, or stops for want of a buffer of `size` bytes, which is longer than `room`. -/
def Reaches (room size : Nat) (x : Strict α) (y : Except CodingError α) : Prop :=
  x = safe y ∨ room < size ∧ x = stop (.memory size)

theorem Reaches.bind {room size : Nat} {x : Except CodingError α} {next : α → Strict β} {f : α → Except CodingError β}
    (h : ∀ a, x = .ok a → Reaches room size (next a) (f a)) : Reaches room size (safe x >>= next) (x >>= f) := by
  cases x with
  | error e => exact Or.inl rfl
  | ok a => exact h a rfl

theorem checkSlotCount_eq_ok {u : Unit} (h : code.checkSlotCount slots = .ok u) : slots.length = code.scheme.total := by
  unfold Code.checkSlotCount at h
  split at h
  · assumption
  · cases h

theorem checkCapacity_eq_ok {dataSize shardSize : Nat} {u : Unit} (h : code.checkCapacity dataSize shardSize = .ok u) :
    shardSize * code.scheme.data < wordLimit := by
  unfold Code.checkCapacity at h
  dsimp only at h
  split at h
  · cases h
  · omega

/-- **Decoding stops nowhere** while there is room for as many bytes as the selected shards hold: no index, no slice
and no sum leaves its range, whatever the arguments. Where there is less room, it stops at the output buffer or before,
with the same refusals. -/
theorem decodeShards_eq (room : Nat) (code : Code) (slots : Slots) (present : List Nat) (dataSize shardSize : Nat) :
    Reaches room (storedBytes slots (present.take code.scheme.data))
      (decodeShards room code slots present dataSize shardSize)
      (code.decodeShards slots present dataSize shardSize) := by
  refine Reaches.bind fun _ hslots => Reaches.bind fun _ hcapacity => ?_
  rw [select_eq]
  refine Reaches.bind fun selected hselect => ?_
  obtain ⟨hsel, rfl⟩ := Code.selects_of_select hselect
  rw [mapM_safe fun i hi => presentShard_eq (checkSlotCount_eq_ok hslots ▸ hsel.lt_total i hi)]
  refine Reaches.bind fun inputs hin => ?_
  have hword := checkCapacity_eq_ok hcapacity
  rw [storedBytes_eq hin, hsel.length_take, word, if_pos hword, pure_bind, reserve]
  by_cases hroom : shardSize * code.scheme.data ≤ room
  · left
    rw [if_pos hroom, pure_bind, solve_eq hsel hin hroom]
    cases code.inverseFor (present.take code.scheme.data) <;> rfl
  · right
    rw [if_neg hroom]
    exact ⟨Nat.lt_of_not_le hroom, rfl⟩

end Strict

end ShardCoding

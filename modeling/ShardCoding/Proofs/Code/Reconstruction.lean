import Mathlib.LinearAlgebra.Matrix.NonsingularInverse
import ShardCoding.Code.Decode
import ShardCoding.Proofs.ByteMatrix.Inverse
import ShardCoding.Proofs.Code.Codeword

/-!
# Reconstruction from a selection of shards

* `Code.Selects` : the first `k` entries of a list name different shards;
* `Code.selectedRows`, `Code.Recoverable` : the rows of the generator that a selection names, and when they can be
  undone;
* `Code.Solution` : pieces that the selected rows take to given inputs; there is at most one (`Solution.unique`);
  `Code.Solves` : an inverse finds it; `Solves.reconstruct_eq` : on the shards of some data;
* `invert_selectRows_cases`, `inverseFor_cases`, `decodeShards_cases` : decoding finds the solution exactly for a
  recoverable selection;
* `Code.Holds` : slots with the selected shards of some data; `decode_cases` : what decoding yields on them.
-/

namespace ShardCoding

theorem mapM_ok {ε α β : Type} {l : List α} {f : α → Except ε β} {g : α → β} (h : ∀ a ∈ l, f a = .ok (g a)) :
    l.mapM f = .ok (l.map g) := by
  induction l with
  | nil => rfl
  | cons a l ih =>
    rw [List.mapM_cons, h a List.mem_cons_self, ih fun b hb => h b (List.mem_cons_of_mem _ hb)]
    rfl

theorem forall₂_of_mapM {ε α β : Type} {l : List α} {f : α → Except ε β} {u : List β}
    (h : l.mapM f = .ok u) : List.Forall₂ (fun a b => f a = .ok b) l u := by
  induction l generalizing u with
  | nil =>
    cases h
    exact .nil
  | cons a l ih =>
    rw [List.mapM_cons] at h
    cases ha : f a with
    | error e => simp [ha, bind, Except.bind] at h
    | ok b =>
      cases hl : l.mapM f with
      | error e => simp [ha, hl, bind, Except.bind] at h
      | ok v =>
        simp only [ha, hl, bind, Except.bind, pure, Except.pure, Except.ok.injEq] at h
        subst h
        exact .cons ha (ih hl)

/-- A list made over a range holds what is made of each index. -/
theorem getElem?_of_mapM_range {ε α : Type} {n : Nat} {f : Nat → Except ε α} {as : List α}
    (h : (List.range n).mapM f = .ok as) : as.length = n ∧ ∀ i < n, ∃ a, as[i]? = some a ∧ f i = .ok a := by
  have hrelated := forall₂_of_mapM h
  have hlength : as.length = n := by rw [← hrelated.length_eq, List.length_range]
  refine ⟨hlength, fun i hi => ?_⟩
  have hi' : i < as.length := by rwa [hlength]
  refine ⟨as[i], List.getElem?_eq_getElem hi', ?_⟩
  have hget := hrelated.get (by rwa [List.length_range]) hi'
  rwa [List.get_eq_getElem, List.getElem_range] at hget

theorem presentShard_eq_ok {slots : Slots} {size i : Nat} {shard : Bytes} :
    presentShard slots size i = .ok shard ↔ slots[i]? = some (some shard) ∧ shard.length = size := by
  unfold presentShard
  split
  · next held hslot =>
    rw [hslot, Option.some.injEq, Option.some.injEq]
    constructor
    · intro h
      split at h
      · next hsize =>
        obtain rfl := Except.ok.inj h
        exact ⟨rfl, hsize⟩
      · cases h
    · rintro ⟨rfl, hsize⟩
      rw [if_pos hsize]
  · next hslot =>
    constructor
    · intro h
      cases h
    · exact fun h => absurd h.1 (hslot shard)

theorem checkIndices_eq_ok {n : Nat} {seen l : List Nat} :
    checkIndices n seen l = .ok () ↔ (∀ i ∈ l, i < n) ∧ l.Nodup ∧ ∀ i ∈ l, i ∉ seen := by
  induction l generalizing seen with
  | nil => simp [checkIndices]
  | cons i l ih =>
    unfold checkIndices
    by_cases hn : n ≤ i
    · simp [hn]
    by_cases hi : i ∈ seen
    · simp [hn, hi]
    rw [if_neg hn, if_neg hi, ih]
    rw [List.forall_mem_cons, List.forall_mem_cons]
    simp only [List.nodup_cons, List.mem_cons, not_or]
    constructor
    · rintro ⟨hlt, hnodup, hseen⟩
      exact ⟨⟨by omega, hlt⟩, ⟨fun h => (hseen i h).1 rfl, hnodup⟩, hi, fun j hj => (hseen j hj).2⟩
    · rintro ⟨⟨-, hlt⟩, ⟨hmem, hnodup⟩, -, hseen⟩
      exact ⟨hlt, hnodup, fun j hj => ⟨fun h => hmem (h ▸ hj), hseen j hj⟩⟩

theorem ByteMatrix.selectRows_ok {m : ByteMatrix} {indices : List Nat} (h : ∀ i ∈ indices, i < m.rows) :
    ∃ b, m.selectRows indices = .ok b ∧ b.lines = indices.map m.row ∧ b.cols = m.cols := by
  have hfind : indices.find? (m.rows ≤ ·) = none := by
    rw [List.find?_eq_none]
    intro i hi
    simpa using h i hi
  unfold ByteMatrix.selectRows
  rw [hfind]
  refine ⟨_, rfl, ?_, rfl⟩
  rw [← List.filterMap_eq_map']
  refine List.filterMap_congr fun i hi => ?_
  have hi' : i < m.lines.length := h i hi
  simp [row, List.getD_eq_getElem?_getD, hi']

namespace Code

variable (code : Code)

/-- The first `k` entries are indices of different shards. -/
structure Selects (present : List Nat) : Prop where
  enough : code.scheme.data ≤ present.length
  nodup : (present.take code.scheme.data).Nodup
  lt_total : ∀ i ∈ present.take code.scheme.data, i < code.scheme.total

/-- The rows of the generator that `selected` names, in that order. -/
def selectedRows (selected : List Nat) : Matrix (Fin code.scheme.data) (Fin code.scheme.data) F256 :=
  grid code.scheme.data code.scheme.data (selected.map code.generator.row)

/-- The rows have a two-sided inverse. -/
def Recoverable (selected : List Nat) : Prop := IsUnit (code.selectedRows selected)

/-- `pieces` of one length that the selected rows take to `inputs`. -/
structure Solution (selected : List Nat) (size : Nat) (inputs pieces : List Bytes) : Prop where
  length_eq : pieces.length = code.scheme.data
  uniform : ∀ p ∈ pieces, p.length = size
  eq : code.selectedRows selected * grid code.scheme.data size pieces = grid code.scheme.data size inputs

/-- Reconstruction with `inverse` solves for all inputs. -/
def Solves (selected : List Nat) (inverse : Option ByteMatrix) : Prop :=
  ∀ size inputs, inputs.length = code.scheme.data → (∀ l ∈ inputs, l.length = size) →
    ∃ pieces, code.Solution selected size inputs pieces ∧ reconstruct inverse size inputs = pieces.flatten

variable {code} {selected : List Nat} {size : Nat}

theorem Solution.unique {inputs x y : List Bytes} (h : code.Recoverable selected)
    (hx : code.Solution selected size inputs x) (hy : code.Solution selected size inputs y) : x = y := by
  obtain ⟨inverse, -, hinv⟩ := isUnit_iff_exists.1 h
  exact eq_of_grid_eq hx.length_eq hy.length_eq hx.uniform hy.uniform
    (Matrix.mul_right_injective_of_inv _ _ hinv (hx.eq.trans hy.eq.symm))

theorem Selects.select_eq {present : List Nat} (h : code.Selects present) :
    code.select present = .ok (present.take code.scheme.data) := by
  unfold select
  rw [if_neg (Nat.not_lt.2 h.enough)]
  dsimp only
  rw [checkIndices_eq_ok.2 ⟨h.lt_total, h.nodup, fun _ _ => List.not_mem_nil⟩]

/-- Only lists that select `k` different shards pass the checks. -/
theorem selects_of_select {present : List Nat} (h : code.select present = .ok selected) :
    code.Selects present ∧ selected = present.take code.scheme.data := by
  unfold select at h
  split at h
  · simp at h
  · next henough =>
    dsimp only at h
    split at h
    · simp at h
    · next hcheck =>
      obtain ⟨hlt, hnodup, -⟩ := checkIndices_eq_ok.1 hcheck
      exact ⟨⟨Nat.not_lt.1 henough, hnodup, hlt⟩, (Except.ok.inj h).symm⟩

theorem Selects.length_take {present : List Nat} (h : code.Selects present) :
    (present.take code.scheme.data).length = code.scheme.data :=
  List.length_take_of_le h.enough

theorem selectedRows_apply (hlen : selected.length = code.scheme.data) (i : Fin code.scheme.data)
    (hi : selected[(i : Nat)] < code.scheme.total) :
    code.selectedRows selected i = code.coefficients ⟨selected[(i : Nat)], hi⟩ := by
  rw [selectedRows, grid_apply _ i (by simp [hlen]), List.getElem_map]
  rfl

theorem selectedRows_range : code.selectedRows (List.range code.scheme.data) = 1 := by
  funext i
  have hi : (List.range code.scheme.data)[(i : Nat)] < code.scheme.total := by
    rw [List.getElem_range]
    exact i.2.trans_le code.data_le_total
  rw [selectedRows_apply List.length_range i hi, coefficients_data code _ (by simp)]
  funext j
  simp [Matrix.one_apply, Pi.single_apply, eq_comm]

/-- What the selected shards of a codeword are is what the selected rows make of its data shards. -/
theorem grid_selected {data : Bytes} (hlen : selected.length = code.scheme.data)
    (hlt : ∀ i ∈ selected, i < code.scheme.total) :
    grid code.scheme.data size (selected.map fun i => (code.shardsOf size data).getD i []) =
      code.selectedRows selected * grid code.scheme.data size (splitData code.scheme.data size data) := by
  funext i
  have hi : (i : Nat) < selected.length := by rw [hlen]; exact i.2
  have hgrid : grid code.scheme.total size (code.shardsOf size data) = _ := code.grid_shardsOf
  have hrow := congrFun hgrid ⟨_, hlt _ (List.getElem_mem hi)⟩
  rw [Matrix.mul_apply_eq_vecMul] at hrow
  rw [Matrix.mul_apply_eq_vecMul, selectedRows_apply hlen i (hlt _ (List.getElem_mem hi)), ← hrow,
    grid_apply size i (by rwa [List.length_map]), List.getElem_map]
  rfl

theorem solution_splitData {data : Bytes} (hlen : selected.length = code.scheme.data)
    (hlt : ∀ i ∈ selected, i < code.scheme.total) :
    code.Solution selected size (selected.map fun i => (code.shardsOf size data).getD i [])
      (splitData code.scheme.data size data) :=
  ⟨length_splitData, fun _ => length_of_mem_splitData, (grid_selected hlen hlt).symm⟩

theorem length_of_mem_selected {data : Bytes} (hlt : ∀ i ∈ selected, i < code.scheme.total) :
    ∀ l ∈ selected.map fun i => (code.shardsOf size data).getD i [], l.length = size := by
  intro l hl
  obtain ⟨i, hi, rfl⟩ := List.mem_map.1 hl
  exact length_getD_shardsOf code (hlt i hi)

/-- From the selected shards of some data, the data filled up with zeros. -/
theorem Solves.reconstruct_eq {inverse : Option ByteMatrix} (h : code.Solves selected inverse)
    (hrec : code.Recoverable selected) (hlen : selected.length = code.scheme.data)
    (hlt : ∀ i ∈ selected, i < code.scheme.total) {data : Bytes} (hsize : data.length ≤ code.scheme.data * size) :
    reconstruct inverse size (selected.map fun i => (code.shardsOf size data).getD i []) =
      data ++ List.replicate (code.scheme.data * size - data.length) 0 := by
  obtain ⟨pieces, hpieces, hflat⟩ := h size _ (by rw [List.length_map, hlen]) (length_of_mem_selected hlt)
  obtain rfl := hpieces.unique hrec (solution_splitData hlen hlt)
  rw [hflat, flatten_splitData hsize]

/-! ## The inverse that decoding uses -/

theorem reconstruct_inverse {m : ByteMatrix} (hrows : m.rows = code.scheme.data) (hcols : m.cols = code.scheme.data)
    (hinv : code.selectedRows selected * grid code.scheme.data code.scheme.data m.lines = 1) {inputs : List Bytes}
    (hlen : inputs.length = code.scheme.data) (hsize : ∀ l ∈ inputs, l.length = size) :
    ∃ pieces, code.Solution selected size inputs pieces ∧ reconstruct (some m) size inputs = pieces.flatten := by
  have hline : ∀ l ∈ m.lines, l.length = inputs.length := fun l hl => by rw [m.uniform l hl, hcols, hlen]
  refine ⟨m.lines.map fun row => combine size row inputs, ⟨by rw [List.length_map]; exact hrows, ?_, ?_⟩, rfl⟩
  · intro p hp
    obtain ⟨row, -, rfl⟩ := List.mem_map.1 hp
    exact length_combine hsize row
  · have hpieces : grid code.scheme.data size (m.lines.map fun row => combine size row inputs) =
        grid code.scheme.data code.scheme.data m.lines * grid code.scheme.data size inputs := by
      funext i
      have hi : (i : Nat) < m.lines.length := by rw [show m.lines.length = _ from hrows]; exact i.2
      rw [Matrix.mul_apply_eq_vecMul, grid_apply size i (by rwa [List.length_map]), List.getElem_map,
        vec_combine hsize (hline _ (List.getElem_mem hi)), grid_apply _ i hi, hlen]
    rw [hpieces, ← Matrix.mul_assoc, hinv, Matrix.one_mul]

/-- The matrix of the selected rows has an inverse that solves for all inputs, or it is refused as singular. -/
theorem invert_selectRows_cases (hlen : selected.length = code.scheme.data)
    (hlt : ∀ i ∈ selected, i < code.scheme.total) : ∃ m, code.generator.selectRows selected = .ok m ∧
      (code.Recoverable selected ∧ (∃ inverse, m.invert = .ok inverse ∧ code.Solves selected (some inverse)) ∨
        ¬ code.Recoverable selected ∧ m.invert = .error .singularMatrix) := by
  have hlt' : ∀ i ∈ selected, i < code.generator.rows := by simpa using hlt
  obtain ⟨m, hm, hlines, hcols⟩ := ByteMatrix.selectRows_ok hlt'
  refine ⟨m, hm, ?_⟩
  have hrows : m.rows = code.scheme.data := by rw [ByteMatrix.rows, hlines, List.length_map, hlen]
  rw [cols_generator] at hcols
  have hgrid : grid code.scheme.data code.scheme.data m.lines = code.selectedRows selected := by rw [hlines]; rfl
  rcases m.invert_cases hrows hcols with ⟨b, hb, hbrows, hbcols, hmul⟩ | ⟨herr, v, hv, hzero⟩
  · rw [hgrid] at hmul
    have hmul' := mul_eq_one_comm.1 hmul
    exact Or.inl ⟨isUnit_iff_exists.2 ⟨_, hmul', hmul⟩, b, hb,
      fun size inputs hin hsize => reconstruct_inverse hbrows hbcols hmul' hin hsize⟩
  · rw [hgrid] at hzero
    exact Or.inr ⟨fun h => hv (Matrix.mulVec_injective_of_isUnit h (hzero.trans (Matrix.mulVec_zero _).symm)), herr⟩

/-- The data shards in their order need no inverse. -/
theorem solves_range (code : Code) : code.Solves (List.range code.scheme.data) none :=
  fun _ inputs hin hsize => ⟨inputs, ⟨hin, hsize, by rw [selectedRows_range, Matrix.one_mul]⟩, rfl⟩

theorem recoverable_range (code : Code) : code.Recoverable (List.range code.scheme.data) := by
  rw [Recoverable, selectedRows_range]
  exact isUnit_one

/-- Either the selection is recoverable and its inverse solves for all inputs, or it is refused as singular. -/
theorem inverseFor_cases (hlen : selected.length = code.scheme.data) (hlt : ∀ i ∈ selected, i < code.scheme.total) :
    (code.Recoverable selected ∧ ∃ inverse, code.inverseFor selected = .ok inverse ∧ code.Solves selected inverse) ∨
    (¬ code.Recoverable selected ∧ code.inverseFor selected = .error .singularMatrix) := by
  unfold inverseFor
  split
  · next hrange =>
    subst hrange
    exact Or.inl ⟨code.recoverable_range, none, rfl, code.solves_range⟩
  · obtain ⟨m, hm, hcases⟩ := invert_selectRows_cases hlen hlt
    rw [hm]
    dsimp only
    rcases hcases with ⟨hrec, b, hb, hsolves⟩ | ⟨hrec, herr⟩
    · rw [hb]
      exact Or.inl ⟨hrec, some b, rfl, hsolves⟩
    · rw [herr]
      exact Or.inr ⟨hrec, rfl⟩

/-! ## Decoding -/

variable {slots : Slots} {present : List Nat} {dataSize : Nat}

theorem result_decode (code : Code) (slots : Slots) (present : List Nat) (dataSize shardSize : Nat) :
    (code.decode slots present dataSize shardSize).result = code.decodeShards slots present dataSize shardSize := by
  unfold decode
  cases code.decodeShards slots present dataSize shardSize <;> rfl

/-- Once shards are selected and read, what remains of a decode is the sizes to check and the inverse to apply. -/
theorem decodeShards_of_inputs (hsel : code.Selects present) {inputs : List Bytes}
    (hin : (present.take code.scheme.data).mapM (presentShard slots size) = .ok inputs) (dataSize : Nat) :
    code.decodeShards slots present dataSize size = (do
      code.checkSlotCount slots
      code.checkCapacity dataSize size
      (code.inverseFor (present.take code.scheme.data)).map fun inverse =>
        (reconstruct inverse size inputs).take dataSize) := by
  unfold decodeShards
  rw [hsel.select_eq]
  simp only [bind, Except.bind, hin]
  cases code.inverseFor (present.take code.scheme.data) <;> rfl

/-- With the checks passed, decoding solves for the selected shards, or refuses an unrecoverable selection. -/
theorem decodeShards_cases (hslots : slots.length = code.scheme.total) (hword : size * code.scheme.data < wordLimit)
    (hdata : dataSize ≤ size * code.scheme.data) (hsel : code.Selects present) {inputs : List Bytes}
    (hin : (present.take code.scheme.data).mapM (presentShard slots size) = .ok inputs) :
    (code.Recoverable (present.take code.scheme.data) ∧
      ∃ inverse, code.Solves (present.take code.scheme.data) inverse ∧
        code.decodeShards slots present dataSize size = .ok ((reconstruct inverse size inputs).take dataSize)) ∨
    (¬ code.Recoverable (present.take code.scheme.data) ∧
      code.decodeShards slots present dataSize size = .error .singularMatrix) := by
  have hrun : code.decodeShards slots present dataSize size =
      (code.inverseFor (present.take code.scheme.data)).map fun inverse =>
        (reconstruct inverse size inputs).take dataSize := by
    rw [decodeShards_of_inputs hsel hin, checkSlotCount, checkCapacity, if_pos hslots, if_neg (by omega)]
    rfl
  rw [hrun]
  rcases inverseFor_cases hsel.length_take hsel.lt_total with ⟨hrec, inverse, hinv, hsolve⟩ | ⟨hrec, herr⟩
  · exact Or.inl ⟨hrec, inverse, hsolve, by rw [hinv]; rfl⟩
  · exact Or.inr ⟨hrec, by rw [herr]; rfl⟩

/-- What passed the checks of a decode that succeeds. -/
theorem checks_of_decodeShards {data : Bytes} (h : code.decodeShards slots present dataSize size = .ok data) :
    slots.length = code.scheme.total ∧ size * code.scheme.data < wordLimit ∧ dataSize ≤ size * code.scheme.data ∧
      code.Selects present ∧ ∃ inputs, (present.take code.scheme.data).mapM (presentShard slots size) = .ok inputs := by
  unfold decodeShards checkSlotCount checkCapacity at h
  by_cases hslots : slots.length = code.scheme.total
  swap
  · rw [if_neg hslots] at h
    cases h
  by_cases hcapacity : wordLimit ≤ size * code.scheme.data ∨ size * code.scheme.data < dataSize
  · rw [if_pos hslots, if_pos hcapacity] at h
    cases h
  rw [if_pos hslots, if_neg hcapacity] at h
  cases hselect : code.select present with
  | error e =>
    rw [hselect] at h
    cases h
  | ok selected =>
    obtain ⟨hsel, rfl⟩ := selects_of_select hselect
    cases hin : (present.take code.scheme.data).mapM (presentShard slots size) with
    | error e =>
      rw [hselect] at h
      simp only [bind, Except.bind, hin] at h
      cases h
    | ok inputs => exact ⟨hslots, by omega, by omega, hsel, inputs, rfl⟩

/-! ## Decoding what was encoded -/

/-- As many slots as there are shards, of which the selected ones hold what was encoded. -/
structure Holds (code : Code) (e : Encoded) (slots : Slots) (selected : List Nat) : Prop where
  length_eq : slots.length = code.scheme.total
  stored : ∀ i ∈ selected, slots[i]? = e.shards[i]?.map fun shard => some shard.data

/-- The shards of a codeword that `present` lists, with the other slots empty. -/
def slotsOf (e : Encoded) (present : List Nat) : Slots :=
  e.shards.zipIdx.map fun (shard, i) => if i ∈ present then some shard.data else none

theorem result_encode (code : Code) (data : Bytes) : (code.encode data).result = .ok {
    shards := (code.shardsOf (code.scheme.shardSizeFor data.length) data).zipIdx.map fun (shard, i) =>
      ⟨i, shard, code.scheme.data ≤ i⟩
    shardSize := code.scheme.shardSizeFor data.length
    dataSize := data.length } :=
  rfl

theorem shardSize_encode {data : Bytes} {e : Encoded} (he : (code.encode data).result = .ok e) :
    e.shardSize = code.scheme.shardSizeFor data.length :=
  (congrArg Encoded.shardSize (Except.ok.inj he)).symm

/-- The bytes of the shards, in the order of their indices. -/
theorem map_data_encode {data : Bytes} {e : Encoded} (he : (code.encode data).result = .ok e) :
    e.shards.map Shard.data = code.shardsOf (code.scheme.shardSizeFor data.length) data := by
  rw [result_encode, Except.ok.injEq] at he
  subst he
  apply List.ext_getElem?
  intro i
  simp only [List.getElem?_map, List.getElem?_zipIdx, Option.map_map, Function.comp_def, Option.map_id']

theorem Holds.presentShard_eq {data : Bytes} {e : Encoded} (he : (code.encode data).result = .ok e)
    (h : code.Holds e slots selected) (hlt : ∀ i ∈ selected, i < code.scheme.total) :
    ∀ i ∈ selected, presentShard slots e.shardSize i = .ok ((code.shardsOf e.shardSize data).getD i []) := by
  intro i hi
  rw [result_encode, Except.ok.injEq] at he
  have hslot := h.stored i hi
  have hshard : i < (code.shardsOf (code.scheme.shardSizeFor data.length) data).length := by simpa using hlt i hi
  subst he
  simp only [List.getElem?_map, List.getElem?_zipIdx, List.getElem?_eq_getElem hshard, Option.map_some,
    Nat.zero_add] at hslot
  rw [List.getD_eq_getElem _ _ hshard, presentShard, hslot]
  exact if_pos (length_of_mem_shardsOf code (List.getElem_mem hshard))

theorem holds_slotsOf {data : Bytes} {e : Encoded} (he : (code.encode data).result = .ok e) (present : List Nat) :
    code.Holds e (slotsOf e present) (present.take code.scheme.data) := by
  constructor
  · rw [result_encode, Except.ok.injEq] at he
    simp [← he, slotsOf]
  · intro i hi
    have hmem : i ∈ present := List.mem_of_mem_take hi
    cases h : e.shards[i]? <;> simp [slotsOf, h, hmem]

/-- Decoding the shards of some data, for one selection. -/
theorem decode_cases {data : Bytes} (hdata : data.length < bufferLimit) {e : Encoded}
    (he : (code.encode data).result = .ok e) (hsel : code.Selects present)
    (hhold : code.Holds e slots (present.take code.scheme.data)) (hsize : dataSize ≤ code.scheme.data * e.shardSize) :
    (code.Recoverable (present.take code.scheme.data) ∧
      (code.decode slots present dataSize e.shardSize).result =
        .ok ((data ++ List.replicate (code.scheme.data * e.shardSize - data.length) 0).take dataSize)) ∨
    (¬ code.Recoverable (present.take code.scheme.data) ∧
      (code.decode slots present dataSize e.shardSize).result = .error .singularMatrix) := by
  have hin := mapM_ok (hhold.presentShard_eq he hsel.lt_total)
  have hshardSize : e.shardSize = code.scheme.shardSizeFor data.length := by
    rw [result_encode, Except.ok.injEq] at he
    rw [← he]
  rw [hshardSize] at hsize hin ⊢
  set size := code.scheme.shardSizeFor data.length
  have hword : size * code.scheme.data < wordLimit := by
    rw [Nat.mul_comm]
    exact Scheme.mul_shardSizeFor_lt_wordLimit code.valid hdata
  have hcapacity : dataSize ≤ size * code.scheme.data := by rwa [Nat.mul_comm]
  rw [result_decode]
  rcases decodeShards_cases hhold.length_eq hword hcapacity hsel hin with ⟨hrec, inverse, hsolve, hok⟩ | herr
  · have hfill : data.length ≤ code.scheme.data * size := Scheme.le_mul_shardSizeFor code.valid _
    rw [hsolve.reconstruct_eq hrec hsel.length_take hsel.lt_total hfill] at hok
    exact Or.inl ⟨hrec, hok⟩
  · exact Or.inr herr

end Code

end ShardCoding

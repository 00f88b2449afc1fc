import ShardCoding.Proofs.Code.Uniqueness

/-!
# The order of a selection

* `recoverable_of_perm` : whether a selection is recoverable does not depend on its order; `solution_iff`,
  `Solution.of_perm` : neither does what solves for it, row by row;
* `decodeShards_of_perm` : so a decode does not; `reconstruct_of_perm_range` : the matrix of the data rows, in any order;
* `decode_of_perm` : both, for slots that hold anything.
-/

namespace ShardCoding.Code

open Matrix

variable {code : Code} {slots : Slots} {selected selected' present present' : List Nat} {size dataSize : Nat}
  {inputs inputs' pieces data : List Bytes}

theorem Selects.of_perm (h : code.Selects present)
    (hperm : (present'.take code.scheme.data).Perm (present.take code.scheme.data)) : code.Selects present' := by
  refine ⟨?_, hperm.nodup_iff.2 h.nodup, fun i hi => h.lt_total i (hperm.mem_iff.1 hi)⟩
  have hlen := hperm.length_eq.trans h.length_take
  rw [List.length_take] at hlen
  omega

theorem recoverable_of_perm (hperm : selected'.Perm selected) (hlen : selected.length = code.scheme.data)
    (hlt : ∀ i ∈ selected, i < code.scheme.total) (h : code.Recoverable selected) : code.Recoverable selected' := by
  rw [recoverable_iff hlen hlt] at h
  rw [recoverable_iff (hperm.length_eq.trans hlen) fun i hi => hlt i (hperm.mem_iff.1 hi)]
  rintro ⟨f, hf⟩
  exact h ⟨f, hf.ne_zero, hf.degree_lt, fun i hi => hf.coeff_eq_zero i (hperm.mem_iff.2 hi),
    fun i hi => hf.eval_eq_zero i (hperm.mem_iff.2 hi)⟩

/-- Pieces solve for what is read from the selected slots when the row of each slot takes them to what it holds. -/
theorem solution_iff (hlen : selected.length = code.scheme.data)
    (hin : selected.mapM (presentShard slots size) = .ok inputs) :
    code.Solution selected size inputs pieces ↔
      pieces.length = code.scheme.data ∧ (∀ p ∈ pieces, p.length = size) ∧
      ∀ i ∈ selected, ∀ shard, presentShard slots size i = .ok shard →
        vec code.scheme.data (code.generator.row i) ᵥ* grid code.scheme.data size pieces = vec size shard := by
  have hread := forall₂_of_mapM hin
  have hheld : ∀ (j : Nat) (hj : j < selected.length) (hj' : j < inputs.length),
      presentShard slots size selected[j] = .ok inputs[j] := fun j hj hj' => hread.get hj hj'
  have hrow : ∀ (j : Nat) (hj : j < selected.length) (hj' : j < code.scheme.data),
      (code.selectedRows selected * grid code.scheme.data size pieces) ⟨j, hj'⟩ =
        vec code.scheme.data (code.generator.row selected[j]) ᵥ* grid code.scheme.data size pieces := by
    intro j hj hj'
    rw [Matrix.mul_apply_eq_vecMul, selectedRows, grid_apply _ ⟨j, hj'⟩ (by rwa [List.length_map]), List.getElem_map]
  constructor
  · rintro ⟨hcount, huniform, heq⟩
    refine ⟨hcount, huniform, fun i hi shard hshard => ?_⟩
    obtain ⟨j, hj, rfl⟩ := List.getElem_of_mem hi
    have hj' : j < inputs.length := hread.length_eq ▸ hj
    obtain rfl := Except.ok.inj (hshard.symm.trans (hheld j hj hj'))
    rw [← hrow j hj (hlen ▸ hj), heq, grid_apply _ ⟨j, hlen ▸ hj⟩ hj']
  · rintro ⟨hcount, huniform, hrows⟩
    refine ⟨hcount, huniform, funext fun k => ?_⟩
    obtain ⟨j, hj⟩ := k
    have hj' : j < selected.length := by rwa [hlen]
    have hj'' : j < inputs.length := hread.length_eq ▸ hj'
    rw [hrow j hj' hj, hrows _ (List.getElem_mem hj') _ (hheld j hj' hj''), grid_apply _ ⟨j, hj⟩ hj'']

theorem Solution.of_perm (h : code.Solution selected size inputs pieces) (hperm : selected'.Perm selected)
    (hlen : selected.length = code.scheme.data) (hin : selected.mapM (presentShard slots size) = .ok inputs)
    (hin' : selected'.mapM (presentShard slots size) = .ok inputs') : code.Solution selected' size inputs' pieces := by
  obtain ⟨hcount, huniform, hrows⟩ := (solution_iff hlen hin).1 h
  rw [solution_iff (hperm.length_eq.trans hlen) hin']
  exact ⟨hcount, huniform, fun i hi => hrows i (hperm.mem_iff.1 hi)⟩

/-- What is reconstructed does not depend on the order. -/
theorem Solves.reconstruct_of_perm {inverse inverse' : Option ByteMatrix} (h : code.Solves selected inverse)
    (h' : code.Solves selected' inverse') (hrec : code.Recoverable selected) (hperm : selected'.Perm selected)
    (hlen : selected.length = code.scheme.data) (hlt : ∀ i ∈ selected, i < code.scheme.total)
    (hin : selected.mapM (presentShard slots size) = .ok inputs)
    (hin' : selected'.mapM (presentShard slots size) = .ok inputs') :
    reconstruct inverse' size inputs' = reconstruct inverse size inputs := by
  obtain ⟨hcount, huniform⟩ := length_of_mem_inputs hin
  obtain ⟨hcount', huniform'⟩ := length_of_mem_inputs hin'
  obtain ⟨pieces, hpieces, hflat⟩ := h size inputs (hcount.trans hlen) huniform
  obtain ⟨pieces', hpieces', hflat'⟩ := h' size inputs' (hcount'.trans (hperm.length_eq.trans hlen)) huniform'
  have hsame := (hpieces.of_perm hperm hlen hin hin').unique (recoverable_of_perm hperm hlen hlt hrec) hpieces'
  rw [hflat, hflat', hsame]

theorem decodeShards_of_perm (hsel : code.Selects present)
    (hperm : (present'.take code.scheme.data).Perm (present.take code.scheme.data))
    (hin : (present.take code.scheme.data).mapM (presentShard slots size) = .ok inputs)
    (hin' : (present'.take code.scheme.data).mapM (presentShard slots size) = .ok inputs') (dataSize : Nat) :
    code.decodeShards slots present' dataSize size = code.decodeShards slots present dataSize size := by
  have hsel' := hsel.of_perm hperm
  have hmatrix : ((code.inverseFor (present'.take code.scheme.data)).map fun inverse =>
        (reconstruct inverse size inputs').take dataSize) =
      (code.inverseFor (present.take code.scheme.data)).map fun inverse =>
        (reconstruct inverse size inputs).take dataSize := by
    rcases inverseFor_cases hsel.length_take hsel.lt_total with ⟨hrec, inverse, hinv, hsolves⟩ | ⟨hrec, herr⟩
    all_goals rcases inverseFor_cases hsel'.length_take hsel'.lt_total with
      ⟨hrec', inverse', hinv', hsolves'⟩ | ⟨hrec', herr'⟩
    · rw [hinv, hinv', Except.map, Except.map, hsolves.reconstruct_of_perm hsolves' hrec hperm hsel.length_take
        hsel.lt_total hin hin']
    · exact absurd (recoverable_of_perm hperm hsel.length_take hsel.lt_total hrec) hrec'
    · exact absurd (recoverable_of_perm hperm.symm hsel'.length_take hsel'.lt_total hrec') hrec
    · rw [herr, herr']
      rfl
  rw [decodeShards_of_inputs hsel hin, decodeShards_of_inputs hsel' hin', hmatrix]

/-! ## The data shards themselves -/

theorem take_range (code : Code) : (List.range code.scheme.data).take code.scheme.data = List.range code.scheme.data :=
  List.take_of_length_le List.length_range.le

theorem selects_range (code : Code) : code.Selects (List.range code.scheme.data) := by
  refine ⟨List.length_range.ge, ?_, ?_⟩ <;> rw [take_range]
  · exact List.nodup_range
  · exact fun i hi => (List.mem_range.1 hi).trans_le code.data_le_total

/-- In their order the data shards are put one after another, without a matrix. -/
theorem decodeShards_range (hslots : slots.length = code.scheme.total)
    (hcapacity : code.checkCapacity dataSize size = .ok ())
    (hdata : (List.range code.scheme.data).mapM (presentShard slots size) = .ok data) :
    code.decodeShards slots (List.range code.scheme.data) dataSize size =
      .ok ((reconstruct none size data).take dataSize) := by
  have hin : ((List.range code.scheme.data).take code.scheme.data).mapM (presentShard slots size) = .ok data := by
    rwa [take_range]
  rw [decodeShards_of_inputs code.selects_range hin, take_range, checkSlotCount, if_pos hslots, hcapacity, inverseFor,
    if_pos rfl]
  rfl

/-- In any order, their own included, the matrix of their rows has an inverse, and it yields the same bytes. -/
theorem reconstruct_of_perm_range (hperm : selected.Perm (List.range code.scheme.data))
    (hin : selected.mapM (presentShard slots size) = .ok inputs)
    (hdata : (List.range code.scheme.data).mapM (presentShard slots size) = .ok data) :
    ∃ m inverse, code.generator.selectRows selected = .ok m ∧ m.invert = .ok inverse ∧
      reconstruct (some inverse) size inputs = reconstruct none size data := by
  have hlen : (List.range code.scheme.data).length = code.scheme.data := List.length_range
  have hlt : ∀ i ∈ List.range code.scheme.data, i < code.scheme.total := by
    intro i hi
    exact (List.mem_range.1 hi).trans_le code.data_le_total
  have hrec := recoverable_of_perm hperm hlen hlt code.recoverable_range
  obtain ⟨m, hm, ⟨-, inverse, hinv, hsolves⟩ | ⟨hnot, -⟩⟩ :=
    invert_selectRows_cases (hperm.length_eq.trans hlen) fun i hi => hlt i (hperm.mem_iff.1 hi)
  · refine ⟨m, inverse, hm, hinv, ?_⟩
    exact code.solves_range.reconstruct_of_perm hsolves code.recoverable_range hperm hlen hlt hdata hin
  · exact absurd hrec hnot

/-- **The order of a selection is irrelevant**: two lists that begin with the same `k` indices in any order decode to the
same bytes or are both refused, whatever the slots hold; with the sizes checked nothing but a singular matrix is refused.
Where these indices are those of the data shards the matrix has an inverse in any order, their own included, and what it
yields is the data shards one after another, which is what a decode yields. -/
theorem decode_of_perm (code : Code) (slots : Slots) (size : Nat) :
    (∀ (present present' : List Nat) (dataSize : Nat), code.Selects present →
      (present'.take code.scheme.data).Perm (present.take code.scheme.data) →
      (∀ i ∈ present.take code.scheme.data, ∃ shard, slots[i]? = some (some shard) ∧ shard.length = size) →
        let decoding := code.decode slots present dataSize size
        (code.decode slots present' dataSize size).result = decoding.result ∧
        (slots.length = code.scheme.total → code.checkCapacity dataSize size = .ok () →
          (∃ data, decoding.result = .ok data) ∨ decoding.result = .error .singularMatrix)) ∧
    ∀ (present : List Nat) (inputs data : List Bytes),
      (present.take code.scheme.data).Perm (List.range code.scheme.data) →
      (present.take code.scheme.data).mapM (presentShard slots size) = .ok inputs →
      (List.range code.scheme.data).mapM (presentShard slots size) = .ok data →
        (∃ m inverse, code.generator.selectRows (present.take code.scheme.data) = .ok m ∧ m.invert = .ok inverse ∧
          reconstruct (some inverse) size inputs = reconstruct none size data) ∧
        ∀ dataSize, slots.length = code.scheme.total → code.checkCapacity dataSize size = .ok () →
          (code.decode slots present dataSize size).result = .ok ((reconstruct none size data).take dataSize) := by
  refine ⟨fun present present' dataSize hsel hperm hheld => ?_, fun present inputs data hperm hin hdata => ?_⟩
  · have hreads : ∀ i ∈ present.take code.scheme.data, ∃ shard, presentShard slots size i = .ok shard := by
      intro i hi
      obtain ⟨shard, hshard⟩ := hheld i hi
      exact ⟨shard, presentShard_eq_ok.2 hshard⟩
    choose! shard hshard using hreads
    have hin := mapM_ok hshard
    have hin' := mapM_ok fun i hi => hshard i (hperm.mem_iff.1 hi)
    dsimp only
    rw [result_decode, result_decode]
    refine ⟨decodeShards_of_perm hsel hperm hin hin' dataSize, fun hslots hcapacity => ?_⟩
    rw [decodeShards_of_inputs hsel hin, checkSlotCount, if_pos hslots, hcapacity]
    rcases inverseFor_cases hsel.length_take hsel.lt_total with ⟨-, inverse, hinv, -⟩ | ⟨-, herr⟩
    · rw [hinv]
      exact Or.inl ⟨_, rfl⟩
    · rw [herr]
      exact Or.inr rfl
  · refine ⟨reconstruct_of_perm_range hperm hin hdata, fun dataSize hslots hcapacity => ?_⟩
    rw [← code.take_range] at hperm
    have hin' := hdata
    rw [← code.take_range] at hin'
    rw [result_decode, decodeShards_of_perm code.selects_range hperm hin' hin, decodeShards_range hslots hcapacity hdata]

/-- Slots that no encode has filled. From a data and a parity slot the order makes no difference; the data slots in the
other order yield what they hold, in their own order. -/
theorem decode_of_perm_two_one : ∃ (code : Code) (slots : Slots) (m inverse : ByteMatrix),
    code.scheme = ⟨2, 1⟩ ∧ slots = [some [5, 6], some [1, 1], some [7, 8]] ∧
    (code.decode slots [0, 2] 3 2).result = (code.decode slots [2, 0, 1] 3 2).result ∧
    code.generator.selectRows [1, 0] = .ok m ∧ m.invert = .ok inverse ∧
    reconstruct (some inverse) 2 [[1, 1], [5, 6]] = [5, 6, 1, 1] ∧
    (code.decode slots [1, 0, 7] 3 2).result = .ok [5, 6, 1] := by
  let code := ofValid ⟨2, 1⟩ (by decide)
  let slots : Slots := [some [5, 6], some [1, 1], some [7, 8]]
  obtain ⟨horder, hmatrix⟩ := decode_of_perm code slots 2
  have hheld : ∀ i ∈ [2, 0], ∃ shard, slots[i]? = some (some shard) ∧ shard.length = 2 := by
    intro i hi
    simp only [List.mem_cons, List.not_mem_nil, or_false] at hi
    rcases hi with rfl | rfl
    · exact ⟨[7, 8], rfl, rfl⟩
    · exact ⟨[5, 6], rfl, rfl⟩
  obtain ⟨hsame, -⟩ := horder [2, 0, 1] [0, 2] 3 ⟨by decide, by decide, by decide⟩ (by decide) hheld
  obtain ⟨⟨m, inverse, hm, hinv, hreconstruct⟩, hdecode⟩ :=
    hmatrix [1, 0, 7] [[1, 1], [5, 6]] [[5, 6], [1, 1]] (by decide) rfl rfl
  exact ⟨code, slots, m, inverse, rfl, rfl, hsame, hm, hinv, hreconstruct, hdecode 3 rfl rfl⟩

end ShardCoding.Code

import ShardCoding.Proofs.Code.Effects
import ShardCoding.Proofs.Code.Verification

/-!
# Rebuilding parity

* `mem_unlisted`, `unlisted_eq` : the parity indices that a repair rebuilds;
* `Code.Repairable` : what a repair asks of its arguments; `Code.Rebuilt` : what it does to the slots;
  `Repairable.result_repair` : its outcome when it is asked nothing impossible; `of_result_repair` : it succeeds on
  nothing else;
* `without` : shards of which some are dropped; `FullSet.result_repair` : rebuilding the parity shards that were dropped
  from an encoding gives the encoding back.
-/

namespace ShardCoding

/-- Of slots that are replaced one after another those named keep what they are given last. -/
theorem getElem?_foldl_set {α : Type} (f : Nat → α) (indices : List Nat) (slots : List α) (j : Nat) :
    (indices.foldl (fun s i => s.set i (f i)) slots)[j]? =
      if j ∈ indices ∧ j < slots.length then some (f j) else slots[j]? := by
  induction indices generalizing slots with
  | nil => simp
  | cons i indices ih =>
    rw [List.foldl_cons, ih, List.length_set]
    by_cases hj : j ∈ indices ∧ j < slots.length
    · rw [if_pos hj, if_pos ⟨List.mem_cons_of_mem i hj.1, hj.2⟩]
    · rw [if_neg hj, List.getElem?_set]
      by_cases hij : i = j
      · subst hij
        by_cases hi : i < slots.length
        · simp [hi]
        · simp [hi]
      · have hcons : ¬ (j ∈ i :: indices ∧ j < slots.length) := by
          rw [List.mem_cons]
          rintro ⟨rfl | hmem, hlt⟩
          · exact hij rfl
          · exact hj ⟨hmem, hlt⟩
        rw [if_neg hij, if_neg hcons]

theorem length_foldl_set {α : Type} (f : Nat → α) (indices : List Nat) (slots : List α) :
    (indices.foldl (fun s i => s.set i (f i)) slots).length = slots.length := by
  induction indices generalizing slots with
  | nil => rfl
  | cons i indices ih => rw [List.foldl_cons, ih, List.length_set]

/-- A loop that only checks goes through exactly when every check does. -/
theorem forIn_eq_ok_iff {α β : Type} {l : List α} {f : α → Except CodingError β} :
    (forIn l PUnit.unit fun a _ => do
      let _ ← f a
      pure (ForInStep.yield PUnit.unit)) = Except.ok PUnit.unit ↔ ∀ a ∈ l, ∃ b, f a = .ok b := by
  induction l with
  | nil => simp [pure, Except.pure]
  | cons a l ih =>
    rw [List.forIn_cons, List.forall_mem_cons, ← ih]
    cases f a with
    | error e =>
      refine iff_of_false nofun ?_
      rintro ⟨⟨b, hb⟩, -⟩
      cases hb
    | ok b => exact (and_iff_right ⟨b, rfl⟩).symm

namespace Code

variable {code : Code} {size dataSize : Nat} {shards : List Bytes} {slots slots' : Slots} {present : List Nat}

theorem unlisted_eq (code : Code) (present : List Nat) : code.unlisted present =
    (List.range' code.scheme.data code.scheme.parity).filter (· ∉ present) := by
  rw [List.range'_eq_map_range]
  rfl

theorem mem_unlisted {i : Nat} :
    i ∈ code.unlisted present ↔ code.scheme.data ≤ i ∧ i < code.scheme.total ∧ i ∉ present := by
  rw [unlisted_eq, List.mem_filter, code.mem_parityRange, decide_eq_true_eq, and_assoc]

/-- The arguments of a repair that is not refused. -/
structure Repairable (code : Code) (slots : Slots) (present : List Nat) (dataSize size : Nat) : Prop where
  length_eq : slots.length = code.scheme.total
  capacity_lt : size * code.scheme.data < wordLimit
  capacity_le : dataSize ≤ size * code.scheme.data
  lt_total : ∀ i ∈ present, i < code.scheme.total
  data_listed : ∀ i < code.scheme.data, i ∈ present
  held : ∀ i ∈ present, ∃ shard, slots[i]? = some (some shard) ∧ shard.length = size

/-- `slots'` are `slots` with new parity shards in the slots that are not listed. -/
structure Rebuilt (code : Code) (slots : Slots) (present : List Nat) (size : Nat) (slots' : Slots) : Prop where
  length_eq : slots'.length = slots.length
  kept : ∀ i, i ∉ code.unlisted present → slots'[i]? = slots[i]?
  renewed : ∀ i ∈ code.unlisted present, slots'[i]? =
    some (some (code.parityShard (i - code.scheme.data) size (slots.take code.scheme.data).reduceOption))

/-- The data shards that a repair reads are those in the data slots. -/
theorem Repairable.mapM_presentShard (h : code.Repairable slots present dataSize size) :
    (List.range code.scheme.data).mapM (presentShard slots size) =
      .ok (slots.take code.scheme.data).reduceOption := by
  have hheld : ∀ i < code.scheme.data, ∃ shard, slots[i]? = some (some shard) ∧ shard.length = size := by
    intro i hi
    exact h.held i (h.data_listed i hi)
  choose! g hslot hsize using hheld
  have hdata : slots.take code.scheme.data = ((List.range code.scheme.data).map g).map some := by
    apply List.ext_getElem?
    intro i
    rw [List.getElem?_take, List.getElem?_map, List.getElem?_map]
    by_cases hi : i < code.scheme.data
    · rw [if_pos hi, hslot i hi, List.getElem?_range hi]
      rfl
    · rw [if_neg hi, List.getElem?_eq_none (by rw [List.length_range]; omega)]
      rfl
  rw [hdata, reduceOption_map_some]
  apply mapM_ok
  intro i hi
  rw [List.mem_range] at hi
  exact presentShard_eq_ok.2 ⟨hslot i hi, hsize i hi⟩

/-- Setting one unlisted slot after another. -/
theorem rebuilt_foldl (hlen : slots.length = code.scheme.total) : code.Rebuilt slots present size
    ((code.unlisted present).foldl (fun s i => s.set i (some
      (code.parityShard (i - code.scheme.data) size (slots.take code.scheme.data).reduceOption))) slots) := by
  refine ⟨length_foldl_set _ _ _, ?_, ?_⟩
  · intro i hi
    rw [getElem?_foldl_set, if_neg fun hmem => hi hmem.1]
  · intro i hi
    have hlt : i < slots.length := by
      rw [hlen]
      exact (mem_unlisted.1 hi).2.1
    rw [getElem?_foldl_set, if_pos ⟨hi, hlt⟩]

theorem Repairable.repairShards_eq (h : code.Repairable slots present dataSize size) :
    ∃ slots', code.repairShards slots present dataSize size = .ok (slots', code.unlisted present) ∧
      code.Rebuilt slots present size slots' := by
  have hfind : present.find? (code.scheme.total ≤ ·) = none := by
    rw [List.find?_eq_none]
    intro i hi
    simpa using h.lt_total i hi
  have hdata : ((List.range code.scheme.data).filter (· ∈ present)).length = code.scheme.data := by
    have hall : (List.range code.scheme.data).filter (· ∈ present) = List.range code.scheme.data := by
      rw [List.filter_eq_self]
      intro i hi
      exact decide_eq_true (h.data_listed i (List.mem_range.1 hi))
    rw [hall, List.length_range]
  have hcheck : ∀ i ∈ present.filter (code.scheme.data ≤ ·), ∃ shard, presentShard slots size i = .ok shard := by
    intro i hi
    obtain ⟨shard, hslot, hsize⟩ := h.held i (List.mem_of_mem_filter hi)
    exact ⟨shard, presentShard_eq_ok.2 ⟨hslot, hsize⟩⟩
  have hloop := forIn_eq_ok_iff.2 hcheck
  have hcapacity : ¬ (wordLimit ≤ size * code.scheme.data ∨ size * code.scheme.data < dataSize) := by
    rw [not_or, Nat.not_le, Nat.not_lt]
    exact ⟨h.capacity_lt, h.capacity_le⟩
  refine ⟨_, ?_, rebuilt_foldl h.length_eq⟩
  unfold repairShards checkSlotCount checkCapacity
  rw [if_pos h.length_eq, if_neg hcapacity]
  simp only [bind, Except.bind, hfind, hdata, h.mapM_presentShard, lt_irrefl, if_false] at hloop ⊢
  rw [hloop]
  rfl

/-- A repair that is asked nothing impossible rebuilds the parity shards that are not listed. -/
theorem Repairable.result_repair (h : code.Repairable slots present dataSize size) :
    ∃ slots', (code.repair slots present dataSize size).result =
        .ok ⟨slots', code.unlisted present, (code.unlisted present).length * size⟩ ∧
      code.Rebuilt slots present size slots' := by
  obtain ⟨slots', hrun, hrebuilt⟩ := h.repairShards_eq
  refine ⟨slots', ?_, hrebuilt⟩
  unfold repair
  rw [hrun]
  simp only [bind, Traced.andThen, Traced.ofExcept, Traced.guarded]
  generalize code.unlisted present = missing
  cases missing <;> rfl

/-- Nothing else is repaired: a repair that succeeds has come past every check. -/
theorem repairable_of_repairShards {repaired : Slots × List Nat}
    (h : code.repairShards slots present dataSize size = .ok repaired) :
    code.Repairable slots present dataSize size := by
  unfold repairShards at h
  obtain ⟨_, hcount, h⟩ := exists_of_bind_eq_ok h
  obtain ⟨_, hcapacity, h⟩ := exists_of_bind_eq_ok h
  split at h
  · obtain ⟨_, hthrow, -⟩ := exists_of_bind_eq_ok h
    cases hthrow
  next hrange =>
  dsimp only at h
  split at h
  · obtain ⟨_, hthrow, -⟩ := exists_of_bind_eq_ok h
    cases hthrow
  next hlisted =>
  obtain ⟨_, hparity, h⟩ := exists_of_bind_eq_ok h
  obtain ⟨data, hdata, -⟩ := exists_of_bind_eq_ok h
  have hlength : slots.length = code.scheme.total := by
    unfold checkSlotCount at hcount
    by_contra hne
    rw [if_neg hne] at hcount
    cases hcount
  have hroom : ¬ (wordLimit ≤ size * code.scheme.data ∨ size * code.scheme.data < dataSize) := by
    unfold checkCapacity at hcapacity
    intro hfull
    rw [if_pos hfull] at hcapacity
    cases hcapacity
  have hfind : present.find? (code.scheme.total ≤ ·) = none := Option.eq_none_iff_forall_ne_some.2 hrange
  have hall : (List.range code.scheme.data).filter (· ∈ present) = List.range code.scheme.data := by
    have hlen := Nat.le_antisymm (List.length_filter_le _ _) (List.length_range.trans_le (Nat.not_lt.1 hlisted))
    exact List.filter_sublist.eq_of_length hlen
  refine ⟨hlength, by omega, by omega, fun i hi => ?_, fun i hi => ?_, fun i hi => ?_⟩
  · simpa using List.find?_eq_none.1 hfind i hi
  · simpa using List.filter_eq_self.1 hall i (List.mem_range.2 hi)
  · have hread : ∃ shard, presentShard slots size i = .ok shard := by
      rcases Nat.lt_or_ge i code.scheme.data with hi' | hi'
      · obtain ⟨shard, -, hshard⟩ := (getElem?_of_mapM_range hdata).2 i hi'
        exact ⟨shard, hshard⟩
      · exact forIn_eq_ok_iff.1 hparity i (List.mem_filter.2 ⟨hi, by simpa using hi'⟩)
    obtain ⟨shard, hshard⟩ := hread
    exact ⟨shard, presentShard_eq_ok.1 hshard⟩

/-- What a repair that succeeds says of its arguments and yields. -/
theorem of_result_repair {r : Repair} (h : (code.repair slots present dataSize size).result = .ok r) :
    code.Repairable slots present dataSize size ∧ code.Rebuilt slots present size r.slots ∧
      r.repairedIndices = code.unlisted present ∧ r.bytesRepaired = (code.unlisted present).length * size := by
  have hrepairable : code.Repairable slots present dataSize size := by
    rw [repair_traced] at h
    split at h
    · cases h
    · next hrun => exact repairable_of_repairShards hrun
  obtain ⟨slots', hok, hrebuilt⟩ := hrepairable.result_repair
  obtain rfl := Except.ok.inj (hok.symm.trans h)
  exact ⟨hrepairable, hrebuilt, rfl, rfl⟩

/-- What is rebuilt has the length of the others. -/
theorem Rebuilt.exists_renewed (h : code.Rebuilt slots present size slots')
    (hrepairable : code.Repairable slots present dataSize size) {i : Nat} (hi : i ∈ code.unlisted present) :
    ∃ shard, slots'[i]? = some (some shard) ∧ shard.length = size := by
  refine ⟨_, h.renewed i hi, length_combine (fun line hline => ?_) _⟩
  rw [List.reduceOption_mem_iff] at hline
  obtain ⟨j, hj, hget⟩ := List.mem_take_iff_getElem.1 hline
  rw [Nat.lt_min] at hj
  obtain ⟨shard, hshard, hsize⟩ := hrepairable.held j (hrepairable.data_listed j hj.1)
  rw [List.getElem?_eq_getElem hj.2, hget] at hshard
  obtain rfl := Option.some.inj (Option.some.inj hshard)
  exact hsize

end Code

/-! ## Dropped parity shards -/

/-- The shards in their slots, apart from those that are dropped. -/
def without (shards : List Bytes) (dropped : List Nat) : Slots :=
  shards.zipIdx.map fun (shard, i) => if i ∈ dropped then none else some shard

theorem getElem?_without (shards : List Bytes) (dropped : List Nat) (i : Nat) :
    (without shards dropped)[i]? = if i ∈ dropped then shards[i]?.map fun _ => none else (shards.map some)[i]? := by
  unfold without
  rw [List.getElem?_map, List.getElem?_zipIdx, List.getElem?_map, Nat.zero_add, Option.map_map]
  by_cases hi : i ∈ dropped
  · rw [if_pos hi]
    apply Option.map_congr
    intro shard _
    exact if_pos hi
  · rw [if_neg hi]
    apply Option.map_congr
    intro shard _
    exact if_neg hi

@[simp] theorem length_without (shards : List Bytes) (dropped : List Nat) :
    (without shards dropped).length = shards.length := by
  simp [without]

namespace Code

variable {code : Code} {size dataSize : Nat} {shards : List Bytes} {slots slots' : Slots} {dropped present : List Nat}

/-- What is left of an encoding is rebuilt to the encoding. -/
theorem Rebuilt.eq_map_some (h : code.Rebuilt slots present size slots') (hfull : code.FullSet size shards)
    (hword : shards = code.reencoded size shards)
    (hleft : ∀ i, i ∉ code.unlisted present → slots[i]? = (shards.map some)[i]?) : slots' = shards.map some := by
  have hdata : (slots.take code.scheme.data).reduceOption = shards.take code.scheme.data := by
    have htake : slots.take code.scheme.data = (shards.take code.scheme.data).map some := by
      apply List.ext_getElem?
      intro i
      rw [List.map_take, List.getElem?_take, List.getElem?_take]
      by_cases hi : i < code.scheme.data
      · rw [if_pos hi, if_pos hi, hleft i fun hmem => by have := (mem_unlisted.1 hmem).1; omega]
      · rw [if_neg hi, if_neg hi]
    rw [htake, reduceOption_map_some]
  apply List.ext_getElem?
  intro i
  by_cases hi : i ∈ code.unlisted present
  · obtain ⟨hik, hin, -⟩ := mem_unlisted.1 hi
    have hparity := hfull.getElem?_reencoded_parity (p := i - code.scheme.data) (by rw [code.total_eq] at hin; omega)
    rw [Nat.add_sub_of_le hik, ← hword] at hparity
    rw [h.renewed i hi, hdata, List.getElem?_map, hparity]
    rfl
  · rw [h.kept i hi, hleft i hi]

/-- **Repair after loss**: when parity shards of an encoding are dropped and the others are listed, a repair rebuilds
those that were dropped and nothing else. -/
theorem FullSet.result_repair (h : code.FullSet size shards) (hword : shards = code.reencoded size shards)
    (hcapacity : size * code.scheme.data < wordLimit) (hsize : dataSize ≤ size * code.scheme.data)
    (hdropped : ∀ i ∈ dropped, code.scheme.data ≤ i)
    (hpresent : ∀ i, i ∈ present ↔ i < code.scheme.total ∧ i ∉ dropped) :
    (code.repair (without shards dropped) present dataSize size).result = .ok {
      slots := shards.map some
      repairedIndices := (List.range' code.scheme.data code.scheme.parity).filter (· ∈ dropped)
      bytesRepaired := ((List.range' code.scheme.data code.scheme.parity).filter (· ∈ dropped)).length * size } := by
  have hunlisted : code.unlisted present =
      (List.range' code.scheme.data code.scheme.parity).filter (· ∈ dropped) := by
    rw [unlisted_eq]
    apply List.filter_congr
    intro i hi
    have hin : i < code.scheme.total := (code.mem_parityRange.1 hi).2
    rw [decide_eq_decide, hpresent]
    tauto
  have hleft : ∀ i, i ∉ code.unlisted present → (without shards dropped)[i]? = (shards.map some)[i]? := by
    intro i hi
    rw [getElem?_without]
    by_cases hdrop : i ∈ dropped
    · have hpast : shards.length ≤ i := by
        rw [h.length_eq]
        by_contra hlt
        exact hi (mem_unlisted.2 ⟨hdropped i hdrop, Nat.not_le.1 hlt, fun hmem => ((hpresent i).1 hmem).2 hdrop⟩)
      rw [if_pos hdrop, List.getElem?_map, List.getElem?_eq_none hpast]
      rfl
    · rw [if_neg hdrop]
  have hrepairable : code.Repairable (without shards dropped) present dataSize size := by
    refine ⟨?_, hcapacity, hsize, fun i hi => ((hpresent i).1 hi).1, ?_, ?_⟩
    · rw [length_without, h.length_eq]
    · intro i hi
      exact (hpresent i).2 ⟨Nat.lt_of_lt_of_le hi code.data_le_total, fun hdrop => by have := hdropped i hdrop; omega⟩
    · intro i hi
      obtain ⟨hin, hdrop⟩ := (hpresent i).1 hi
      have hlt : i < shards.length := by rwa [h.length_eq]
      refine ⟨shards[i], ?_, h.uniform _ (List.getElem_mem hlt)⟩
      rw [getElem?_without, if_neg hdrop, List.getElem?_map, List.getElem?_eq_getElem hlt]
      rfl
  obtain ⟨slots', hrun, hrebuilt⟩ := hrepairable.result_repair
  rw [hrun, hrebuilt.eq_map_some h hword hleft, hunlisted]

end Code

end ShardCoding

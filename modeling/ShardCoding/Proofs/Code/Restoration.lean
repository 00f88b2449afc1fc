import ShardCoding.Proofs.Code.Repair

/-!
# The set that a repair leaves

* `Rebuilt.dataIn_eq`, `Rebuilt.exists_fullSet` : a repair leaves the data as it is, and no slot empty;
  `Rebuilt.repairShards_again` : a second repair changes nothing;
* `Rebuilt.getElem?_slots_encode` : what a repair rebuilds is what the data is encoded to; `Rebuilt.result_verify` : what a
  verification then finds;
* `repair_exact` : when a repair succeeds, what it does then, and what a verification finds afterwards.
-/

namespace ShardCoding.Code

variable {code : Code} {slots slots' : Slots} {present : List Nat} {dataSize size : Nat} {shards : List Bytes}

theorem Rebuilt.take_eq (h : code.Rebuilt slots present size slots') :
    slots'.take code.scheme.data = slots.take code.scheme.data := by
  apply List.ext_getElem?
  intro i
  rw [List.getElem?_take, List.getElem?_take]
  by_cases hi : i < code.scheme.data
  · rw [if_pos hi, if_pos hi]
    exact h.kept i fun hmem => Nat.not_lt.2 (mem_unlisted.1 hmem).1 hi
  · rw [if_neg hi, if_neg hi]

theorem Rebuilt.dataIn_eq (h : code.Rebuilt slots present size slots') : code.dataIn slots' = code.dataIn slots := by
  rw [dataIn, dataIn, h.take_eq]

/-- Every index is listed, or it is that of a parity shard to rebuild. -/
theorem Repairable.mem_or_mem_unlisted (h : code.Repairable slots present dataSize size) {i : Nat}
    (hi : i < code.scheme.total) : i ∈ present ∨ i ∈ code.unlisted present := by
  by_cases hpresent : i ∈ present
  · exact Or.inl hpresent
  · refine Or.inr (mem_unlisted.2 ⟨?_, hi, hpresent⟩)
    by_contra hdata
    exact hpresent (h.data_listed i (Nat.not_le.1 hdata))

theorem Rebuilt.kept_of_mem (h : code.Rebuilt slots present size slots') {i : Nat} (hi : i ∈ present) :
    slots'[i]? = slots[i]? :=
  h.kept i fun hmem => (mem_unlisted.1 hmem).2.2 hi

/-- Afterwards a listed slot holds the shard that it held, and every other one a new shard. -/
theorem Rebuilt.exists_fullSet (h : code.Rebuilt slots present size slots')
    (hrepairable : code.Repairable slots present dataSize size) :
    ∃ shards, slots' = shards.map some ∧ code.FullSet size shards := by
  have hheld : ∀ i < code.scheme.total, ∃ shard, slots'[i]? = some (some shard) ∧ shard.length = size := by
    intro i hi
    rcases hrepairable.mem_or_mem_unlisted hi with hpresent | hunlisted
    · rw [h.kept_of_mem hpresent]
      exact hrepairable.held i hpresent
    · exact h.exists_renewed hrepairable hunlisted
  choose! shard hslot hsize using hheld
  refine ⟨(List.range code.scheme.total).map shard, ?_, by simp, ?_⟩
  · apply List.ext_getElem?
    intro i
    rw [List.getElem?_map, List.getElem?_map]
    by_cases hi : i < code.scheme.total
    · rw [hslot i hi, List.getElem?_range hi]
      rfl
    · rw [List.getElem?_eq_none (by rw [h.length_eq, hrepairable.length_eq]; omega),
        List.getElem?_eq_none (by rw [List.length_range]; omega)]
      rfl
  · intro s hs
    obtain ⟨i, hi, rfl⟩ := List.mem_map.1 hs
    exact hsize i (List.mem_range.1 hi)

/-- A repaired set is repaired again when the rebuilt slots are listed too, and stays as it is. -/
theorem Rebuilt.repairShards_again (h : code.Rebuilt slots present size slots')
    (hrepairable : code.Repairable slots present dataSize size) {present' : List Nat}
    (hpresent' : ∀ i, i ∈ present' ↔ i ∈ present ∨ i ∈ code.unlisted present) :
    code.repairShards slots' present' dataSize size = .ok (slots', []) := by
  have hall : code.unlisted present' = [] := by
    rw [List.eq_nil_iff_forall_not_mem]
    intro i hi
    obtain ⟨-, hin, hnot⟩ := mem_unlisted.1 hi
    exact hnot ((hpresent' i).2 (hrepairable.mem_or_mem_unlisted hin))
  have hagain : code.Repairable slots' present' dataSize size := by
    refine ⟨h.length_eq.trans hrepairable.length_eq, hrepairable.capacity_lt, hrepairable.capacity_le,
      fun i hi => ?_, fun i hi => ?_, fun i hi => ?_⟩
    · rcases (hpresent' i).1 hi with hlisted | hrebuilt
      · exact hrepairable.lt_total i hlisted
      · exact (mem_unlisted.1 hrebuilt).2.1
    · exact (hpresent' i).2 (Or.inl (hrepairable.data_listed i hi))
    · rcases (hpresent' i).1 hi with hlisted | hrebuilt
      · rw [h.kept_of_mem hlisted]
        exact hrepairable.held i hlisted
      · exact h.exists_renewed hrepairable hrebuilt
  obtain ⟨slots'', hok, hrebuilt⟩ := hagain.repairShards_eq
  rw [hall] at hok
  obtain rfl : slots'' = slots' := by
    apply List.ext_getElem?
    intro i
    exact hrebuilt.kept i (by rw [hall]; exact List.not_mem_nil)
  exact hok

/-- A rebuilt slot holds the shard that the data is encoded to. -/
theorem Rebuilt.getElem?_slots_encode (h : code.Rebuilt slots present size slots')
    (hrepairable : code.Repairable slots present dataSize size) {e : Encoded}
    (he : (code.encode (code.dataIn slots)).result = .ok e) {i : Nat} (hi : i ∈ code.unlisted present) :
    slots'[i]? = e.slots[i]? := by
  obtain ⟨shards, hslots, hfull⟩ := h.exists_fullSet hrepairable
  obtain ⟨hik, hin, -⟩ := mem_unlisted.1 hi
  have hdata : (slots.take code.scheme.data).reduceOption = shards.take code.scheme.data := by
    rw [← h.take_eq, hslots, ← List.map_take, reduceOption_map_some]
  have hparity := hfull.getElem?_reencoded_parity (p := i - code.scheme.data) (by rw [code.total_eq] at hin; omega)
  rw [Nat.add_sub_of_le hik] at hparity
  rw [← h.dataIn_eq, hslots] at he
  rw [h.renewed i hi, hfull.slots_encode he, List.getElem?_map, hparity, hdata]
  rfl

/-- The parity shards that do not fit the data after a repair are those that were listed and did not fit it before. -/
theorem Rebuilt.mismatches_eq (h : code.Rebuilt slots present size (shards.map some)) (hfull : code.FullSet size shards)
    (hrepairable : code.Repairable slots present dataSize size) {e : Encoded}
    (he : (code.encode (code.dataIn slots)).result = .ok e) :
    code.mismatches size shards = (List.range' code.scheme.data code.scheme.parity).filter fun i =>
      i ∈ present ∧ slots[i]? ≠ e.slots[i]? := by
  have hencoded : e.slots = (code.reencoded size shards).map some := by
    rw [← h.dataIn_eq] at he
    exact hfull.slots_encode he
  rw [hfull.mismatches_eq]
  apply List.filter_congr
  intro i hi
  have hdiffers : shards[i]? ≠ (code.reencoded size shards)[i]? ↔ (shards.map some)[i]? ≠ e.slots[i]? := by
    rw [hencoded, List.getElem?_map, List.getElem?_map, Ne, Ne,
      (Option.map_injective (Option.some_injective _)).eq_iff]
  rw [decide_eq_decide, hdiffers]
  rcases hrepairable.mem_or_mem_unlisted (code.mem_parityRange.1 hi).2 with hpresent | hunlisted
  · rw [h.kept_of_mem hpresent, and_iff_right hpresent]
  · refine iff_of_false (not_not.2 (h.getElem?_slots_encode hrepairable he hunlisted)) fun hlisted => ?_
    exact (mem_unlisted.1 hunlisted).2.2 hlisted.1

/-- What a verification finds after a repair. -/
theorem Rebuilt.result_verify (h : code.Rebuilt slots present size slots')
    (hrepairable : code.Repairable slots present dataSize size) {e : Encoded}
    (he : (code.encode (code.dataIn slots)).result = .ok e) :
    (code.verify slots').result = .ok {
      valid := decide (∀ i ∈ present, code.scheme.data ≤ i → slots[i]? = e.slots[i]?)
      corruptedIndices := (List.range' code.scheme.data code.scheme.parity).filter fun i =>
        i ∈ present ∧ slots[i]? ≠ e.slots[i]? } := by
  obtain ⟨shards, rfl, hfull⟩ := h.exists_fullSet hrepairable
  rw [hfull.result_verify, h.mismatches_eq hfull hrepairable he]
  congr 2
  rw [Bool.eq_iff_iff, List.isEmpty_iff, List.filter_eq_nil_iff, decide_eq_true_eq]
  constructor
  · intro hnone i hi hik
    have hmem : i ∈ List.range' code.scheme.data code.scheme.parity :=
      code.mem_parityRange.2 ⟨hik, hrepairable.lt_total i hi⟩
    simpa [hi] using hnone i hmem
  · intro hall i hmem
    rw [decide_eq_true_eq]
    rintro ⟨hi, hne⟩
    exact hne (hall i hi (code.mem_parityRange.1 hmem).1)

/-- **Repair is exact**: a repair succeeds exactly when its arguments are those of a repairable set, whatever the slots that
are not listed hold. It then rebuilds the parity shards that are not listed, in ascending order, as the data is encoded to
them, and leaves every listed slot as it is; and a verification of what it leaves reports the listed parity shards that the
data is not encoded to, and no others. -/
theorem repair_exact (code : Code) (slots : Slots) (present : List Nat) (dataSize size : Nat) :
    ((∃ r, (code.repair slots present dataSize size).result = .ok r) ↔
      code.Repairable slots present dataSize size) ∧
    ∀ r, (code.repair slots present dataSize size).result = .ok r →
      r.repairedIndices = (List.range' code.scheme.data code.scheme.parity).filter (· ∉ present) ∧
      r.bytesRepaired = r.repairedIndices.length * size ∧
      r.slots.length = slots.length ∧ (∀ i ∈ present, r.slots[i]? = slots[i]?) ∧
      ∃ e, (code.encode (code.dataIn slots)).result = .ok e ∧ e.shardSize = size ∧
        (∀ i ∈ r.repairedIndices, r.slots[i]? = e.slots[i]?) ∧
        (code.verify r.slots).result = .ok {
          valid := decide (∀ i ∈ present, code.scheme.data ≤ i → slots[i]? = e.slots[i]?)
          corruptedIndices := (List.range' code.scheme.data code.scheme.parity).filter fun i =>
            i ∈ present ∧ slots[i]? ≠ e.slots[i]? } := by
  refine ⟨⟨fun ⟨r, hr⟩ => (of_result_repair hr).1, fun h => ?_⟩, fun r hr => ?_⟩
  · obtain ⟨slots', hok, -⟩ := h.result_repair
    exact ⟨_, hok⟩
  · obtain ⟨hrepairable, hrebuilt, hindices, hbytes⟩ := of_result_repair hr
    obtain ⟨shards, hslots, hfull⟩ := hrebuilt.exists_fullSet hrepairable
    have hsize : code.scheme.shardSizeFor (code.dataIn slots).length = size := by
      rw [← hrebuilt.dataIn_eq, hslots, hfull.shardSizeFor_dataIn]
    have he := code.result_encode (code.dataIn slots)
    refine ⟨hindices.trans (code.unlisted_eq present), by rw [hbytes, hindices], hrebuilt.length_eq,
      fun i hi => hrebuilt.kept_of_mem hi, _, he, hsize, fun i hi => ?_, hrebuilt.result_verify hrepairable he⟩
    rw [hindices] at hi
    exact hrebuilt.getElem?_slots_encode hrepairable he hi

/-- Two data shards and two parity shards: the first parity slot is not listed and holds bytes of another length, which
are replaced; the second is listed, one of the indices twice, and does not fit the data, which a verification reports. -/
theorem repair_exact_two_two : ∃ (code : Code) (slots : Slots) (r : Repair), code.scheme = ⟨2, 2⟩ ∧
    slots = [some [1], some [0], some [9, 9], some [7]] ∧ code.Repairable slots [3, 1, 0, 1] 2 1 ∧
    (code.repair slots [3, 1, 0, 1] 2 1).result = .ok r ∧ r.repairedIndices = [2] ∧ r.bytesRepaired = 1 ∧
    r.slots = [some [1], some [0], some [1], some [7]] ∧ (code.verify r.slots).result = .ok ⟨false, [3]⟩ := by
  -- with the generator written out no table of powers has to be computed
  let code : Code := ⟨⟨2, 2⟩, by decide, ⟨2, [[1, 0], [0, 1], [1, 1], [1, 2]], by decide⟩, by
    simp [ByteMatrix.generator, ByteMatrix.ofFn, List.range_succ, GF256.pow, Nat.repeat, GF256.mul_comm 1]⟩
  let slots : Slots := [some [1], some [0], some [9, 9], some [7]]
  obtain ⟨hsucceeds, hyields⟩ := repair_exact code slots [3, 1, 0, 1] 2 1
  have hrepairable : code.Repairable slots [3, 1, 0, 1] 2 1 := by
    refine ⟨rfl, by decide, by decide, by decide, by decide, ?_⟩
    intro i hi
    simp only [List.mem_cons, List.not_mem_nil, or_false] at hi
    rcases hi with rfl | rfl | rfl | rfl
    · exact ⟨[7], rfl, rfl⟩
    · exact ⟨[0], rfl, rfl⟩
    · exact ⟨[1], rfl, rfl⟩
    · exact ⟨[0], rfl, rfl⟩
  obtain ⟨r, hr⟩ := hsucceeds.2 hrepairable
  obtain ⟨hindices, hbytes, hlength, hkept, e, he, -, hrenewed, hverify⟩ := hyields r hr
  have hencoded : e.slots = [some [1], some [0], some [1], some [1]] := by
    obtain rfl := Except.ok.inj he
    decide +kernel
  have hmissing : r.repairedIndices = [2] := hindices
  have hslots : r.slots = [some [1], some [0], some [1], some [7]] := by
    apply List.ext_getElem?
    rintro (_ | _ | _ | _ | i)
    · exact hkept 0 (by decide)
    · exact hkept 1 (by decide)
    · rw [hrenewed 2 (by rw [hmissing]; decide), hencoded]
      rfl
    · exact hkept 3 (by decide)
    · rw [List.getElem?_eq_none (by rw [hlength]; exact Nat.le_add_left 4 i)]
      rfl
  rw [hencoded] at hverify
  exact ⟨code, slots, r, rfl, rfl, hrepairable, hr, hmissing, by rw [hbytes, hmissing]; rfl, hslots, hverify⟩

end ShardCoding.Code

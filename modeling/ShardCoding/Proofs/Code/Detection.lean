import ShardCoding.Proofs.Code.Recoverability
import ShardCoding.Proofs.Code.Verification

/-!
# Small corruption is detected

* `shardsOf_eq_of_agree` : encodings that agree on a recoverable selection are the same;
  `shardsOf_eq_of_few_changes` : so are encodings that differ in at most two shards and in no more than there are parity
  shards; `FullSet.mismatches_ne_nil` : so few changes are noticed;
* `FullSet.mem_mismatches_of_changed` : a single changed data shard shows at every parity shard that is not changed too;
* `changedIndices` : where two slot vectors differ; `verify_detects` : what verification reports of a set that was valid
  before a change; `verify_masked_one_two` : a parity shard that was changed to fit is not reported.
-/

namespace ShardCoding

/-- The indices at which the slots differ, in ascending order. -/
def changedIndices (slots slots' : Slots) : List Nat :=
  (List.range slots.length).filter fun i => slots[i]? ≠ slots'[i]?

theorem mem_changedIndices {slots slots' : Slots} {i : Nat} :
    i ∈ changedIndices slots slots' ↔ i < slots.length ∧ slots[i]? ≠ slots'[i]? := by
  simp [changedIndices]

/-- Only the slot that is replaced changes. -/
theorem changedIndices_set {slots : Slots} {i : Nat} {slot : Option Bytes} (hi : i < slots.length)
    (hne : slots[i] ≠ slot) : changedIndices slots (slots.set i slot) = [i] := by
  have hmem : ∀ j, j ∈ changedIndices slots (slots.set i slot) ↔ j = i := by
    intro j
    rw [mem_changedIndices, List.getElem?_set]
    by_cases hij : i = j
    · subst hij
      simp [hi, hne]
    · simp [hij, Ne.symm hij]
  have hnodup : (changedIndices slots (slots.set i slot)).Nodup := List.nodup_range.filter _
  exact List.perm_singleton.1 ((List.perm_ext_iff_of_nodup hnodup (List.nodup_singleton i)).2 (by simpa using hmem))

namespace Code

variable {code : Code} {size : Nat} {data data' : Bytes} {shards shards' : List Bytes} {selected : List Nat}

/-! ## How far encodings are apart -/

theorem shardsOf_eq_of_agree (hrec : code.Recoverable selected) (hlen : selected.length = code.scheme.data)
    (hlt : ∀ i ∈ selected, i < code.scheme.total)
    (hagree : ∀ i ∈ selected, (code.shardsOf size data)[i]? = (code.shardsOf size data')[i]?) :
    code.shardsOf size data = code.shardsOf size data' := by
  have hinputs : (selected.map fun i => (code.shardsOf size data).getD i []) =
      selected.map fun i => (code.shardsOf size data').getD i [] := by
    apply List.map_congr_left
    intro i hi
    rw [List.getD_eq_getElem?_getD, hagree i hi, List.getD_eq_getElem?_getD]
  have hsolution : code.Solution selected size (selected.map fun i => (code.shardsOf size data).getD i [])
      (splitData code.scheme.data size data) := solution_splitData hlen hlt
  rw [hinputs] at hsolution
  have hpieces := hsolution.unique hrec (solution_splitData hlen hlt)
  unfold shardsOf
  rw [hpieces]

/-- Enough of the data shards and the first two parity shards are left to select from. -/
theorem shardsOf_eq_of_few_changes {changed : Finset Nat} (hcard : changed.card ≤ min code.scheme.parity 2)
    (hagree : ∀ i < code.scheme.total, i ∉ changed → (code.shardsOf size data)[i]? = (code.shardsOf size data')[i]?) :
    code.shardsOf size data = code.shardsOf size data' := by
  have hleft : code.scheme.data ≤ (Finset.range (code.scheme.data + min code.scheme.parity 2) \ changed).card := by
    have hsub := Finset.le_card_sdiff changed (Finset.range (code.scheme.data + min code.scheme.parity 2))
    rw [Finset.card_range] at hsub
    omega
  obtain ⟨kept, hkept, hcardKept⟩ := Finset.exists_subset_card_eq hleft
  have hmem : ∀ i ∈ kept.toList, i < code.scheme.data + min code.scheme.parity 2 ∧ i ∉ changed := by
    intro i hi
    have h := hkept (Finset.mem_toList.1 hi)
    rwa [Finset.mem_sdiff, Finset.mem_range] at h
  have hlen : kept.toList.length = code.scheme.data := by rw [Finset.length_toList, hcardKept]
  have hlt : ∀ i ∈ kept.toList, i < code.scheme.total := by
    intro i hi
    have := (hmem i hi).1
    rw [code.total_eq]
    omega
  have hnear : ∀ i ∈ kept.toList, i < code.scheme.data + 2 := by
    intro i hi
    have := (hmem i hi).1
    omega
  have hrec := recoverable_of_lt_add_two (Or.inr hnear) hlen hlt (Finset.nodup_toList kept)
  exact shardsOf_eq_of_agree hrec hlen hlt fun i hi => hagree i (hlt i hi) (hmem i hi).2

/-- Too few changes to come to another encoding. -/
theorem FullSet.mismatches_ne_nil (h' : code.FullSet size shards') (hvalid : shards = code.reencoded size shards)
    {changed : List Nat} (hfew : changed.length ≤ min code.scheme.parity 2)
    (hsame : ∀ i < code.scheme.total, i ∉ changed → shards[i]? = shards'[i]?) (hne : shards ≠ shards') :
    code.mismatches size shards' ≠ [] := by
  intro hnil
  have hvalid' := h'.mismatches_eq_nil_iff.1 hnil
  have hagree : ∀ i < code.scheme.total, i ∉ changed.toFinset →
      (code.reencoded size shards)[i]? = (code.reencoded size shards')[i]? := by
    intro i hi hmem
    rw [← hvalid, ← hvalid']
    exact hsame i hi (mt List.mem_toFinset.2 hmem)
  have hencodings := shardsOf_eq_of_few_changes ((List.toFinset_card_le changed).trans hfew) hagree
  apply hne
  calc shards = code.reencoded size shards := hvalid
    _ = code.reencoded size shards' := hencodings
    _ = shards' := hvalid'.symm

/-! ## A single data shard -/

/-- All data shards but one and a parity shard. -/
theorem burstSelection_single {c p : Nat} (hc : c < code.scheme.data) (hp : code.scheme.data ≤ p)
    (hpn : p < code.scheme.total) : code.BurstSelection c [p] (code.outsideBlock c 1 ++ [p]) := by
  refine ⟨hc, List.nodup_singleton p, ?_, List.Perm.refl _⟩
  intro i hi
  obtain rfl := List.mem_singleton.1 hi
  exact ⟨hp, hpn⟩

/-- A parity shard that fits the data shards before and after the change would, with the data shards that are left, give
back the one that is changed. -/
theorem FullSet.mem_mismatches_of_changed (h : code.FullSet size shards) (h' : code.FullSet size shards')
    (hvalid : shards = code.reencoded size shards) {c p : Nat} (hc : c < code.scheme.data) (hne : shards[c]? ≠ shards'[c]?)
    (hsame : ∀ i < code.scheme.data, i ≠ c → shards[i]? = shards'[i]?) (hp : code.scheme.data ≤ p)
    (hpn : p < code.scheme.total) (hpsame : shards[p]? = shards'[p]?) : p ∈ code.mismatches size shards' := by
  by_contra hfits
  have hparity : shards'[p]? = (code.reencoded size shards')[p]? := by
    by_contra hpar
    exact hfits (h'.mem_mismatches.2 ⟨hp, hpn, hpar⟩)
  have hburst := burstSelection_single hc hp hpn
  have hagree : ∀ i ∈ code.outsideBlock c 1 ++ [p],
      (code.reencoded size shards)[i]? = (code.reencoded size shards')[i]? := by
    intro i hi
    rcases hburst.mem_iff.1 hi with ⟨hik, hic⟩ | hpar
    · have hci : i ≠ c := by
        rw [List.length_singleton] at hic
        omega
      rw [h.getElem?_reencoded_data hik, h'.getElem?_reencoded_data hik, hsame i hik hci]
    · obtain rfl := List.mem_singleton.1 hpar
      rw [← hvalid, hpsame, hparity]
  have hsame := shardsOf_eq_of_agree hburst.recoverable hburst.length_eq hburst.lt_total hagree
  apply hne
  rw [← h.getElem?_reencoded_data hc, ← h'.getElem?_reencoded_data hc]
  exact congrArg (·[c]?) hsame

/-- Nothing but parity indices is reported. -/
theorem FullSet.mismatches_eq_range' (h : code.FullSet size shards)
    (hall : ∀ p, code.scheme.data ≤ p → p < code.scheme.total → p ∈ code.mismatches size shards) :
    code.mismatches size shards = List.range' code.scheme.data code.scheme.parity := by
  rw [h.mismatches_eq, List.filter_eq_self]
  intro p hp
  have hrange := code.mem_parityRange.1 hp
  exact decide_eq_true (h.mem_mismatches.1 (hall p hrange.1 hrange.2)).2.2

/-! ## Detection -/

/-- A set with the shard lengths of a full set is full as well. -/
theorem FullSet.of_lengths {slots' : Slots} (h : code.FullSet size shards)
    (hlengths : slots'.map (Option.map List.length) = (shards.map some).map (Option.map List.length)) :
    ∃ shards', slots' = shards'.map some ∧ code.FullSet size shards' := by
  have hslot : ∀ slot ∈ slots', ∃ shard, slot = some shard ∧ shard.length = size := by
    intro slot hslot
    have hmem : slot.map List.length ∈ (shards.map some).map (Option.map List.length) := by
      rw [← hlengths]
      exact List.mem_map_of_mem hslot
    rw [List.map_map, List.mem_map] at hmem
    obtain ⟨shard, hshard, hlen⟩ := hmem
    obtain ⟨shard', hslot', hlen'⟩ := Option.map_eq_some_iff.1 hlen.symm
    exact ⟨shard', hslot', hlen'.trans (h.uniform shard hshard)⟩
  have hnone : none ∉ slots' := by
    intro hmem
    obtain ⟨shard, heq, -⟩ := hslot none hmem
    cases heq
  refine ⟨slots'.reduceOption, eq_map_some hnone, ?_, ?_⟩
  · have hcount := congrArg List.length hlengths
    have hmap := congrArg List.length (eq_map_some hnone)
    simp only [List.length_map] at hcount hmap
    rw [← hmap, hcount, h.length_eq]
  · intro s hs
    obtain ⟨shard, heq, hlen⟩ := hslot (some s) (List.reduceOption_mem_iff.1 hs)
    rw [Option.some.inj heq, hlen]

theorem getElem?_eq_of_not_changed {i : Nat} (hi : i < shards.length)
    (hchanged : i ∉ changedIndices (shards.map some) (shards'.map some)) : shards[i]? = shards'[i]? := by
  by_contra hne
  apply hchanged
  rw [mem_changedIndices, List.length_map, List.getElem?_map, List.getElem?_map]
  exact ⟨hi, fun heq => hne (Option.map_injective (Option.some_injective _) heq)⟩

/-- **Small corruption is detected**: when a valid set is changed in at least one shard, in at most two and in no more
than there are parity shards, the changed set is not valid; and when just one data shard is changed, every parity shard
that is not changed itself is reported, so that all are when nothing else is changed. -/
theorem verify_detects (code : Code) (slots slots' : Slots) (v : Verification)
    (hv : (code.verify slots).result = .ok v) (hvalid : v.valid = true)
    (hlengths : slots'.map (Option.map List.length) = slots.map (Option.map List.length))
    (hsome : 0 < (changedIndices slots slots').length)
    (hfew : (changedIndices slots slots').length ≤ min code.scheme.parity 2) :
    ∃ v', (code.verify slots').result = .ok v' ∧ v'.valid = false ∧
      ∀ c, (changedIndices slots slots').filter (· < code.scheme.data) = [c] →
        (∀ p, code.scheme.data ≤ p → p < code.scheme.total → p ∉ changedIndices slots slots' →
          p ∈ v'.corruptedIndices) ∧
        (changedIndices slots slots' = [c] →
          v'.corruptedIndices = List.range' code.scheme.data code.scheme.parity) := by
  obtain ⟨size, shards, rfl, hfull, rfl⟩ := fullSet_of_verify hv
  obtain ⟨shards', rfl, hfull'⟩ := hfull.of_lengths hlengths
  have hword : shards = code.reencoded size shards := hfull.mismatches_eq_nil_iff.1 (List.isEmpty_iff.1 hvalid)
  have hsame : ∀ i < code.scheme.total, i ∉ changedIndices (shards.map some) (shards'.map some) →
      shards[i]? = shards'[i]? := by
    intro i hi
    exact getElem?_eq_of_not_changed (by rwa [hfull.length_eq])
  refine ⟨_, hfull'.result_verify, ?_, ?_⟩
  · have hne : shards ≠ shards' := by
      rintro rfl
      obtain ⟨i, hi⟩ := List.exists_mem_of_length_pos hsome
      exact (mem_changedIndices.1 hi).2 rfl
    exact List.isEmpty_eq_false_iff.2 (hfull'.mismatches_ne_nil hword hfew hsame hne)
  · intro c hc
    have hmem : ∀ i, i ∈ changedIndices (shards.map some) (shards'.map some) ∧ i < code.scheme.data ↔ i = c := by
      intro i
      have hfilter : i ∈ (changedIndices (shards.map some) (shards'.map some)).filter (· < code.scheme.data) ↔ i = c := by
        rw [hc, List.mem_singleton]
      rwa [List.mem_filter, decide_eq_true_eq] at hfilter
    obtain ⟨hcmem, hck⟩ := (hmem c).2 rfl
    have hne : shards[c]? ≠ shards'[c]? := by
      intro heq
      apply (mem_changedIndices.1 hcmem).2
      rw [List.getElem?_map, List.getElem?_map, heq]
    have hdata : ∀ i < code.scheme.data, i ≠ c → shards[i]? = shards'[i]? := by
      intro i hi hic
      exact hsame i (Nat.lt_of_lt_of_le hi code.data_le_total) fun hch => hic ((hmem i).1 ⟨hch, hi⟩)
    have hlisted : ∀ p, code.scheme.data ≤ p → p < code.scheme.total →
        p ∉ changedIndices (shards.map some) (shards'.map some) → p ∈ code.mismatches size shards' := by
      intro p hp hpn hpc
      exact hfull.mem_mismatches_of_changed hfull' hword hck hne hdata hp hpn (hsame p hpn hpc)
    refine ⟨hlisted, fun honly => hfull'.mismatches_eq_range' fun p hp hpn => hlisted p hp hpn ?_⟩
    rw [honly, List.mem_singleton]
    omega

/-- One of five data shards is changed, and all three parity shards show it. -/
theorem verify_detects_five_three : ∃ e v', ((ofValid ⟨5, 3⟩ (by decide)).encode [1, 2, 3, 4, 5]).result = .ok e ∧
    ((ofValid ⟨5, 3⟩ (by decide)).verify (e.slots.set 2 (some [9]))).result = .ok v' ∧
    v'.valid = false ∧ v'.corruptedIndices = [5, 6, 7] := by
  obtain ⟨e, he⟩ : ∃ e, ((ofValid ⟨5, 3⟩ (by decide)).encode [1, 2, 3, 4, 5]).result = .ok e := ⟨_, result_encode _ _⟩
  have hslot : e.slots[2]? = some (some [3]) := by
    rw [slots_encode he]
    rfl
  obtain ⟨hlt, hget⟩ := List.getElem?_eq_some_iff.1 hslot
  have hchanged : changedIndices e.slots (e.slots.set 2 (some [9])) = [2] :=
    changedIndices_set hlt (by rw [hget]; decide)
  have hlengths : (e.slots.set 2 (some [9])).map (Option.map List.length) = e.slots.map (Option.map List.length) := by
    have hlt' : 2 < (e.slots.map (Option.map List.length)).length := by rwa [List.length_map]
    have hsame : Option.map List.length (some ([9] : Bytes)) = (e.slots.map (Option.map List.length))[2] := by
      rw [List.getElem_map, hget]
      rfl
    rw [List.map_set, hsame, List.set_getElem_self]
  obtain ⟨v', hv', hinvalid, hall⟩ := verify_detects (ofValid ⟨5, 3⟩ (by decide)) e.slots (e.slots.set 2 (some [9]))
    ⟨true, []⟩ (verify_slots he) rfl hlengths (by rw [hchanged]; decide) (by rw [hchanged]; decide)
  exact ⟨e, v', he, hv', hinvalid, (hall 2 (by rw [hchanged]; rfl)).2 hchanged⟩

/-- The data shard is changed together with the first parity shard, which fits the changed data and is not reported: the
list is not the complete list of parity indices. -/
theorem verify_masked_one_two : ∃ slots slots' : Slots,
    slots = [some [1], some [1], some [1]] ∧ slots' = [some [5], some [5], some [1]] ∧
    ((ofValid ⟨1, 2⟩ (by decide)).verify slots).result = .ok ⟨true, []⟩ ∧
    slots'.map (Option.map List.length) = slots.map (Option.map List.length) ∧
    changedIndices slots slots' = [0, 1] ∧ [0, 1].length ≤ min 2 2 ∧
    (changedIndices slots slots').filter (· < 1) = [0] ∧
    ((ofValid ⟨1, 2⟩ (by decide)).verify slots').result = .ok ⟨false, [2]⟩ ∧ [2] ≠ List.range' 1 2 :=
  ⟨_, _, rfl, rfl, rfl, by decide, by decide, by decide, by decide, rfl, by decide⟩

end Code

end ShardCoding

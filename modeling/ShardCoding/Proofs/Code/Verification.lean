import Mathlib.Data.List.ReduceOption
import ShardCoding.Code.Maintenance
import ShardCoding.Proofs.Code.Reconstruction

/-!
# Verification is exact

* `splitData_flatten` : cutting shards that were put together gives them back;
* `Code.FullSet` : as many shards as the code has, all of one length; `Code.reencoded` : what their data shards are
  encoded to; `mismatches_eq`, `mismatches_eq_nil_iff` : verification compares the two;
* `OneLength`, `firstLength`, `oddLength?` : the lengths of the shards that are there; `fullSet_eq` : the checks before
  the comparison; `FullSet.result_verify`, `fullSet_of_verify` : its outcome on a full set, and on no other;
* `verify_slots` : an encoding is valid; `verify_exact` : the outcome of a verification.
-/

namespace ShardCoding

theorem splitData_flatten {k size : Nat} {pieces : List Bytes} (hlen : pieces.length = k)
    (hsize : ∀ p ∈ pieces, p.length = size) : splitData k size pieces.flatten = pieces := by
  induction pieces generalizing k with
  | nil =>
    subst hlen
    rfl
  | cons p pieces ih =>
    subst hlen
    have hp : p.length = size := hsize p List.mem_cons_self
    have hrest := ih rfl fun q hq => hsize q (List.mem_cons_of_mem _ hq)
    rw [List.length_cons, splitData_succ, List.flatten_cons, List.take_left' hp, List.drop_left' hp, hrest]
    have hfill : size - (p ++ pieces.flatten).length = 0 := by
      rw [List.length_append]
      omega
    rw [hfill, List.replicate_zero, List.append_nil]

theorem length_flatten_of_uniform {size : Nat} {pieces : List Bytes} (hsize : ∀ p ∈ pieces, p.length = size) :
    pieces.flatten.length = pieces.length * size := by
  have hlengths : ∀ n ∈ pieces.map List.length, n = size := by
    intro n hn
    obtain ⟨p, hp, rfl⟩ := List.mem_map.1 hn
    exact hsize p hp
  rw [List.length_flatten, List.sum_eq_card_nsmul _ size hlengths, List.length_map, smul_eq_mul]

/-! ## Full sets -/

namespace Code

/-- A shard for every index, all of them `size` bytes long. -/
structure FullSet (code : Code) (size : Nat) (shards : List Bytes) : Prop where
  length_eq : shards.length = code.scheme.total
  uniform : ∀ s ∈ shards, s.length = size

/-- The shards that the data shards among `shards` are encoded to. -/
def reencoded (code : Code) (size : Nat) (shards : List Bytes) : List Bytes :=
  code.shardsOf size (shards.take code.scheme.data).flatten

variable {code : Code} {size : Nat} {shards : List Bytes} {slots : Slots}

@[simp] theorem length_reencoded : (code.reencoded size shards).length = code.scheme.total := by simp [reencoded]

namespace FullSet

theorem length_take (h : code.FullSet size shards) : (shards.take code.scheme.data).length = code.scheme.data := by
  rw [List.length_take, h.length_eq, code.total_eq]
  omega

theorem splitData_eq (h : code.FullSet size shards) :
    splitData code.scheme.data size (shards.take code.scheme.data).flatten = shards.take code.scheme.data :=
  splitData_flatten h.length_take fun s hs => h.uniform s (List.mem_of_mem_take hs)

theorem reencoded_eq (h : code.FullSet size shards) : code.reencoded size shards =
    shards.take code.scheme.data ++
      (List.range code.scheme.parity).map fun p => code.parityShard p size (shards.take code.scheme.data) := by
  unfold reencoded shardsOf
  rw [h.splitData_eq]

/-- Data shards are taken as they are. -/
theorem getElem?_reencoded_data (h : code.FullSet size shards) {i : Nat} (hi : i < code.scheme.data) :
    (code.reencoded size shards)[i]? = shards[i]? := by
  rw [h.reencoded_eq, List.getElem?_append_left (by rwa [h.length_take]), List.getElem?_take_of_lt hi]

theorem getElem?_reencoded_parity (h : code.FullSet size shards) {p : Nat} (hp : p < code.scheme.parity) :
    (code.reencoded size shards)[code.scheme.data + p]? =
      some (code.parityShard p size (shards.take code.scheme.data)) := by
  have hlen := h.length_take
  rw [h.reencoded_eq, List.getElem?_append_right (by omega), hlen, Nat.add_sub_cancel_left, List.getElem?_map,
    List.getElem?_range hp]
  rfl

/-- The parity indices at which a set differs from what its data shards are encoded to, in ascending order. -/
theorem mismatches_eq (h : code.FullSet size shards) : code.mismatches size shards =
    (List.range' code.scheme.data code.scheme.parity).filter fun i =>
      shards[i]? ≠ (code.reencoded size shards)[i]? := by
  unfold mismatches
  rw [List.range'_eq_map_range, List.filter_map]
  dsimp only
  congr 1
  apply List.filter_congr
  intro p hp
  simp only [Function.comp_apply, h.getElem?_reencoded_parity (List.mem_range.1 hp), decide_eq_decide]
  exact ne_comm

theorem mem_mismatches (h : code.FullSet size shards) {i : Nat} : i ∈ code.mismatches size shards ↔
    code.scheme.data ≤ i ∧ i < code.scheme.total ∧ shards[i]? ≠ (code.reencoded size shards)[i]? := by
  rw [h.mismatches_eq, List.mem_filter, code.mem_parityRange, decide_eq_true_eq, and_assoc]

theorem mismatches_eq_nil_iff (h : code.FullSet size shards) :
    code.mismatches size shards = [] ↔ shards = code.reencoded size shards := by
  constructor
  · intro hnil
    apply List.ext_getElem?
    intro i
    rcases Nat.lt_or_ge i code.scheme.data with hdata | hdata
    · exact (h.getElem?_reencoded_data hdata).symm
    rcases Nat.lt_or_ge i code.scheme.total with htotal | htotal
    · by_contra hne
      have hmem := h.mem_mismatches.2 ⟨hdata, htotal, hne⟩
      rw [hnil] at hmem
      cases hmem
    · rw [List.getElem?_eq_none (by rwa [h.length_eq]), List.getElem?_eq_none (by rwa [length_reencoded])]
  · intro heq
    apply List.eq_nil_iff_forall_not_mem.2
    intro i hi
    exact (h.mem_mismatches.1 hi).2.2 (congrArg (·[i]?) heq)

end FullSet

end Code

/-! ## The checks -/

/-- The lengths of the shards that are there, in the order of their indices. -/
def shardLengths (slots : Slots) : List Nat := slots.reduceOption.map List.length

/-- The length of the first shard that is there. -/
def firstLength (slots : Slots) : Nat := (shardLengths slots).headD 0

/-- The first length that differs from that of the first shard. -/
def oddLength? (slots : Slots) : Option Nat := (shardLengths slots).find? (· ≠ firstLength slots)

/-- The shards that are there are all of one length. -/
def OneLength (slots : Slots) : Prop := ∃ size, ∀ shard, some shard ∈ slots → shard.length = size

theorem oddLength?_eq_none_iff {slots : Slots} : oddLength? slots = none ↔ OneLength slots := by
  have hmem : ∀ n, n ∈ shardLengths slots ↔ ∃ shard, some shard ∈ slots ∧ shard.length = n := by
    intro n
    simp only [shardLengths, List.mem_map, List.reduceOption_mem_iff]
  have hone : OneLength slots ↔ ∃ size, ∀ n ∈ shardLengths slots, n = size := by
    simp only [OneLength, hmem, forall_exists_index, and_imp, forall_comm (α := Nat), forall_eq']
  unfold oddLength? firstLength
  rw [hone, List.find?_eq_none]
  generalize shardLengths slots = lengths
  constructor
  · intro h
    exact ⟨lengths.headD 0, fun n hn => by simpa using h n hn⟩
  · rintro ⟨size, h⟩ n hn
    obtain ⟨first, rest, rfl⟩ := List.exists_cons_of_ne_nil (List.ne_nil_of_mem hn)
    rw [h n hn, List.headD_cons, h first List.mem_cons_self]
    simp

instance (slots : Slots) : Decidable (OneLength slots) := decidable_of_iff _ oddLength?_eq_none_iff

theorem reduceOption_map_some (shards : List Bytes) : (shards.map some).reduceOption = shards := by
  induction shards with
  | nil => rfl
  | cons s shards ih => rw [List.map_cons, List.reduceOption_cons_of_some, ih]

theorem eq_map_some {slots : Slots} (h : none ∉ slots) : slots = slots.reduceOption.map some := by
  induction slots with
  | nil => rfl
  | cons slot slots ih =>
    rw [List.mem_cons, not_or] at h
    obtain ⟨shard, rfl⟩ := Option.ne_none_iff_exists'.1 (Ne.symm h.1)
    rw [List.reduceOption_cons_of_some, List.map_cons, ← ih h.2]

/-- Reading slot after slot stops at the first shard that is not `size` bytes long. -/
theorem mapM_presentShard (size : Nat) (front shards : List Bytes) :
    (List.range' front.length shards.length).mapM (presentShard ((front ++ shards).map some) size) =
      match (shards.map List.length).find? (· ≠ size) with
      | some actual => .error (.shardSize size actual)
      | none => .ok shards := by
  induction shards generalizing front with
  | nil => rfl
  | cons s shards ih =>
    have hslot : ((front ++ s :: shards).map some)[front.length]? = some (some s) := by simp
    have hstep := ih (front ++ [s])
    rw [List.append_assoc, List.singleton_append, List.length_append, List.length_singleton] at hstep
    rw [List.length_cons, List.range'_succ, List.mapM_cons, hstep]
    unfold presentShard
    rw [hslot]
    by_cases hs : s.length = size
    · simp only [hs, if_true, List.map_cons, ne_eq, not_true_eq_false, decide_false, Bool.false_eq_true,
        not_false_eq_true, List.find?_cons_of_neg]
      cases (shards.map List.length).find? fun n => decide ¬ n = size <;> rfl
    · simp [hs, bind, Except.bind]

namespace Code

variable {code : Code} {size : Nat} {shards : List Bytes} {slots : Slots}

/-- The checks in their order, and the shards themselves when all are passed. -/
theorem fullSet_eq (code : Code) (slots : Slots) : code.fullSet slots =
    if slots.length ≠ code.scheme.total then .error (.shardCount code.scheme.total slots.length)
    else if none ∈ slots then .error (.insufficientShards (slots.countP Option.isSome) code.scheme.total)
    else
      match oddLength? slots with
      | some actual => .error (.shardSize (firstLength slots) actual)
      | none => .ok slots.reduceOption := by
  unfold fullSet checkSlotCount
  rw [← List.countP_eq_length_filter]
  by_cases hlen : slots.length = code.scheme.total
  · simp only [hlen, if_true, ne_eq, not_true_eq_false, if_false]
    by_cases hnone : none ∈ slots
    · have hcount : slots.countP Option.isSome < code.scheme.total := by
        rw [← hlen]
        refine lt_of_le_of_ne List.countP_le_length fun heq => ?_
        simpa using List.countP_eq_length.1 heq none hnone
      simp only [hnone, if_true, bind, Except.bind, hcount]
      rfl
    · have hsome := eq_map_some hnone
      generalize slots.reduceOption = shards at hsome
      subst hsome
      have hcount : (shards.map some).countP Option.isSome = code.scheme.total := by
        rw [← hlen]
        apply List.countP_eq_length.2
        simp
      have hread := mapM_presentShard ((shards.map List.length).headD 0) [] shards
      have hfirst : (((shards.map some).findSome? id).getD []).length = (shards.map List.length).headD 0 := by
        cases shards <;> rfl
      rw [List.length_map] at hlen
      rw [List.length_nil, List.nil_append, hlen, ← List.range_eq_range'] at hread
      simp only [hnone, if_false, bind, Except.bind, hcount, lt_irrefl, oddLength?, firstLength, shardLengths,
        reduceOption_map_some, hfirst, hread]
  · simp only [hlen, if_false, ne_eq, not_false_eq_true, if_true]
    rfl

theorem result_verify_eq (code : Code) (slots : Slots) : (code.verify slots).result =
    (code.fullSet slots).map fun shards =>
      ⟨(code.mismatches (shards.headD []).length shards).isEmpty,
        code.mismatches (shards.headD []).length shards⟩ := by
  unfold verify
  cases code.fullSet slots with
  | error e => rfl
  | ok shards =>
    simp only [bind, Traced.andThen, Traced.ofExcept, Traced.guarded, Except.map]
    generalize code.mismatches (shards.headD []).length shards = corrupted
    cases corrupted <;> rfl

/-- A full set holds at least one shard, whose length is that of all. -/
theorem FullSet.length_headD (h : code.FullSet size shards) : (shards.headD []).length = size := by
  cases shards with
  | nil =>
    have hlen := h.length_eq
    have hk := code.valid.1
    rw [List.length_nil, code.total_eq] at hlen
    omega
  | cons s rest => exact h.uniform s List.mem_cons_self

theorem FullSet.oneLength (h : code.FullSet size shards) : OneLength (shards.map some) := by
  refine ⟨size, fun shard hshard => h.uniform shard ?_⟩
  simpa using hshard

theorem FullSet.result_verify (h : code.FullSet size shards) :
    (code.verify (shards.map some)).result =
      .ok ⟨(code.mismatches size shards).isEmpty, code.mismatches size shards⟩ := by
  have hlen : (shards.map some).length = code.scheme.total := by rw [List.length_map, h.length_eq]
  have hnone : none ∉ shards.map some := by simp
  rw [result_verify_eq, fullSet_eq, if_neg (not_not.2 hlen), if_neg hnone, oddLength?_eq_none_iff.2 h.oneLength,
    reduceOption_map_some]
  show Except.ok (Verification.mk (code.mismatches (shards.headD []).length shards).isEmpty
    (code.mismatches (shards.headD []).length shards)) = _
  rw [h.length_headD]

/-- Slots that pass the checks hold a full set. -/
theorem fullSet_reduceOption (hlen : slots.length = code.scheme.total) (hnone : none ∉ slots) (hone : OneLength slots) :
    ∃ size, code.FullSet size slots.reduceOption := by
  obtain ⟨size, hsize⟩ := hone
  refine ⟨size, ?_, ?_⟩
  · have hmap := congrArg List.length (eq_map_some hnone)
    rw [List.length_map] at hmap
    rw [← hmap, hlen]
  · intro s hs
    exact hsize s (List.reduceOption_mem_iff.1 hs)

/-- Only full sets are verified. -/
theorem fullSet_of_verify {v : Verification} (hv : (code.verify slots).result = .ok v) :
    ∃ size shards, slots = shards.map some ∧ code.FullSet size shards ∧
      v = ⟨(code.mismatches size shards).isEmpty, code.mismatches size shards⟩ := by
  have hrun := hv
  rw [result_verify_eq, fullSet_eq] at hrun
  by_cases hlen : slots.length = code.scheme.total
  · by_cases hnone : none ∈ slots
    · rw [if_neg (not_not.2 hlen), if_pos hnone] at hrun
      cases hrun
    · rw [if_neg (not_not.2 hlen), if_neg hnone] at hrun
      cases hfind : oddLength? slots with
      | some actual =>
        rw [hfind] at hrun
        cases hrun
      | none =>
        obtain ⟨size, hfull⟩ := fullSet_reduceOption hlen hnone (oddLength?_eq_none_iff.1 hfind)
        refine ⟨size, slots.reduceOption, eq_map_some hnone, hfull, ?_⟩
        have hok := hfull.result_verify
        rw [← eq_map_some hnone, hv] at hok
        exact Except.ok.inj hok
  · rw [if_pos hlen] at hrun
    cases hrun

end Code

/-! ## The outcome -/

/-- The shards of an encoding, each in its slot. -/
def Encoded.slots (e : Encoded) : Slots := e.shards.map fun shard => some shard.data

theorem Scheme.shardSizeFor_mul {s : Scheme} (hs : s.Valid) (size : Nat) : s.shardSizeFor (s.data * size) = size := by
  unfold shardSizeFor
  have hpos := hs.1
  rw [Nat.add_sub_assoc hpos, Nat.mul_add_div hpos, Nat.div_eq_of_lt (by omega), Nat.add_zero]

namespace Code

variable {code : Code} {size : Nat} {shards : List Bytes} {data : Bytes}

/-- The data slots, one after another. -/
def dataIn (code : Code) (slots : Slots) : Bytes := (slots.take code.scheme.data).reduceOption.flatten

theorem slots_encode {e : Encoded} (he : (code.encode data).result = .ok e) :
    e.slots = (code.shardsOf (code.scheme.shardSizeFor data.length) data).map some := by
  rw [← map_data_encode he, List.map_map]
  rfl

theorem dataIn_map_some (shards : List Bytes) :
    code.dataIn (shards.map some) = (shards.take code.scheme.data).flatten := by
  rw [dataIn, ← List.map_take, reduceOption_map_some]

/-- The data shards of a full set fill their encoding exactly. -/
theorem FullSet.shardSizeFor_dataIn (h : code.FullSet size shards) :
    code.scheme.shardSizeFor (code.dataIn (shards.map some)).length = size := by
  rw [dataIn_map_some, length_flatten_of_uniform fun s hs => h.uniform s (List.mem_of_mem_take hs), h.length_take,
    Scheme.shardSizeFor_mul code.valid]

theorem FullSet.slots_encode {e : Encoded} (h : code.FullSet size shards)
    (he : (code.encode (code.dataIn (shards.map some))).result = .ok e) :
    e.slots = (code.reencoded size shards).map some := by
  rw [Code.slots_encode he, h.shardSizeFor_dataIn, dataIn_map_some]
  rfl

theorem fullSet_shardsOf : code.FullSet size (code.shardsOf size data) :=
  ⟨length_shardsOf code, fun _ hs => length_of_mem_shardsOf code hs⟩

/-- Encoding the data shards of an encoding again changes nothing. -/
theorem reencoded_shardsOf : code.reencoded size (code.shardsOf size data) = code.shardsOf size data := by
  have htake : (code.shardsOf size data).take code.scheme.data = splitData code.scheme.data size data :=
    List.take_left' length_splitData
  rw [fullSet_shardsOf.reencoded_eq, htake]
  rfl

theorem verify_slots {e : Encoded} (he : (code.encode data).result = .ok e) :
    (code.verify e.slots).result = .ok ⟨true, []⟩ := by
  rw [Code.slots_encode he, fullSet_shardsOf.result_verify,
    fullSet_shardsOf.mismatches_eq_nil_iff.2 reencoded_shardsOf.symm]
  rfl

/-- What is reported of a full set, in terms of the encoding of its data shards. -/
theorem FullSet.result_verify_encode {e : Encoded} (h : code.FullSet size shards)
    (he : (code.encode (code.dataIn (shards.map some))).result = .ok e) :
    (code.verify (shards.map some)).result = .ok {
      valid := decide (shards.map some = e.slots)
      corruptedIndices :=
        (List.range' code.scheme.data code.scheme.parity).filter fun i => (shards.map some)[i]? ≠ e.slots[i]? } := by
  have hvalid : (code.mismatches size shards).isEmpty = decide (shards.map some = e.slots) := by
    rw [h.slots_encode he, Bool.eq_iff_iff, List.isEmpty_iff, h.mismatches_eq_nil_iff, decide_eq_true_eq,
      (List.map_injective_iff.2 (Option.some_injective _)).eq_iff]
  have hcorrupted : ∀ i : Nat, (shards.map some)[i]? ≠ e.slots[i]? ↔ shards[i]? ≠ (code.reencoded size shards)[i]? := by
    intro i
    rw [h.slots_encode he, List.getElem?_map, List.getElem?_map, Ne,
      (Option.map_injective (Option.some_injective _)).eq_iff]
  rw [h.result_verify, hvalid, h.mismatches_eq]
  simp only [hcorrupted]

/-- **Verification is exact**: after the checks on the number of slots, on absent shards and on their lengths, it reports
in ascending order the parity indices at which the slots differ from what the data shards are encoded to, and a set as
valid when it is that encoding. -/
theorem verify_exact (code : Code) (slots : Slots) :
    ∃ e, (code.encode (code.dataIn slots)).result = .ok e ∧
      (code.verify slots).result =
        if slots.length ≠ code.scheme.total then .error (.shardCount code.scheme.total slots.length)
        else if none ∈ slots then .error (.insufficientShards (slots.countP Option.isSome) code.scheme.total)
        else if OneLength slots then .ok {
          valid := decide (slots = e.slots)
          corruptedIndices :=
            (List.range' code.scheme.data code.scheme.parity).filter fun i => slots[i]? ≠ e.slots[i]? }
        else .error (.shardSize (firstLength slots) ((oddLength? slots).getD 0)) := by
  have he := result_encode code (code.dataIn slots)
  refine ⟨_, he, ?_⟩
  by_cases hlen : slots.length = code.scheme.total
  swap
  · rw [result_verify_eq, fullSet_eq]
    simp only [hlen, ne_eq, not_false_eq_true, if_true, Except.map]
  by_cases hnone : none ∈ slots
  · rw [result_verify_eq, fullSet_eq]
    simp only [hlen, hnone, ne_eq, not_true_eq_false, if_true, if_false, Except.map]
  rw [if_neg (not_not.2 hlen), if_neg hnone]
  by_cases hone : OneLength slots
  · obtain ⟨size, hfull⟩ := fullSet_reduceOption hlen hnone hone
    have hslots := eq_map_some hnone
    rw [hslots] at he
    have hok := hfull.result_verify_encode he
    rw [← hslots] at hok
    rw [if_pos hone, hok]
  · obtain ⟨actual, hodd⟩ := Option.ne_none_iff_exists'.1 (mt oddLength?_eq_none_iff.1 hone)
    rw [if_neg hone, result_verify_eq, fullSet_eq]
    simp only [hlen, hnone, hodd, ne_eq, not_true_eq_false, if_false, Except.map, Option.getD_some]

end Code

end ShardCoding

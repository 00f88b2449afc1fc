import ShardCoding.Proofs.Manifest.Description

/-!
# Updated digests

* `Manifest.Updated` : what an update of one entry changes, and what it leaves alone; `Manifest.updateDigest_cases` : an
  update makes just this change or is refused; `Updated.digest_eq`, `Updated.digest_ne`, `Updated.check_eq` : what follows
  for the digests and for the check of the manifest;
* `Manifest.afterUpdate`, `Manifest.afterUpdates` : the manifest that one holds after an update, or after several;
  `Manifest.check_afterUpdates`, `Manifest.digest_afterUpdates` : what holds of it;
* `Manifest.updateDigest_exact` : updates, and the digests that are read.
-/

namespace ShardCoding

namespace Manifest

variable {m m' : Manifest} {i j : Nat} {data : Bytes}

/-! ## One update -/

/-- An entry with the digest and the size of `data`. -/
def Entry.holding (e : Entry) (data : Bytes) : Entry :=
  { e with sha256 := hexEncode (ShardCoding.sha256 data).bytes, size := data.length }

theorem readDigest_holding (index : Nat) (e : Entry) (data : Bytes) :
    readDigest index (e.holding data).sha256 = .ok (ShardCoding.sha256 data) := readDigest_hexEncode index _

/-- `m'` is `m` with the digest and the size of `data` in entry `i`. -/
structure Updated (m : Manifest) (i : Nat) (data : Bytes) (m' : Manifest) : Prop where
  frame : m' = { m with shards := m'.shards }
  length_shards : m'.shards.length = m.shards.length
  entry_eq : m'.shards[i]? = m.shards[i]?.map (·.holding data)
  entry_ne : ∀ j ≠ i, m'.shards[j]? = m.shards[j]?

theorem updateDigest_cases (m : Manifest) (i : Nat) (data : Bytes) :
    (i < m.shards.length ∧ ∃ m', m.updateDigest i data = .ok m' ∧ m.Updated i data m') ∨
    (m.shards.length ≤ i ∧ m.updateDigest i data = .error (.shardIndex i (m.shards.length - 1))) := by
  unfold updateDigest
  by_cases hi : i < m.shards.length
  · left
    refine ⟨hi, _, if_pos hi, rfl, by simp, ?_, ?_⟩
    · simp only [List.getElem?_modify, if_pos]
      rfl
    · intro j hj
      simp [Ne.symm hj]
  · right
    exact ⟨Nat.not_lt.1 hi, if_neg hi⟩

theorem Updated.digest_eq (h : m.Updated i data m') (hi : i < m.shards.length) :
    m'.digest i = .ok (ShardCoding.sha256 data) := by
  rw [digest, h.entry_eq, List.getElem?_eq_getElem hi]
  exact readDigest_holding i _ data

theorem Updated.digest_ne (h : m.Updated i data m') (hj : j ≠ i) : m'.digest j = m.digest j := by
  rw [digest, digest, h.entry_ne j hj, h.length_shards]

theorem Updated.verifyShard_ne (h : m.Updated i data m') (hj : j ≠ i) (bytes : Bytes) :
    m'.verifyShard j bytes = m.verifyShard j bytes := by
  rw [verifyShard, verifyShard, h.digest_ne hj]

theorem verifyShard_eq {d : Digest} (h : m.digest i = .ok d) (bytes : Bytes) :
    m.verifyShard i bytes = .ok (decide (ShardCoding.sha256 bytes = d)) := by
  rw [verifyShard, h, ← matchesDigest_bytes]
  rfl

/-- The entry that changed has its old index and a digest that can be read. -/
theorem Updated.check_eq (h : m.Updated i data m') (hcheck : m.check = .ok ()) : m'.check = .ok () := by
  have hm := check_eq_ok_iff.1 hcheck
  have hentries := checkEntries_eq_ok_iff.1 hm.entries
  rw [check_eq_ok_iff, h.frame]
  refine ⟨hm.version_eq, hm.scheme_accepted, hm.stream_valid, h.length_shards.trans hm.length_shards, ?_⟩
  rw [checkEntries_eq_ok_iff]
  intro j e he
  by_cases hj : j = i
  · subst hj
    rw [h.entry_eq, Option.map_eq_some_iff] at he
    obtain ⟨old, hold, rfl⟩ := he
    exact ⟨(hentries j old hold).1, (readDigest_eq_ok_iff.1 (readDigest_holding 0 old data)).1⟩
  · rw [h.entry_ne j hj] at he
    exact hentries j e he

/-! ## Several updates -/

/-- The manifest that one holds after an update, which is the old one if the update is refused. -/
def afterUpdate (m : Manifest) (i : Nat) (data : Bytes) : Manifest := (m.updateDigest i data).toOption.getD m

theorem afterUpdate_cases (m : Manifest) (i : Nat) (data : Bytes) :
    (i < m.shards.length ∧ m.Updated i data (m.afterUpdate i data)) ∨
    (m.shards.length ≤ i ∧ m.afterUpdate i data = m) := by
  unfold afterUpdate
  rcases m.updateDigest_cases i data with ⟨hi, m', hm', hupdated⟩ | ⟨hi, hrefused⟩
  · rw [hm']
    exact Or.inl ⟨hi, hupdated⟩
  · rw [hrefused]
    exact Or.inr ⟨hi, rfl⟩

/-- The manifest that one holds after updates, some of which may be refused. -/
def afterUpdates (m : Manifest) (updates : List (Nat × Bytes)) : Manifest :=
  updates.foldl (fun m u => m.afterUpdate u.1 u.2) m

theorem length_shards_afterUpdate (m : Manifest) (i : Nat) (data : Bytes) :
    (m.afterUpdate i data).shards.length = m.shards.length := by
  rcases m.afterUpdate_cases i data with ⟨-, h⟩ | ⟨-, h⟩
  · exact h.length_shards
  · rw [h]

theorem check_afterUpdates (h : m.check = .ok ()) (updates : List (Nat × Bytes)) :
    (m.afterUpdates updates).check = .ok () := by
  induction updates generalizing m with
  | nil => exact h
  | cons u updates ih =>
    have hstep : (m.afterUpdate u.1 u.2).check = .ok () := by
      rcases m.afterUpdate_cases u.1 u.2 with ⟨-, hupdated⟩ | ⟨-, hsame⟩
      · exact hupdated.check_eq h
      · rw [hsame, h]
    exact ih hstep

/-- The last update of an entry counts. -/
theorem digest_afterUpdates (hj : j < m.shards.length) (updates : List (Nat × Bytes)) :
    (m.afterUpdates updates).digest j =
      ((updates.filter fun u => u.1 = j).getLast?.map fun u => .ok (ShardCoding.sha256 u.2)).getD (m.digest j) := by
  induction updates generalizing m with
  | nil => rfl
  | cons u updates ih =>
    have hrest := ih (m := m.afterUpdate u.1 u.2) (by rwa [length_shards_afterUpdate])
    refine hrest.trans ?_
    by_cases hu : u.1 = j
    · have hdigest : (m.afterUpdate u.1 u.2).digest j = .ok (ShardCoding.sha256 u.2) := by
        subst hu
        rcases m.afterUpdate_cases u.1 u.2 with ⟨hlt, hupdated⟩ | ⟨hle, -⟩
        · exact hupdated.digest_eq hlt
        · exact absurd hj (Nat.not_lt.2 hle)
      rw [hdigest, List.filter_cons_of_pos (by simpa using hu), List.getLast?_cons]
      cases (updates.filter fun u => u.1 = j).getLast? <;> rfl
    · have hdigest : (m.afterUpdate u.1 u.2).digest j = m.digest j := by
        rcases m.afterUpdate_cases u.1 u.2 with ⟨-, hupdated⟩ | ⟨-, hsame⟩
        · exact hupdated.digest_ne (Ne.symm hu)
        · rw [hsame]
      rw [hdigest, List.filter_cons_of_neg (by simpa using hu)]

/-- **Updates**: an update of a shard of a manifest that passes its check leaves a manifest that passes it too, has the
digest of the new bytes for this shard, and is otherwise as before but for the size that the entry states. An update of a
shard that there is not is refused and changes nothing. So after any updates the manifest passes its check, and the last
one of each shard counts. And a digest can be read exactly from 64 hexadecimal digits of either case, which then spell
it. -/
theorem updateDigest_exact :
    (∀ (m : Manifest) (i : Nat) (data : Bytes), m.check = .ok () → i < m.scheme.total →
      ∃ m', m.updateDigest i data = .ok m' ∧ m'.check = .ok () ∧ m'.digest i = .ok (ShardCoding.sha256 data) ∧
        (∀ bytes, m'.verifyShard i bytes = .ok (decide (ShardCoding.sha256 bytes = ShardCoding.sha256 data))) ∧
        (∀ j ≠ i, m'.digest j = m.digest j ∧ ∀ bytes, m'.verifyShard j bytes = m.verifyShard j bytes) ∧
        m.Updated i data m') ∧
    (∀ (m : Manifest) (i : Nat) (data : Bytes), m.check = .ok () → m.scheme.total ≤ i →
      m.updateDigest i data = .error (.shardIndex i (m.scheme.total - 1)) ∧ m.afterUpdate i data = m) ∧
    (∀ (m : Manifest) (updates : List (Nat × Bytes)), m.check = .ok () →
      (m.afterUpdates updates).check = .ok () ∧
      ∀ j < m.scheme.total, (m.afterUpdates updates).digest j =
        ((updates.filter fun u => u.1 = j).getLast?.map fun u => .ok (ShardCoding.sha256 u.2)).getD (m.digest j)) ∧
    ∀ (m : Manifest) (i : Nat),
      ((∃ d, m.digest i = .ok d) ↔ ∃ e, m.shards[i]? = some e ∧ IsDigestText e.sha256) ∧
      ∀ d, m.digest i = .ok d ↔
        ∃ e, m.shards[i]? = some e ∧ IsDigestText e.sha256 ∧ d.number = hexNumber e.sha256 := by
  refine ⟨?_, ?_, fun m updates hcheck => ⟨check_afterUpdates hcheck updates, ?_⟩,
    fun m i => ⟨exists_digest_iff, fun d => digest_eq_ok_iff⟩⟩
  · intro m i data hcheck hi
    rw [← (check_eq_ok_iff.1 hcheck).length_shards] at hi
    rcases m.updateDigest_cases i data with ⟨-, m', hm', hupdated⟩ | ⟨hle, -⟩
    · have hdigest := hupdated.digest_eq hi
      exact ⟨m', hm', hupdated.check_eq hcheck, hdigest, verifyShard_eq hdigest,
        fun j hj => ⟨hupdated.digest_ne hj, hupdated.verifyShard_ne hj⟩, hupdated⟩
    · exact absurd hi (Nat.not_lt.2 hle)
  · intro m i data hcheck hi
    rw [← (check_eq_ok_iff.1 hcheck).length_shards] at hi ⊢
    rcases m.updateDigest_cases i data with ⟨hlt, -⟩ | ⟨-, hrefused⟩
    · exact absurd hi (Nat.not_le.2 hlt)
    · refine ⟨hrefused, ?_⟩
      rw [afterUpdate, hrefused]
      rfl
  · intro j hj
    rw [← (check_eq_ok_iff.1 hcheck).length_shards] at hj
    exact digest_afterUpdates hj updates

/-- Two bytes in place of a shard of three, a shard that there is not, and a digest in capital letters. -/
theorem updateDigest_exact_pair : ∃ m m' d, m = pair 3 3 3 true ∧ m.check = .ok () ∧
    m.updateDigest 1 [1, 2] = .ok m' ∧ m'.check = .ok () ∧ m'.verifyShard 1 [1, 2] = .ok true ∧
    m'.digest 0 = m.digest 0 ∧ m.updateDigest 2 [1, 2] = .error (.shardIndex 2 1) ∧
    m.digest 1 = .ok d ∧ d.number = hexNumber (String.ofList (List.replicate 64 'A')) := by
  obtain ⟨hupdate, hrefuse, -, hread⟩ := updateDigest_exact
  have hcheck := check_pair 3 3 3 true
  obtain ⟨m', hm', hcheck', -, hverify, hother, -⟩ := hupdate (pair 3 3 3 true) 1 [1, 2] hcheck (by decide)
  obtain ⟨hreads, hvalue⟩ := hread (pair 3 3 3 true) 1
  obtain ⟨d, hd⟩ := hreads.2 ⟨_, rfl, isDigestText_replicate (by decide)⟩
  obtain ⟨e, he, -, hnumber⟩ := (hvalue d).1 hd
  obtain rfl := Option.some.inj he
  refine ⟨_, m', d, rfl, hcheck, hm', hcheck', ?_, (hother 0 (by decide)).1, ?_, hd, hnumber⟩
  · rw [hverify, decide_eq_true rfl]
  · exact (hrefuse (pair 3 3 3 true) 2 [1, 2] hcheck (by decide)).1

/-- The size of an entry does not stay when its digest is replaced: two bytes in place of three. -/
theorem updateDigest_resizes : ¬ ∀ (m m' : Manifest) (i : Nat) (data : Bytes), m.check = .ok () → i < m.scheme.total →
    m.updateDigest i data = .ok m' →
      m' = { m with shards := m.shards.modify i fun e =>
        { e with sha256 := hexEncode (ShardCoding.sha256 data).bytes } } := by
  intro h
  have hsame := h (pair 3 3 3 true) _ 1 [1, 2] (check_pair 3 3 3 true) (by decide) rfl
  have hsize := congrArg (fun m : Manifest => m.shards[1]?.map Entry.size) hsame
  exact absurd hsize (by simp [pair])

end Manifest

end ShardCoding

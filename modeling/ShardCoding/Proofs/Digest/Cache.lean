import ShardCoding.Digest.Basic

/-!
# The digests of a row of shards

* `DigestCache.entries_ofDigests` : one entry for each digest, under its place;
* `DigestCache.get?_ofDigests`, `DigestCache.keys_ofDigests` : what is kept under an index, and under which indices.
-/

namespace ShardCoding

namespace DigestCache

/-- An index above all others goes to the end. -/
theorem insertInto_of_forall_lt {i : Nat} (d : Digest) {entries : List (Nat × Digest)} (h : ∀ e ∈ entries, e.1 < i) :
    insertInto i d entries = entries ++ [(i, d)] := by
  induction entries with
  | nil => rfl
  | cons e entries ih =>
    have hlt : e.1 < i := h e List.mem_cons_self
    rw [insertInto, if_neg (by omega), if_neg (by omega), ih fun e he => h e (List.mem_cons_of_mem _ he)]
    rfl

theorem foldl_insertInto_zipIdx (digests : List Digest) {n : Nat} {entries : List (Nat × Digest)}
    (h : ∀ e ∈ entries, e.1 < n) :
    ((digests.zipIdx n).map fun (d, i) => (i, d)).foldl (fun entries (i, d) => insertInto i d entries) entries =
      entries ++ (digests.zipIdx n).map fun (d, i) => (i, d) := by
  induction digests generalizing n entries with
  | nil => exact (List.append_nil entries).symm
  | cons d digests ih =>
    have hnext : ∀ e ∈ entries ++ [(n, d)], e.1 < n + 1 := by
      intro e he
      rcases List.mem_append.1 he with hold | hnew
      · exact Nat.lt_succ_of_lt (h e hold)
      · rw [List.mem_singleton.1 hnew]
        exact Nat.lt_succ_self n
    rw [List.zipIdx_cons, List.map_cons, List.foldl_cons]
    dsimp only
    rw [insertInto_of_forall_lt d h, ih hnext, List.append_assoc]
    rfl

theorem entries_ofDigests (digests : List Digest) :
    (ofDigests digests).entries = digests.zipIdx.map fun (d, i) => (i, d) :=
  foldl_insertInto_zipIdx digests (fun _ he => absurd he List.not_mem_nil)

theorem keys_ofDigests (digests : List Digest) : (ofDigests digests).entries.map Prod.fst = List.range digests.length := by
  rw [entries_ofDigests, List.map_map]
  refine List.ext_getElem (by simp) fun i hi hi' => ?_
  simp

theorem find?_zipIdx (digests : List Digest) (n i : Nat) :
    (((digests.zipIdx n).map fun (d, j) => (j, d)).find? (·.1 == n + i)).map (·.2) = digests[i]? := by
  induction digests generalizing n i with
  | nil => rfl
  | cons d digests ih =>
    rw [List.zipIdx_cons, List.map_cons, List.find?_cons]
    cases i with
    | zero => simp
    | succ i =>
      have hne : (n == n + (i + 1)) = false := by
        rw [beq_eq_false_iff_ne]
        omega
      rw [hne, List.getElem?_cons_succ, ← ih (n + 1) i, Nat.add_right_comm n 1 i]
      rfl

theorem get?_ofDigests (digests : List Digest) (i : Nat) : (ofDigests digests).get? i = digests[i]? := by
  have h := find?_zipIdx digests 0 i
  rw [Nat.zero_add] at h
  rwa [get?, entries_ofDigests]

end DigestCache

end ShardCoding

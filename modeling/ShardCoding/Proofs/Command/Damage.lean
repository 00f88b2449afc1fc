import ShardCoding.Proofs.Command.Encode

/-!
# What is left of the files of an encode

* `FileTree.intact` : the shard files that read as before; `FileTree.NoCollision` : none was replaced by other bytes with
  its digest;
* `HoldsEncoding.manifestOf_eq`, `HoldsEncoding.exists_states` : what the commands find after any damage to the shard
  files: the manifest, and as usable shards the intact ones;
* `HoldsEncoding.read_intact` : what they read of those;
* `HoldsEncoding.intact_remove` : deleting one shard file leaves the others intact.
-/

namespace ShardCoding

namespace FileTree

/-- The shard files that read in `t'` as they do in `t`, ascending. -/
def intact (layout : Layout) (n : Nat) (t t' : FileTree) : List Nat :=
  (List.range n).filter fun i => t'.read (layout.shardPath i) = t.read (layout.shardPath i)

/-- No shard file of `t` has in `t'` other bytes with the same digest. -/
def NoCollision (layout : Layout) (n : Nat) (t t' : FileTree) : Prop :=
  ∀ i < n, ∀ b b', t.read (layout.shardPath i) = .ok b → t'.read (layout.shardPath i) = .ok b' → sha256 b' = sha256 b →
    b' = b

variable {t t' : FileTree} {layout : Layout} {home : Location} {m : Manifest} {code : Code} {data : Bytes}
  {shards : List Bytes} {i : Nat}

theorem mem_intact {n : Nat} :
    i ∈ intact layout n t t' ↔ i < n ∧ t'.read (layout.shardPath i) = t.read (layout.shardPath i) := by
  rw [intact, List.mem_filter, List.mem_range, decide_eq_true_eq]

theorem nodup_intact (layout : Layout) (n : Nat) (t t' : FileTree) : (intact layout n t t').Nodup :=
  List.nodup_range.filter _

namespace HoldsEncoding

variable (h : t.HoldsEncoding layout home m code data shards)

include h

theorem getElem?_shards (hi : i < code.scheme.total) : shards[i]? = some (shards.getD i []) := by
  have hlt : i < shards.length := by rwa [h.fullSet.length_eq]
  rw [List.getD_eq_getElem?_getD, List.getElem?_eq_getElem hlt, Option.getD_some]

theorem length_getD (hi : i < code.scheme.total) : (shards.getD i []).length = m.shardSize :=
  h.fullSet.uniform _ (List.mem_of_getElem? (h.getElem?_shards hi))

theorem digest_eq (hi : i < code.scheme.total) : m.digest i = .ok (sha256 (shards.getD i [])) :=
  h.describes.digest_eq (h.getElem?_shards hi)

theorem get?_shardPlace_ne (hi : i < code.scheme.total) : t.get? (layout.shardPlace home i) ≠ some .directory := by
  obtain ⟨l, hl, hfile, -⟩ := read_eq_ok.1 (h.shard_eq i hi)
  obtain rfl := Except.ok.inj ((h.hosts.shard i hi).symm.trans hl)
  rw [hfile]
  nofun

theorem length_shards : m.shards.length = code.scheme.total := h.describes.length_entries.trans h.fullSet.length_eq

theorem ofManifestPath_eq : Layout.ofManifestPath layout.manifestPath = .ok layout.reread :=
  Layout.ofManifestPath_manifestPath h.hosts.whole

/-! ### A shard file that is deleted -/

theorem alters_remove (hi : i < code.scheme.total) :
    Alters {layout.shardPlace home i} t (t.remove (layout.shardPath i)) :=
  FileTree.alters_remove (h.hosts.shard i hi) (h.get?_shardPlace_ne hi)

theorem read_remove_ne (hi : i < code.scheme.total) (b : Bytes) :
    (t.remove (layout.shardPath i)).read (layout.shardPath i) ≠ .ok b := by
  intro hread
  obtain ⟨l, hl, hget, -⟩ := read_eq_ok.1 hread
  obtain rfl := Except.ok.inj ((h.hosts.shard i hi).symm.trans (((h.alters_remove hi).locate_iff _ _).1 hl))
  rw [get?_remove (h.hosts.shard i hi) (h.get?_shardPlace_ne hi) (rooted_of_locate (h.hosts.shard i hi)), if_pos rfl] at hget
  cases hget

theorem read_remove_of_ne {j : Nat} (hi : i < code.scheme.total) (hj : j < code.scheme.total) (hne : j ≠ i) :
    (t.remove (layout.shardPath i)).read (layout.shardPath j) = t.read (layout.shardPath j) :=
  (h.alters_remove hi).read_eq (h.hosts.shard j hj) fun hmem => hne (Layout.shardPlace_inj.1 hmem)

theorem noCollision_remove (hi : i < code.scheme.total) :
    NoCollision layout code.scheme.total t (t.remove (layout.shardPath i)) := by
  intro j hj b b' hb hb' _
  by_cases hji : j = i
  · subst hji
    exact absurd hb' (h.read_remove_ne hi b')
  · rw [h.read_remove_of_ne hi hj hji, hb] at hb'
    exact (Except.ok.inj hb').symm

/-- All the others are intact. -/
theorem intact_remove (hi : i < code.scheme.total) :
    intact layout code.scheme.total t (t.remove (layout.shardPath i)) = (List.range code.scheme.total).filter (· ≠ i) := by
  refine List.filter_congr fun j hj => ?_
  rw [decide_eq_decide]
  constructor
  · rintro hread rfl
    rw [h.shard_eq j hi] at hread
    exact h.read_remove_ne hi _ hread
  · exact h.read_remove_of_ne hi (List.mem_range.1 hj)

/-! ### Any damage -/

variable (hdamaged : Damaged layout code.scheme.total t t')

include hdamaged

theorem alters : Alters (layout.shardPlaces home code.scheme.total) t t' :=
  hdamaged.alters h.hosts fun _ => h.get?_shardPlace_ne

theorem hosts_damaged : t'.Hosts layout code.scheme.total home := h.hosts.alters (h.alters hdamaged)

theorem get?_shardPlace_damaged_ne (hi : i < code.scheme.total) : t'.get? (layout.shardPlace home i) ≠ some .directory :=
  fun hget => h.get?_shardPlace_ne hi (((h.alters hdamaged).directory_iff _ _ (h.hosts.shard i hi)).1 hget)

/-- The manifest is still read. -/
theorem manifestOf_eq : t'.manifestOf layout.reread = .ok m := by
  have hread : t'.read layout.reread.manifestPath = .ok m.toText.toUTF8.toList := by
    rw [(h.hosts_damaged hdamaged).read_manifestPath_reread,
      (h.alters hdamaged).read_eq h.hosts.manifest Layout.manifestPlace_notMem_shardPlaces, h.manifest_eq]
  unfold manifestOf
  rw [hread]
  show decodeManifest _ _ = _
  rw [decodeManifest_toUTF8, h.ofText_eq]
  rfl

/-- A shard file has a state, and it is valid if the file is intact. -/
theorem shardState_cases (hcollision : NoCollision layout code.scheme.total t t') (hi : i < code.scheme.total) :
    ∃ state, t'.shardState layout.reread m i = .ok state ∧
      (state = .valid ↔ t'.read (layout.shardPath i) = t.read (layout.shardPath i)) := by
  have hhosts := h.hosts_damaged hdamaged
  obtain ⟨state, hstate⟩ := exists_shardState (hhosts.parent.shard i hi) (h.get?_shardPlace_damaged_ne hdamaged hi)
    (Path.endsInSlash_append _ (Layout.isName_shardName h.hosts.whole i)) (h.digest_eq hi)
  refine ⟨state, hstate, ?_⟩
  have hvalid : state = .valid ↔ t'.shardState layout.reread m i = .ok .valid := by
    rw [hstate, Except.ok.injEq]
  rw [hvalid, shardState_eq_valid_iff, hhosts.read_shardPath_reread hi, h.shard_eq i hi, h.digest_eq hi]
  constructor
  · rintro ⟨b, hread, -, hdigest⟩
    rw [hread, hcollision i hi _ b (h.shard_eq i hi) hread (Except.ok.inj hdigest).symm]
  · intro hread
    exact ⟨_, hread, h.length_getD hi, rfl⟩

/-- An intact shard file holds its shard. -/
theorem read_intact (hi : i ∈ intact layout code.scheme.total t t') :
    t'.read (layout.reread.shardPath i) = .ok (shards.getD i []) := by
  obtain ⟨hlt, hread⟩ := mem_intact.1 hi
  rw [(h.hosts_damaged hdamaged).read_shardPath_reread hlt, hread, h.shard_eq i hlt]

theorem exists_states (hcollision : NoCollision layout code.scheme.total t t') :
    ∃ states, (List.range m.shards.length).mapM (t'.shardState layout.reread m) = .ok states ∧
      states.length = code.scheme.total ∧ usableShards states = intact layout code.scheme.total t t' := by
  have hcases := fun i hi => h.shardState_cases hdamaged hcollision (i := i) hi
  have : Nonempty ShardState := ⟨.valid⟩
  choose! state hstate hvalid using hcases
  have hstates : (List.range m.shards.length).mapM (t'.shardState layout.reread m) =
      .ok ((List.range m.shards.length).map state) := by
    refine mapM_ok fun i hi => hstate i ?_
    rw [h.length_shards] at hi
    exact List.mem_range.1 hi
  rw [h.length_shards] at hstates ⊢
  refine ⟨_, hstates, by simp, ?_⟩
  rw [usableShards, intact, List.length_map, List.length_range]
  refine List.filter_congr fun i hi => ?_
  have hi' := List.mem_range.1 hi
  rw [List.getElem?_map, List.getElem?_range hi', Option.map_some, decide_eq_decide, Option.some_inj]
  exact hvalid i hi'

end HoldsEncoding

end FileTree

end ShardCoding

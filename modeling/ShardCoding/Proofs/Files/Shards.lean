import Mathlib.Data.List.Nodup
import ShardCoding.Proofs.Files.Change
import ShardCoding.Proofs.Layout

/-!
# The files of a layout in a tree

* `Layout.shardPlace`, `Layout.manifestPlace` : where the files are when names are looked up in a directory;
* `FileTree.Hosts` : the paths of the manifest and the shards lead there; `Hosts.alters`, `Hosts.parent` : they still do
  after a change of files, and from the layout that is read from the manifest's path;
* `FileTree.Damaged` : deletions and overwritings of shard files; `Damaged.alters` : they alter nothing else.
-/

namespace ShardCoding

variable {layout : Layout} {home : Location} {i j n : Nat}

namespace Layout

/-- Where shard file `i` is if names are looked up in `home`. -/
def shardPlace (layout : Layout) (home : Location) (i : Nat) : Location := home ++ [(layout.shardName i).toList]

def manifestPlace (layout : Layout) (home : Location) : Location := home ++ [layout.manifestName.toList]

/-- The places of the first `n` shard files. -/
def shardPlaces (layout : Layout) (home : Location) (n : Nat) : Set Location := {l | ∃ i < n, l = layout.shardPlace home i}

theorem shardPlace_inj : layout.shardPlace home i = layout.shardPlace home j ↔ i = j := by
  rw [shardPlace, shardPlace, List.append_cancel_left_eq, List.singleton_inj, String.toList_inj, shardName_inj]

theorem manifestPlace_notMem_shardPlaces : layout.manifestPlace home ∉ layout.shardPlaces home n := by
  rintro ⟨i, -, h⟩
  rw [manifestPlace, shardPlace, List.append_cancel_left_eq, List.singleton_inj, String.toList_inj] at h
  exact shardName_ne_manifestName h.symm

theorem nodup_map_shardPlace {is : List Nat} (h : is.Nodup) : (is.map (layout.shardPlace home)).Nodup :=
  h.map (f := layout.shardPlace home) fun _ _ heq => shardPlace_inj.1 heq

/-- The layout that is read from the manifest's path. -/
def reread (layout : Layout) : Layout := ⟨layout.manifestPath.parent, layout.base⟩

theorem manifestPath_reread (layout : Layout) :
    layout.reread.manifestPath = (layout.dir.append layout.manifestName).parent.append layout.manifestName := by
  simp only [reread, manifestPath, manifestName]

theorem shardPath_reread (layout : Layout) (i : Nat) :
    layout.reread.shardPath i = (layout.dir.append layout.manifestName).parent.append (layout.shardName i) := by
  simp only [reread, shardPath_eq, shardName, manifestPath_eq]

end Layout

namespace FileTree

variable {t t' t'' : FileTree} {places : Set Location}

theorem eq_shardPlace (hwhole : layout.Whole) (hopens : t.Opens layout.dir home) {l : Location}
    (h : t.locate (layout.shardPath i) = .ok l) : l = layout.shardPlace home i := by
  obtain ⟨-, -, home', hopens', rfl⟩ := (locate_append_eq_ok (Layout.isName_shardName hwhole i)).1 h
  rw [hopens.eq hopens', Layout.shardPlace]

theorem exists_opens_of_locate_manifestPath (hwhole : layout.Whole) {l : Location}
    (h : t.locate layout.manifestPath = .ok l) : ∃ home, t.Opens layout.dir home ∧ l = layout.manifestPlace home :=
  ((locate_append_eq_ok (Layout.isName_manifestName hwhole)).1 h).2.2

/-- The paths of the manifest and of the first `n` shards lead to their places in `home`. -/
structure Hosts (t : FileTree) (layout : Layout) (n : Nat) (home : Location) : Prop where
  whole : layout.Whole
  manifest : t.locate layout.manifestPath = .ok (layout.manifestPlace home)
  shard : ∀ i < n, t.locate (layout.shardPath i) = .ok (layout.shardPlace home i)

/-- A manifest of which the path leads anywhere is where the shard files are. -/
theorem hosts_of_locate (hwhole : layout.Whole) (hn : 0 < n)
    (hplace : ∀ i < n, t.locate (layout.shardPath i) = .ok (layout.shardPlace home i)) {l : Location}
    (hl : t.locate layout.manifestPath = .ok l) : t.Hosts layout n home := by
  obtain ⟨home', hopens, rfl⟩ := exists_opens_of_locate_manifestPath hwhole hl
  have hhome := eq_shardPlace hwhole hopens (hplace 0 hn)
  rw [Layout.shardPlace, Layout.shardPlace, List.append_cancel_right_eq] at hhome
  exact ⟨hwhole, hhome ▸ hl, hplace⟩

namespace Hosts

theorem alters (h : t.Hosts layout n home) (halters : Alters places t t') : t'.Hosts layout n home :=
  ⟨h.whole, (halters.locate_iff _ _).2 h.manifest, fun i hi => (halters.locate_iff _ _).2 (h.shard i hi)⟩

theorem parent (h : t.Hosts layout n home) : t.Hosts layout.reread n home := by
  have hname := Layout.isName_manifestName h.whole
  refine ⟨h.whole, ?_, fun i hi => ?_⟩
  · rw [Layout.manifestPath_reread]
    exact locate_append_parent hname hname h.manifest
  · rw [Layout.shardPath_reread]
    exact locate_append_parent hname (Layout.isName_shardName h.whole i) (h.shard i hi)

theorem read_manifestPath_reread (h : t.Hosts layout n home) :
    t.read layout.reread.manifestPath = t.read layout.manifestPath := by
  have hname := Layout.isName_manifestName h.whole
  have hslash := Path.endsInSlash_append layout.dir hname
  have hslash' := Path.endsInSlash_append layout.reread.dir hname
  rw [read, read, find_eq h.parent.manifest, find_eq h.manifest, Layout.manifestPath_eq, Layout.manifestPath_eq, hslash]
  rw [← hslash']
  rfl

theorem find_shardPath_reread (h : t.Hosts layout n home) (hi : i < n) :
    t.find (layout.reread.shardPath i) = t.find (layout.shardPath i) := by
  have hname := Layout.isName_shardName h.whole i
  have hslash := Path.endsInSlash_append layout.dir hname
  have hslash' := Path.endsInSlash_append layout.reread.dir hname
  rw [find_eq (h.parent.shard i hi), find_eq (h.shard i hi), Layout.shardPath_eq, Layout.shardPath_eq, hslash]
  rw [← hslash']
  rfl

theorem read_shardPath_reread (h : t.Hosts layout n home) (hi : i < n) :
    t.read (layout.reread.shardPath i) = t.read (layout.shardPath i) := by
  rw [read, read, h.find_shardPath_reread hi]

end Hosts

/-! ## Shard files that are written -/

theorem exists_places_of_writeEach (hwhole : layout.Whole) {content : Nat → Bytes} (hn : 0 < n)
    (h : writeEach layout.shardPath content (List.range n) t = .ok t') :
    ∃ home, ∀ i ∈ List.range n, t.locate (layout.shardPath i) = .ok (layout.shardPlace home i) := by
  obtain ⟨l, hl⟩ := exists_locate_of_writeEach h (List.mem_range.2 hn)
  obtain ⟨-, -, home, hopens, -⟩ := (locate_append_eq_ok (Layout.isName_shardName hwhole 0)).1 hl
  refine ⟨home, fun i hi => ?_⟩
  obtain ⟨l', hl'⟩ := exists_locate_of_writeEach h hi
  rw [hl', eq_shardPlace hwhole hopens hl']

theorem alters_writeEach_shards {is : List Nat} {content : Nat → Bytes}
    (hplace : ∀ i ∈ is, t.locate (layout.shardPath i) = .ok (layout.shardPlace home i)) (hlt : ∀ i ∈ is, i < n)
    (h : writeEach layout.shardPath content is t = .ok t') : Alters (layout.shardPlaces home n) t t' := by
  refine (alters_writeEach hplace h).mono ?_
  rintro l ⟨i, hi, rfl⟩
  exact ⟨i, hlt i hi, rfl⟩

theorem read_writeEach_shards {is : List Nat} (hnodup : is.Nodup) {content : Nat → Bytes}
    (hplace : ∀ i ∈ is, t.locate (layout.shardPath i) = .ok (layout.shardPlace home i))
    (h : writeEach layout.shardPath content is t = .ok t') (hi : i ∈ is) : t'.read (layout.shardPath i) = .ok (content i) :=
  read_writeEach hplace (Layout.nodup_map_shardPlace hnodup) h hi

/-! ## Damage -/

/-- Deletions and overwritings of the first `n` shard files of the layout, one after another, lead from `t` to `t'`. -/
inductive Damaged (layout : Layout) (n : Nat) (t : FileTree) : FileTree → Prop
  | untouched : Damaged layout n t t
  | deleted {t' : FileTree} {i : Nat} : i < n → Damaged layout n t t' → Damaged layout n t (t'.remove (layout.shardPath i))
  | overwritten {t' t'' : FileTree} {i : Nat} (content : Bytes) : i < n → Damaged layout n t t' →
      t'.write (layout.shardPath i) content = .ok t'' → Damaged layout n t t''

theorem Damaged.alters (h : Damaged layout n t t') (hhosts : t.Hosts layout n home)
    (hfiles : ∀ i < n, t.get? (layout.shardPlace home i) ≠ some .directory) :
    Alters (layout.shardPlaces home n) t t' := by
  have hone : ∀ i < n, {layout.shardPlace home i} ⊆ layout.shardPlaces home n := by
    rintro i hi l rfl
    exact ⟨i, hi, rfl⟩
  induction h with
  | untouched => exact Alters.refl _ t
  | @deleted t' i hi _ ih =>
    have hlocate := (ih.locate_iff _ _).2 (hhosts.shard i hi)
    have hfile : t'.get? (layout.shardPlace home i) ≠ some .directory := fun hget =>
      hfiles i hi ((ih.directory_iff _ _ (hhosts.shard i hi)).1 hget)
    exact ih.trans ((alters_remove hlocate hfile).mono (hone i hi))
  | @overwritten t' t'' i content hi _ hwrite ih =>
    exact ih.trans ((alters_write hwrite ((ih.locate_iff _ _).2 (hhosts.shard i hi))).mono (hone i hi))

end FileTree

end ShardCoding

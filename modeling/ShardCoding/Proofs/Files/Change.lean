import Mathlib.Data.Set.Basic
import ShardCoding.Proofs.Files.Walk

/-!
# What changes of files leave alone

* `FileTree.get?_put`, `FileTree.get?_remove` : what is in a tree after a change;
* `FileTree.Alters` : only the files at some places may differ; `Alters.refl`, `trans`, `mono`; `Alters.find_eq`,
  `Alters.read_eq` : other paths lead to what they led to;
* `alters_write`, `alters_remove` : writing and removing a file; `read_write` : what was written is read;
* `FileTree.writeEach` : files written one after another; `alters_writeEach`, `read_writeEach`;
* `FileTree.Grows` : directories may be added; `grows_makeDirectories`.
-/

namespace ShardCoding

namespace FileTree

variable {t t' t'' : FileTree} {l l' : Location} {p q : Path}

/-! ## Lookups -/

theorem lookup_filter (nodes : List (Location × FileNode)) (keep : Location → Bool) (l : Location) :
    (nodes.filter fun node => keep node.1).lookup l = if keep l then nodes.lookup l else none := by
  induction nodes with
  | nil => simp
  | cons node nodes ih =>
    obtain ⟨k, n⟩ := node
    by_cases hk : l = k
    · subst hk
      by_cases hkeep : keep l
      · simp [hkeep]
      · simp [hkeep, ih]
    · have hbeq : (l == k) = false := by simp [hk]
      by_cases hkeep : keep k
      · simp [hkeep, List.lookup_cons, hbeq, ih]
      · simp [hkeep, List.lookup_cons, hbeq, ih]

theorem get?_of_isBase (t : FileTree) (h : l.isBase = true) : t.get? l = some .directory := if_pos h

theorem get?_of_not_isBase (t : FileTree) (h : l.isBase = false) : t.get? l = t.nodes.lookup l :=
  if_neg (by rw [h]; exact Bool.false_ne_true)

theorem not_isBase_of_get? (h : t.get? l ≠ some .directory) : l.isBase = false := by
  rw [← Bool.not_eq_true]
  exact fun hbase => h (t.get?_of_isBase hbase)

theorem get?_put (h : t.get? l ≠ some .directory) (n : FileNode) (l' : Location) :
    (t.put l n).get? l' = if l' = l then some n else t.get? l' := by
  by_cases hl : l' = l
  · subst hl
    rw [if_pos rfl, get?_of_not_isBase _ (not_isBase_of_get? h)]
    exact List.lookup_cons_self
  · have hbeq : (l' == l) = false := by simp [hl]
    have hlookup : (t.put l n).nodes.lookup l' = t.nodes.lookup l' := by
      rw [put, List.lookup_cons, hbeq]
      dsimp only
      rw [lookup_filter t.nodes (fun k => decide (k ≠ l)), if_pos (decide_eq_true hl)]
    rw [if_neg hl, get?, get?, hlookup]

/-- A file has nothing below it, so removing it removes nothing else that a walk comes to. -/
theorem get?_remove (hl : t.locate p = .ok l) (h : t.get? l ≠ some .directory) (hrooted : t.Rooted l') :
    (t.remove p).get? l' = if l' = l then none else t.get? l' := by
  have hremove : t.remove p = ⟨t.nodes.filter fun node => !l.isPrefixOf node.1⟩ := by
    unfold remove
    rw [hl]
  rw [hremove]
  by_cases heq : l' = l
  · subst heq
    rw [if_pos rfl, get?_of_not_isBase _ (not_isBase_of_get? h)]
    dsimp only
    rw [lookup_filter t.nodes (fun k => !l'.isPrefixOf k), if_neg (by simp)]
  · have hprefix : ¬ l <+: l' := fun hprefix => h (hrooted l hprefix (Ne.symm heq))
    have hkeep : (!l.isPrefixOf l') = true := by
      rw [Bool.not_eq_true', ← Bool.not_eq_true, List.isPrefixOf_iff_prefix]
      exact hprefix
    rw [if_neg heq, get?, get?]
    dsimp only
    rw [lookup_filter t.nodes (fun k => !l.isPrefixOf k), if_pos hkeep]

/-! ## Files that differ -/

/-- `t'` differs from `t` in nothing but the files at `places`. -/
structure Alters (places : Set Location) (t t' : FileTree) : Prop where
  locate_iff : ∀ p l, t'.locate p = .ok l ↔ t.locate p = .ok l
  get?_eq : ∀ p l, t.locate p = .ok l → l ∉ places → t'.get? l = t.get? l
  directory_iff : ∀ p l, t.locate p = .ok l → (t'.get? l = some .directory ↔ t.get? l = some .directory)

namespace Alters

variable {places places' : Set Location}

theorem refl (places : Set Location) (t : FileTree) : Alters places t t :=
  ⟨fun _ _ => Iff.rfl, fun _ _ _ _ => rfl, fun _ _ _ => Iff.rfl⟩

theorem mono (h : Alters places t t') (hsub : places ⊆ places') : Alters places' t t' :=
  ⟨h.locate_iff, fun p l hl hout => h.get?_eq p l hl fun hin => hout (hsub hin), h.directory_iff⟩

theorem trans (h : Alters places t t') (h' : Alters places t' t'') : Alters places t t'' where
  locate_iff p l := (h'.locate_iff p l).trans (h.locate_iff p l)
  get?_eq p l hl hout := (h'.get?_eq p l ((h.locate_iff p l).2 hl) hout).trans (h.get?_eq p l hl hout)
  directory_iff p l hl := (h'.directory_iff p l ((h.locate_iff p l).2 hl)).trans (h.directory_iff p l hl)

theorem find_eq (h : Alters places t t') (hl : t.locate p = .ok l) (hout : l ∉ places) : t'.find p = t.find p := by
  rw [FileTree.find_eq hl, FileTree.find_eq ((h.locate_iff p l).2 hl), h.get?_eq p l hl hout]

theorem read_eq (h : Alters places t t') (hl : t.locate p = .ok l) (hout : l ∉ places) : t'.read p = t.read p := by
  rw [read, read, h.find_eq hl hout]

/-- A path that leads nowhere still does. -/
theorem toOption_find_eq (h : Alters places t t') (hout : ∀ l, t.locate p = .ok l → l ∉ places) :
    (t'.find p).toOption = (t.find p).toOption := by
  cases hl : t.locate p with
  | ok l => rw [h.find_eq hl (hout l hl)]
  | error kind =>
    cases hl' : t'.locate p with
    | ok l =>
      rw [(h.locate_iff p l).1 hl'] at hl
      cases hl
    | error kind' =>
      rw [find, find, hl, hl']
      rfl

/-- A file that can be written still can be. -/
theorem exists_write (h : Alters places t t') {content : Bytes} (hwrite : t.write p content = .ok t'') (content' : Bytes) :
    ∃ t₃, t'.write p content' = .ok t₃ := by
  obtain ⟨l, hl, hslash, hdirectory, -⟩ := write_eq_ok.1 hwrite
  exact ⟨_, write_eq_ok.2 ⟨l, (h.locate_iff p l).2 hl, hslash, fun hget => hdirectory ((h.directory_iff p l hl).1 hget), rfl⟩⟩

end Alters

/-- Trees with the same directories on the way to each place, and the same files but for one place. -/
theorem alters_of_get? {places : Set Location} (hdirectory : ∀ l', t.Rooted l' →
      (t'.get? l' = some .directory ↔ t.get? l' = some .directory))
    (hget : ∀ l', t.Rooted l' → l' ∉ places → t'.get? l' = t.get? l') : Alters places t t' := by
  refine ⟨fun p l' => ?_, fun p l' hl' hout => hget l' (rooted_of_locate hl') hout,
    fun p l' hl' => hdirectory l' (rooted_of_locate hl')⟩
  rw [locate_eq_ok, locate_eq_ok, walk_eq_ok_iff hdirectory (t.rooted_ofAnchor _)]

theorem alters_write {content : Bytes} (h : t.write p content = .ok t') (hl : t.locate p = .ok l) :
    Alters {l} t t' := by
  obtain ⟨l', hl', -, hdirectory, rfl⟩ := write_eq_ok.1 h
  obtain rfl := Except.ok.inj (hl.symm.trans hl')
  refine alters_of_get? ?_ ?_
  · intro l' _
    rw [get?_put hdirectory]
    split
    · next heq => simp [heq, hdirectory]
    · rfl
  · intro l' _ hout
    have hne : l' ≠ l := hout
    rw [get?_put hdirectory, if_neg hne]

theorem alters_remove (hl : t.locate p = .ok l) (hdirectory : t.get? l ≠ some .directory) :
    Alters {l} t (t.remove p) := by
  refine alters_of_get? ?_ ?_
  · intro l' hrooted
    rw [get?_remove hl hdirectory hrooted]
    split
    · next heq => simp [heq, hdirectory]
    · rfl
  · intro l' hrooted hout
    have hne : l' ≠ l := hout
    rw [get?_remove hl hdirectory hrooted, if_neg hne]

theorem read_write {content : Bytes} (h : t.write p content = .ok t') : t'.read p = .ok content := by
  obtain ⟨l, hl, hslash, hdirectory, rfl⟩ := write_eq_ok.1 h
  refine read_eq_ok.2 ⟨l, ((alters_write h hl).locate_iff p l).2 hl, ?_, hslash⟩
  rw [get?_put hdirectory, if_pos rfl]

/-! ## Files written one after another -/

section

variable {α : Type} {path : α → Path} {content : α → Bytes} {place : α → Location} {as : List α}

/-- A file written for each of `as`, in turn. -/
def writeEach (path : α → Path) (content : α → Bytes) (as : List α) (t : FileTree) : Except IoKind FileTree :=
  as.foldlM (fun t a => t.write (path a) (content a)) t

theorem writeEach_cons_eq_ok {a : α} : writeEach path content (a :: as) t = .ok t' ↔
    ∃ t₁, t.write (path a) (content a) = .ok t₁ ∧ writeEach path content as t₁ = .ok t' := by
  show (t.write (path a) (content a)).bind (writeEach path content as) = .ok t' ↔ _
  cases t.write (path a) (content a) with
  | error kind => simp [Except.bind]
  | ok t₁ => simp [Except.bind]

theorem writeEach_map {β : Type} (f : β → α) (path : α → Path) (content : α → Bytes) (bs : List β) (t : FileTree) :
    writeEach path content (bs.map f) t = writeEach (path ∘ f) (content ∘ f) bs t := List.foldlM_map

theorem exists_locate_of_writeEach (h : writeEach path content as t = .ok t') {a : α} (ha : a ∈ as) :
    ∃ l, t.locate (path a) = .ok l := by
  induction as generalizing t with
  | nil => cases ha
  | cons b as ih =>
    obtain ⟨t₁, hwrite, hrest⟩ := writeEach_cons_eq_ok.1 h
    obtain ⟨m, hm, -⟩ := write_eq_ok.1 hwrite
    rcases List.mem_cons.1 ha with rfl | ha
    · exact ⟨m, hm⟩
    · obtain ⟨l, hl⟩ := ih hrest ha
      exact ⟨l, ((alters_write hwrite hm).locate_iff _ _).1 hl⟩

theorem alters_writeEach (hplace : ∀ a ∈ as, t.locate (path a) = .ok (place a))
    (h : writeEach path content as t = .ok t') : Alters {l | ∃ a ∈ as, l = place a} t t' := by
  induction as generalizing t with
  | nil =>
    obtain rfl := Except.ok.inj h
    exact Alters.refl _ _
  | cons a as ih =>
    obtain ⟨t₁, hwrite, hrest⟩ := writeEach_cons_eq_ok.1 h
    have hfirst := alters_write hwrite (hplace a List.mem_cons_self)
    have hrest' := ih (fun b hb => (hfirst.locate_iff _ _).2 (hplace b (List.mem_cons_of_mem a hb))) hrest
    refine (hfirst.mono ?_).trans (hrest'.mono ?_)
    · rintro l rfl
      exact ⟨a, List.mem_cons_self, rfl⟩
    · rintro l ⟨b, hb, rfl⟩
      exact ⟨b, List.mem_cons_of_mem a hb, rfl⟩

theorem read_writeEach (hplace : ∀ a ∈ as, t.locate (path a) = .ok (place a)) (hnodup : (as.map place).Nodup)
    (h : writeEach path content as t = .ok t') {a : α} (ha : a ∈ as) : t'.read (path a) = .ok (content a) := by
  induction as generalizing t with
  | nil => cases ha
  | cons b as ih =>
    obtain ⟨t₁, hwrite, hrest⟩ := writeEach_cons_eq_ok.1 h
    have hb := hplace b List.mem_cons_self
    have hplace' : ∀ c ∈ as, t₁.locate (path c) = .ok (place c) := fun c hc =>
      ((alters_write hwrite hb).locate_iff _ _).2 (hplace c (List.mem_cons_of_mem b hc))
    rw [List.map_cons, List.nodup_cons] at hnodup
    rcases List.mem_cons.1 ha with rfl | ha
    · -- The files that are written later are at other places.
      rw [(alters_writeEach hplace' hrest).read_eq (((alters_write hwrite hb).locate_iff _ _).2 hb), read_write hwrite]
      rintro ⟨c, hc, heq⟩
      exact hnodup.1 (heq ▸ List.mem_map_of_mem hc)
    · exact ih hplace' hnodup.2 hrest ha

theorem exists_writeEach (h : ∀ a ∈ as, ∃ t', t.write (path a) [] = .ok t') :
    ∃ t', writeEach path content as t = .ok t' := by
  induction as generalizing t with
  | nil => exact ⟨t, rfl⟩
  | cons a as ih =>
    obtain ⟨t₀, hempty⟩ := h a List.mem_cons_self
    obtain ⟨t₁, hwrite⟩ := (Alters.refl ∅ t).exists_write hempty (content a)
    obtain ⟨l, hl, -⟩ := write_eq_ok.1 hwrite
    obtain ⟨t', hrest⟩ := ih fun b hb => by
      obtain ⟨t₂, hb'⟩ := h b (List.mem_cons_of_mem a hb)
      exact (alters_write hwrite hl).exists_write hb' []
    exact ⟨t', writeEach_cons_eq_ok.2 ⟨t₁, hwrite, hrest⟩⟩

end

/-! ## Directories that are added -/

/-- All that is in `t` is in `t'`. -/
structure Grows (t t' : FileTree) : Prop where
  get?_eq : ∀ l n, t.get? l = some n → t'.get? l = some n

theorem Grows.refl (t : FileTree) : Grows t t := ⟨fun _ _ h => h⟩

theorem Grows.trans (h : Grows t t') (h' : Grows t' t'') : Grows t t'' := ⟨fun l n hl => h'.get?_eq l n (h.get?_eq l n hl)⟩

theorem Grows.walk_eq (h : Grows t t') {names : List (List Char)} (hwalk : t.walk l names = .ok l') :
    t'.walk l names = .ok l' := by
  induction names generalizing l with
  | nil => exact hwalk
  | cons s names ih =>
    obtain ⟨hl, hsize, hrest⟩ := walk_cons_eq_ok.1 hwalk
    exact walk_cons_eq_ok.2 ⟨h.get?_eq l _ hl, hsize, ih hrest⟩

theorem Grows.locate_eq (h : Grows t t') (hl : t.locate p = .ok l) : t'.locate p = .ok l :=
  locate_eq_ok.2 ⟨(locate_eq_ok.1 hl).1, h.walk_eq (locate_eq_ok.1 hl).2⟩

theorem Grows.read_eq (h : Grows t t') {b : Bytes} (hread : t.read p = .ok b) : t'.read p = .ok b := by
  obtain ⟨l, hl, hget, hslash⟩ := read_eq_ok.1 hread
  exact read_eq_ok.2 ⟨l, h.locate_eq hl, h.get?_eq l _ hget, hslash⟩

theorem grows_makeDirectory (h : t.makeDirectory p = .ok t') : Grows t t' := by
  unfold makeDirectory at h
  split at h
  · cases h
  · next l hl =>
    split at h
    · cases h
    · next hnone =>
      obtain rfl := Except.ok.inj h
      have habsent : t.get? l = none := by simpa using hnone
      refine ⟨fun l' n hl' => ?_⟩
      rw [get?_put (by rw [habsent]; exact nofun), if_neg, hl']
      rintro rfl
      rw [habsent] at hl'
      cases hl'

end FileTree

end ShardCoding

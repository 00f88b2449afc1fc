import ShardCoding.Proofs.Files.Shards

/-!
# What the files of layouts are called

* `Path.Same` : two texts of one path; `Path.same_append_parent`, `Path.same_append_iff` : names behind a path;
* `Layout.Part` : the files of a layout; `Layout.name_eq_iff`, `Layout.name_ne_base` : no two are called the same, nor is one
  called like the base; `Layout.same_path_iff`, `Layout.eq_of_locate` : no two have one path or lead to one place;
* `Layout.Rereads` : a layout whose files have the paths of another; `Layout.rereads_reread` : the one that is read from
  the manifest's path;
* `Layout.naming_exact` : both for all layouts.
-/

namespace ShardCoding

namespace Path

variable {p q : Path} {name name' : String}

/-- Two texts of one path: they tell the same names from the same anchor. -/
def Same (p q : Path) : Prop := p.anchor = q.anchor ∧ p.names = q.names

instance (p q : Path) : Decidable (p.Same q) := inferInstanceAs (Decidable (_ ∧ _))

theorem Same.fileName?_eq (h : p.Same q) : p.fileName? = q.fileName? := by
  rw [fileName?, fileName?, h.2]

theorem filter_trimFillers (ss : List (List Char)) :
    (trimFillers ss).filter (fun s => !isFiller s) = ss.filter fun s => !isFiller s := by
  obtain ⟨fillers, hfillers, hss⟩ := exists_trimFillers_append ss
  have hnone : fillers.filter (fun s => !isFiller s) = [] := by
    rw [List.filter_eq_nil_iff]
    intro s hs
    simp [hfillers s hs]
  conv_rhs => rw [hss, List.filter_append, hnone, List.append_nil]

theorem filter_lead (p : Path) : p.lead.filter (fun s => !isFiller s) = p.names := by
  rw [names, lead]
  split
  · next hlast =>
    obtain ⟨front, hfront⟩ := List.getLast?_eq_some_iff.1 hlast
    rw [hfront, List.dropLast_concat, List.filter_append]
    exact (List.append_nil _).symm
  · rfl

theorem names_append (p : Path) (hname : IsName name) : (p.append name).names = p.names ++ [name.toList] := by
  rw [names, split_append p hname, List.filter_append, filter_lead, List.filter_singleton, hname.names]
  rfl

theorem names_parent_append (p : Path) (hname : IsName name) : (p.append name).parent.names = p.names := by
  rw [← filter_lead, (p.lead_parent_append hname).2, filter_trimFillers, filter_lead]

/-- Names from the directory that a name was taken off from are those behind the path itself. -/
theorem same_append_parent (p : Path) (hname : IsName name) (hname' : IsName name') :
    ((p.append name).parent.append name').Same (p.append name') := by
  constructor
  · rw [anchor_append _ hname', anchor_append _ hname', (p.lead_parent_append hname).1]
  · rw [names_append _ hname', names_append _ hname', names_parent_append p hname]

theorem same_append_iff (hname : IsName name) (hname' : IsName name') :
    (p.append name).Same (q.append name') ↔ p.Same q ∧ name = name' := by
  rw [Same, Same, anchor_append p hname, anchor_append q hname', names_append p hname, names_append q hname', and_assoc]
  refine and_congr_right fun _ => ⟨fun h => ?_, fun ⟨hnames, hlast⟩ => by rw [hnames, hlast]⟩
  obtain ⟨hnames, hlast⟩ := List.append_inj' h rfl
  exact ⟨hnames, String.toList_inj.1 (List.singleton_inj.1 hlast)⟩

end Path

namespace Layout

/-- The files of a layout. -/
inductive Part where
  | manifest
  | shard (i : Nat)
  deriving DecidableEq

def name (l : Layout) : Part → String
  | .manifest => l.manifestName
  | .shard i => l.shardName i

def path (l : Layout) : Part → Path
  | .manifest => l.manifestPath
  | .shard i => l.shardPath i

variable {l l' : Layout} {part part' : Part}

theorem path_eq (l : Layout) (part : Part) : l.path part = l.dir.append (l.name part) := by
  cases part <;> rfl

theorem isName_name (h : l.Whole) (part : Part) : IsName (l.name part) := by
  cases part with
  | manifest => exact isName_manifestName h
  | shard i => exact isName_shardName h i

theorem fileName?_path (h : l.Whole) (part : Part) : (l.path part).fileName? = some (l.name part) := by
  rw [path_eq, Path.fileName?_append _ (isName_name h part)]

/-! ## No two files are called the same -/

theorem name_eq_iff : l.name part = l'.name part' ↔ l.base = l'.base ∧ part = part' := by
  cases part with
  | manifest =>
    cases part' with
    | manifest => exact manifestName_eq_iff.trans (by simp)
    | shard j => exact iff_of_false shardName_ne_manifestName.symm (by simp)
  | shard i =>
    cases part' with
    | manifest => exact iff_of_false shardName_ne_manifestName (by simp)
    | shard j => exact shardName_eq_iff.trans (by simp)

theorem name_ne_base : l.name part ≠ l.base := by
  cases part with
  | manifest => exact manifestName_ne_base
  | shard i => exact shardName_ne_base

theorem same_path_iff (h : l.Whole) (h' : l'.Whole) :
    (l.path part).Same (l'.path part') ↔ l.dir.Same l'.dir ∧ l.base = l'.base ∧ part = part' := by
  rw [path_eq, path_eq, Path.same_append_iff (isName_name h part) (isName_name h' part'), name_eq_iff]

/-- Whatever the directories are, where two files meet they have one name. -/
theorem eq_of_locate {t : FileTree} {p q : Path} {name name' : String} {place : Location} (hp : p.fileName? = some name)
    (hq : q.fileName? = some name') (h : t.locate p = .ok place) (h' : t.locate q = .ok place) : name = name' := by
  obtain ⟨home, hplace⟩ := FileTree.exists_of_locate hp h
  obtain ⟨home', hplace'⟩ := FileTree.exists_of_locate hq h'
  obtain ⟨-, hlast⟩ := List.append_inj' (hplace.symm.trans hplace') rfl
  exact String.toList_inj.1 (List.singleton_inj.1 hlast)

/-! ## There and back -/

/-- The files of `l'` are those of `l`. -/
structure Rereads (l l' : Layout) : Prop where
  base_eq : l'.base = l.base
  same : ∀ part, (l'.path part).Same (l.path part)
  locate : ∀ (t : FileTree) (part : Part) (place : Location),
    t.locate (l.path part) = .ok place → t.locate (l'.path part) = .ok place

theorem rereads_reread (h : l.Whole) : l.Rereads l.reread := by
  have hpath : ∀ part, l.reread.path part = (l.dir.append l.manifestName).parent.append (l.name part) := by
    intro part
    cases part with
    | manifest => exact l.manifestPath_reread
    | shard i => exact l.shardPath_reread i
  refine ⟨rfl, fun part => ?_, fun t part place hplace => ?_⟩
  · rw [hpath, path_eq]
    exact l.dir.same_append_parent (isName_manifestName h) (isName_name h part)
  · rw [hpath]
    rw [path_eq] at hplace
    exact FileTree.locate_append_parent (isName_manifestName h) (isName_name h part) hplace

/-- **Names of files**: from the path of its manifest a layout is read whose files have the paths of the layout's own, and
lead to the same places. Files of layouts, the manifests among them, have one name only if they have one base and are the
same part, and none has the name of its base; so no two files whose base or part differs have one path or lead to one
place, whatever their directories are, and none is where an input named as the base is. -/
theorem naming_exact :
    (∀ l : Layout, l.Whole → ∃ l', ofManifestPath l.manifestPath = .ok l' ∧ l.Rereads l') ∧
    (∀ (l l' : Layout) (part part' : Part),
      (l.name part = l'.name part' ↔ l.base = l'.base ∧ part = part') ∧ l.name part ≠ l.base) ∧
    (∀ (l l' : Layout) (part part' : Part), l.Whole → l'.Whole →
      (l.path part).fileName? = some (l.name part) ∧
      ((l.path part).Same (l'.path part') ↔ l.dir.Same l'.dir ∧ l.base = l'.base ∧ part = part') ∧
      ∀ (t : FileTree) (place : Location), t.locate (l.path part) = .ok place → t.locate (l'.path part') = .ok place →
        l.base = l'.base ∧ part = part') ∧
    ∀ (l : Layout) (part : Part) (input : Path), input.fileName? = some l.base →
      ¬ (l.path part).Same input ∧
      ∀ (t : FileTree) (place : Location), t.locate (l.path part) = .ok place → t.locate input ≠ .ok place := by
  refine ⟨fun l h => ⟨l.reread, ofManifestPath_manifestPath h, rereads_reread h⟩,
    fun l l' part part' => ⟨name_eq_iff, name_ne_base⟩, ?_, ?_⟩
  · intro l l' part part' h h'
    refine ⟨fileName?_path h part, same_path_iff h h', fun t place hplace hplace' => ?_⟩
    exact name_eq_iff.1 (eq_of_locate (fileName?_path h part) (fileName?_path h' part') hplace hplace')
  · intro l part input hinput
    have h : l.Whole := (Path.isName_of_fileName? hinput).whole
    refine ⟨fun hsame => ?_, fun t place hplace hinput' => ?_⟩
    · have hfile := hsame.fileName?_eq
      rw [fileName?_path h part, hinput] at hfile
      exact name_ne_base (Option.some.inj hfile)
    · exact name_ne_base (eq_of_locate (fileName?_path h part) hinput hplace hinput')

/-- A base that ends as a shard file does, a directory with a dot and slashes at its end, and a shard with four digits. -/
theorem naming_exact_dotted : ∃ (l l' : Layout) (t : FileTree) (place : Location) (input : Path),
    l.dir.text = "x/.//" ∧ l.base = "a.001.shard" ∧ input.text = "x/a.001.shard" ∧
    ofManifestPath l.manifestPath = .ok l' ∧ l'.dir.text = "x" ∧
    (l'.shardPath 1234).Same (l.shardPath 1234) ∧ (l'.shardPath 1234).text = "x/a.001.shard.1234.shard" ∧
    t.locate (l.shardPath 1234) = .ok place ∧ t.locate (l'.shardPath 1234) = .ok place ∧
    l.shardName 1234 ≠ Layout.shardName ⟨l.dir, "a"⟩ 1 ∧
    ¬ (l.shardPath 1234).Same (Layout.manifestPath ⟨l.dir, "a"⟩) ∧
    ¬ (l.shardPath 1234).Same input ∧ t.locate input ≠ .ok place := by
  obtain ⟨hreread, hnames, hpaths, hinputs⟩ := naming_exact
  let l : Layout := ⟨⟨"x/.//"⟩, "a.001.shard"⟩
  let t : FileTree := ⟨[([['x']], .directory)]⟩
  have hwhole : '/' ∉ l.base.toList := by decide
  have hwhole' : '/' ∉ "a".toList := by decide
  obtain ⟨l', hl', hrereads⟩ := hreread l hwhole
  have hdir : ofManifestPath l.manifestPath = .ok ⟨⟨"x"⟩, "a.001.shard"⟩ := by decide +kernel
  obtain rfl := Except.ok.inj (hdir.symm.trans hl')
  have hplace : t.locate (l.path (.shard 1234)) = .ok [['x'], "a.001.shard.1234.shard".toList] := by decide +kernel
  obtain ⟨hinput, hplaces⟩ := hinputs l (.shard 1234) ⟨"x/a.001.shard"⟩ (by decide +kernel)
  refine ⟨l, _, t, _, ⟨"x/a.001.shard"⟩, rfl, rfl, rfl, hl', rfl, hrereads.same (.shard 1234), by decide +kernel, hplace,
    hrereads.locate t (.shard 1234) _ hplace, fun h => ?_, fun h => ?_, hinput, hplaces t _ hplace⟩
  · exact absurd ((hnames l ⟨l.dir, "a"⟩ (.shard 1234) (.shard 1)).1.1 h).1 (by decide)
  · obtain ⟨-, hsame, -⟩ := hpaths l ⟨l.dir, "a"⟩ (.shard 1234) .manifest hwhole hwhole'
    exact absurd (hsame.1 h).2.1 (by decide)

end Layout

end ShardCoding

import ShardCoding.Files.Tree
import ShardCoding.Proofs.Path

/-!
# Where paths lead

* `FileTree.walk_append` : a walk in two parts; `FileTree.Rooted` : a place below directories that are there;
* `FileTree.locate_eq_ok` : a path leads somewhere if its text is admissible and its names can be walked;
* `FileTree.Opens` : a path under which names are looked up in a directory; `FileTree.locate_append_eq_ok`;
* `FileTree.locate_append_parent` : a name is found as well below the directory that a name was taken off from;
* `FileTree.exists_of_locate` : a place ends in the last name of the path;
* `FileTree.read_eq_ok`, `FileTree.write_eq_ok` : when a file is read, and when it is written.
-/

namespace ShardCoding

namespace Location

theorem step_name {name : String} (h : IsName name) (l : Location) : l.step name.toList = l ++ [name.toList] := by
  rw [step, if_neg (not_or.2 ⟨h.ne_dot, fun hup => h.down hup.1⟩), if_neg fun hup => h.down hup.1]

theorem step_dot (l : Location) : l.step ['.'] = l := if_pos (Or.inl rfl)

end Location

namespace FileTree

variable {t t' : FileTree} {l l' home : Location} {p : Path} {name : String}

/-! ## Walks -/

theorem walk_append (t : FileTree) (l : Location) (front back : List (List Char)) :
    t.walk l (front ++ back) = (t.walk l front).bind fun l' => t.walk l' back := by
  induction front generalizing l with
  | nil => rfl
  | cons s front ih =>
    rw [List.cons_append, walk, walk]
    split
    · split
      · rfl
      · exact ih _
    · rfl
    · rfl

theorem walk_append_eq_ok {front back : List (List Char)} : t.walk l (front ++ back) = .ok l' ↔
    ∃ between, t.walk l front = .ok between ∧ t.walk between back = .ok l' := by
  rw [walk_append]
  cases t.walk l front with
  | error kind => simp [Except.bind]
  | ok between => simp [Except.bind]

theorem walk_cons_eq_ok {s : List Char} {names : List (List Char)} : t.walk l (s :: names) = .ok l' ↔
    t.get? l = some .directory ∧ (String.ofList s).utf8ByteSize ≤ nameLimit ∧ t.walk (l.step s) names = .ok l' := by
  rw [walk]
  split
  · next h =>
    rw [← Nat.not_lt]
    split <;> simp_all
  · next h => simp [h]
  · next h => simp [h]

/-- Dots stay where they are. -/
theorem walk_dots {names : List (List Char)} (hdots : ∀ s ∈ names, s = ['.']) (h : t.walk l names = .ok l') : l' = l := by
  induction names with
  | nil => exact (Except.ok.inj h).symm
  | cons s names ih =>
    obtain rfl := hdots s List.mem_cons_self
    rw [walk_cons_eq_ok, Location.step_dot] at h
    exact ih (fun s hs => hdots s (List.mem_cons_of_mem _ hs)) h.2.2

/-- The places above `l` are directories. -/
def Rooted (t : FileTree) (l : Location) : Prop := ∀ above, above <+: l → above ≠ l → t.get? above = some .directory

theorem Rooted.step (h : t.Rooted l) (hl : t.get? l = some .directory) (s : List Char) : t.Rooted (l.step s) := by
  unfold Location.step
  split
  · exact h
  · split
    · intro above habove hne
      refine h above (habove.trans (List.dropLast_prefix l)) ?_
      rintro rfl
      have hlength := habove.length_le
      rw [List.length_dropLast] at hlength
      obtain rfl : above = [] := List.eq_nil_of_length_eq_zero (by omega)
      exact hne rfl
    · intro above habove hne
      rcases List.prefix_concat_iff.1 habove with rfl | habove
      · exact absurd rfl hne
      · by_cases heq : above = l
        · rw [heq, hl]
        · exact h above habove heq

theorem Rooted.walk (h : t.Rooted l) {names : List (List Char)} (hwalk : t.walk l names = .ok l') : t.Rooted l' := by
  induction names generalizing l with
  | nil =>
    obtain rfl := Except.ok.inj hwalk
    exact h
  | cons s names ih =>
    obtain ⟨hl, -, hrest⟩ := walk_cons_eq_ok.1 hwalk
    exact ih (h.step hl s) hrest

theorem rooted_ofAnchor (t : FileTree) (a : Anchor) : t.Rooted (.ofAnchor a) := by
  have hnil : ∀ above : Location, above <+: [] → above ≠ [] → t.get? above = some .directory :=
    fun above habove hne => absurd (List.prefix_nil.1 habove) hne
  cases a with
  | root =>
    intro above habove hne
    rcases List.prefix_concat_iff.1 (show above <+: [] ++ [['/']] from habove) with rfl | habove
    · exact absurd rfl hne
    · rw [List.prefix_nil.1 habove]
      rfl
  | dot => exact hnil
  | implicit => exact hnil

/-- A walk depends on the directories only, and on those it comes through. -/
theorem walk_eq_ok_iff (hdirectory : ∀ l, t.Rooted l → (t'.get? l = some .directory ↔ t.get? l = some .directory))
    (h : t.Rooted l) (names : List (List Char)) : t'.walk l names = .ok l' ↔ t.walk l names = .ok l' := by
  induction names generalizing l with
  | nil => rfl
  | cons s names ih =>
    rw [walk_cons_eq_ok, walk_cons_eq_ok, hdirectory l h]
    exact and_congr_right fun hl => and_congr_right fun _ => ih (h.step hl s)

end FileTree

/-! ## Paths -/

namespace Path

variable {p : Path} {name : String}

/-- A text that can be looked up. -/
structure Admissible (p : Path) : Prop where
  noNul : '\x00' ∉ p.text.toList
  ne_nil : p.text.toList ≠ []
  size_le : p.text.utf8ByteSize ≤ pathLimit

/-- The segments that are walked in front of an appended name. -/
def leadSteps (p : Path) : List (List Char) := p.lead.filter fun s => !s.isEmpty

theorem steps_append (p : Path) (hname : IsName name) : (p.append name).steps = p.leadSteps ++ [name.toList] := by
  have hne : (!name.toList.isEmpty) = true := by simp [hname.ne_nil]
  rw [steps, split_append p hname, List.filter_append, List.filter_singleton, hne]
  rfl

theorem anchor_append (p : Path) (hname : IsName name) : (p.append name).anchor = p.anchor := by
  rw [anchor, split_append p hname]

/-- Of segments that name nothing only the dots are walked. -/
theorem eq_dot_of_mem_filter {fillers : List (List Char)} (h : ∀ s ∈ fillers, isFiller s = true) :
    ∀ s ∈ fillers.filter fun s => !s.isEmpty, s = ['.'] := by
  intro s hs
  obtain ⟨hmem, hne⟩ := List.mem_filter.1 hs
  have hfiller := h s hmem
  rw [isFiller, Bool.or_eq_true, decide_eq_true_eq] at hfiller
  refine hfiller.resolve_left fun hempty => ?_
  rw [hempty] at hne
  cases hne

/-- Only dots follow the last name that is walked, if there is any. -/
theorem steps_cases (p : Path) :
    (p.names.getLast? = none ∧ ∀ s ∈ p.steps, s = ['.']) ∨
    ∃ (s : List Char) (front dots : List (List Char)), p.names.getLast? = some s ∧ (∀ s ∈ dots, s = ['.']) ∧
      p.steps = front ++ s :: dots := by
  obtain ⟨fillers, hfillers, hsplit⟩ := exists_trimFillers_append p.split.2
  have hdropped : fillers.filter (fun s => !isFiller s) = [] := by
    rw [List.filter_eq_nil_iff]
    intro s hs
    simp [hfillers s hs]
  rw [names, steps, hsplit, List.filter_append, hdropped, List.append_nil, List.filter_append]
  rcases List.eq_nil_or_concat (trimFillers p.split.2) with hnil | ⟨front, s, hconcat⟩
  · left
    rw [hnil]
    exact ⟨rfl, eq_dot_of_mem_filter hfillers⟩
  · right
    rw [List.concat_eq_append] at hconcat
    have hs := isFiller_of_trimFillers hconcat
    have hne : (!s.isEmpty) = true := by
      rw [isFiller, Bool.or_eq_false_iff] at hs
      rw [hs.1]
      rfl
    refine ⟨s, front.filter fun s => !s.isEmpty, _, ?_, eq_dot_of_mem_filter hfillers, ?_⟩
    · rw [hconcat, List.filter_append, List.filter_singleton, hs]
      exact List.getLast?_concat
    · rw [hconcat, List.filter_append, List.filter_singleton, hne]
      simp

theorem exists_steps_eq (h : p.fileName? = some name) : ∃ front dots : List (List Char), (∀ s ∈ dots, s = ['.']) ∧
    p.steps = front ++ name.toList :: dots := by
  unfold fileName? at h
  obtain ⟨hlast, -⟩ | ⟨s, front, dots, hlast, hdots, hsteps⟩ := p.steps_cases
  · rw [hlast] at h
    cases h
  · rw [hlast] at h
    dsimp only at h
    split at h
    · cases h
    · obtain rfl := Option.some.inj h
      exact ⟨front, dots, hdots, by rw [hsteps, String.toList_ofList]⟩

theorem Admissible.parent (hname : IsName name) {name' : String} (h : (p.append name').Admissible) (hname' : IsName name') :
    ((p.append name).parent.append name').Admissible := by
  have hsublist := p.toList_append_parent_sublist hname name'
  refine ⟨fun hmem => h.noNul (hsublist.subset hmem), ?_, ?_⟩
  · obtain ⟨front, -, happend⟩ := exists_anchoredText_append (p.append name).parent.anchor (p.append name).parent.lead
    rw [toList_append, happend]
    simp [hname'.ne_nil]
  · have hsize := String.utf8Len_le_of_sublist hsublist
    rw [← String.utf8ByteSize_ofList, ← String.utf8ByteSize_ofList, String.ofList_toList, String.ofList_toList] at hsize
    exact hsize.trans h.size_le

/-- The segments that are left in front of a name that was taken off, with dots behind them that were lost. -/
theorem leadSteps_parent (p : Path) (hname : IsName name) : ∃ dots : List (List Char), (∀ s ∈ dots, s = ['.']) ∧
    p.leadSteps = (p.append name).parent.leadSteps ++ dots := by
  obtain ⟨fillers, hfillers, hlead⟩ := exists_trimFillers_append p.lead
  refine ⟨_, eq_dot_of_mem_filter hfillers, ?_⟩
  rw [leadSteps, leadSteps, (p.lead_parent_append hname).2, ← List.filter_append, ← hlead]

end Path

namespace FileTree

variable {t t' : FileTree} {l l' home : Location} {p : Path} {name : String}

theorem locate_eq_ok : t.locate p = .ok l ↔ p.Admissible ∧ t.walk (.ofAnchor p.anchor) p.steps = .ok l := by
  unfold locate
  constructor
  · intro h
    split at h
    · cases h
    · next hnul =>
      split at h
      · cases h
      · next hempty =>
        split at h
        · cases h
        · next hsize =>
          refine ⟨⟨hnul, fun hnil => hempty ?_, Nat.not_lt.1 hsize⟩, h⟩
          rw [String.isEmpty_iff, ← String.toList_eq_nil_iff]
          exact hnil
  · rintro ⟨⟨hnul, hne, hsize⟩, hwalk⟩
    have hempty : ¬ p.text.isEmpty = true := by
      rw [String.isEmpty_iff, ← String.toList_eq_nil_iff]
      exact hne
    rw [if_neg hnul, if_neg hempty, if_neg (Nat.not_lt.2 hsize)]
    exact hwalk

theorem rooted_of_locate (h : t.locate p = .ok l) : t.Rooted l := (t.rooted_ofAnchor _).walk (locate_eq_ok.1 h).2

/-- Names appended to `p` are looked up in the directory `home`. -/
structure Opens (t : FileTree) (p : Path) (home : Location) : Prop where
  walk_eq : t.walk (.ofAnchor p.anchor) p.leadSteps = .ok home
  directory : t.get? home = some .directory

theorem Opens.eq (h : t.Opens p home) {home' : Location} (h' : t.Opens p home') : home' = home :=
  Except.ok.inj (h'.walk_eq.symm.trans h.walk_eq)

theorem locate_append_eq_ok (hname : IsName name) : t.locate (p.append name) = .ok l ↔
    (p.append name).Admissible ∧ name.utf8ByteSize ≤ nameLimit ∧ ∃ home, t.Opens p home ∧ l = home ++ [name.toList] := by
  rw [locate_eq_ok, Path.steps_append p hname, Path.anchor_append p hname]
  refine and_congr_right fun _ => ?_
  rw [walk_append_eq_ok]
  constructor
  · rintro ⟨home, hwalk, hlast⟩
    rw [walk_cons_eq_ok, Location.step_name hname, String.ofList_toList] at hlast
    obtain ⟨hdirectory, hsize, hl⟩ := hlast
    exact ⟨hsize, home, ⟨hwalk, hdirectory⟩, (Except.ok.inj hl).symm⟩
  · rintro ⟨hsize, home, ⟨hwalk, hdirectory⟩, rfl⟩
    refine ⟨home, hwalk, ?_⟩
    rw [walk_cons_eq_ok, Location.step_name hname, String.ofList_toList]
    exact ⟨hdirectory, hsize, rfl⟩

/-- A name below the directory that a name was taken off from leads where it leads behind the path itself. -/
theorem locate_append_parent (hname : IsName name) {name' : String} (hname' : IsName name')
    (h : t.locate (p.append name') = .ok l) : t.locate ((p.append name).parent.append name') = .ok l := by
  obtain ⟨hadmissible, hsize, home, ⟨hwalk, hdirectory⟩, rfl⟩ := (locate_append_eq_ok hname').1 h
  refine (locate_append_eq_ok hname').2 ⟨hadmissible.parent hname hname', hsize, home, ⟨?_, hdirectory⟩, rfl⟩
  obtain ⟨dots, hdots, hlead⟩ := p.leadSteps_parent hname
  rw [hlead, walk_append_eq_ok] at hwalk
  obtain ⟨between, hfront, hback⟩ := hwalk
  rw [(p.lead_parent_append hname).1, hfront, walk_dots hdots hback]

/-! ## Files -/

theorem exists_of_locate (hname : p.fileName? = some name) (h : t.locate p = .ok l) : ∃ home, l = home ++ [name.toList] := by
  obtain ⟨front, dots, hdots, hsteps⟩ := p.exists_steps_eq hname
  have hwalk := (locate_eq_ok.1 h).2
  rw [hsteps, walk_append_eq_ok] at hwalk
  obtain ⟨home, -, hlast⟩ := hwalk
  rw [walk_cons_eq_ok, Location.step_name (Path.isName_of_fileName? hname)] at hlast
  exact ⟨home, walk_dots hdots hlast.2.2⟩

/-- The place above is a directory as well. -/
theorem get?_step_up (hrooted : t.Rooted l) (hl : t.get? l = some .directory) :
    t.get? (l.step ['.', '.']) = some .directory := by
  unfold Location.step
  split
  · exact hl
  · next hroot =>
    split
    · next hbase =>
      refine hrooted _ (List.dropLast_prefix l) fun heq => hbase.2 ?_
      have hlength := congrArg List.length heq
      rw [List.length_dropLast] at hlength
      obtain rfl : l = [] := List.eq_nil_of_length_eq_zero (by omega)
      rfl
    · next hbase =>
      have hall : l.isBase = true := by simpa using hbase
      have hup : (l ++ [['.', '.']]).isBase = true := by
        have hne : l ≠ [['/']] := fun heq => hroot (Or.inr ⟨rfl, heq⟩)
        rw [Location.isBase, Bool.or_eq_true, decide_eq_true_eq] at hall
        rw [Location.isBase, List.all_append, hall.resolve_left hne]
        simp
      exact if_pos hup

/-- What a path without a file name leads to is a directory. -/
theorem exists_fileName_of_locate (h : t.locate p = .ok l) (hl : t.get? l ≠ some .directory) :
    ∃ name, p.fileName? = some name := by
  have hwalk := (locate_eq_ok.1 h).2
  obtain ⟨-, hdots⟩ | ⟨s, front, dots, hlast, hdots, hsteps⟩ := p.steps_cases
  · obtain rfl := walk_dots hdots hwalk
    refine absurd ?_ hl
    cases p.anchor <;> rfl
  · by_cases hup : s = ['.', '.']
    · subst hup
      rw [hsteps, walk_append_eq_ok] at hwalk
      obtain ⟨between, hfront, hback⟩ := hwalk
      obtain ⟨hdirectory, -, hback⟩ := walk_cons_eq_ok.1 hback
      obtain rfl := walk_dots hdots hback
      exact absurd (get?_step_up ((t.rooted_ofAnchor _).walk hfront) hdirectory) hl
    · refine ⟨String.ofList s, ?_⟩
      rw [Path.fileName?, hlast]
      exact if_neg hup

theorem find_eq (h : t.locate p = .ok l) : t.find p =
    match t.get? l with
    | none => .error .notFound
    | some (.file b) => if p.endsInSlash then .error .notADirectory else .ok (.file b)
    | some .directory => .ok .directory := by
  cases hget : t.get? l with
  | none => simp [find, h, hget]
  | some node => cases node <;> simp [find, h, hget]

theorem read_eq_ok {b : Bytes} : t.read p = .ok b ↔
    ∃ l, t.locate p = .ok l ∧ t.get? l = some (.file b) ∧ p.endsInSlash = false := by
  unfold read find
  cases t.locate p with
  | error kind => simp
  | ok l =>
    simp only [Except.ok.injEq, exists_eq_left']
    cases t.get? l with
    | none => simp
    | some node =>
      cases node with
      | directory => simp
      | file b' => cases p.endsInSlash <;> simp

theorem exists_find_of_read {b : Bytes} (h : t.read p = .ok b) : ∃ node, t.find p = .ok node := by
  unfold read at h
  cases hfind : t.find p with
  | error kind =>
    rw [hfind] at h
    cases h
  | ok node => exact ⟨node, rfl⟩

theorem write_eq_ok {content : Bytes} : t.write p content = .ok t' ↔
    ∃ l, t.locate p = .ok l ∧ p.endsInSlash = false ∧ t.get? l ≠ some .directory ∧ t' = t.put l (.file content) := by
  unfold write
  cases t.locate p with
  | error kind => simp
  | ok l =>
    simp only [Except.ok.injEq, exists_eq_left']
    by_cases hbad : p.endsInSlash = true ∨ t.get? l = some .directory
    · rw [if_pos hbad]
      simp only [reduceCtorEq, false_iff, not_and]
      intro hslash hget
      simp [hslash, hget] at hbad
    · rw [if_neg hbad]
      rw [not_or, Bool.not_eq_true] at hbad
      simp [hbad, eq_comm]

end FileTree

end ShardCoding

import Mathlib.Data.List.Basic
import Mathlib.Data.List.TakeWhile
import Mathlib.Data.String.Basic
import ShardCoding.Path

/-!
# Paths and their segments

* `segments_append_slash`, `segments_joinSegments` : the segments of a text made of segments;
* `Path.split_ofSegments`, `Path.ofSegments_split` : a path and its anchor with the segments;
* `IsName` : a text that names something below a directory; `Path.lead` : the segments that come in front of an appended
  name; `Path.split_append`, `Path.fileName?_append` : an appended name is the last one;
* `Path.lead_parent_append` : what is left when an appended name is taken off.
-/

namespace ShardCoding

/-! ## Segments -/

theorem segments_of_notMem {s : List Char} (h : '/' ∉ s) : segments s = [s] := by
  induction s with
  | nil => rfl
  | cons c s ih =>
    rw [List.mem_cons, not_or] at h
    have hs := ih h.2
    simp only [segments, List.cons.injEq] at hs
    simp only [segments, cutSegment, if_neg (Ne.symm h.1), hs.1, hs.2]

theorem segments_append_slash {s : List Char} (h : '/' ∉ s) (cs : List Char) :
    segments (s ++ '/' :: cs) = s :: segments cs := by
  induction s with
  | nil => rfl
  | cons c s ih =>
    rw [List.mem_cons, not_or] at h
    have hs := ih h.2
    simp only [segments, List.cons.injEq] at hs
    simp only [List.cons_append, segments, cutSegment, if_neg (Ne.symm h.1), hs.1, hs.2]

theorem segments_joinSegments {ss : List (List Char)} (hne : ss ≠ []) (h : ∀ s ∈ ss, '/' ∉ s) :
    segments (joinSegments ss) = ss := by
  induction ss with
  | nil => exact absurd rfl hne
  | cons s ss ih =>
    have hs := h s List.mem_cons_self
    cases ss with
    | nil => exact segments_of_notMem hs
    | cons s' ss =>
      rw [joinSegments, segments_append_slash hs, ih (List.cons_ne_nil _ _) fun t ht => h t (List.mem_cons_of_mem s ht)]
      exact List.cons_ne_nil _ _

theorem notMem_of_mem_segments {cs s : List Char} (h : s ∈ segments cs) : '/' ∉ s := by
  induction cs generalizing s with
  | nil =>
    obtain rfl : s = [] := by simpa [segments, cutSegment] using h
    exact List.not_mem_nil
  | cons c cs ih =>
    by_cases hc : c = '/'
    · simp only [segments, cutSegment, if_pos hc, List.mem_cons] at h
      rcases h with rfl | h
      · exact List.not_mem_nil
      · exact ih (List.mem_cons.2 h)
    · simp only [segments, cutSegment, if_neg hc, List.mem_cons] at h
      rcases h with rfl | h
      · rw [List.mem_cons, not_or]
        exact ⟨Ne.symm hc, ih List.mem_cons_self⟩
      · exact ih (List.mem_cons_of_mem _ h)

theorem segments_ne_nil (cs : List Char) : segments cs ≠ [] := List.cons_ne_nil _ _

theorem joinSegments_cons {ss : List (List Char)} (hne : ss ≠ []) (s : List Char) :
    joinSegments (s :: ss) = s ++ '/' :: joinSegments ss := by
  cases ss with
  | nil => exact absurd rfl hne
  | cons s' ss => rfl

theorem joinSegments_concat {ss : List (List Char)} (hne : ss ≠ []) (s : List Char) :
    joinSegments (ss ++ [s]) = joinSegments ss ++ '/' :: s := by
  induction ss with
  | nil => exact absurd rfl hne
  | cons s' ss ih =>
    by_cases hss : ss = []
    · subst hss
      rfl
    · rw [List.cons_append, joinSegments_cons (by simp), joinSegments_cons hss, ih hss, List.append_assoc,
        List.cons_append]

/-- Without some of the segments a part of the text is left. -/
theorem joinSegments_sublist {ss ss' : List (List Char)} (h : ss.Sublist ss') :
    (joinSegments ss).Sublist (joinSegments ss') := by
  induction h with
  | slnil => exact List.Sublist.refl _
  | @cons l l' s h ih =>
    by_cases hne : l' = []
    · subst hne
      rw [List.sublist_nil.1 h]
      exact List.nil_sublist _
    · rw [joinSegments_cons hne]
      exact (ih.trans (List.sublist_cons_self _ _)).trans (List.sublist_append_right _ _)
  | @cons_cons l l' s h ih =>
    by_cases hl : l = []
    · subst hl
      by_cases hl' : l' = []
      · subst hl'
        exact List.Sublist.refl _
      · rw [joinSegments_cons hl']
        exact List.sublist_append_left _ _
    · have hl' : l' ≠ [] := by
        rintro rfl
        exact hl (List.sublist_nil.1 h)
      rw [joinSegments_cons hl, joinSegments_cons hl']
      exact (List.Sublist.refl s).append (ih.cons_cons '/')

/-! ## Anchors -/

namespace Path

/-- Whether segments can follow an anchor. -/
def Anchored : Anchor → List (List Char) → Prop
  | .root, ss => ss ≠ []
  | .dot, _ => True
  | .implicit, ss => ss ≠ [] ∧ ss.head? ≠ some ['.'] ∧ (ss.head? = some [] → ss = [[]])

theorem split_cases (p : Path) :
    (∃ ss, ss ≠ [] ∧ segments p.text.toList = [] :: ss ∧ p.split = (.root, ss)) ∨
    (∃ ss, segments p.text.toList = ['.'] :: ss ∧ p.split = (.dot, ss)) ∨
    (Anchored .implicit (segments p.text.toList) ∧ p.split = (.implicit, segments p.text.toList)) := by
  unfold split
  split
  · next s ss h => exact Or.inl ⟨s :: ss, List.cons_ne_nil _ _, h, rfl⟩
  · next ss h => exact Or.inr (Or.inl ⟨ss, h, rfl⟩)
  · next hroot hdot =>
    refine Or.inr (Or.inr ⟨⟨segments_ne_nil _, ?_, ?_⟩, rfl⟩)
    · intro hhead
      obtain ⟨ss, hss⟩ := List.head?_eq_some_iff.1 hhead
      exact hdot ss hss
    · intro hhead
      obtain ⟨ss, hss⟩ := List.head?_eq_some_iff.1 hhead
      cases ss with
      | nil => exact hss
      | cons s ss => exact absurd hss (hroot s ss)

theorem anchored_split (p : Path) : Anchored p.split.1 p.split.2 := by
  obtain ⟨ss, hne, -, hsplit⟩ | ⟨ss, -, hsplit⟩ | ⟨himplicit, hsplit⟩ := p.split_cases
  · rw [hsplit]
    exact hne
  · rw [hsplit]
    trivial
  · rw [hsplit]
    exact himplicit

theorem notMem_of_mem_split {p : Path} {s : List Char} (h : s ∈ p.split.2) : '/' ∉ s := by
  obtain ⟨ss, -, hsegments, hsplit⟩ | ⟨ss, hsegments, hsplit⟩ | ⟨-, hsplit⟩ := p.split_cases
  all_goals rw [hsplit] at h
  · exact notMem_of_mem_segments (hsegments ▸ List.mem_cons_of_mem _ h)
  · exact notMem_of_mem_segments (hsegments ▸ List.mem_cons_of_mem _ h)
  · exact notMem_of_mem_segments h

/-- The text of an anchor with segments behind it. -/
def anchoredText : Anchor → List (List Char) → List Char
  | .root, ss => '/' :: joinSegments ss
  | .dot, ss => joinSegments (['.'] :: ss)
  | .implicit, ss => joinSegments ss

theorem toList_ofSegments (a : Anchor) (ss : List (List Char)) : (ofSegments a ss).text.toList = anchoredText a ss := by
  cases a with
  | root => exact String.toList_ofList
  | implicit => exact String.toList_ofList
  | dot =>
    cases ss with
    | nil => exact String.toList_ofList
    | cons s ss => exact String.toList_ofList

theorem ofSegments_split (p : Path) : ofSegments p.split.1 p.split.2 = p := by
  have htext : anchoredText p.split.1 p.split.2 = p.text.toList := by
    rw [← joinSegments_segments p.text.toList]
    obtain ⟨ss, hne, hsegments, hsplit⟩ | ⟨ss, hsegments, hsplit⟩ | ⟨-, hsplit⟩ := p.split_cases
    · rw [hsplit, hsegments, joinSegments_cons hne]
      rfl
    · rw [hsplit, hsegments]
      rfl
    · rw [hsplit]
      rfl
  cases hp : ofSegments p.split.1 p.split.2 with
  | mk text =>
    have hlist := toList_ofSegments p.split.1 p.split.2
    rw [hp, htext] at hlist
    exact congrArg Path.mk (String.toList_inj.1 hlist)

theorem split_ofSegments {a : Anchor} {ss : List (List Char)} (hanchored : Anchored a ss) (hss : ∀ s ∈ ss, '/' ∉ s) :
    (ofSegments a ss).split = (a, ss) := by
  unfold split
  rw [toList_ofSegments]
  cases a with
  | root =>
    have hsegments : segments (anchoredText .root ss) = [] :: ss := by
      rw [anchoredText, ← List.nil_append ('/' :: _), segments_append_slash List.not_mem_nil,
        segments_joinSegments hanchored hss]
    obtain ⟨s, ss, rfl⟩ := List.exists_cons_of_ne_nil hanchored
    rw [hsegments]
  | dot =>
    have hsegments : segments (anchoredText .dot ss) = ['.'] :: ss := by
      refine segments_joinSegments (List.cons_ne_nil _ _) ?_
      intro s hs
      rcases List.mem_cons.1 hs with rfl | hs
      · decide
      · exact hss s hs
    rw [hsegments]
    rfl
  | implicit =>
    obtain ⟨hne, hdot, hempty⟩ := hanchored
    have hsegments : segments (anchoredText .implicit ss) = ss := segments_joinSegments hne hss
    rw [hsegments]
    split
    · cases hempty rfl
    · exact absurd rfl hdot
    · rfl

end Path

/-! ## Names -/

/-- A text that names something in a directory. -/
structure IsName (name : String) : Prop where
  names : isFiller name.toList = false
  down : name.toList ≠ ['.', '.']
  whole : '/' ∉ name.toList

namespace IsName

variable {name : String}

theorem ne_nil (h : IsName name) : name.toList ≠ [] := by
  intro hnil
  have hnames := h.names
  rw [hnil] at hnames
  cases hnames

theorem ne_dot (h : IsName name) : name.toList ≠ ['.'] := by
  intro hdot
  have hnames := h.names
  rw [hdot] at hnames
  cases hnames

theorem of_length (hlong : 2 < name.toList.length) (hwhole : '/' ∉ name.toList) : IsName name := by
  refine ⟨?_, ?_, hwhole⟩
  · rw [Bool.eq_false_iff]
    intro hfiller
    rw [isFiller, Bool.or_eq_true, List.isEmpty_iff, decide_eq_true_eq] at hfiller
    rcases hfiller with h | h
    · simp [h] at hlong
    · simp [h] at hlong
  · intro hup
    simp [hup] at hlong

end IsName

theorem isPrefix_trimFillers (ss : List (List Char)) : trimFillers ss <+: ss := by
  rw [trimFillers, ← List.reverse_suffix, List.reverse_reverse]
  exact List.dropWhile_suffix _

theorem exists_trimFillers_append (ss : List (List Char)) :
    ∃ fillers, (∀ s ∈ fillers, isFiller s = true) ∧ ss = trimFillers ss ++ fillers := by
  refine ⟨(ss.reverse.takeWhile isFiller).reverse, ?_, ?_⟩
  · intro s hs
    exact List.mem_takeWhile_imp (List.mem_reverse.1 hs)
  · rw [trimFillers, ← List.reverse_append, List.takeWhile_append_dropWhile, List.reverse_reverse]

theorem trimFillers_concat {s : List Char} (hs : isFiller s = false) (ss : List (List Char)) :
    trimFillers (ss ++ [s]) = ss ++ [s] := by
  rw [trimFillers, List.reverse_append, List.reverse_singleton, List.singleton_append, List.dropWhile_cons_of_neg (by simp [hs]),
    List.reverse_cons, List.reverse_reverse]

/-- What is left ends in a segment that names something. -/
theorem isFiller_of_trimFillers {ss front : List (List Char)} {s : List Char} (h : trimFillers ss = front ++ [s]) :
    isFiller s = false := by
  have hlast : (ss.reverse.dropWhile isFiller).head? = some s := by
    rw [← List.getLast?_reverse, ← trimFillers, h, List.getLast?_concat]
  have hhead := List.head?_dropWhile_not isFiller ss.reverse
  rw [hlast] at hhead
  simpa using hhead

namespace Path

variable {name : String}

/-- The segments that come in front of an appended name. -/
def lead (p : Path) : List (List Char) :=
  if p.split.2.getLast? = some [] then p.split.2.dropLast else p.split.2

theorem isPrefix_lead (p : Path) : p.lead <+: p.split.2 := by
  unfold lead
  split
  · exact List.dropLast_prefix _
  · exact List.prefix_rfl

/-- Whether a name can follow segments behind an anchor: from the working directory the first names something. -/
def Leads (a : Anchor) (ss : List (List Char)) : Prop := a = .implicit → ∀ s, ss.head? = some s → isFiller s = false

theorem Leads.of_front {a : Anchor} {front ss : List (List Char)} (h : Leads a ss) (hfront : front <+: ss) :
    Leads a front := by
  intro ha s hs
  refine h ha s ?_
  obtain ⟨rest, rfl⟩ := hfront
  rw [List.head?_append, hs, Option.some_or]

theorem Leads.anchored {a : Anchor} {ss : List (List Char)} (h : Leads a ss) {last : List Char}
    (hlast : isFiller last = false) : Anchored a (ss ++ [last]) := by
  cases a with
  | root => simp [Anchored]
  | dot => trivial
  | implicit =>
    have hhead : ∀ s, (ss ++ [last]).head? = some s → isFiller s = false := by
      intro s hs
      cases ss with
      | nil =>
        obtain rfl := Option.some.inj hs
        exact hlast
      | cons s' ss => exact h rfl s hs
    refine ⟨by simp, ?_, ?_⟩
    · intro hdot
      cases hhead _ hdot
    · intro hempty
      cases hhead _ hempty

theorem leads_lead (p : Path) : Leads p.anchor p.lead := by
  intro ha s hs
  have hanchored := p.anchored_split
  rw [anchor] at ha
  rw [ha] at hanchored
  obtain ⟨hne, hdot, hempty⟩ := hanchored
  have hhead : p.split.2.head? = some s := by
    obtain ⟨rest, hrest⟩ := p.isPrefix_lead
    rw [← hrest, List.head?_append, hs, Option.some_or]
  have hs' : s ≠ [] := by
    rintro rfl
    rw [lead, hempty hhead] at hs
    cases hs
  have hsdot : s ≠ ['.'] := by
    rintro rfl
    exact hdot hhead
  simp [isFiller, hs', hsdot]

theorem notMem_of_mem_lead {p : Path} {s : List Char} (h : s ∈ p.lead) : '/' ∉ s :=
  notMem_of_mem_split (p.isPrefix_lead.subset h)

theorem anchoredText_concat {a : Anchor} {ss : List (List Char)} (h : Anchored a ss) (s : List Char) :
    anchoredText a (ss ++ [s]) = anchoredText a ss ++ '/' :: s := by
  cases a with
  | root => rw [anchoredText, joinSegments_concat h, anchoredText, List.cons_append]
  | dot => exact joinSegments_concat (List.cons_ne_nil _ _) s
  | implicit => exact joinSegments_concat h.1 s

/-- The text in front of the last segment is empty or ends in a slash. -/
theorem exists_anchoredText_append (a : Anchor) (ss : List (List Char)) : ∃ front : List Char,
    (front = [] ∨ front.getLast? = some '/') ∧ ∀ s, anchoredText a (ss ++ [s]) = front ++ s := by
  have hconcat : ∀ text : List Char, (text ++ ['/']).getLast? = some '/' := fun text => List.getLast?_concat
  by_cases hss : ss = []
  · subst hss
    cases a with
    | root => exact ⟨['/'], Or.inr rfl, fun s => rfl⟩
    | dot => exact ⟨['.', '/'], Or.inr rfl, fun s => rfl⟩
    | implicit => exact ⟨[], Or.inl rfl, fun s => rfl⟩
  · cases a with
    | root =>
      refine ⟨'/' :: joinSegments ss ++ ['/'], Or.inr (hconcat _), fun s => ?_⟩
      simp [anchoredText, joinSegments_concat hss]
    | dot =>
      refine ⟨joinSegments (['.'] :: ss) ++ ['/'], Or.inr (hconcat _), fun s => ?_⟩
      have hdot := joinSegments_concat (List.cons_ne_nil ['.'] ss) s
      simpa [anchoredText] using hdot
    | implicit =>
      refine ⟨joinSegments ss ++ ['/'], Or.inr (hconcat _), fun s => ?_⟩
      simp [anchoredText, joinSegments_concat hss]

theorem toList_append (p : Path) (name : String) :
    (p.append name).text.toList = anchoredText p.anchor (p.lead ++ [name.toList]) := by
  have hanchored : Anchored p.anchor p.split.2 := p.anchored_split
  have htext : p.text.toList = anchoredText p.anchor p.split.2 := by
    conv_lhs => rw [← p.ofSegments_split, toList_ofSegments]
    rfl
  have hslashed : ∀ {text : List Char}, text.getLast? ≠ some '/' → text ≠ [] → p.text.toList = text →
      (p.append name).text.toList = text ++ '/' :: name.toList := by
    intro text hlast hne h
    obtain ⟨c, hc⟩ : ∃ c, text.getLast? = some c := ⟨_, List.getLast?_eq_some_getLast hne⟩
    rw [hc] at hlast
    rw [append, h, hc]
    dsimp only
    rw [if_neg fun heq => hlast (congrArg some heq)]
    simp [h]
  rcases List.eq_nil_or_concat p.split.2 with hnil | ⟨ss, s, hss⟩
  · -- Only a dot stands alone.
    rw [lead, hnil]
    rw [hnil] at hanchored htext
    cases ha : p.anchor with
    | root =>
      rw [ha] at hanchored
      exact absurd rfl hanchored
    | implicit =>
      rw [ha] at hanchored
      exact absurd rfl hanchored.1
    | dot =>
      rw [ha] at htext
      exact hslashed (by decide) (by decide) htext
  · rw [List.concat_eq_append] at hss
    by_cases hs : s = []
    · subst hs
      obtain ⟨front, hfront, happend⟩ := exists_anchoredText_append p.anchor ss
      rw [lead, hss, List.getLast?_concat, if_pos rfl, List.dropLast_concat, happend]
      rw [hss, happend, List.append_nil] at htext
      rw [append, htext]
      rcases hfront with rfl | hfront
      · rfl
      · rw [hfront]
        dsimp only
        rw [if_pos rfl, String.toList_append, htext]
    · have hlead : p.lead = p.split.2 := by
        rw [lead, hss, List.getLast?_concat, if_neg fun h => hs (Option.some.inj h)]
      have hwhole : '/' ∉ s := notMem_of_mem_split (p := p) (by simp [hss])
      obtain ⟨front, -, happend⟩ := exists_anchoredText_append p.anchor ss
      rw [hlead, anchoredText_concat hanchored]
      refine hslashed ?_ ?_ htext
      · rw [hss, happend, List.getLast?_append_of_ne_nil _ hs]
        exact fun h => hwhole (List.mem_of_getLast? h)
      · rw [hss, happend]
        simp [hs]

theorem append_eq (p : Path) (name : String) : p.append name = ofSegments p.anchor (p.lead ++ [name.toList]) := by
  have htext := (p.toList_append name).trans (toList_ofSegments p.anchor (p.lead ++ [name.toList])).symm
  cases h : ofSegments p.anchor (p.lead ++ [name.toList])
  rw [h] at htext
  exact congrArg Path.mk (String.toList_inj.1 htext)

theorem split_append (p : Path) (hname : IsName name) :
    (p.append name).split = (p.anchor, p.lead ++ [name.toList]) := by
  rw [append_eq]
  refine split_ofSegments (p.leads_lead.anchored hname.names) ?_
  intro s hs
  rcases List.mem_append.1 hs with hs | hs
  · exact notMem_of_mem_lead hs
  · rw [List.mem_singleton.1 hs]
    exact hname.whole

theorem fileName?_append (p : Path) (hname : IsName name) : (p.append name).fileName? = some name := by
  have hnames : (p.append name).names.getLast? = some name.toList := by
    rw [names, split_append p hname, List.filter_append, List.filter_singleton, hname.names]
    exact List.getLast?_concat
  rw [fileName?, hnames]
  dsimp only
  rw [if_neg hname.down, String.ofList_toList]

theorem isName_of_fileName? {p : Path} (h : p.fileName? = some name) : IsName name := by
  unfold fileName? at h
  split at h
  · cases h
  · next s hlast =>
    have hmem := List.mem_of_getLast? hlast
    rw [names, List.mem_filter, Bool.not_eq_true'] at hmem
    split at h
    · cases h
    · next hup =>
      obtain rfl := Option.some.inj h
      have hlist := String.toList_ofList (l := s)
      exact ⟨hlist.symm ▸ hmem.2, hlist.symm ▸ hup, hlist.symm ▸ notMem_of_mem_split hmem.1⟩

theorem endsInSlash_append (p : Path) (hname : IsName name) : (p.append name).endsInSlash = false := by
  obtain ⟨front, -, happend⟩ := exists_anchoredText_append p.anchor p.lead
  rw [endsInSlash, toList_append, happend, List.getLast?_append_of_ne_nil _ hname.ne_nil, decide_eq_false_iff_not]
  exact fun h => hname.whole (List.mem_of_getLast? h)

theorem parent_append (p : Path) (hname : IsName name) :
    (p.append name).parent = ofSegments p.anchor (trimFillers p.lead) := by
  rw [parent, split_append p hname]
  dsimp only
  rw [trimFillers_concat hname.names, List.dropLast_concat]

/-- A path whose last segment names something. -/
theorem lead_ofSegments {a : Anchor} {ss : List (List Char)} (h : Leads a (trimFillers ss)) (hss : ∀ s ∈ ss, '/' ∉ s) :
    (ofSegments a (trimFillers ss)).anchor = a ∧ (ofSegments a (trimFillers ss)).lead = trimFillers ss := by
  rcases List.eq_nil_or_concat (trimFillers ss) with hnil | ⟨front, s, hconcat⟩
  · rw [hnil, anchor, lead, split, toList_ofSegments]
    cases a <;> exact ⟨rfl, rfl⟩
  · rw [List.concat_eq_append] at hconcat
    have hs := isFiller_of_trimFillers hconcat
    have hanchored : Anchored a (trimFillers ss) := by
      rw [hconcat] at h ⊢
      exact (h.of_front (List.prefix_append _ _)).anchored hs
    have hne : s ≠ [] := by
      rintro rfl
      cases hs
    have hsplit := split_ofSegments hanchored fun t ht => hss t ((isPrefix_trimFillers ss).subset ht)
    rw [anchor, lead, hsplit]
    refine ⟨rfl, if_neg ?_⟩
    rw [hconcat, List.getLast?_concat]
    exact fun hlast => hne (Option.some.inj hlast)

/-- From the directory that an appended name is taken off from, fillers aside, the same segments lead on. -/
theorem lead_parent_append (p : Path) (hname : IsName name) :
    (p.append name).parent.anchor = p.anchor ∧ (p.append name).parent.lead = trimFillers p.lead := by
  rw [parent_append p hname]
  exact lead_ofSegments (p.leads_lead.of_front (isPrefix_trimFillers _)) fun s => notMem_of_mem_lead

/-- The text of a name there is a part of the text of the name behind the path. -/
theorem toList_append_parent_sublist (p : Path) (hname : IsName name) (name' : String) :
    ((p.append name).parent.append name').text.toList.Sublist (p.append name').text.toList := by
  obtain ⟨hanchor, hlead⟩ := p.lead_parent_append hname
  rw [toList_append, toList_append, hanchor, hlead]
  have hsublist := (isPrefix_trimFillers p.lead).sublist.append (List.Sublist.refl [name'.toList])
  cases p.anchor with
  | root => exact (joinSegments_sublist hsublist).cons_cons '/'
  | dot => exact joinSegments_sublist (hsublist.cons_cons ['.'])
  | implicit => exact joinSegments_sublist hsublist

end Path

end ShardCoding

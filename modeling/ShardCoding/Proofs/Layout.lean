import ShardCoding.Layout
import ShardCoding.Proofs.Json.Digits
import ShardCoding.Proofs.Path

/-!
# The files of a layout

* `Layout.manifestName`, `Layout.shardName` : the names that the layout puts in its directory; `shardName_eq_iff`,
  `shardName_ne_manifestName`, `shardName_ne_base` : no two of them are the same, nor is one the base;
* `Layout.ofManifestPath_manifestPath` : the layout that is read from the path of a manifest; `Layout.whole_of_ofManifestPath`.
-/

namespace ShardCoding

namespace Layout

variable {l : Layout} {i j : Nat}

def manifestName (l : Layout) : String := l.base ++ manifestSuffix

def shardName (l : Layout) (i : Nat) : String := s!"{l.base}.{indexText i}.shard"

theorem manifestPath_eq (l : Layout) : l.manifestPath = l.dir.append l.manifestName := rfl

theorem shardPath_eq (l : Layout) (i : Nat) : l.shardPath i = l.dir.append (l.shardName i) := rfl

theorem toList_manifestName (l : Layout) : l.manifestName.toList = l.base.toList ++ manifestSuffix.toList :=
  String.toList_append

theorem toList_shardName (l : Layout) (i : Nat) :
    (l.shardName i).toList = l.base.toList ++ '.' :: ((indexText i).toList ++ ".shard".toList) := by
  have hname : l.shardName i = l.base ++ "." ++ indexText i ++ ".shard" := rfl
  simp [hname, String.toList_append]

theorem toList_indexText (i : Nat) :
    (indexText i).toList = List.replicate (3 - (natDigits i).length) '0' ++ natDigits i := String.toList_ofList

theorem indexText_inj : indexText i = indexText j ↔ i = j := by
  refine ⟨fun h => ?_, congrArg indexText⟩
  have hvalue := congrArg (fun s : String => digitsValue s.toList) h
  simpa only [toList_indexText, digitsValue_zeros, digitsValue_natDigits] using hvalue

theorem ne_of_mem_indexText {c d : Char} (hc : c ∈ (indexText i).toList) (hd : isDigit d = false) : c ≠ d := by
  rw [toList_indexText, List.mem_append] at hc
  rcases hc with hzero | hdigit
  · rw [List.eq_of_mem_replicate hzero]
    rintro rfl
    cases hd
  · exact ne_of_isDigit (isDigit_of_mem_natDigits hdigit) hd

/-- The last dot parts a text in one way only. -/
theorem append_dot_inj {front front' back back' : List Char} (hback : '.' ∉ back) (hback' : '.' ∉ back') :
    front ++ '.' :: back = front' ++ '.' :: back' ↔ front = front' ∧ back = back' := by
  refine ⟨fun h => ?_, fun ⟨hfront, hback⟩ => by rw [hfront, hback]⟩
  rcases List.append_eq_append_iff.1 h with ⟨between, rfl, hdots⟩ | ⟨between, rfl, hdots⟩
  · obtain _ | ⟨c, between⟩ := between
    · exact ⟨(List.append_nil front).symm, (List.cons.inj hdots).2⟩
    · rw [(List.cons.inj hdots).2] at hback
      exact absurd (List.mem_append_right between List.mem_cons_self) hback
  · obtain _ | ⟨c, between⟩ := between
    · exact ⟨List.append_nil front', ((List.cons.inj hdots).2).symm⟩
    · rw [(List.cons.inj hdots).2] at hback'
      exact absurd (List.mem_append_right between List.mem_cons_self) hback'

/-- There is no dot among the digits, so that the base ends at the last dot but one, whatever it ends in itself. -/
theorem shardName_eq_iff {l' : Layout} : l.shardName i = l'.shardName j ↔ l.base = l'.base ∧ i = j := by
  have hdigits : ∀ n, '.' ∉ (indexText n).toList := fun n hmem => ne_of_mem_indexText hmem rfl rfl
  rw [← String.toList_inj, toList_shardName, toList_shardName, ← List.cons_append, ← List.cons_append, ← List.append_assoc,
    ← List.append_assoc, List.append_cancel_right_eq, append_dot_inj (hdigits i) (hdigits j), String.toList_inj,
    String.toList_inj, indexText_inj]

theorem shardName_inj : l.shardName i = l.shardName j ↔ i = j := by
  rw [shardName_eq_iff, eq_self, true_and]

theorem manifestName_eq_iff {l' : Layout} : l.manifestName = l'.manifestName ↔ l.base = l'.base := by
  rw [← String.toList_inj, toList_manifestName, toList_manifestName, List.append_cancel_right_eq, String.toList_inj]

theorem shardName_ne_manifestName {l' : Layout} : l.shardName i ≠ l'.manifestName := by
  intro h
  have hlast := congrArg (fun s : String => s.toList.getLast?) h
  rw [toList_shardName, toList_manifestName, ← List.cons_append, ← List.append_assoc,
    List.getLast?_append_of_ne_nil _ (by decide), List.getLast?_append_of_ne_nil _ (by decide)] at hlast
  exact absurd hlast (by decide)

theorem manifestName_ne_base : l.manifestName ≠ l.base := by
  intro h
  have hlength := congrArg (fun s : String => s.toList.length) h
  simp [toList_manifestName, manifestSuffix] at hlength

theorem shardName_ne_base : l.shardName i ≠ l.base := by
  intro h
  have hlength := congrArg (fun s : String => s.toList.length) h
  simp [toList_shardName] at hlength

/-- The base is a part of a name. -/
def Whole (l : Layout) : Prop := '/' ∉ l.base.toList

theorem isName_shardName (h : l.Whole) (i : Nat) : IsName (l.shardName i) := by
  have hdigits : '/' ∉ (indexText i).toList := fun hmem => ne_of_mem_indexText hmem rfl rfl
  refine .of_length ?_ ?_
  · simp [toList_shardName]
    omega
  · rw [toList_shardName]
    simp only [List.mem_append, List.mem_cons, not_or]
    exact ⟨h, by decide, hdigits, by decide⟩

theorem isName_manifestName (h : l.Whole) : IsName l.manifestName := by
  refine .of_length ?_ ?_
  · rw [toList_manifestName, List.length_append]
    exact Nat.lt_add_left _ (by decide)
  · rw [toList_manifestName, List.mem_append, not_or]
    exact ⟨h, by decide⟩

theorem stripEnd?_append (suffix s : String) : stripEnd? suffix (s ++ suffix) = some s := by
  unfold stripEnd?
  simp [String.toList_append]

/-- Fillers at the end of the directory are lost. -/
theorem ofManifestPath_manifestPath (h : l.Whole) :
    ofManifestPath l.manifestPath = .ok ⟨l.manifestPath.parent, l.base⟩ := by
  unfold ofManifestPath
  rw [manifestPath_eq, Path.fileName?_append _ (isName_manifestName h)]
  dsimp only
  rw [manifestName, stripEnd?_append]

theorem whole_of_ofManifestPath {p : Path} (h : ofManifestPath p = .ok l) : l.Whole := by
  unfold ofManifestPath at h
  split at h
  · cases h
  · next name hname =>
    split at h
    · cases h
    · next base hbase =>
      obtain rfl := Except.ok.inj h
      unfold stripEnd? at hbase
      dsimp only at hbase
      split at hbase
      · obtain rfl := Option.some.inj hbase
        rw [Whole, String.toList_ofList]
        exact fun hmem => (Path.isName_of_fileName? hname).whole (List.mem_of_mem_take hmem)
      · cases hbase

end Layout

end ShardCoding

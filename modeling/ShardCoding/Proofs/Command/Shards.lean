import ShardCoding.Command.Shards
import ShardCoding.Proofs.Command.Run
import ShardCoding.Proofs.Layout
import ShardCoding.Proofs.Manifest.Check
import ShardCoding.Proofs.Manifest.RoundTrip
import ShardCoding.Proofs.Code.Reconstruction
import ShardCoding.Proofs.Digest.Hex

/-!
# What the commands read

* `FileTree.manifestOf`, `FileTree.shardState` : what is read from the files, without the effects;
  `FileTree.on_loadManifest`, `FileTree.on_inspectShards` : the commands read just that;
* `FileTree.on_inspected` : the steps that are common to the commands; `FileTree.on_readShards` : the slots that are read.
-/

namespace ShardCoding

theorem toList_eq_data (b : ByteArray) : b.toList = b.data.toList := by
  show ByteArray.toList.loop b 0 [] = _
  rw [toList_loop, List.drop_zero, List.reverse_nil, List.nil_append]

theorem fromUTF8?_toUTF8 (s : String) : String.fromUTF8? (ByteArray.mk s.toUTF8.toList.toArray) = some s := by
  rw [toList_eq_data]
  show String.fromUTF8? s.toUTF8 = some s
  unfold String.fromUTF8?
  simp [String.toUTF8, String.fromUTF8, s.isValidUTF8]

theorem decodeManifest_toUTF8 (path : Path) (text : String) :
    decodeManifest path text.toUTF8.toList = (Manifest.ofText text).mapError (.invalidManifest path) := by
  rw [decodeManifest, fromUTF8?_toUTF8]

/-! ## Reading the files -/

theorem mapError_eq_ok {ε ε' α : Type} {x : Except ε α} {f : ε → ε'} {a : α} : x.mapError f = .ok a ↔ x = .ok a := by
  cases x <;> simp [Except.mapError]

theorem map_eq_ok {ε α β : Type} {x : Except ε α} {f : α → β} {b : β} : x.map f = .ok b ↔ ∃ a, x = .ok a ∧ f a = b := by
  cases x <;> simp [Except.map]

theorem eq_ok_of_mapM_range {ε α : Type} {n i : Nat} {f : Nat → Except ε α} {as : List α} {a : α}
    (h : (List.range n).mapM f = .ok as) (hi : as[i]? = some a) : i < n ∧ f i = .ok a := by
  obtain ⟨hlength, hget⟩ := getElem?_of_mapM_range h
  have hlt : i < n := hlength ▸ (List.getElem?_eq_some_iff.1 hi).1
  obtain ⟨a', ha', hf⟩ := hget i hlt
  obtain rfl := Option.some.inj (hi.symm.trans ha')
  exact ⟨hlt, hf⟩

theorem mem_usableShards {states : List ShardState} {i : Nat} : i ∈ usableShards states ↔ states[i]? = some .valid := by
  rw [usableShards, List.mem_filter, List.mem_range, decide_eq_true_eq, and_iff_right_iff_imp]
  intro h
  exact (List.getElem?_eq_some_iff.1 h).1

namespace FileTree

variable (t : FileTree) (layout : Layout) (manifest : Manifest)

/-- The manifest that is read from the files. -/
def manifestOf : Except CommandError Manifest :=
  ((t.read layout.manifestPath).mapError (.file .readManifest layout.manifestPath)).bind
    (decodeManifest layout.manifestPath)

/-- How a shard file stands to the manifest. -/
def shardState (i : Nat) : Except CommandError ShardState :=
  if (t.find (layout.shardPath i)).isOk then do
    let content ← (t.read (layout.shardPath i)).mapError (.file .read (layout.shardPath i))
    let digest ← (manifest.digest i).mapError .coding
    return manifest.stateOf digest content
  else .ok .missing

variable {t layout manifest}

theorem exists_read_of_shardState {i : Nat} {state : ShardState} (h : t.shardState layout manifest i = .ok state)
    (hstate : state ≠ .missing) : ∃ b, t.read (layout.shardPath i) = .ok b := by
  unfold shardState at h
  split at h
  · obtain ⟨b, hread, -⟩ := exists_of_bind_eq_ok h
    exact ⟨b, mapError_eq_ok.1 hread⟩
  · exact absurd (Except.ok.inj h).symm hstate

theorem on_loadManifest : (loadManifest layout : Command (StateM FileTree) Manifest).on t = (t.manifestOf layout, t) := by
  unfold loadManifest manifestOf
  dsimp only
  rw [Command.on_bind, Command.file, Command.on_readFile]
  cases t.read layout.manifestPath with
  | error kind => rfl
  | ok content =>
    show (Command.ofExcept id _).on t = _
    rw [Command.on_ofExcept]
    show (Except.mapError id (decodeManifest layout.manifestPath content), t) =
      (decodeManifest layout.manifestPath content, t)
    cases decodeManifest layout.manifestPath content <;> rfl

/-- A manifest that was read was checked. -/
theorem checked_of_manifestOf (h : t.manifestOf layout = .ok manifest) : manifest.Checked := by
  unfold manifestOf at h
  obtain ⟨content, -, h⟩ := exists_of_bind_eq_ok h
  unfold decodeManifest at h
  split at h
  · cases h
  · obtain ⟨-, -, hcheck⟩ := Manifest.exists_of_ofText (mapError_eq_ok.1 h)
    exact Manifest.checked_of_check hcheck

theorem on_inspectShard (i : Nat) :
    (inspectShard layout manifest i : Command (StateM FileTree) ShardState).on t = (t.shardState layout manifest i, t) := by
  unfold inspectShard shardState
  dsimp only
  rw [Command.on_bind, Command.on_isPresent]
  dsimp only
  cases hfind : t.find (layout.shardPath i) with
  | error kind => rfl
  | ok node =>
    simp only [Except.isOk, Except.toBool, if_true]
    rw [Command.on_bind, Command.file, Command.on_openFile, hfind]
    simp only [Except.map, Except.mapError]
    rw [Command.on_bind, Command.file, Command.on_readFile]
    cases t.read (layout.shardPath i) with
    | error kind => rfl
    | ok content =>
      simp only [Except.mapError]
      rw [Command.on_bind, Command.on_ofExcept]
      cases manifest.digest i <;> rfl

theorem shardState_eq_valid_iff {i : Nat} : t.shardState layout manifest i = .ok .valid ↔
    ∃ b, t.read (layout.shardPath i) = .ok b ∧ b.length = manifest.shardSize ∧ manifest.digest i = .ok (sha256 b) := by
  unfold shardState
  constructor
  · intro h
    split at h
    · obtain ⟨b, hread, h⟩ := exists_of_bind_eq_ok h
      obtain ⟨d, hdigest, h⟩ := exists_of_bind_eq_ok h
      rw [mapError_eq_ok] at hread hdigest
      refine ⟨b, hread, ?_⟩
      have hstate : manifest.stateOf d b = .valid := Except.ok.inj h
      unfold Manifest.stateOf at hstate
      split at hstate
      · next hfits => exact ⟨hfits.1, by rw [hdigest, hfits.2]⟩
      · cases hstate
    · cases h
  · rintro ⟨b, hread, hlength, hdigest⟩
    obtain ⟨node, hfind⟩ := exists_find_of_read hread
    rw [if_pos (by rw [hfind]; rfl), hread, hdigest]
    exact congrArg Except.ok (if_pos ⟨hlength, rfl⟩)

/-- A shard file that is no directory has a state. -/
theorem exists_shardState {i : Nat} {l : Location} (hl : t.locate (layout.shardPath i) = .ok l)
    (hfile : t.get? l ≠ some .directory) (hslash : (layout.shardPath i).endsInSlash = false) {d : Digest}
    (hdigest : manifest.digest i = .ok d) : ∃ state, t.shardState layout manifest i = .ok state := by
  unfold shardState
  cases hget : t.get? l with
  | none =>
    rw [find_eq hl, hget]
    exact ⟨_, rfl⟩
  | some node =>
    cases node with
    | directory => exact absurd hget hfile
    | file b =>
      rw [read_eq_ok.2 ⟨l, hl, hget, hslash⟩, hdigest]
      split
      · exact ⟨_, rfl⟩
      · exact ⟨_, rfl⟩

theorem on_inspectShards : (inspectShards layout manifest : Command (StateM FileTree) (List ShardState)).on t =
    ((List.range manifest.shards.length).mapM (t.shardState layout manifest), t) :=
  Command.on_mapM_of_reads fun _ _ => on_inspectShard _

/-- The steps that a decode, a repair and a verification begin with. -/
theorem on_inspected {α : Type} {path : Path} {states : List ShardState} (hlayout : Layout.ofManifestPath path = .ok layout)
    (hmanifest : t.manifestOf layout = .ok manifest)
    (hstates : (List.range manifest.shards.length).mapM (t.shardState layout manifest) = .ok states)
    (next : Layout → Manifest → List ShardState → Command (StateM FileTree) α) :
    (do
      let layout ← Command.ofExcept .layout (Layout.ofManifestPath path)
      let manifest ← loadManifest layout
      let states ← inspectShards layout manifest
      next layout manifest states : Command (StateM FileTree) α).on t = (next layout manifest states).on t := by
  rw [Command.on_bind_of_ok (a := layout) (by rw [Command.on_ofExcept, hlayout]; rfl),
    Command.on_bind_of_ok (a := manifest) (by rw [on_loadManifest, hmanifest]),
    Command.on_bind_of_ok (a := states) (by rw [on_inspectShards, hstates])]

/-- What is in a shard file that can be read. -/
def contentAt (t : FileTree) (layout : Layout) (i : Nat) : Bytes := (t.read (layout.shardPath i)).toOption.getD []

theorem contentAt_eq {i : Nat} {b : Bytes} (h : t.read (layout.shardPath i) = .ok b) : t.contentAt layout i = b := by
  rw [contentAt, h]
  rfl

/-- The slots that are read, if all the files to be read can be. -/
theorem on_readShards {states : List ShardState} {keep : ShardState → Bool}
    (h : ∀ i state, states[i]? = some state → keep state = true → ∃ b, t.read (layout.shardPath i) = .ok b) :
    (readShards layout states keep : Command (StateM FileTree) Slots).on t =
      (.ok (states.zipIdx.map fun (state, i) => if keep state then some (t.contentAt layout i) else none), t) := by
  unfold readShards
  rw [Command.on_mapM_of_reads (g := fun (state, i) =>
    .ok (if keep state then some (t.contentAt layout i) else none))]
  · rw [mapM_ok fun _ _ => rfl]
  · rintro ⟨state, i⟩ hmem
    rw [List.mem_zipIdx_iff_getElem?] at hmem
    dsimp only
    cases hkeep : keep state with
    | false => rfl
    | true =>
      obtain ⟨b, hread⟩ := h i state hmem hkeep
      simp only [if_true]
      rw [Command.on_bind, Command.file, Command.on_readFile, hread, contentAt_eq hread]
      rfl

end FileTree

end ShardCoding

import Mathlib.Data.List.Sort
import ShardCoding.Command.Repair
import ShardCoding.Proofs.Code.Effects
import ShardCoding.Proofs.Code.Repair
import ShardCoding.Proofs.Command.Damage

/-!
# What a repair writes

* `FileTree.on_writeRebuilt`, `on_forM_writeRebuilt` : one rebuilt shard, and all of them up to the first that cannot be
  written;
* `FileTree.on_repairFiles` : a repair that finds the data shards valid; `repairFiles_cases` : a repair comes to write, or
  leaves the files as they are;
* `FileTree.Rewritten`, `exists_rewritten` : how a repair leaves the files, whatever it ends in;
* `HoldsEncoding.on_repairFiles` : a repair of the files of an encode with intact data shards restores the parity shards;
* `FileTree.repairFiles_safe_complete` : both.
-/

namespace ShardCoding

namespace FileTree

variable {t t' : FileTree} {layout : Layout} {manifest : Manifest} {states : List ShardState} {path : Path}
  {slots : Slots} {content : Nat → Bytes} {is : List Nat} {i : Nat}

/-! ## Writing what was rebuilt -/

theorem on_writeRebuilt {b : Bytes} (hslot : slots[i]? = some (some b)) {d : Digest}
    (hdigest : manifest.digest i = .ok d) :
    (writeRebuilt layout manifest slots i : Command (StateM FileTree) Unit).on t =
      if sha256 b = d then
        (Command.file .write (layout.shardPath i) (FileSystem.writeFile (layout.shardPath i) b)).on t
      else (.error (.wrongRebuilt i), t) := by
  have hverify : manifest.verifyShard i b = .ok (decide (sha256 b = d)) := by
    rw [Manifest.verifyShard, hdigest]
    exact congrArg Except.ok (Manifest.matchesDigest_bytes d b)
  unfold writeRebuilt
  rw [hslot, Command.on_bind_of_ok (a := b) (by rw [Command.on_ofExcept]; rfl),
    Command.on_bind_of_ok (a := decide (sha256 b = d)) (by rw [Command.on_ofExcept, hverify]; rfl)]
  by_cases hd : sha256 b = d
  · rw [if_pos hd, if_pos (decide_eq_true hd)]
  · rw [if_neg hd, if_neg (by simpa using hd)]
    rfl

/-- Shards are written until one does not fit the manifest or cannot be written. -/
theorem on_forM_writeRebuilt (layout : Layout) (t : FileTree) (hslots : ∀ i ∈ is, slots[i]? = some (some (content i)))
    (hdigest : ∀ i ∈ is, ∃ d, manifest.digest i = .ok d) :
    ∃ written t', written <+: is ∧ writeEach layout.shardPath content written t = .ok t' ∧
      (∀ i ∈ written, manifest.digest i = .ok (sha256 (content i))) ∧
      let rewritten := (is.forM (writeRebuilt layout manifest slots : Nat → Command (StateM FileTree) Unit)).on t
      (rewritten = (.ok (), t') ∧ written = is ∨ ∃ e, rewritten = (.error e, t')) := by
  induction is generalizing t with
  | nil => exact ⟨[], t, List.prefix_rfl, rfl, nofun, Or.inl ⟨rfl, rfl⟩⟩
  | cons i is ih =>
    obtain ⟨d, hd⟩ := hdigest i List.mem_cons_self
    have hfirst : (writeRebuilt layout manifest slots i : Command (StateM FileTree) Unit).on t = _ :=
      on_writeRebuilt (hslots i List.mem_cons_self) hd
    rw [Command.on_forM_cons]
    by_cases hfits : sha256 (content i) = d
    · subst hfits
      rw [if_pos rfl, Command.file, Command.on_writeFile] at hfirst
      cases hwrite : t.write (layout.shardPath i) (content i) with
      | error kind =>
        rw [hwrite] at hfirst
        exact ⟨[], t, List.nil_prefix, rfl, nofun, Or.inr ⟨_, Command.on_bind_of_error hfirst _⟩⟩
      | ok t₁ =>
        rw [hwrite] at hfirst
        obtain ⟨written, t', hfront, hwritten, hfit, hrun⟩ := ih t₁
          (fun j hj => hslots j (List.mem_cons_of_mem i hj)) (fun j hj => hdigest j (List.mem_cons_of_mem i hj))
        refine ⟨i :: written, t', List.cons_prefix_cons.2 ⟨rfl, hfront⟩, writeEach_cons_eq_ok.2 ⟨t₁, hwrite, hwritten⟩,
          List.forall_mem_cons.2 ⟨hd, hfit⟩, ?_⟩
        rw [Command.on_bind_of_ok hfirst]
        exact hrun.imp_left fun hok => ⟨hok.1, by rw [hok.2]⟩
    · rw [if_neg hfits] at hfirst
      exact ⟨[], t, List.nil_prefix, rfl, nofun, Or.inr ⟨_, Command.on_bind_of_error hfirst _⟩⟩

theorem on_forM_writeRebuilt_of_writeEach (hslots : ∀ i ∈ is, slots[i]? = some (some (content i)))
    (hdigest : ∀ i ∈ is, manifest.digest i = .ok (sha256 (content i)))
    (hwrites : writeEach layout.shardPath content is t = .ok t') :
    (is.forM (writeRebuilt layout manifest slots : Nat → Command (StateM FileTree) Unit)).on t = (.ok (), t') := by
  induction is generalizing t with
  | nil =>
    obtain rfl := Except.ok.inj hwrites
    rfl
  | cons i is ih =>
    obtain ⟨t₁, hwrite, hrest⟩ := writeEach_cons_eq_ok.1 hwrites
    have hfirst : (writeRebuilt layout manifest slots i : Command (StateM FileTree) Unit).on t = _ :=
      on_writeRebuilt (hslots i List.mem_cons_self) (hdigest i List.mem_cons_self)
    rw [if_pos rfl, Command.file, Command.on_writeFile_of_ok hwrite] at hfirst
    rw [Command.on_forM_cons, Command.on_bind_of_ok hfirst]
    exact ih (fun j hj => hslots j (List.mem_cons_of_mem i hj)) (fun j hj => hdigest j (List.mem_cons_of_mem i hj)) hrest

/-! ## Up to the writing -/

/-- The valid files in their slots. -/
def validSlots (t : FileTree) (layout : Layout) (states : List ShardState) : Slots :=
  states.zipIdx.map fun (state, i) => if state = .valid then some (t.contentAt layout i) else none

theorem getElem?_validSlots (hi : states[i]? = some .valid) :
    (t.validSlots layout states)[i]? = some (some (t.contentAt layout i)) := by
  rw [validSlots, List.getElem?_map, List.getElem?_zipIdx, hi]
  simp

/-- Files of which the data shards are valid can be repaired if the sizes in the manifest fit together. -/
theorem repairable_validSlots (hmanifest : t.manifestOf layout = .ok manifest)
    (hstates : (List.range manifest.shards.length).mapM (t.shardState layout manifest) = .ok states)
    (hdata : ∀ i < manifest.scheme.data, states[i]? = some .valid) {code : Code} (hcode : manifest.scheme = code.scheme)
    (hlt : manifest.shardSize * manifest.scheme.data < wordLimit)
    (hle : manifest.dataSize ≤ manifest.shardSize * manifest.scheme.data) :
    code.Repairable (t.validSlots layout states) (usableShards states) manifest.dataSize manifest.shardSize := by
  have htotal : states.length = code.scheme.total := by
    rw [(getElem?_of_mapM_range hstates).1, (checked_of_manifestOf hmanifest).length_shards, hcode]
  have husable : ∀ i ∈ usableShards states, i < code.scheme.total := by
    intro i hi
    rw [← htotal]
    exact (List.getElem?_eq_some_iff.1 (mem_usableShards.1 hi)).1
  rw [hcode] at hdata hlt hle
  refine {
    length_eq := by rw [validSlots, List.length_map, List.length_zipIdx, htotal]
    capacity_lt := hlt
    capacity_le := hle
    lt_total := husable
    data_listed := fun i hi => mem_usableShards.2 (hdata i hi)
    held := fun i hi => ⟨_, getElem?_validSlots (mem_usableShards.1 hi), ?_⟩ }
  obtain ⟨b, hread, hsize, -⟩ := shardState_eq_valid_iff.1 (eq_ok_of_mapM_range hstates (mem_usableShards.1 hi)).2
  rw [contentAt_eq hread, hsize]

/-- A repair that finds the data shards valid rebuilds from the valid files, and writes what was rebuilt. -/
theorem on_repairFiles (hlayout : Layout.ofManifestPath path = .ok layout) (hmanifest : t.manifestOf layout = .ok manifest)
    (hstates : (List.range manifest.shards.length).mapM (t.shardState layout manifest) = .ok states)
    (hdata : ∀ i < manifest.scheme.data, states[i]? = some .valid) :
    (repairFiles path : Command (StateM FileTree) RepairReport).on t =
      (Command.ofExcept .coding (Code.ofScheme manifest.scheme) >>= fun code =>
        Command.ofExcept .repair (code.repair (t.validSlots layout states) (usableShards states) manifest.dataSize
            manifest.shardSize).result >>= fun repair =>
          repair.repairedIndices.forM (writeRebuilt layout manifest repair.slots) >>= fun _ =>
            pure ⟨repair.repairedIndices, repair.bytesRepaired⟩ : Command (StateM FileTree) RepairReport).on t := by
  refine (on_inspected hlayout hmanifest hstates _).trans ?_
  have hlong : manifest.scheme.data ≤ states.length := by
    by_contra hshort
    have hnone := List.getElem?_eq_none (Nat.le_refl states.length)
    rw [hdata _ (Nat.not_le.1 hshort)] at hnone
    cases hnone
  have hintact : ((List.range manifest.scheme.data).filter fun i => states[i]? ≠ some .valid) = [] := by
    rw [List.filter_eq_nil_iff]
    intro i hi
    simp [hdata i (List.mem_range.1 hi)]
  have hread : ∀ i state, states[i]? = some state → decide (state = .valid) = true →
      ∃ b, t.read (layout.shardPath i) = .ok b := by
    intro i state hi hvalid
    obtain rfl := of_decide_eq_true hvalid
    exact exists_read_of_shardState (eq_ok_of_mapM_range hstates hi).2 nofun
  have hslots := on_readShards hread
  simp only [decide_eq_true_eq] at hslots
  dsimp only
  rw [if_neg (Nat.not_lt.2 hlong), hintact, List.isEmpty_nil, if_pos rfl, Command.on_bind_of_ok hslots]
  rfl

/-- A repair ends before it writes, or it may write all shards that are not valid. -/
theorem repairFiles_cases (hlayout : Layout.ofManifestPath path = .ok layout)
    (hmanifest : t.manifestOf layout = .ok manifest) :
    (∃ e, (repairFiles path : Command (StateM FileTree) RepairReport).on t = (.error e, t)) ∨
    ∃ (code : Code) (states : _) (slots : _), manifest.scheme = code.scheme ∧
      (List.range manifest.shards.length).mapM (t.shardState layout manifest) = .ok states ∧
      (∀ i < manifest.scheme.data, states[i]? = some .valid) ∧
      (∀ i ∈ code.unlisted (usableShards states), ∃ b, slots[i]? = some (some b) ∧ b.length = manifest.shardSize) ∧
      (repairFiles path : Command (StateM FileTree) RepairReport).on t =
        ((code.unlisted (usableShards states)).forM (writeRebuilt layout manifest slots) >>= fun _ =>
          pure ⟨code.unlisted (usableShards states), (code.unlisted (usableShards states)).length * manifest.shardSize⟩ :
            Command (StateM FileTree) RepairReport).on t := by
  cases hstates : (List.range manifest.shards.length).mapM (t.shardState layout manifest) with
  | error e =>
    left
    unfold repairFiles
    rw [Command.on_bind_of_ok (a := layout) (by rw [Command.on_ofExcept, hlayout]; rfl),
      Command.on_bind_of_ok (a := manifest) (by rw [on_loadManifest, hmanifest])]
    exact ⟨e, Command.on_bind_of_error (by rw [on_inspectShards, hstates]) _⟩
  | ok states =>
    by_cases hdata : ∀ i < manifest.scheme.data, states[i]? = some .valid
    · have hrun := on_repairFiles hlayout hmanifest hstates hdata
      cases hscheme : Code.ofScheme manifest.scheme with
      | error e =>
        rw [hscheme] at hrun
        exact Or.inl ⟨_, hrun⟩
      | ok code =>
      have hcode : manifest.scheme = code.scheme := (Code.scheme_of_ofScheme hscheme).symm
      rw [hscheme] at hrun
      replace hrun := hrun.trans (Command.on_bind_of_ok rfl _)
      cases hrepair : (code.repair (t.validSlots layout states) (usableShards states) manifest.dataSize
          manifest.shardSize).result with
      | error e =>
        rw [hrepair] at hrun
        exact Or.inl ⟨_, hrun⟩
      | ok repair =>
        right
        have hrepairable := (Code.of_result_repair hrepair).1
        obtain ⟨slots, hresult, hrebuilt⟩ := hrepairable.result_repair
        rw [hresult] at hrun
        exact ⟨code, states, slots, hcode, rfl, hdata, fun i hi => hrebuilt.exists_renewed hrepairable hi, hrun⟩
    · left
      rcases Nat.lt_or_ge states.length manifest.scheme.data with hshort | hlong
      · refine ⟨.coding (.panicked .indexOutOfBounds), (on_inspected hlayout hmanifest hstates _).trans ?_⟩
        dsimp only
        rw [if_pos hshort]
        rfl
      let damaged := (List.range manifest.scheme.data).filter fun i => states[i]? ≠ some .valid
      refine ⟨.damagedData damaged, (on_inspected hlayout hmanifest hstates _).trans ?_⟩
      have hdamaged : ¬ damaged.isEmpty = true := by
        intro hnone
        rw [List.isEmpty_iff, List.filter_eq_nil_iff] at hnone
        exact hdata fun i hi => by simpa using hnone i (List.mem_range.2 hi)
      dsimp only
      rw [if_neg (Nat.not_lt.2 hlong), if_neg hdamaged]
      rfl

/-! ## What is left behind -/

/-- An inspection finds a shard file in that state. -/
def Inspects (t : FileTree) (layout : Layout) (manifest : Manifest) (i : Nat) (state : ShardState) : Prop :=
  (inspectShard layout manifest i : Command (StateM FileTree) ShardState).on t = (.ok state, t)

theorem inspects_iff {state : ShardState} :
    t.Inspects layout manifest i state ↔ t.shardState layout manifest i = .ok state := by
  rw [Inspects, on_inspectShard, Prod.mk.injEq, and_iff_left rfl]

/-- From `t` to `t'` the shard files of `written` were written and nothing else, all of them of parity shards that were
not valid and are now. -/
structure Rewritten (layout : Layout) (manifest : Manifest) (written : List Nat) (t t' : FileTree) : Prop where
  writes : ∃ content, writeEach layout.shardPath content written t = .ok t'
  parity : ∀ i ∈ written, manifest.scheme.data ≤ i ∧ i < manifest.scheme.total
  needed : ∀ i ∈ written, ¬ t.Inspects layout manifest i .valid
  valid : ∀ i ∈ written, t'.Inspects layout manifest i .valid
  unchanged : ∀ p, (∀ i ∈ written, t.locate p ≠ t.locate (layout.shardPath i)) →
    (t'.find p).toOption = (t.find p).toOption

theorem rewritten_nil (t : FileTree) : Rewritten layout manifest [] t t :=
  ⟨⟨fun _ => [], rfl⟩, nofun, nofun, nofun, fun _ _ => rfl⟩

/-- The shard files are at their places in the directory of a manifest that is read. -/
theorem exists_home_of_manifestOf (hwhole : layout.Whole) (hmanifest : t.manifestOf layout = .ok manifest) :
    ∃ home, ∀ i l, t.locate (layout.shardPath i) = .ok l → l = layout.shardPlace home i := by
  unfold manifestOf at hmanifest
  obtain ⟨b, hread, -⟩ := exists_of_bind_eq_ok hmanifest
  obtain ⟨l, hl, -⟩ := read_eq_ok.1 (mapError_eq_ok.1 hread)
  obtain ⟨home, hopens, -⟩ := exists_opens_of_locate_manifestPath hwhole hl
  exact ⟨home, fun i l hi => eq_shardPlace hwhole hopens hi⟩

theorem rewritten_of_writeEach {home : Location} {written : List Nat} {content : Nat → Bytes}
    (hplace : ∀ i l, t.locate (layout.shardPath i) = .ok l → l = layout.shardPlace home i)
    (hwrites : writeEach layout.shardPath content written t = .ok t') (hnodup : written.Nodup)
    (hparity : ∀ i ∈ written, manifest.scheme.data ≤ i ∧ i < manifest.scheme.total)
    (hneeded : ∀ i ∈ written, t.shardState layout manifest i ≠ .ok .valid)
    (hsize : ∀ i ∈ written, (content i).length = manifest.shardSize)
    (hdigest : ∀ i ∈ written, manifest.digest i = .ok (sha256 (content i))) :
    Rewritten layout manifest written t t' ∧
      ∀ i, t.shardState layout manifest i = .ok .valid → t'.shardState layout manifest i = .ok .valid := by
  have hplaces : ∀ i ∈ written, t.locate (layout.shardPath i) = .ok (layout.shardPlace home i) := by
    intro i hi
    obtain ⟨l, hl⟩ := exists_locate_of_writeEach hwrites hi
    rw [hl, hplace i l hl]
  have halters := alters_writeEach hplaces hwrites
  refine ⟨⟨⟨content, hwrites⟩, hparity, fun i hi => mt inspects_iff.1 (hneeded i hi), ?_, ?_⟩, ?_⟩
  · intro i hi
    rw [inspects_iff, shardState_eq_valid_iff]
    exact ⟨content i, read_writeEach_shards hnodup hplaces hwrites hi, hsize i hi, hdigest i hi⟩
  · intro p hp
    refine halters.toOption_find_eq ?_
    rintro l hl ⟨i, hi, rfl⟩
    exact hp i hi (by rw [hl, hplaces i hi])
  · intro i hvalid
    obtain ⟨b, hread, hfits⟩ := shardState_eq_valid_iff.1 hvalid
    obtain ⟨l, hl, -⟩ := read_eq_ok.1 hread
    refine shardState_eq_valid_iff.2 ⟨b, ?_, hfits⟩
    rw [halters.read_eq hl, hread]
    rintro ⟨j, hj, hsame⟩
    rw [hplace i l hl, Layout.shardPlace_inj] at hsame
    subst hsame
    exact hneeded i hj hvalid

/-- What a repair rebuilds are the parity shards that are not valid. -/
theorem mem_unlisted_usableShards
    (hstates : (List.range manifest.shards.length).mapM (t.shardState layout manifest) = .ok states)
    {code : Code} (hcode : manifest.scheme = code.scheme) (hlength : manifest.shards.length = manifest.scheme.total) :
    i ∈ code.unlisted (usableShards states) ↔
      manifest.scheme.data ≤ i ∧ i < manifest.scheme.total ∧ ¬ t.Inspects layout manifest i .valid := by
  rw [Code.mem_unlisted, hcode]
  refine and_congr_right fun _ => and_congr_right fun hi => not_congr ?_
  obtain ⟨state, hget, hstate⟩ := (getElem?_of_mapM_range hstates).2 i (by rwa [hlength, hcode])
  rw [mem_usableShards, inspects_iff, hget, hstate, Option.some_inj, Except.ok.injEq]

theorem on_inspectShards_of_valid (hlength : manifest.shards.length = manifest.scheme.total)
    (hvalid : ∀ i < manifest.scheme.total, t.shardState layout manifest i = .ok .valid) :
    (inspectShards layout manifest : Command (StateM FileTree) (List ShardState)).on t =
      (.ok (List.replicate manifest.scheme.total .valid), t) := by
  rw [on_inspectShards, hlength, mapM_ok fun i hi => hvalid i (List.mem_range.1 hi), List.map_const', List.length_range]

/-- However a repair ends, it has written nothing but parity shards that were not valid. If it goes through it has written
them all, and then all shard files are valid. -/
theorem exists_rewritten (hlayout : Layout.ofManifestPath path = .ok layout)
    (hmanifest : t.manifestOf layout = .ok manifest) :
    let repaired := (repairFiles path : Command (StateM FileTree) RepairReport).on t
    ∃ written, Rewritten layout manifest written t repaired.2 ∧ ∀ report, repaired.1 = .ok report →
      report.repaired = written ∧ written.Pairwise (· < ·) ∧
      (∀ i, i ∈ written ↔ manifest.scheme.data ≤ i ∧ i < manifest.scheme.total ∧ ¬ t.Inspects layout manifest i .valid) ∧
      (inspectShards layout manifest : Command (StateM FileTree) (List ShardState)).on repaired.2 =
        (.ok (List.replicate manifest.scheme.total .valid), repaired.2) := by
  intro repaired
  have hchecked := checked_of_manifestOf hmanifest
  obtain ⟨e, hrefused⟩ | ⟨code, states, slots, hcode, hstates, hdata, hrenewed, hrun⟩ :=
    repairFiles_cases hlayout hmanifest
  · have hrepaired : repaired = (.error e, t) := hrefused
    rw [hrepaired]
    exact ⟨[], rewritten_nil t, nofun⟩
  · let missing := code.unlisted (usableShards states)
    have hmissing : ∀ i, i ∈ missing ↔
        manifest.scheme.data ≤ i ∧ i < manifest.scheme.total ∧ ¬ t.Inspects layout manifest i .valid :=
      fun i => mem_unlisted_usableShards hstates hcode hchecked.length_shards
    have hsorted : missing.Pairwise (· < ·) := code.pairwise_unlisted _
    choose! content hslot hsize using hrenewed
    obtain ⟨home, hplace⟩ := exists_home_of_manifestOf (Layout.whole_of_ofManifestPath hlayout) hmanifest
    obtain ⟨written, t', hfront, hwrites, hdigest, hend⟩ := on_forM_writeRebuilt layout t hslot
      fun i hi => hchecked.exists_digest ((hmissing i).1 hi).2.1
    have hmem : ∀ i ∈ written, i ∈ missing := fun i hi => hfront.subset hi
    obtain ⟨hrewritten, hkept⟩ := rewritten_of_writeEach hplace hwrites
      ((hsorted.imp Nat.ne_of_lt).sublist hfront.sublist)
      (fun i hi => ⟨((hmissing i).1 (hmem i hi)).1, ((hmissing i).1 (hmem i hi)).2.1⟩)
      (fun i hi => mt inspects_iff.2 ((hmissing i).1 (hmem i hi)).2.2) (fun i hi => hsize i (hmem i hi)) hdigest
    obtain ⟨hok, rfl⟩ | ⟨e, hstop⟩ := hend
    · have hrepaired : repaired = (.ok ⟨missing, missing.length * manifest.shardSize⟩, t') :=
        hrun.trans (Command.on_bind_of_ok hok _)
      rw [hrepaired]
      refine ⟨missing, hrewritten, ?_⟩
      rintro report ⟨⟩
      refine ⟨rfl, hsorted, hmissing, on_inspectShards_of_valid hchecked.length_shards fun i hi => ?_⟩
      -- A shard that was not valid is no data shard, so it was written.
      by_cases hbefore : t.shardState layout manifest i = .ok .valid
      · exact hkept i hbefore
      · have hpast : manifest.scheme.data ≤ i := by
          by_contra hlt
          exact hbefore (eq_ok_of_mapM_range hstates (hdata i (Nat.not_le.1 hlt))).2
        exact inspects_iff.1 (hrewritten.valid i ((hmissing i).2 ⟨hpast, hi, mt inspects_iff.1 hbefore⟩))
    · have hrepaired : repaired = (.error e, t') := hrun.trans (Command.on_bind_of_error hstop _)
      rw [hrepaired]
      exact ⟨written, hrewritten, nofun⟩

/-! ## The files of an encode -/

namespace HoldsEncoding

variable {home : Location} {code : Code} {data : Bytes} {shards : List Bytes}
  (h : t.HoldsEncoding layout home manifest code data shards) (hdamaged : Damaged layout code.scheme.total t t')

include h hdamaged

/-- The slots of the intact files hold their shards. -/
theorem getElem?_validSlots_reread (husable : usableShards states = intact layout code.scheme.total t t')
    (hi : i ∈ usableShards states) : (t'.validSlots layout.reread states)[i]? = (shards.map some)[i]? := by
  rw [getElem?_validSlots (mem_usableShards.1 hi)]
  rw [husable] at hi
  rw [contentAt_eq (h.read_intact hdamaged hi), List.getElem?_map, h.getElem?_shards (mem_intact.1 hi).1]
  rfl

/-- Shards of the encode can be written to the files where they were. -/
theorem exists_writeEach_shards (is : List Nat) (his : ∀ i ∈ is, i < code.scheme.total) :
    ∃ t'', writeEach layout.reread.shardPath (shards.getD · []) is t' = .ok t'' := by
  refine exists_writeEach fun i hi => ?_
  exact ⟨_, write_eq_ok.2 ⟨_, (h.hosts_damaged hdamaged).parent.shard i (his i hi),
    Path.endsInSlash_append _ (Layout.isName_shardName h.hosts.whole i), h.get?_shardPlace_damaged_ne hdamaged (his i hi),
    rfl⟩⟩

/-- Where the files that are not intact are written anew, all of them hold their shards again. -/
theorem read_of_writeEach {is : List Nat} (hnodup : is.Nodup) (his : ∀ i ∈ is, i < code.scheme.total)
    (hothers : ∀ i < code.scheme.total, i ∉ is → i ∈ intact layout code.scheme.total t t') {t'' : FileTree}
    (hwrites : writeEach layout.reread.shardPath (shards.getD · []) is t' = .ok t'') (hi : i < code.scheme.total) :
    t''.read (layout.shardPath i) = .ok (shards.getD i []) := by
  have hhosts := h.hosts_damaged hdamaged
  have hplace : ∀ i ∈ is, t'.locate (layout.reread.shardPath i) = .ok (layout.reread.shardPlace home i) :=
    fun i hi => hhosts.parent.shard i (his i hi)
  have halters := alters_writeEach hplace hwrites
  rw [← (hhosts.alters halters).read_shardPath_reread hi]
  by_cases hmem : i ∈ is
  · exact read_writeEach_shards hnodup hplace hwrites hmem
  · rw [halters.read_eq (hhosts.parent.shard i hi), h.read_intact hdamaged (hothers i hi hmem)]
    rintro ⟨j, hj, hsame⟩
    rw [Layout.shardPlace_inj] at hsame
    exact hmem (hsame ▸ hj)

/-- A repair restores the files if the data shards are intact and fit in memory. -/
theorem on_repairFiles (hcollision : NoCollision layout code.scheme.total t t')
    (hroom : code.scheme.data * manifest.shardSize < wordLimit)
    (hintact : ∀ i < code.scheme.data, t'.read (layout.shardPath i) = t.read (layout.shardPath i)) :
    ∃ report t'', (repairFiles layout.manifestPath : Command (StateM FileTree) RepairReport).on t' = (.ok report, t'') ∧
      ∀ i < code.scheme.total, t''.read (layout.shardPath i) = .ok (shards.getD i []) := by
  obtain ⟨states, hstates, hlength, husable⟩ := h.exists_states hdamaged hcollision
  have hmanifest := h.manifestOf_eq hdamaged
  have hdata : ∀ i < manifest.scheme.data, states[i]? = some .valid := by
    intro i hi
    rw [h.scheme_eq] at hi
    rw [← mem_usableShards, husable]
    exact mem_intact.2 ⟨hi.trans_le code.data_le_total, hintact i hi⟩
  have hrepairable := repairable_validSlots hmanifest hstates hdata h.scheme_eq (by rwa [h.scheme_eq, Nat.mul_comm])
    (by rw [h.scheme_eq]; exact h.dataSize_le)
  obtain ⟨slots, hresult, hrebuilt⟩ := hrepairable.result_repair
  have hothers : ∀ i < code.scheme.total, i ∉ code.unlisted (usableShards states) → i ∈ usableShards states := by
    intro i hi hunlisted
    by_cases hk : i < code.scheme.data
    · exact hrepairable.data_listed i hk
    · by_contra hmem
      exact hunlisted (Code.mem_unlisted.2 ⟨Nat.not_lt.1 hk, hi, hmem⟩)
  obtain rfl := hrebuilt.eq_map_some h.fullSet h.word fun i hi => by
    by_cases hlt : i < code.scheme.total
    · exact h.getElem?_validSlots_reread hdamaged husable (hothers i hlt hi)
    · rw [List.getElem?_eq_none, List.getElem?_eq_none]
      · rw [List.length_map, h.fullSet.length_eq]
        exact Nat.not_lt.1 hlt
      · rw [hrepairable.length_eq]
        exact Nat.not_lt.1 hlt
  have his : ∀ i ∈ code.unlisted (usableShards states), i < code.scheme.total := fun i hi => (Code.mem_unlisted.1 hi).2.1
  obtain ⟨t'', hwrites⟩ := h.exists_writeEach_shards hdamaged _ his
  have hslots : ∀ i ∈ code.unlisted (usableShards states), (shards.map some)[i]? = some (some (shards.getD i [])) := by
    intro i hi
    rw [List.getElem?_map, h.getElem?_shards (his i hi)]
    rfl
  have hloop := on_forM_writeRebuilt_of_writeEach hslots (fun i hi => h.digest_eq (his i hi)) hwrites
  let missing := code.unlisted (usableShards states)
  have hrun : (repairFiles layout.manifestPath : Command (StateM FileTree) RepairReport).on t' =
      (.ok ⟨missing, missing.length * manifest.shardSize⟩, t'') := by
    rw [FileTree.on_repairFiles h.ofManifestPath_eq hmanifest hstates hdata, h.scheme_eq,
      Command.on_bind_of_ok (a := code) (by rw [Command.on_ofExcept, code.ofScheme_scheme]; rfl), hresult]
    exact Command.on_bind_of_ok hloop _
  exact ⟨_, t'', hrun, fun i hi => h.read_of_writeEach hdamaged ((code.pairwise_unlisted _).imp Nat.ne_of_lt) his
    (fun j hj hunlisted => husable ▸ hothers j hj hunlisted) hwrites hi⟩

end HoldsEncoding

/-- **Repair**: however a repair ends for which a manifest is read, it has written nothing but parity shard files that were
not valid and are now, and has left everything else as it was. If it goes through it reports what it has written, which is
all parity shards that were not valid, and all shard files are valid. The files of an encode that were damaged since, but
not the data shards among them, it restores, provided that no file was replaced by other bytes with its digest and the
data shards fit in memory. -/
theorem repairFiles_safe_complete :
    (∀ (t : FileTree) (path : Path) (layout : Layout) (manifest : Manifest), Layout.ofManifestPath path = .ok layout →
      (loadManifest layout : Command (StateM FileTree) Manifest).on t = (.ok manifest, t) →
      let repaired := (repairFiles path : Command (StateM FileTree) RepairReport).on t
      ∃ written, Rewritten layout manifest written t repaired.2 ∧ ∀ report, repaired.1 = .ok report →
        report.repaired = written ∧ written.Pairwise (· < ·) ∧
        (∀ i, i ∈ written ↔
          manifest.scheme.data ≤ i ∧ i < manifest.scheme.total ∧ ¬ t.Inspects layout manifest i .valid) ∧
        (inspectShards layout manifest : Command (StateM FileTree) (List ShardState)).on repaired.2 =
          (.ok (List.replicate manifest.scheme.total .valid), repaired.2)) ∧
    ∀ (now : Instant) (r : EncodeRequest) (t : FileTree) (data : Bytes), r.Feasible now t data →
      (encodeFile now r : Command (StateM FileTree) EncodeReport).Achieves t fun encoded t₁ =>
        r.scheme.data * encoded.manifest.shardSize < wordLimit →
        ∀ t₂, Damaged encoded.layout r.scheme.total t₁ t₂ → NoCollision encoded.layout r.scheme.total t₁ t₂ →
          (∀ i < r.scheme.data, t₂.read (encoded.layout.shardPath i) = t₁.read (encoded.layout.shardPath i)) →
          ∃ report t₃,
            (repairFiles encoded.layout.manifestPath : Command (StateM FileTree) RepairReport).on t₂ = (.ok report, t₃) ∧
            ∀ i < r.scheme.total, ∃ shard,
              t₁.read (encoded.layout.shardPath i) = .ok shard ∧ t₃.read (encoded.layout.shardPath i) = .ok shard := by
  constructor
  · intro t path layout manifest hlayout hmanifest
    rw [on_loadManifest, Prod.mk.injEq] at hmanifest
    exact exists_rewritten hlayout hmanifest.1
  · intro now r t data hfeasible
    refine (achieves_encodeFile hfeasible).mono fun encoded t₁ hencoded hroom t₂ hdamaged hcollision hintact => ?_
    have hsize : encoded.manifest.shardSize < wordLimit :=
      Nat.lt_of_le_of_lt (Nat.le_mul_of_pos_left _ hfeasible.scheme_valid.1) hroom
    obtain ⟨-, home, shards, h⟩ := hencoded hsize
    obtain ⟨report, t₃, hrun, hrestored⟩ := h.on_repairFiles hdamaged hcollision hroom hintact
    exact ⟨report, t₃, hrun, fun i hi => ⟨_, h.shard_eq i hi, hrestored i hi⟩⟩

/-- The parity shard file of a small encode is deleted, and a repair writes it again and nothing else. -/
theorem repairFiles_safe_complete_sample : ∃ encoded t₁ report t₃,
    (encodeFile Sample.now Sample.request : Command (StateM FileTree) EncodeReport).on Sample.tree = (.ok encoded, t₁) ∧
    let path := encoded.layout.shardPath 2
    let t₂ := t₁.remove path
    (repairFiles encoded.layout.manifestPath : Command (StateM FileTree) RepairReport).on t₂ = (.ok report, t₃) ∧
    report.repaired = [2] ∧ t₂.read path ≠ t₁.read path ∧ t₃.read path = t₁.read path := by
  obtain ⟨encoded, t₁, home, shards, hrun, -, hroom, h, -, -⟩ := Sample.exists_encoded
  have hlast : 2 < Sample.request.scheme.total := by decide
  have hdamaged : Damaged encoded.layout Sample.request.scheme.total t₁ (t₁.remove (encoded.layout.shardPath 2)) :=
    .deleted hlast .untouched
  obtain ⟨hsafe, hcomplete⟩ := repairFiles_safe_complete
  obtain ⟨report, t₃, hrepaired, hrestored⟩ := (hcomplete _ _ _ _ Sample.feasible).of_on hrun hroom _ hdamaged
    (h.noCollision_remove hlast) fun i hi =>
      h.read_remove_of_ne hlast (hi.trans_le (by decide)) (Nat.ne_of_lt hi)
  have hloaded : (loadManifest encoded.layout.reread : Command (StateM FileTree) Manifest).on
      (t₁.remove (encoded.layout.shardPath 2)) = (.ok encoded.manifest, t₁.remove (encoded.layout.shardPath 2)) := by
    rw [on_loadManifest, h.manifestOf_eq hdamaged]
  obtain ⟨written, -, hwritten⟩ := hsafe _ _ _ _ h.ofManifestPath_eq hloaded
  rw [hrepaired] at hwritten
  obtain ⟨hreported, hsorted, hmem, -⟩ := hwritten report rfl
  refine ⟨encoded, t₁, report, t₃, hrun, hrepaired, ?_, ?_, ?_⟩
  · rw [hreported]
    refine hsorted.eq_of_mem_iff (List.pairwise_singleton _ _) fun i => ?_
    rw [hmem, h.scheme_eq, List.mem_singleton]
    constructor
    · rintro ⟨hpast, hlt, -⟩
      have hbounds : 2 ≤ i ∧ i < 3 := ⟨hpast, hlt⟩
      omega
    · rintro rfl
      refine ⟨Nat.le_refl 2, hlast, ?_⟩
      rw [inspects_iff, shardState_eq_valid_iff]
      rintro ⟨b, hread, -⟩
      rw [(h.hosts_damaged hdamaged).read_shardPath_reread hlast] at hread
      exact h.read_remove_ne hlast b hread
  · rw [h.shard_eq 2 hlast]
    exact h.read_remove_ne hlast _
  · obtain ⟨shard, hread, hread'⟩ := hrestored 2 hlast
    rw [hread, hread']

end FileTree

end ShardCoding

import ShardCoding.Command.Verify
import ShardCoding.Proofs.Command.Damage

/-!
# What a verification tells

* `FileTree.on_verifyFiles` : the report on files that could be inspected;
* `FileTree.Confirmed`, `FileTree.Recomputed`, `confirmed_of_isHealthy` : what a healthy report stands for;
* `HoldsEncoding.isHealthy_iff` : the files of an encode are reported healthy exactly if they are intact;
* `FileTree.verifyFiles_exact` : both.
-/

namespace ShardCoding

namespace FileTree

variable {t t' : FileTree} {layout : Layout} {manifest : Manifest} {states : List ShardState} {r : VerifyRequest}

/-- What is told of the parity shards of files that could be inspected. -/
def parityFound (t : FileTree) (r : VerifyRequest) (layout : Layout) (manifest : Manifest) (states : List ShardState) :
    Except CommandError (Option Verification) :=
  if r.parity = true ∧ .missing ∉ states then
    ((Code.ofScheme manifest.scheme).mapError .coding).map fun code =>
      (code.verify ((List.range manifest.shards.length).map fun i => some (t.contentAt layout i))).result.toOption
  else .ok none

/-- The report on files that could be inspected. -/
theorem on_verifyFiles (hlayout : Layout.ofManifestPath r.manifest = .ok layout)
    (hmanifest : t.manifestOf layout = .ok manifest)
    (hstates : (List.range manifest.shards.length).mapM (t.shardState layout manifest) = .ok states) :
    (verifyFiles r : Command (StateM FileTree) VerifyReport).on t =
      ((t.parityFound r layout manifest states).map fun parity => {
        name := manifest.fileName
        dataShards := manifest.scheme.data
        parityRequested := r.parity
        states := states
        parity := parity }, t) := by
  refine (on_inspected hlayout hmanifest hstates _).trans ?_
  unfold parityFound
  dsimp only
  by_cases hparity : r.parity = true ∧ .missing ∉ states
  · have hlength := (getElem?_of_mapM_range hstates).1
    have hread : ∀ i state, states[i]? = some state → true = true → ∃ b, t.read (layout.shardPath i) = .ok b := by
      intro i state hi _
      refine exists_read_of_shardState (eq_ok_of_mapM_range hstates hi).2 ?_
      rintro rfl
      exact hparity.2 (List.mem_of_getElem? hi)
    have hslots : states.zipIdx.map (fun p => some (t.contentAt layout p.2)) =
        (List.range manifest.shards.length).map fun i => some (t.contentAt layout i) := by
      rw [← hlength]
      exact List.ext_getElem (by simp) fun i hi hi' => by simp
    rw [if_pos hparity, if_pos hparity, ← hslots]
    cases Code.ofScheme manifest.scheme with
    | error e => rfl
    | ok code =>
      rw [Command.on_bind_of_ok (a := code) (by rw [Command.on_ofExcept]; rfl), Command.on_bind_of_ok (on_readShards hread)]
      rfl
  · rw [if_neg hparity, if_neg hparity]
    rfl

/-- A verification that reports anything has inspected the files. -/
theorem exists_of_on_verifyFiles {report : VerifyReport}
    (h : (verifyFiles r : Command (StateM FileTree) VerifyReport).on t = (.ok report, t')) :
    ∃ layout manifest states, Layout.ofManifestPath r.manifest = .ok layout ∧ t.manifestOf layout = .ok manifest ∧
      (List.range manifest.shards.length).mapM (t.shardState layout manifest) = .ok states := by
  unfold verifyFiles at h
  obtain ⟨layout, t₁, hlayout, h⟩ := Command.exists_of_on_bind h
  rw [Command.on_ofExcept, Prod.mk.injEq] at hlayout
  obtain ⟨hlayout, rfl⟩ := hlayout
  obtain ⟨manifest, t₂, hmanifest, h⟩ := Command.exists_of_on_bind h
  rw [on_loadManifest, Prod.mk.injEq] at hmanifest
  obtain ⟨hmanifest, rfl⟩ := hmanifest
  obtain ⟨states, t₃, hstates, -⟩ := Command.exists_of_on_bind h
  rw [on_inspectShards, Prod.mk.injEq] at hstates
  exact ⟨layout, manifest, states, mapError_eq_ok.1 hlayout, hmanifest, hstates.1⟩

/-- Files that are all valid, with what is in them. -/
theorem read_of_all_valid (hstates : (List.range manifest.shards.length).mapM (t.shardState layout manifest) = .ok states)
    (hvalid : ∀ state ∈ states, state = .valid) {i : Nat} (hi : i < manifest.shards.length) :
    t.read (layout.shardPath i) = .ok (t.contentAt layout i) ∧ (t.contentAt layout i).length = manifest.shardSize ∧
      manifest.digest i = .ok (sha256 (t.contentAt layout i)) := by
  obtain ⟨-, hstate⟩ := getElem?_of_mapM_range hstates
  obtain ⟨state, hget, hinspect⟩ := hstate i hi
  rw [hvalid state (List.mem_of_getElem? hget)] at hinspect
  obtain ⟨b, hread, hlength, hdigest⟩ := shardState_eq_valid_iff.1 hinspect
  rw [contentAt_eq hread]
  exact ⟨hread, hlength, hdigest⟩

theorem isHealthy_iff {report : VerifyReport} : report.isHealthy = true ↔
    (∀ state ∈ report.states, state = .valid) ∧ ∀ v, report.parity = some v → v.valid = true := by
  rw [VerifyReport.isHealthy, Bool.and_eq_true, List.all_eq_true, Option.all_eq_true]
  simp only [decide_eq_true_eq]

/-- The parity shards among `contents` were recomputed and found to be what the data shards are encoded to, and `report`
says so. -/
structure Recomputed (report : VerifyReport) (manifest : Manifest) (contents : List Bytes) (code : Code) : Prop where
  scheme_eq : code.scheme = manifest.scheme
  word : contents = code.reencoded manifest.shardSize contents
  verify_eq : (code.verify (contents.map some)).result = .ok ⟨true, []⟩
  report_eq : report.parity = some ⟨true, []⟩

/-- What a healthy report stands for: the shard files that the manifest tells of, and parity shards that were recomputed
from the others and found the same, if that was asked for. -/
structure Confirmed (t : FileTree) (r : VerifyRequest) (report : VerifyReport) (layout : Layout) (manifest : Manifest)
    (contents : List Bytes) : Prop where
  layout_eq : Layout.ofManifestPath r.manifest = .ok layout
  manifest_eq : (loadManifest layout : Command (StateM FileTree) Manifest).on t = (.ok manifest, t)
  length_eq : contents.length = manifest.scheme.total
  shard : ∀ i content, contents[i]? = some content → t.read (layout.shardPath i) = .ok content ∧
    content.length = manifest.shardSize ∧ manifest.digest i = .ok (sha256 content)
  parity : r.parity = true → ∃ code, Recomputed report manifest contents code

/-- No report is healthy without that. -/
theorem confirmed_of_isHealthy {report : VerifyReport}
    (h : (verifyFiles r : Command (StateM FileTree) VerifyReport).on t = (.ok report, t'))
    (hhealthy : report.isHealthy = true) :
    t' = t ∧ ∃ layout manifest contents, Confirmed t r report layout manifest contents := by
  obtain ⟨layout, manifest, states, hlayout, hmanifest, hstates⟩ := exists_of_on_verifyFiles h
  have hchecked := checked_of_manifestOf hmanifest
  rw [on_verifyFiles hlayout hmanifest hstates, Prod.mk.injEq] at h
  obtain ⟨hreport, rfl⟩ := h
  obtain ⟨parity, hfound, rfl⟩ := map_eq_ok.1 hreport
  obtain ⟨hvalid, hparity⟩ := isHealthy_iff.1 hhealthy
  dsimp only at hvalid hparity
  have hread := fun i hi => read_of_all_valid hstates hvalid (i := i) hi
  have hlength : ((List.range manifest.shards.length).map (t.contentAt layout)).length = manifest.scheme.total := by
    rw [List.length_map, List.length_range]
    exact hchecked.length_shards
  refine ⟨rfl, layout, manifest, (List.range manifest.shards.length).map (t.contentAt layout), hlayout, ?_, hlength, ?_,
    ?_⟩
  · rw [on_loadManifest, hmanifest]
  · intro i content hi
    rw [List.getElem?_map, Option.map_eq_some_iff] at hi
    obtain ⟨j, hj, rfl⟩ := hi
    obtain ⟨hlt, rfl⟩ := List.getElem?_eq_some_iff.1 hj
    rw [List.length_range] at hlt
    rw [List.getElem_range]
    exact hread i hlt
  · intro hrequested
    have hmissing : ShardState.missing ∉ states := fun hmem => nomatch hvalid _ hmem
    rw [parityFound, if_pos ⟨hrequested, hmissing⟩] at hfound
    obtain ⟨code, hcode, rfl⟩ := map_eq_ok.1 hfound
    have hscheme := Code.scheme_of_ofScheme (mapError_eq_ok.1 hcode)
    have hfull : code.FullSet manifest.shardSize ((List.range manifest.shards.length).map (t.contentAt layout)) := by
      refine ⟨by rw [hlength, hscheme], ?_⟩
      intro shard hshard
      obtain ⟨i, hi, rfl⟩ := List.mem_map.1 hshard
      exact (hread i (List.mem_range.1 hi)).2.1
    have hslots : ((List.range manifest.shards.length).map fun i => some (t.contentAt layout i)) =
        ((List.range manifest.shards.length).map (t.contentAt layout)).map some := List.map_map.symm
    rw [hslots, hfull.result_verify] at hparity
    -- Nothing but a set without mismatches is healthy.
    have hnone := List.isEmpty_iff.1 (hparity _ rfl)
    have hverify := hfull.result_verify
    rw [hnone] at hverify
    refine ⟨code, hscheme, hfull.mismatches_eq_nil_iff.1 hnone, hverify, ?_⟩
    dsimp only
    rw [hslots, hverify]
    rfl

namespace HoldsEncoding

variable {home : Location} {code : Code} {data : Bytes} {shards : List Bytes}
  (h : t.HoldsEncoding layout home manifest code data shards) (hdamaged : Damaged layout code.scheme.total t t')

include h hdamaged

/-- The check of the parity shards of an encode goes through, and finds nothing if the files are intact. -/
theorem exists_parityFound (r : VerifyRequest) (states : List ShardState) :
    ∃ found, t'.parityFound r layout.reread manifest states = .ok found ∧
      ((∀ i < code.scheme.total, t'.read (layout.shardPath i) = t.read (layout.shardPath i)) →
        ∀ v, found = some v → v.valid = true) := by
  unfold parityFound
  split
  · refine ⟨_, by rw [h.scheme_eq, code.ofScheme_scheme]; rfl, fun hintact v hv => ?_⟩
    have hslots : ((List.range manifest.shards.length).map fun i => some (t'.contentAt layout.reread i)) =
        shards.map some := by
      rw [h.length_shards]
      refine List.ext_getElem (by simp [h.fullSet.length_eq]) fun i hi hi' => ?_
      have hlt : i < code.scheme.total := by simpa using hi
      have hread := h.read_intact hdamaged (mem_intact.2 ⟨hlt, hintact i hlt⟩)
      simp only [List.getElem_map, List.getElem_range, contentAt_eq hread, List.getD_eq_getElem?_getD]
      rw [List.getElem?_eq_getElem, Option.getD_some]
    dsimp only at hv
    rw [hslots, h.fullSet.result_verify, h.fullSet.mismatches_eq_nil_iff.2 h.word] at hv
    obtain rfl := Option.some.inj hv
    rfl
  · exact ⟨none, rfl, fun _ => nofun⟩

/-- After damage to the files of an encode, a verification reports health if all the shard files are intact. -/
theorem isHealthy_iff (hcollision : NoCollision layout code.scheme.total t t') (parity : Bool) :
    ∃ report, (verifyFiles ⟨layout.manifestPath, parity⟩ : Command (StateM FileTree) VerifyReport).on t' = (.ok report, t') ∧
      (report.isHealthy = true ↔
        ∀ i < code.scheme.total, t'.read (layout.shardPath i) = t.read (layout.shardPath i)) := by
  obtain ⟨states, hstates, hlength, husable⟩ := h.exists_states hdamaged hcollision
  obtain ⟨found, hfound, hsound⟩ := h.exists_parityFound hdamaged ⟨layout.manifestPath, parity⟩ states
  have hrun := FileTree.on_verifyFiles (r := ⟨layout.manifestPath, parity⟩) h.ofManifestPath_eq
    (h.manifestOf_eq hdamaged) hstates
  rw [hfound] at hrun
  refine ⟨_, hrun, ?_⟩
  have hvalid : (∀ state ∈ states, state = .valid) ↔
      ∀ i < code.scheme.total, t'.read (layout.shardPath i) = t.read (layout.shardPath i) := by
    have husable' : ∀ i, states[i]? = some .valid ↔
        i < code.scheme.total ∧ t'.read (layout.shardPath i) = t.read (layout.shardPath i) := by
      intro i
      rw [← mem_usableShards, husable, mem_intact]
    constructor
    · intro hall i hi
      have hget := List.getElem?_eq_getElem (l := states) (hlength ▸ hi)
      rw [hall _ (List.getElem_mem _)] at hget
      exact ((husable' i).1 hget).2
    · intro hall state hstate
      obtain ⟨i, hi, rfl⟩ := List.mem_iff_getElem.1 hstate
      have hget := (husable' i).2 ⟨hlength ▸ hi, hall i (hlength ▸ hi)⟩
      rw [List.getElem?_eq_getElem hi] at hget
      exact Option.some.inj hget
  rw [FileTree.isHealthy_iff]
  dsimp only
  rw [hvalid, and_iff_left_iff_imp]
  exact hsound

end HoldsEncoding

/-- **Verification**: a report is healthy only if every shard file has the length and the digest of the manifest and, where
the parity check was asked for, it was made and found nothing. For the files of an encode that were damaged since, where
no shard file was replaced by other bytes with its digest, the report is healthy exactly if all of them are intact. -/
theorem verifyFiles_exact :
    (∀ (r : VerifyRequest) (t t' : FileTree) (report : VerifyReport),
      (verifyFiles r : Command (StateM FileTree) VerifyReport).on t = (.ok report, t') → report.isHealthy = true →
        t' = t ∧ ∃ layout manifest contents, Confirmed t r report layout manifest contents) ∧
    ∀ (now : Instant) (r : EncodeRequest) (t : FileTree) (data : Bytes), r.Feasible now t data →
      (encodeFile now r : Command (StateM FileTree) EncodeReport).Achieves t fun encoded t₁ =>
        encoded.manifest.shardSize < wordLimit →
        ∀ t₂, Damaged encoded.layout r.scheme.total t₁ t₂ → NoCollision encoded.layout r.scheme.total t₁ t₂ →
          ∀ parity, ∃ report,
            (verifyFiles ⟨encoded.layout.manifestPath, parity⟩ : Command (StateM FileTree) VerifyReport).on t₂ =
              (.ok report, t₂) ∧
            (report.isHealthy = true ↔ ∀ i < r.scheme.total, ∃ shard,
              t₁.read (encoded.layout.shardPath i) = .ok shard ∧ t₂.read (encoded.layout.shardPath i) = .ok shard) := by
  refine ⟨fun r t t' report => confirmed_of_isHealthy, fun now r t data hfeasible => ?_⟩
  refine (achieves_encodeFile hfeasible).mono fun encoded t₁ hencoded hsize t₂ hdamaged hcollision parity => ?_
  obtain ⟨-, home, shards, h⟩ := hencoded hsize
  obtain ⟨report, hrun, hhealthy⟩ := h.isHealthy_iff hdamaged hcollision parity
  refine ⟨report, hrun, hhealthy.trans (forall₂_congr fun i hi => ?_)⟩
  rw [h.shard_eq i hi]
  simp [eq_comm]

/-- The three shard files of a small encode are reported healthy, and no longer when one of them is deleted. -/
theorem verifyFiles_exact_sample : ∃ encoded t₁ report report',
    (encodeFile Sample.now Sample.request : Command (StateM FileTree) EncodeReport).on Sample.tree = (.ok encoded, t₁) ∧
    let verified := (verifyFiles ⟨encoded.layout.manifestPath, true⟩ : Command (StateM FileTree) VerifyReport).on
    verified t₁ = (.ok report, t₁) ∧ report.isHealthy = true ∧ report.parity = some ⟨true, []⟩ ∧
    let t₂ := t₁.remove (encoded.layout.shardPath 2)
    verified t₂ = (.ok report', t₂) ∧ report'.isHealthy = false := by
  obtain ⟨encoded, t₁, home, shards, hrun, hword, -, h, -, -⟩ := Sample.exists_encoded
  obtain ⟨hsound, hexact⟩ := verifyFiles_exact
  have hexact' := (hexact _ _ _ _ Sample.feasible).of_on hrun hword
  have hlast : 2 < Sample.request.scheme.total := by decide
  have hcollision : NoCollision encoded.layout Sample.request.scheme.total t₁ t₁ := by
    intro i _ b b' hb hb' _
    exact Except.ok.inj (hb'.symm.trans hb)
  obtain ⟨report, hreport, hhealthy⟩ := hexact' t₁ .untouched hcollision true
  obtain ⟨report', hreport', hhealthy'⟩ := hexact' _ (.deleted hlast .untouched) (h.noCollision_remove hlast) true
  have hhealth := hhealthy.2 fun i hi => ⟨_, h.shard_eq i hi, h.shard_eq i hi⟩
  obtain ⟨-, layout, manifest, contents, hconfirmed⟩ := hsound _ _ _ _ hreport hhealth
  obtain ⟨code, hrecomputed⟩ := hconfirmed.parity rfl
  refine ⟨encoded, t₁, report, report', hrun, hreport, hhealth, hrecomputed.report_eq, hreport', ?_⟩
  rw [← Bool.not_eq_true, hhealthy']
  intro hall
  obtain ⟨shard, -, hread⟩ := hall 2 hlast
  exact h.read_remove_ne hlast shard hread

end FileTree

end ShardCoding

import ShardCoding.Command.Decode
import ShardCoding.Proofs.Command.Damage

/-!
# Decoding from what is left

* `restoringRun`, `restoredReport`, `restoredOutput` : what a decode does that finds certain shards usable;
* `HoldsEncoding.on_decodeFile` : a decode of damaged files is that of the intact ones among them;
* `HoldsEncoding.restored_cases` : it restores the data or is refused;
* `FileTree.decodeFile_restores_or_refuses` : both together, from the encode on.
-/

namespace ShardCoding

section

variable (m : Manifest) (code : Code) (shards : List Bytes) (output : Path) (present : List Nat)

/-- The stream that a decode runs which finds the listed shards usable. -/
def restoringRun : DecodeStreamRun :=
  code.decodeStream (present.map fun i => { rest := shards.getD i [] }) present m.dataSize {} m.stream

/-- What such a decode reports. -/
def restoredReport : Except CommandError DecodeReport :=
  if present.length < code.scheme.data then
    .error (.tooFewShards present.length code.scheme.total code.scheme.data)
  else
    ((restoringRun m code shards present).outcome.result.mapError .decoding).map fun written =>
      ⟨output, written, code.scheme.total - present.length, present.take code.scheme.data⟩

/-- What its output holds that held `before`. -/
def restoredOutput (before : Except IoKind Bytes) : Except IoKind Bytes :=
  if present.length < code.scheme.data then before else .ok (restoringRun m code shards present).sink.content

end

namespace Code

variable {code : Code} {present : List Nat}

/-- Sources that hand out the shards with the listed indices. -/
theorem suppliesShards_map (code : Code) (shards : List Bytes) (present : List Nat) :
    code.SuppliesShards shards present (present.map fun i => { rest := shards.getD i [] }) := by
  refine ⟨List.length_map .., ?_⟩
  rw [← List.map_take, List.forall₂_map_right_iff, List.forall₂_same]
  intro i _
  refine ⟨Pacing.steady_default, fun shard hshard => ?_⟩
  show shards.getD i [] = shard
  rw [List.getD_eq_getElem?_getD, hshard, Option.getD_some]

theorem planDecodeStream_of_not_recoverable (hsel : code.Selects present)
    (hrec : ¬ code.Recoverable (present.take code.scheme.data)) :
    code.planDecodeStream present = .error .singularMatrix := by
  obtain ⟨hyes, -⟩ | ⟨-, hinverse⟩ := code.inverseFor_cases hsel.length_take hsel.lt_total
  · exact absurd hyes hrec
  · unfold planDecodeStream
    rw [hsel.select_eq]
    show (code.inverseFor _).bind _ = _
    rw [hinverse]
    rfl

theorem selects_intact {layout : Layout} {t t' : FileTree}
    (henough : code.scheme.data ≤ (FileTree.intact layout code.scheme.total t t').length) :
    code.Selects (FileTree.intact layout code.scheme.total t t') :=
  ⟨henough, (FileTree.nodup_intact ..).sublist (List.take_sublist ..),
    fun _ hi => (FileTree.mem_intact.1 (List.mem_of_mem_take hi)).1⟩

end Code

namespace FileTree

variable {t : FileTree} {layout : Layout} {content : Nat → Bytes} {present : List Nat}

theorem on_openShards (h : ∀ i ∈ present, t.read (layout.shardPath i) = .ok (content i)) :
    (present.forM fun i => Command.file .openFile (layout.shardPath i)
      (FileSystem.openFile (layout.shardPath i) : StateM FileTree _)).on t = (.ok (), t) := by
  refine Command.on_forM_of_reads fun i hi => ?_
  obtain ⟨node, hnode⟩ := exists_find_of_read (h i hi)
  rw [Command.file, Command.on_openFile, hnode]
  rfl

theorem on_readSources (h : ∀ i ∈ present, t.read (layout.shardPath i) = .ok (content i)) :
    (present.mapM fun i =>
      (Source.ofRead <$> liftM (FileSystem.readFile (layout.shardPath i) : StateM FileTree _) :
        Command (StateM FileTree) Source)).on t = (.ok (present.map fun i => { rest := content i }), t) := by
  rw [Command.on_mapM_of_reads fun i _ => Command.on_ofRead _ t,
    mapM_ok (g := fun i => { rest := content i }) fun i hi => by rw [h i hi]; rfl]

end FileTree

namespace FileTree.HoldsEncoding

variable {t t' t₀ : FileTree} {layout : Layout} {home : Location} {m : Manifest} {code : Code} {data : Bytes}
  {shards : List Bytes} {i : Nat} {output : Path} {present : List Nat}

variable (h : t.HoldsEncoding layout home m code data shards)

include h

/-- With enough shards that can be solved for, a decode whose buffers can be made restores the data. Without, it is
refused. -/
theorem restored_cases (output : Path) (present : List Nat)
    (hpresent : code.scheme.data ≤ present.length → code.Selects present) (before : Except IoKind Bytes) :
    (code.scheme.data ≤ present.length ∧ code.Recoverable (present.take code.scheme.data) ∧
      (code.decodeBuffer m.stream < bufferLimit ∧
          (∃ d, restoredReport m code shards output present = .ok d ∧ d.written = data.length) ∧
          restoredOutput m code shards present before = .ok data ∨
        bufferLimit ≤ code.decodeBuffer m.stream ∧
          restoredReport m code shards output present = .error (.decoding (.panicked .capacityOverflow)))) ∨
    (code.scheme.data ≤ present.length ∧ ¬ code.Recoverable (present.take code.scheme.data) ∧
      restoredReport m code shards output present = .error (.decoding .singularMatrix)) ∨
    (present.length < code.scheme.data ∧ restoredReport m code shards output present =
      .error (.tooFewShards present.length code.scheme.total code.scheme.data)) := by
  unfold restoredReport restoredOutput
  by_cases henough : code.scheme.data ≤ present.length
  · rw [if_neg (Nat.not_lt.2 henough), if_neg (Nat.not_lt.2 henough)]
    have hsel := hpresent henough
    have hsupplies := code.suppliesShards_map shards present
    have hstream := (Manifest.checked_of_check h.describes.check_eq).stream_valid
    by_cases hrec : code.Recoverable (present.take code.scheme.data)
    · refine Or.inl ⟨henough, hrec, ?_⟩
      rcases Nat.lt_or_ge (code.decodeBuffer m.stream) bufferLimit with hroom | hlarge
      · obtain ⟨hresult, hcontent⟩ := h.describes.restores hroom present _ hsel hrec hsupplies
        refine Or.inl ⟨hroom, ?_, congrArg Except.ok hcontent⟩
        rw [restoringRun, hresult]
        exact ⟨_, rfl, rfl⟩
      · obtain ⟨inverse, hplan, -⟩ := code.planDecodeStream_eq hsel hrec
        have hcheck := code.checkDecodeStream_eq_ok hstream hsupplies.length_eq henough
        refine Or.inr ⟨hlarge, ?_⟩
        rw [restoringRun, Code.decodeStream_panicked hcheck hplan hlarge]
        rfl
    · refine Or.inr (Or.inl ⟨henough, hrec, ?_⟩)
      rw [restoringRun, Code.decodeStream_of_plan_error hstream hsupplies.length_eq
        (Code.planDecodeStream_of_not_recoverable hsel hrec)]
      rfl
  · have hfew := Nat.not_le.1 henough
    exact Or.inr (Or.inr ⟨hfew, if_pos hfew⟩)

/-- An output that is no shard file is at another place. -/
theorem exists_place_of_output (houtput : t.write output [] = .ok t₀)
    (hother : ∀ i < code.scheme.total, t.locate output ≠ t.locate (layout.shardPath i)) :
    ∃ place, t.locate output = .ok place ∧ place ∉ layout.shardPlaces home code.scheme.total := by
  obtain ⟨place, hplace, -⟩ := write_eq_ok.1 houtput
  refine ⟨place, hplace, ?_⟩
  rintro ⟨i, hi, rfl⟩
  exact hother i hi (by rw [hplace, h.hosts.shard i hi])

variable (hdamaged : Damaged layout code.scheme.total t t')

include hdamaged

variable (hcollision : NoCollision layout code.scheme.total t t') (houtput : t.write output [] = .ok t₀)
  (hother : ∀ i < code.scheme.total, t.locate output ≠ t.locate (layout.shardPath i))

include hcollision houtput hother

/-- A decode of the damaged files is that of the intact ones among them. -/
theorem on_decodeFile :
    let decoded := (decodeFile ⟨layout.manifestPath, output⟩ : Command (StateM FileTree) DecodeReport).on t'
    let present := intact layout code.scheme.total t t'
    decoded.1 = restoredReport m code shards output present ∧
      decoded.2.read output = restoredOutput m code shards present (t.read output) := by
  intro decoded present
  obtain ⟨states, hstates, hlength, husable⟩ := h.exists_states hdamaged hcollision
  obtain ⟨place, hplace, hout⟩ := h.exists_place_of_output houtput hother
  have hmanifest := h.manifestOf_eq hdamaged
  unfold restoredReport restoredOutput
  by_cases hfew : present.length < code.scheme.data
  · rw [if_pos hfew, if_pos hfew]
    have hdecoded : decoded = (.error (.tooFewShards present.length code.scheme.total code.scheme.data), t') := by
      refine (on_inspected h.ofManifestPath_eq hmanifest hstates _).trans ?_
      dsimp only
      rw [husable, h.scheme_eq, hlength, if_pos hfew]
      rfl
    rw [hdecoded]
    exact ⟨rfl, (h.alters hdamaged).read_eq hplace hout⟩
  · rw [if_neg hfew, if_neg hfew]
    have hhosts := (h.hosts_damaged hdamaged).parent
    have hread : ∀ i ∈ present, t'.read (layout.reread.shardPath i) = .ok (shards.getD i []) :=
      fun i => h.read_intact hdamaged
    have hplace' := ((h.alters hdamaged).locate_iff _ _).2 hplace
    obtain ⟨t₁, hcreate⟩ := (h.alters hdamaged).exists_write houtput []
    have halters := alters_write hcreate hplace'
    obtain ⟨t₂, hwrite⟩ := halters.exists_write hcreate (restoringRun m code shards present).sink.content
    -- Making the output leaves the shard files alone.
    have hread₁ : ∀ i ∈ present, t₁.read (layout.reread.shardPath i) = .ok (shards.getD i []) := by
      intro i hi
      have hlt := (mem_intact.1 hi).1
      rw [halters.read_eq (hhosts.shard i hlt), hread i hi]
      rintro rfl
      exact hout ⟨i, hlt, rfl⟩
    have hreport : ∀ result : Except CodingError Nat, (do
        let written ← Command.ofExcept CommandError.decoding result
        pure ⟨output, written, code.scheme.total - present.length, present.take code.scheme.data⟩ :
          Command (StateM FileTree) DecodeReport).on t₂ =
        ((result.mapError .decoding).map fun written =>
          ⟨output, written, code.scheme.total - present.length, present.take code.scheme.data⟩, t₂) := by
      intro result
      cases result <;> rfl
    have hdecoded : decoded = (((restoringRun m code shards present).outcome.result.mapError .decoding).map fun written =>
        ⟨output, written, code.scheme.total - present.length, present.take code.scheme.data⟩, t₂) := by
      refine (on_inspected h.ofManifestPath_eq hmanifest hstates _).trans ?_
      dsimp only
      rw [husable, h.scheme_eq, hlength, if_neg hfew,
        Command.on_bind_of_ok (a := code) (by rw [Command.on_ofExcept, code.ofScheme_scheme]; rfl),
        Command.on_bind_of_ok (on_openShards hread),
        Command.on_bind_of_ok (by exact Command.on_writeFile_of_ok hcreate _),
        Command.on_bind_of_ok (on_readSources hread₁),
        Command.on_bind_of_ok (by exact Command.on_writeFile_of_ok hwrite _)]
      exact hreport _
    rw [hdecoded]
    exact ⟨rfl, read_write hwrite⟩

end FileTree.HoldsEncoding

namespace FileTree

/-- **Decoding after damage**: a file that can be read, in a valid configuration, is encoded unless an operation on files
fails. If then shard files are deleted and overwritten in any way, none of them by other bytes with its digest, a decode
to an output that is no shard file either restores the data or is refused, and does not panic if its buffers can be made.
It is refused if fewer than `k` shard files are intact, and restores the data if the rows of the `k` lowest of the intact
ones can be inverted. And no damaged file has a part in it: wherever the same files are intact, the same is reported and
the output holds the same. -/
theorem decodeFile_restores_or_refuses {now : Instant} {r : EncodeRequest} {t : FileTree} {data : Bytes}
    (hfeasible : r.Feasible now t data) :
    (encodeFile now r : Command (StateM FileTree) EncodeReport).Achieves t fun report t₁ =>
      report.manifest.shardSize < wordLimit →
      ∀ output t₀, t₁.write output [] = .ok t₀ →
      (∀ i < r.scheme.total, t₁.locate output ≠ t₁.locate (report.layout.shardPath i)) →
      let decoded := (decodeFile ⟨report.layout.manifestPath, output⟩ : Command (StateM FileTree) DecodeReport).on
      let intactIn := intact report.layout r.scheme.total t₁
      let code := Code.ofValid r.scheme hfeasible.scheme_valid
      let hasRoom := code.decodeBuffer r.stream < bufferLimit
      ∀ t₂, Damaged report.layout r.scheme.total t₁ t₂ → NoCollision report.layout r.scheme.total t₁ t₂ →
        ((∃ d, (decoded t₂).1 = .ok d ∧ d.written = data.length ∧ (decoded t₂).2.read output = .ok data) ∨
          ∃ e, (decoded t₂).1 = .error e ∧ (hasRoom → e.panic? = none)) ∧
        ((intactIn t₂).length < r.scheme.data → ∃ e, (decoded t₂).1 = .error e ∧ e.panic? = none) ∧
        (hasRoom → r.scheme.data ≤ (intactIn t₂).length → code.Recoverable ((intactIn t₂).take r.scheme.data) →
          ∃ d, (decoded t₂).1 = .ok d) ∧
        ∀ t₂', Damaged report.layout r.scheme.total t₁ t₂' → NoCollision report.layout r.scheme.total t₁ t₂' →
          intactIn t₂' = intactIn t₂ →
            (decoded t₂').1 = (decoded t₂).1 ∧ (decoded t₂').2.read output = (decoded t₂).2.read output := by
  refine (achieves_encodeFile hfeasible).mono fun report t₁ hencoded => ?_
  intro hsize output t₀ houtput hother decoded intactIn code hasRoom
  obtain ⟨hstream, home, shards, h⟩ := hencoded hsize
  -- What a decode gives depends on the damaged tree through the indices of the intact files only.
  have hdecode : ∀ t₂, Damaged report.layout r.scheme.total t₁ t₂ → NoCollision report.layout r.scheme.total t₁ t₂ →
      (decoded t₂).1 = restoredReport report.manifest code shards output (intactIn t₂) ∧
      (decoded t₂).2.read output = restoredOutput report.manifest code shards (intactIn t₂) (t₁.read output) :=
    fun t₂ hdamaged hcollision => h.on_decodeFile hdamaged hcollision houtput hother
  intro t₂ hdamaged hcollision
  obtain ⟨hreport, hcontent⟩ := hdecode t₂ hdamaged hcollision
  have hcases := h.restored_cases output (intactIn t₂) Code.selects_intact (t₁.read output)
  rw [hstream] at hcases
  rw [hreport, hcontent]
  refine ⟨?_, ?_, ?_, ?_⟩
  · obtain ⟨-, -, ⟨-, ⟨d, hd, hwritten⟩, hrestored⟩ | ⟨hlarge, hpanic⟩⟩ | ⟨-, -, hrefused⟩ | ⟨-, hrefused⟩ := hcases
    · exact Or.inl ⟨d, hd, hwritten, hrestored⟩
    · exact Or.inr ⟨_, hpanic, fun hroom => absurd hroom (Nat.not_lt.2 hlarge)⟩
    · exact Or.inr ⟨_, hrefused, fun _ => rfl⟩
    · exact Or.inr ⟨_, hrefused, fun _ => rfl⟩
  · intro hfew
    obtain ⟨henough, -⟩ | ⟨henough, -⟩ | ⟨-, hrefused⟩ := hcases
    · exact absurd hfew (Nat.not_lt.2 henough)
    · exact absurd hfew (Nat.not_lt.2 henough)
    · exact ⟨_, hrefused, rfl⟩
  · intro hroom henough hrec
    obtain ⟨-, -, ⟨-, ⟨d, hd, -⟩, -⟩ | ⟨hlarge, -⟩⟩ | ⟨-, hnot, -⟩ | ⟨hfew, -⟩ := hcases
    · exact ⟨d, hd⟩
    · exact absurd hroom (Nat.not_lt.2 hlarge)
    · exact absurd hrec hnot
    · exact absurd henough (Nat.not_le.2 hfew)
  · intro t₂' hdamaged' hcollision' hintact
    obtain ⟨hreport', hcontent'⟩ := hdecode t₂' hdamaged' hcollision'
    rw [hreport', hcontent', hintact]
    exact ⟨rfl, rfl⟩

/-- A shard file of three is deleted, and the others restore the byte that was encoded. -/
theorem decodeFile_restores_sample : ∃ encoded t₁ d,
    (encodeFile Sample.now Sample.request : Command (StateM FileTree) EncodeReport).on Sample.tree = (.ok encoded, t₁) ∧
    let decoded := (decodeFile ⟨encoded.layout.manifestPath, ⟨"b"⟩⟩ : Command (StateM FileTree) DecodeReport).on
      (t₁.remove (encoded.layout.shardPath 0))
    decoded.1 = .ok d ∧ d.written = 1 ∧ decoded.2.read ⟨"b"⟩ = .ok [7] := by
  obtain ⟨encoded, t₁, home, shards, hrun, hword, -, h, ⟨t₀, hwrite⟩, hother⟩ := Sample.exists_encoded
  have hfirst : 0 < Sample.request.scheme.total := by decide
  have hleft : intact encoded.layout Sample.request.scheme.total t₁ (t₁.remove (encoded.layout.shardPath 0)) = [1, 2] :=
    (h.intact_remove hfirst).trans (by decide)
  obtain ⟨hcases, -, hrestores, -⟩ := (decodeFile_restores_or_refuses Sample.feasible).of_on hrun hword ⟨"b"⟩ t₀ hwrite
    hother _ (.deleted hfirst .untouched) (h.noCollision_remove hfirst)
  rw [hleft] at hrestores
  obtain ⟨d, hd⟩ := hrestores (by decide) (by decide)
    (Code.recoverable_of_few (Or.inl (by decide)) (by decide) (by decide) (by decide))
  obtain ⟨d', hd', hwritten, hread⟩ | ⟨e, he, -⟩ := hcases
  · exact ⟨encoded, t₁, d', hrun, hd', hwritten, hread⟩
  · cases hd.symm.trans he

end FileTree

end ShardCoding

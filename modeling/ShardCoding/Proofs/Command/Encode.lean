import ShardCoding.Command.Encode
import ShardCoding.Proofs.Command.Shards
import ShardCoding.Proofs.Files.Shards
import ShardCoding.Proofs.Manifest.Description
import ShardCoding.Proofs.Stream.Codeword

/-!
# The files that an encode makes

* `FileTree.HoldsEncoding` : a tree with the files of an encode: the manifest, and the shards of a stream;
* `achieves_encodeFile` : an encode of a file that can be read makes them, unless an operation on files fails;
* `Sample` : a small encode.
-/

namespace ShardCoding

namespace Manifest

variable {m : Manifest} {code : Code} {data : Bytes} {shards : List Bytes}

/-- The manifest of shards has all its numbers in words if the sizes and the chunk are. -/
theorem Describes.fits (h : m.Describes code data shards) (hscheme : m.scheme.Valid)
    (hchunk : m.stream.chunk < wordLimit)
    (hdata : data.length < wordLimit) (hsize : m.shardSize < wordLimit) (htime : m.createdAt.isValid = true) : m.Fits := by
  have hchecked := checked_of_check h.check_eq
  have hsum : m.scheme.data + m.scheme.parity < wordLimit := Nat.lt_of_le_of_lt hscheme.2.2 (by decide)
  refine {
    version_lt := by rw [hchecked.version_eq]; decide
    data_lt := Nat.lt_of_le_of_lt (Nat.le_add_right _ _) hsum
    parity_lt := Nat.lt_of_le_of_lt (Nat.le_add_left _ _) hsum
    chunk_lt := hchunk
    overlap_lt := Nat.lt_trans hchecked.stream_valid hchunk
    dataSize_lt := by rwa [h.dataSize_eq]
    shardSize_lt := hsize
    entries_lt := ?_
    time_valid := htime }
  intro e he
  obtain ⟨i, hi, rfl⟩ := List.mem_iff_getElem.1 he
  obtain ⟨hindex, -, hentrySize⟩ := h.entry i _ (List.getElem?_eq_getElem hi)
  rw [hindex, hentrySize]
  exact ⟨Nat.lt_trans (hchecked.length_shards ▸ hi) (Nat.mod_lt _ (by decide)), hsize⟩

theorem Describes.digest_eq (h : m.Describes code data shards) {i : Nat} {shard : Bytes} (hi : shards[i]? = some shard) :
    m.digest i = .ok (sha256 shard) := by
  have hverify := h.verifies i shard hi shard
  unfold verifyShard at hverify
  cases hdigest : m.digest i with
  | error e =>
    rw [hdigest] at hverify
    cases hverify
  | ok d =>
    rw [hdigest] at hverify
    have hmatch : matchesDigest d.bytes shard = decide (sha256 shard = sha256 shard) := Except.ok.inj hverify
    rw [matchesDigest_bytes, decide_eq_decide] at hmatch
    rw [hmatch.2 rfl]

/-- The name is no part of what a manifest says of the shards. -/
theorem Describes.named (h : m.Describes code data shards) (name : Option String) :
    ({ m with fileName := name }).Describes code data shards :=
  ⟨h.check_eq, h.dataSize_eq, h.length_entries, h.uniform, h.entry, h.verifies, h.restores⟩

/-- The manifest describes `shards`, and these are an encoding of their data shards that has room for `data`. -/
structure Encodes (m : Manifest) (code : Code) (data : Bytes) (shards : List Bytes) : Prop where
  scheme_eq : m.scheme = code.scheme
  describes : m.Describes code data shards
  fullSet : code.FullSet m.shardSize shards
  dataSize_le : m.dataSize ≤ m.shardSize * code.scheme.data
  word : shards = code.reencoded m.shardSize shards

/-- A stream that is encoded into as many fresh sinks as there are shards. -/
theorem encodes_ofStream (code : Code) {o : StreamOptions} (ho : o.Valid) (hfits : o.chunk < bufferLimit)
    (now : Instant) (name : Option String) (data : Bytes) :
    let run := code.encodeStream { rest := data } (List.replicate code.scheme.total {}) o
    ∃ summary, run.outcome.result = .ok summary ∧ run.sinks.length = code.scheme.total ∧
      ({ ofStream code.scheme o summary now with fileName := name }).Encodes code data (run.sinks.map Sink.content) := by
  have hsource : ({ rest := data } : Source).pacing.Steady := Pacing.steady_default
  have hfresh : ∀ s ∈ List.replicate code.scheme.total ({} : Sink), s.Fresh := by
    intro s hs
    rw [List.eq_of_mem_replicate hs]
    exact ⟨rfl, Pacing.steady_default, rfl⟩
  obtain ⟨summary, hok, htotal, -, hsize, hshards⟩ := code.encodeStream_replicate ho hfits hsource
  obtain ⟨summary', hok', hdescribes⟩ := describes_ofStream code ho hfits now hsource List.length_replicate hfresh
  obtain rfl := Except.ok.inj (hok.symm.trans hok')
  have hlength := congrArg List.length hshards
  rw [List.length_map, List.length_map, List.length_range] at hlength
  refine ⟨summary, hok, hlength, {
    scheme_eq := rfl
    describes := hdescribes.named name
    fullSet := ?_
    dataSize_le := ?_
    word := ?_ }⟩
  · show code.FullSet summary.shardBytes _
    rw [hshards, hsize]
    exact code.fullSet_streamShards _
  · show summary.totalBytes ≤ summary.shardBytes * code.scheme.data
    rw [htotal, hsize, Nat.mul_comm]
    exact code.length_le_mul_streamSize ho data
  · show _ = code.reencoded summary.shardBytes _
    rw [hshards, hsize]
    exact (code.reencoded_streamShards _).symm

end Manifest

/-- The files of an encode of `data` are in `home`: the manifest, and the `shards` that it describes. -/
structure FileTree.HoldsEncoding (t : FileTree) (layout : Layout) (home : Location) (manifest : Manifest) (code : Code)
    (data : Bytes) (shards : List Bytes) : Prop extends manifest.Encodes code data shards where
  hosts : t.Hosts layout code.scheme.total home
  manifest_eq : t.read layout.manifestPath = .ok manifest.toText.toUTF8.toList
  shard_eq : ∀ i < code.scheme.total, t.read (layout.shardPath i) = .ok (shards.getD i [])
  ofText_eq : Manifest.ofText manifest.toText = .ok manifest

namespace Command

theorem on_ofRead (p : Path) (t : FileTree) :
    (Source.ofRead <$> liftM (FileSystem.readFile p : StateM FileTree _) : Command (StateM FileTree) Source).on t =
      (.ok (Source.ofRead (t.read p)), t) := rfl

end Command

namespace FileTree

variable {t t' : FileTree} {layout : Layout} {home : Location} {data : Bytes} {p : Path}

/-- The input of an encode is not among the files that the encode makes. -/
theorem read_input_of_alters {b : Bytes} (hread : t.read p = .ok b) (hname : p.fileName? = some layout.base) {n : Nat}
    (h : Alters (layout.shardPlaces home n) t t') : t'.read p = .ok b := by
  obtain ⟨l, hl, -⟩ := read_eq_ok.1 hread
  rw [h.read_eq hl, hread]
  rintro ⟨i, -, rfl⟩
  obtain ⟨home', hlast⟩ := exists_of_locate hname hl
  have hsame := (List.append_inj' hlast rfl).2
  rw [List.singleton_inj, String.toList_inj] at hsame
  exact Layout.shardName_ne_base hsame

end FileTree

namespace Command

variable {t : FileTree} {layout : Layout} {home : Location} {n : Nat}

/-- The shard files are made. -/
theorem achieves_createShards (hwhole : layout.Whole) (hn : 0 < n) (t : FileTree) :
    (((List.range n).map layout.shardPath).forM fun path =>
      file .create path (FileSystem.writeFile path [] : StateM FileTree _)).Achieves t fun _ t' =>
        ∃ home, (∀ i ∈ List.range n, t'.locate (layout.shardPath i) = .ok (layout.shardPlace home i)) ∧
          FileTree.Alters (layout.shardPlaces home n) t t' := by
  have hfailure : ∀ path kind, (CommandError.file .create path kind).IsFileFailure := fun _ _ => trivial
  refine (achieves_forM_write hfailure id (fun _ => []) ((List.range n).map layout.shardPath) t).mono
    fun _ t' hwrites => ?_
  rw [FileTree.writeEach_map] at hwrites
  obtain ⟨home, hplace⟩ := FileTree.exists_places_of_writeEach hwhole hn hwrites
  have halters := FileTree.alters_writeEach_shards hplace (fun i hi => List.mem_range.1 hi) hwrites
  exact ⟨home, fun i hi => (halters.locate_iff _ _).2 (hplace i hi), halters⟩

/-- The sinks are written to the shard files. -/
theorem achieves_writeShards {sinks : List Sink} (hlength : sinks.length = n)
    (hplace : ∀ i ∈ List.range n, t.locate (layout.shardPath i) = .ok (layout.shardPlace home i)) :
    ((((List.range n).map layout.shardPath).zip sinks).forM fun (path, sink) =>
      fileOr (fun kind => .encoding (.io kind)) (FileSystem.writeFile path sink.content : StateM FileTree _)).Achieves t
        fun _ t' => FileTree.Alters (layout.shardPlaces home n) t t' ∧
          ∀ i < n, t'.read (layout.shardPath i) = Except.ok ((sinks.map Sink.content).getD i []) := by
  have hzip : ((List.range n).map layout.shardPath).zip sinks =
      (List.range n).map fun i => (layout.shardPath i, sinks.getD i {}) := by
    refine List.ext_getElem (by simp [hlength]) ?_
    intro i hi hi'
    have hsink : i < sinks.length := by simpa [hlength] using hi'
    simp [List.getD_eq_getElem?_getD, hsink]
  have hproject : (fun ((path, sink) : Path × Sink) => fileOr (fun kind => .encoding (.io kind))
        (FileSystem.writeFile path sink.content : StateM FileTree _)) =
      fun shard => fileOr (fun kind => .encoding (.io kind)) (FileSystem.writeFile shard.1 shard.2.content) :=
    funext fun _ => rfl
  have hfailure : ∀ (_ : Path × Sink) kind, (CommandError.encoding (.io kind)).IsFileFailure := fun _ _ => trivial
  have hwriting := achieves_forM_write hfailure Prod.fst (fun shard : Path × Sink => shard.2.content)
    (((List.range n).map layout.shardPath).zip sinks) t
  rw [hproject]
  refine hwriting.mono fun _ t' hwrites => ?_
  rw [hzip, FileTree.writeEach_map] at hwrites
  refine ⟨FileTree.alters_writeEach_shards hplace (fun i hi => List.mem_range.1 hi) hwrites, fun i hi => ?_⟩
  have hsink : i < sinks.length := by rwa [hlength]
  rw [FileTree.read_writeEach_shards List.nodup_range hplace hwrites (List.mem_range.2 hi)]
  simp [List.getD_eq_getElem?_getD, hsink]

end Command

/-- A request in a valid configuration to encode a file that holds `data`, at a time in a year of four digits. A buffer
holds a chunk, and the other numbers that the manifest tells of it are words. -/
structure EncodeRequest.Feasible (r : EncodeRequest) (now : Instant) (t : FileTree) (data : Bytes) : Prop where
  scheme_valid : r.scheme.Valid
  stream_valid : r.stream.Valid
  read_eq : t.read r.input = .ok data
  time_valid : now.isValid = true
  year_nonneg : 0 ≤ now.year
  year_le : now.year ≤ 9999
  data_lt : data.length < wordLimit
  chunk_lt : r.stream.chunk < bufferLimit

/-- Unless an operation on files fails, an encode makes its files, cut as it was asked to. -/
theorem achieves_encodeFile {now : Instant} {r : EncodeRequest} {t : FileTree} {data : Bytes}
    (h : r.Feasible now t data) :
    (encodeFile now r : Command (StateM FileTree) EncodeReport).Achieves t fun report t' =>
      report.manifest.shardSize < wordLimit → report.manifest.stream = r.stream ∧ ∃ home shards,
        t'.HoldsEncoding report.layout home report.manifest (Code.ofValid r.scheme h.scheme_valid) data shards := by
  have hread := h.read_eq
  have hstream := h.stream_valid
  have hscheme := h.scheme_valid
  obtain ⟨input, hinput, hfile, hslash⟩ := FileTree.read_eq_ok.1 hread
  obtain ⟨name, hname⟩ := FileTree.exists_fileName_of_locate hinput (by rw [hfile]; nofun)
  have hfind : t.find r.input = .ok (.file data) := by
    rw [FileTree.find_eq hinput, hfile]
    exact if_neg (by rw [hslash]; exact Bool.false_ne_true)
  let layout : Layout := ⟨r.outDir, name⟩
  let code := Code.ofValid r.scheme hscheme
  have hpos : 0 < r.scheme.total := hscheme.1.trans_le code.data_le_total
  have hwhole : layout.Whole := (Path.isName_of_fileName? hname).whole
  have hcode : Code.ofScheme r.scheme = .ok code := code.ofScheme_scheme
  unfold encodeFile
  rw [hname]
  refine Command.achieves_bind_of_ok (a := name) rfl ?_
  refine Command.achieves_bind_of_ok (a := ()) (by rw [Command.file, Command.on_openFile, hfind]; rfl) ?_
  have hmake : (Command.file .create r.outDir (makeDirectories r.outDir)).Achieves t fun _ t₁ => FileTree.Grows t t₁ :=
    Command.achieves_fileOr (fun _ => by trivial) fun _ _ => FileTree.grows_makeDirectories r.outDir t
  refine hmake.bind fun _ t₁ hgrows => ?_
  refine Command.achieves_bind_of_ok (a := code) (by rw [Command.on_ofExcept, hcode]; rfl) ?_
  refine (Command.achieves_createShards hwhole hpos t₁).bind ?_
  rintro _ t₂ ⟨home, hplace, hcreated⟩
  have hinput₂ : t₂.read r.input = .ok data := FileTree.read_input_of_alters (hgrows.read_eq hread) hname hcreated
  refine Command.achieves_bind_of_ok (a := { rest := data }) (by rw [Command.on_ofRead, hinput₂]; rfl) ?_
  have hsinks : ((List.range r.scheme.total).map layout.shardPath).map (fun _ => ({} : Sink)) =
      List.replicate code.scheme.total {} := by
    rw [List.map_const', List.length_map, List.length_range]
    rfl
  obtain ⟨summary, hok, hlength, hencodes⟩ := Manifest.encodes_ofStream code hstream h.chunk_lt now (some name) data
  dsimp only
  rw [hsinks]
  refine (Command.achieves_writeShards hlength hplace).bind ?_
  rintro _ t₃ ⟨hwritten, hcontent⟩
  refine Command.achieves_bind_of_ok (a := summary) (by rw [Command.on_ofExcept, hok]; rfl) ?_
  refine (Command.achieves_writeFile (fun _ => by trivial) _ _ t₃).bind fun _ t₄ hsave => ?_
  let run := code.encodeStream { rest := data } (List.replicate code.scheme.total {}) r.stream
  refine Command.achieves_of_ok rfl fun hsizeWord => ⟨rfl, home, run.sinks.map Sink.content, ?_⟩
  have hplace₃ : ∀ i < code.scheme.total, t₃.locate (layout.shardPath i) = .ok (layout.shardPlace home i) :=
    fun i hi => (hwritten.locate_iff _ _).2 (hplace i (List.mem_range.2 hi))
  obtain ⟨l, hl, -⟩ := FileTree.write_eq_ok.1 hsave
  have hhosts := FileTree.hosts_of_locate hwhole hpos hplace₃ hl
  have hsaved := FileTree.alters_write hsave hhosts.manifest
  have hchunk : r.stream.chunk < wordLimit := Nat.lt_trans h.chunk_lt (by decide)
  have hloads := Manifest.ofText_toText (hencodes.describes.fits hscheme hchunk h.data_lt hsizeWord h.time_valid)
    h.year_nonneg h.year_le
  rw [hencodes.describes.check_eq] at hloads
  refine {
    toEncodes := hencodes
    hosts := hhosts.alters hsaved
    manifest_eq := FileTree.read_write hsave
    shard_eq := ?_
    ofText_eq := hloads }
  intro i hi
  rw [hsaved.read_eq (hplace₃ i hi), hcontent i hi]
  intro hsame
  exact Layout.manifestPlace_notMem_shardPlaces ⟨i, hi, hsame.symm⟩

/-! ## A small encode -/

namespace Sample

/-- One byte in the file `a` of the working directory. -/
def tree : FileTree := ⟨[([['a']], .file [7])]⟩

def now : Instant := ⟨2024, 1, 2, 3, 4, 5, 0⟩

/-- Two data shards and one parity shard in a directory that is still to be made. -/
def request : EncodeRequest := ⟨⟨"a"⟩, ⟨"out"⟩, ⟨2, 1⟩, ⟨1, 0⟩⟩

theorem feasible : request.Feasible now tree [7] where
  scheme_valid := by decide
  stream_valid := by decide
  read_eq := by decide +kernel
  time_valid := by decide
  year_nonneg := by decide
  year_le := by decide
  data_lt := by decide
  chunk_lt := by decide

/-- It goes through, its shards are small, and a file `b` that is none of its files can still be made. -/
theorem exists_encoded : ∃ encoded t₁ home shards,
    (encodeFile now request : Command (StateM FileTree) EncodeReport).on tree = (.ok encoded, t₁) ∧
    encoded.manifest.shardSize < wordLimit ∧ request.scheme.data * encoded.manifest.shardSize < wordLimit ∧
    t₁.HoldsEncoding encoded.layout home encoded.manifest (Code.ofValid request.scheme feasible.scheme_valid) [7] shards ∧
    (∃ t₀, t₁.write ⟨"b"⟩ [] = .ok t₀) ∧
    ∀ i < request.scheme.total, t₁.locate ⟨"b"⟩ ≠ t₁.locate (encoded.layout.shardPath i) := by
  have hrun : let run := (encodeFile now request : Command (StateM FileTree) EncodeReport).on tree
      (run.1.toOption.map fun encoded => (encoded.layout, encoded.manifest.shardSize)) = some (⟨⟨"out"⟩, "a"⟩, 1) ∧
      (run.2.write ⟨"b"⟩ []).isOk = true ∧
      ∀ i < 3, run.2.locate ⟨"b"⟩ ≠ run.2.locate ((⟨⟨"out"⟩, "a"⟩ : Layout).shardPath i) := by decide +kernel
  cases hcases : (encodeFile now request : Command (StateM FileTree) EncodeReport).on tree with
  | mk result t₁ =>
    rw [hcases] at hrun
    obtain ⟨hreport, hwrite, hother⟩ := hrun
    cases result with
    | error e => cases hreport
    | ok encoded =>
      obtain ⟨hlayout, hsize⟩ := Prod.mk.inj (Option.some.inj hreport)
      have hword : encoded.manifest.shardSize < wordLimit := by
        rw [hsize]
        decide
      have hroom : request.scheme.data * encoded.manifest.shardSize < wordLimit := by
        rw [hsize]
        decide
      obtain ⟨-, home, shards, h⟩ := (achieves_encodeFile feasible).of_on hcases hword
      refine ⟨encoded, t₁, home, shards, rfl, hword, hroom, h, ?_, hlayout ▸ hother⟩
      cases hb : t₁.write ⟨"b"⟩ [] with
      | error kind =>
        rw [hb] at hwrite
        cases hwrite
      | ok t₀ => exact ⟨t₀, rfl⟩

end Sample

end ShardCoding

import ShardCoding.Proofs.Code.Repair
import ShardCoding.Proofs.Manifest.Description
import ShardCoding.Proofs.Manifest.RoundTrip
import ShardCoding.Proofs.Stream.Truncation

/-!
# The sizes that a manifest states

The check of a manifest does not ask whether its sizes and parity marks fit together.

* `Code.capacity_of_decodeStream`, `Code.capacity_of_encodeStream` : what streaming operations that go through say of the
  room in the shards;
* `Manifest.Coherent` : sizes and marks that fit together; `Manifest.Made`, `Made.coherent` : they do in the manifest of an
  encode;
* `Manifest.Cramped`, `Cramped.undecodable` : shards that are too small for the data, by which nothing is decoded;
* `Manifest.resized`, `Manifest.check_resized` : other sizes and marks in a manifest;
* `Manifest.ofText_sizes` : the texts that are read, and what is known of the sizes in them.
-/

namespace ShardCoding

namespace ChunkDecoder

variable {p : Plan} {o : StreamOptions} {d d' : ChunkDecoder} {s : Source}

/-- A round that goes through has taken its segment off the first source. -/
theorem exists_head_of_decodeChunk {overlap fresh : Nat} (h : decodeChunk p overlap fresh d = (.ok (), d'))
    (hs : d.sources.head? = some s) : ∃ s', d'.sources.head? = some s' ∧
      s.rest.length = p.code.scheme.shardSizeFor (d.carry + fresh) + s'.rest.length := by
  obtain ⟨k, hk⟩ : ∃ k, p.code.scheme.data = k + 1 := ⟨_, (Nat.succ_pred_eq_of_pos p.code.valid.1).symm⟩
  obtain ⟨sources, hsources⟩ := List.head?_eq_some_iff.1 hs
  obtain ⟨bytes, hhands, hread⟩ := Source.readExact_cases (p.code.scheme.shardSizeFor (d.carry + fresh)) s
  unfold decodeChunk at h
  dsimp only at h
  rw [hsources, hk, List.take_succ_cons, readSegments] at h
  rcases hexact : s.readExact (p.code.scheme.shardSizeFor (d.carry + fresh)) with ⟨r, s'⟩
  rw [hexact] at h hhands hread
  rcases hread with ⟨rfl, hlen⟩ | ⟨kind, rfl, -⟩
  · refine ⟨s', ?_, by rw [hhands.rest_eq, List.length_append, hlen]⟩
    dsimp only at h
    split at h
    · cases h
    · next hsegments =>
      split at h
      · cases h
      · obtain ⟨-, rfl⟩ := Prod.mk.inj h
        split at hsegments
        · cases hsegments
        · obtain ⟨-, rfl⟩ := Prod.mk.inj hsegments
          rfl
  · cases h

/-- A run that goes through has found enough in the first source: as much in each of `k` would hold all that remained. -/
theorem remaining_le_of_run (ho : o.Valid) (hcarry : d.carry < o.chunk) (h : run p o d = (.ok (), d'))
    (hs : d.sources.head? = some s) : d.remaining ≤ s.rest.length * p.code.scheme.data := by
  fun_induction run p o d generalizing s with
  | case1 d =>
    have hnone : d.remaining = 0 := by omega
    rw [hnone]
    exact Nat.zero_le _
  | case2 => cases h
  | case3 d fresh hpos d₁ hchunk =>
    rename_i ih
    have hcarry₁ : d₁.carry < o.chunk := by
      rw [carry_decodeChunk hchunk]
      exact Nat.lt_of_le_of_lt (Nat.min_le_left ..) ho
    obtain ⟨s', hs', hlen⟩ := exists_head_of_decodeChunk hchunk hs
    have hlater := ih hcarry₁ h hs'
    have hround := Scheme.le_mul_shardSizeFor p.code.valid (d.carry + fresh)
    rw [remaining_decodeChunk hchunk] at hlater
    rw [hlen, Nat.add_mul, Nat.mul_comm _ p.code.scheme.data]
    omega

end ChunkDecoder

/-- A streaming decode that goes through was not asked for more than the sources held. -/
theorem Code.capacity_of_decodeStream {code : Code} {sources : List Source} {present : List Nat} {dataSize size n : Nat}
    {sink : Sink} {o : StreamOptions} (hsize : ∀ s ∈ sources, s.rest.length ≤ size)
    (h : (code.decodeStream sources present dataSize sink o).outcome.result = .ok n) :
    dataSize ≤ size * code.scheme.data := by
  rcases decodeStream_cases code sources present dataSize sink o with
    ⟨-, e, -, hrefused⟩ | ⟨⟨ho, henough, -⟩, ⟨e, -, hrefused⟩ | ⟨-, plan, r, d, hplan, hrun, hdone⟩⟩
  · rw [hrefused] at h
    cases h
  · rw [hrefused] at h
    cases h
  · rw [hdone] at h
    obtain ⟨s, hs⟩ : ∃ s, sources.head? = some s := by
      cases sources with
      | nil => exact absurd (code.valid.1.trans_le henough) (Nat.lt_irrefl 0)
      | cons s sources => exact ⟨s, rfl⟩
    have hcarry : 0 < o.chunk := Nat.zero_lt_of_lt ho
    cases r with
    | error kind => cases h
    | ok =>
      have hle := ChunkDecoder.remaining_le_of_run ho hcarry hrun hs
      rw [(planDecodeStream_eq_ok hplan).2] at hle
      exact hle.trans (Nat.mul_le_mul_right _ (hsize s (List.mem_of_head? hs)))

namespace ChunkEncoder

variable {code : Code} {e : ChunkEncoder}

/-- The segments of a chunk have room for its bytes. -/
theorem capacity_of_encodeChunk (h : e.totalBytes ≤ e.shardBytes * code.scheme.data) (overlap : Nat) (fresh : Bytes) :
    (encodeChunk code overlap fresh e).2.totalBytes ≤
      (encodeChunk code overlap fresh e).2.shardBytes * code.scheme.data := by
  unfold encodeChunk
  dsimp only
  split
  · exact h
  · have hchunk := Scheme.le_mul_shardSizeFor code.valid (e.carry ++ fresh).length
    rw [List.length_append] at hchunk
    rw [List.length_append]
    show e.totalBytes + fresh.length ≤ (e.shardBytes + _) * code.scheme.data
    rw [Nat.add_mul, Nat.mul_comm (code.scheme.shardSizeFor _)]
    omega

theorem capacity_of_run {o : StreamOptions} (h : e.totalBytes ≤ e.shardBytes * code.scheme.data) :
    (run code o e).2.totalBytes ≤ (run code o e).2.shardBytes * code.scheme.data := by
  fun_induction run code o e with
  | case1 e kind source hread => exact h
  | case2 e source hread => exact h
  | case3 e b fresh source hread kind e' hchunk =>
    have hnext := capacity_of_encodeChunk (e := { e with source := source }) h o.overlap (b :: fresh)
    rwa [hchunk] at hnext
  | case4 e b fresh source hread e' hchunk hshort =>
    have hnext := capacity_of_encodeChunk (e := { e with source := source }) h o.overlap (b :: fresh)
    rwa [hchunk] at hnext
  | case5 e b fresh source hread e' hchunk hfull ih =>
    have hnext := capacity_of_encodeChunk (e := { e with source := source }) h o.overlap (b :: fresh)
    rw [hchunk] at hnext
    exact ih hnext

end ChunkEncoder

/-- Whatever pieces its endpoints move, a streaming encode makes shards with room for its input. -/
theorem Code.capacity_of_encodeStream {code : Code} {source : Source} {sinks : List Sink} {o : StreamOptions}
    {s : StreamSummary} (h : (code.encodeStream source sinks o).outcome.result = .ok s) :
    s.totalBytes ≤ s.shardBytes * code.scheme.data := by
  obtain ⟨-, r, e, hrun, hdone⟩ := exists_run_of_encodeStream h
  rw [hdone] at h
  obtain ⟨-, rfl⟩ := ChunkEncoder.eq_of_ending_ok h
  have hroom := @ChunkEncoder.capacity_of_run code (.start source sinks) o (Nat.zero_le _)
  rwa [hrun] at hroom

namespace Manifest

variable {m : Manifest}

/-! ## Sizes that fit together -/

/-- The shards have room for the data, and the entries agree with the shard length and with the shard counts. -/
structure Coherent (m : Manifest) : Prop where
  capacity : m.dataSize ≤ m.shardSize * m.scheme.data
  size_eq : ∀ e ∈ m.shards, e.size = m.shardSize
  isParity_eq : ∀ e ∈ m.shards, e.isParity = decide (m.scheme.data ≤ e.index)

/-- The manifests of encodes. -/
inductive Made : Manifest → Prop
  | buffered {code : Code} {data : Bytes} {e : Encoded} (now : Instant) (h : (code.encode data).result = .ok e) :
      Made (ofEncoded code.scheme e now)
  | streamed {code : Code} {source : Source} {sinks : List Sink} {o : StreamOptions} {s : StreamSummary} (now : Instant)
      (h : (code.encodeStream source sinks o).outcome.result = .ok s) : Made (ofStream code.scheme o s now)

theorem coherent_ofEncoded {code : Code} {data : Bytes} {e : Encoded} (now : Instant)
    (h : (code.encode data).result = .ok e) : (ofEncoded code.scheme e now).Coherent := by
  have hdescribes := describes_ofEncoded now h
  refine ⟨?_, fun entry hentry => ?_, fun entry hentry => ?_⟩
  · rw [Code.result_encode, Except.ok.injEq] at h
    subst h
    show data.length ≤ code.scheme.shardSizeFor data.length * code.scheme.data
    rw [Nat.mul_comm]
    exact Scheme.le_mul_shardSizeFor code.valid data.length
  · obtain ⟨i, hi⟩ := List.mem_iff_getElem?.1 hentry
    exact (hdescribes.entry i entry hi).2.2
  · obtain ⟨i, hi⟩ := List.mem_iff_getElem?.1 hentry
    obtain ⟨hindex, hparity, -⟩ := hdescribes.entry i entry hi
    rw [hindex, hparity]
    rfl

theorem Made.coherent (h : m.Made) : m.Coherent := by
  cases h with
  | buffered now h => exact coherent_ofEncoded now h
  | streamed now h =>
    refine ⟨Code.capacity_of_encodeStream h, fun entry hentry => ?_, fun entry hentry => ?_⟩
    · obtain ⟨⟨d, i⟩, -, rfl⟩ := List.mem_map.1 hentry
      rfl
    · obtain ⟨⟨d, i⟩, -, rfl⟩ := List.mem_map.1 hentry
      rfl

/-! ## Sizes that do not -/

/-- The shards have no room for the data. -/
def Cramped (m : Manifest) : Prop := m.shardSize * m.scheme.data < m.dataSize

/-- No decode and no repair by the sizes of a manifest without room goes through. -/
structure Undecodable (m : Manifest) (code : Code) : Prop where
  streamed : ∀ (sources : List Source) (present : List Nat) (sink : Sink) (n : Nat),
    (∀ s ∈ sources, s.rest.length ≤ m.shardSize) →
      (code.decodeStream sources present m.dataSize sink m.stream).outcome.result ≠ .ok n
  buffered : ∀ (slots : Slots) (present : List Nat) (data : Bytes),
    (code.decode slots present m.dataSize m.shardSize).result ≠ .ok data
  repaired : ∀ (slots : Slots) (present : List Nat) (r : Repair),
    (code.repair slots present m.dataSize m.shardSize).result ≠ .ok r

theorem Cramped.undecodable (h : m.Cramped) {code : Code} (hscheme : code.scheme = m.scheme) : m.Undecodable code := by
  have hroom : ¬ m.dataSize ≤ m.shardSize * code.scheme.data := by
    rw [hscheme]
    exact Nat.not_le.2 h
  refine ⟨fun sources present sink n hsize hok => ?_, fun slots present data hok => ?_, fun slots present r hok => ?_⟩
  · exact hroom (Code.capacity_of_decodeStream hsize hok)
  · rw [Code.result_decode] at hok
    obtain ⟨-, -, hcapacity, -⟩ := Code.checks_of_decodeShards hok
    exact hroom hcapacity
  · exact hroom (Code.of_result_repair hok).1.capacity_le

/-- Other sizes and marks, those of the entries by their index. -/
def resized (m : Manifest) (dataSize shardSize : Nat) (size : Nat → Nat) (isParity : Nat → Bool) : Manifest :=
  { m with
    dataSize := dataSize
    shardSize := shardSize
    shards := m.shards.map fun e => { e with size := size e.index, isParity := isParity e.index } }

theorem check_resized (h : m.check = .ok ()) (dataSize shardSize : Nat) (size : Nat → Nat) (isParity : Nat → Bool) :
    (m.resized dataSize shardSize size isParity).check = .ok () := by
  have hm := check_eq_ok_iff.1 h
  rw [check_eq_ok_iff]
  refine ⟨hm.version_eq, hm.scheme_accepted, hm.stream_valid, (List.length_map _).trans hm.length_shards, ?_⟩
  rw [checkEntries_eq_ok_iff]
  intro i e he
  rw [resized, List.getElem?_map, Option.map_eq_some_iff] at he
  obtain ⟨old, hold, rfl⟩ := he
  exact checkEntries_eq_ok_iff.1 hm.entries i old hold

theorem Fits.resized (h : m.Fits) {dataSize shardSize : Nat} {size : Nat → Nat} (hdata : dataSize < wordLimit)
    (hshard : shardSize < wordLimit) (hsize : ∀ i, size i < wordLimit) (isParity : Nat → Bool) :
    (m.resized dataSize shardSize size isParity).Fits := by
  refine ⟨h.version_lt, h.data_lt, h.parity_lt, h.chunk_lt, h.overlap_lt, hdata, hshard, ?_, h.time_valid⟩
  intro e he
  obtain ⟨old, hold, rfl⟩ := List.mem_map.1 he
  exact ⟨(h.entries_lt old hold).1, hsize old.index⟩

theorem coherent_iff (h : m.check = .ok ()) : m.Coherent ↔
    m.dataSize ≤ m.shardSize * m.scheme.data ∧
      ∀ i < m.scheme.total, ∃ e, m.shards[i]? = some e ∧ e.size = m.shardSize ∧
        e.isParity = decide (m.scheme.data ≤ i) := by
  have hm := check_eq_ok_iff.1 h
  constructor
  · rintro ⟨hcapacity, hsize, hparity⟩
    refine ⟨hcapacity, fun i hi => ?_⟩
    have hlt : i < m.shards.length := hm.length_shards ▸ hi
    have hget := List.getElem?_eq_getElem hlt
    have hmem := List.mem_of_getElem? hget
    exact ⟨_, hget, hsize _ hmem, by rw [hparity _ hmem, (hm.entry hget).1]⟩
  · rintro ⟨hcapacity, hall⟩
    have hentry : ∀ e ∈ m.shards, e.size = m.shardSize ∧ e.isParity = decide (m.scheme.data ≤ e.index) := by
      intro e he
      obtain ⟨i, hget⟩ := List.mem_iff_getElem?.1 he
      have hi : i < m.scheme.total := hm.length_shards ▸ (List.getElem?_eq_some_iff.1 hget).1
      obtain ⟨e', hget', hsize, hparity⟩ := hall i hi
      obtain rfl := Option.some.inj (hget.symm.trans hget')
      rw [(hm.entry hget).1]
      exact ⟨hsize, hparity⟩
    exact ⟨hcapacity, fun e he => (hentry e he).1, fun e he => (hentry e he).2⟩

theorem coherent_resized_iff (h : m.check = .ok ()) {dataSize shardSize : Nat} {size : Nat → Nat}
    {isParity : Nat → Bool} : (m.resized dataSize shardSize size isParity).Coherent ↔
      dataSize ≤ shardSize * m.scheme.data ∧
        ∀ i < m.scheme.total, size i = shardSize ∧ isParity i = decide (m.scheme.data ≤ i) := by
  rw [coherent_iff (check_resized h dataSize shardSize size isParity)]
  have hm := check_eq_ok_iff.1 h
  refine and_congr_right fun _ => forall₂_congr fun i hi => ?_
  have hlt : i < m.shards.length := hm.length_shards ▸ hi
  have hget := List.getElem?_eq_getElem hlt
  have hindex := (hm.entry hget).1
  have hresized : (m.resized dataSize shardSize size isParity).shards[i]? =
      some { m.shards[i] with size := size i, isParity := isParity i } := by
    simp [resized, hget, hindex]
  rw [hresized]
  simp only [Option.some.injEq, exists_eq_left']
  rfl

/-- **Sizes in manifests**: a text is read as a manifest exactly if it is the record of one in the known version, with
valid counts and chunking, and an entry under its own index with 64 hexadecimal digits for each shard. So whether the
sizes and the marks in it fit together is left to its numbers: with any others the manifest is read as well. In the
manifest of an encode they do fit; and by a manifest whose shards have no room for the data nothing is decoded or
repaired. -/
theorem ofText_sizes (s : String) (m : Manifest) :
    (ofText s = .ok m ↔
      (Json.parse? s).bind ofJson? = some m ∧ m.version = currentVersion ∧ m.scheme.Accepted ∧ m.stream.Valid ∧
        m.shards.length = m.scheme.total ∧
        ∀ (i : Nat) (e : Entry), m.shards[i]? = some e → e.index = i ∧ IsDigestText e.sha256) ∧
    (ofText s = .ok m → (m.Coherent ↔
      m.dataSize ≤ m.shardSize * m.scheme.data ∧
        ∀ i < m.scheme.total, ∃ e, m.shards[i]? = some e ∧ e.size = m.shardSize ∧
          e.isParity = decide (m.scheme.data ≤ i))) ∧
    (∀ (dataSize shardSize : Nat) (size : Nat → Nat) (isParity : Nat → Bool),
      ofText s = .ok m → 0 ≤ m.createdAt.year → m.createdAt.year ≤ 9999 → dataSize < wordLimit →
      shardSize < wordLimit → (∀ i, size i < wordLimit) →
        let m' := m.resized dataSize shardSize size isParity
        ofText m'.toText = .ok m' ∧
        (m'.Coherent ↔ dataSize ≤ shardSize * m.scheme.data ∧
          ∀ i < m.scheme.total, size i = shardSize ∧ isParity i = decide (m.scheme.data ≤ i))) ∧
    (m.Made → m.Coherent) ∧
    (m.Cramped → ∀ code : Code, code.scheme = m.scheme → m.Undecodable code) := by
  refine ⟨?_, fun h => coherent_iff (ofText_eq_ok_iff.1 h).2, ?_, Made.coherent,
    fun h code hscheme => h.undecodable hscheme⟩
  · rw [ofText_eq_ok_iff, check_eq_ok_iff]
    refine and_congr_right fun _ => ⟨fun h => ?_, ?_⟩
    · exact ⟨h.version_eq, h.scheme_accepted, h.stream_valid, h.length_shards, fun i e => h.entry⟩
    · rintro ⟨hversion, hscheme, hstream, hlength, hentries⟩
      refine ⟨hversion, hscheme, hstream, hlength, checkEntries_eq_ok_iff.2 ?_⟩
      simpa only [Nat.zero_add] using hentries
  · intro dataSize shardSize size isParity h hlow hhigh hdata hshard hsize
    obtain ⟨j, hj, hcheck⟩ := exists_of_ofText h
    have hfits := (fits_of_ofJson? hj).resized hdata hshard hsize isParity
    refine ⟨?_, coherent_resized_iff hcheck⟩
    rw [ofText_toText hfits hlow hhigh, check_resized hcheck]
    rfl

theorem ofText_pair {dataSize shardSize size : Nat} (hdata : dataSize < wordLimit) (hshard : shardSize < wordLimit)
    (hsize : size < wordLimit) (isParity : Bool) :
    ofText (pair dataSize shardSize size isParity).toText = .ok (pair dataSize shardSize size isParity) := by
  have hzero : (pair 0 0 0 false).Fits :=
    ⟨by decide, by decide, by decide, by decide, by decide, by decide, by decide, by decide, by decide⟩
  have hsizes : ∀ i, (if i = 0 then shardSize else size) < wordLimit := by
    intro i
    split
    · exact hshard
    · exact hsize
  have hfits : (pair dataSize shardSize size isParity).Fits := hzero.resized hdata hshard hsizes fun i => i != 0 && isParity
  have hyear : (pair dataSize shardSize size isParity).createdAt.year = 2024 := rfl
  rw [ofText_toText hfits (by rw [hyear]; decide) (by rw [hyear]; decide), check_pair]
  rfl

/-- Five bytes in one data shard of one byte: the manifest is read, and of no use. With a shard length of five it is
right, and so is the one that an encode makes. -/
theorem ofText_sizes_pair : ∃ (code : Code) (m m' m'' : Manifest) (e : Encoded),
    code.scheme = ⟨1, 1⟩ ∧ m = pair 5 1 1 true ∧ m' = pair 5 5 5 true ∧
    ofText m.toText = .ok m ∧ m.version = currentVersion ∧ ¬ m.Coherent ∧ m.Undecodable code ∧
    ofText m'.toText = .ok m' ∧ m'.Coherent ∧
    (code.encode [1, 2, 3, 4, 5]).result = .ok e ∧ m'' = ofEncoded code.scheme e m.createdAt ∧ m''.Coherent := by
  let code := Code.ofValid ⟨1, 1⟩ (by decide)
  have hread := @ofText_pair 3 3 3 (by decide) (by decide) (by decide) true
  obtain ⟨-, -, hresized, -, -⟩ := ofText_sizes (pair 3 3 3 true).toText (pair 3 3 3 true)
  obtain ⟨htiny, -⟩ := hresized 5 1 (fun _ => 1) (fun i => decide (1 ≤ i)) hread (by decide) (by decide) (by decide)
    (by decide) (fun _ => by decide)
  obtain ⟨hroomy, hfits⟩ := hresized 5 5 (fun _ => 5) (fun i => decide (1 ≤ i)) hread (by decide) (by decide) (by decide)
    (by decide) (fun _ => by decide)
  obtain ⟨haccepts, hcoherent, -, -, hcramped⟩ := ofText_sizes (pair 5 1 1 true).toText (pair 5 1 1 true)
  have hencode := Code.result_encode code [1, 2, 3, 4, 5]
  have hmade := Made.buffered ⟨2024, 1, 2, 3, 4, 5, 0⟩ hencode
  obtain ⟨-, -, -, hright, -⟩ := ofText_sizes "" (ofEncoded code.scheme _ ⟨2024, 1, 2, 3, 4, 5, 0⟩)
  refine ⟨code, _, _, _, _, rfl, rfl, rfl, htiny, (haccepts.1 htiny).2.1, ?_, ?_, hroomy, ?_, hencode, rfl,
    hright hmade⟩
  · intro h
    exact absurd ((hcoherent htiny).1 h).1 (by decide)
  · exact hcramped (show 1 * 1 < 5 by decide) code rfl
  · exact hfits.2 ⟨by decide, by decide⟩

/-- Shards without room for the data, an entry of another size than its shard, and a parity shard that is marked as a data
shard are all read. -/
theorem incoherent_of_ofText :
    (¬ ∀ s m, ofText s = .ok m → m.dataSize ≤ m.shardSize * m.scheme.data) ∧
    (¬ ∀ s m, ofText s = .ok m → ∀ e ∈ m.shards, e.size = m.shardSize) ∧
    ¬ ∀ s m, ofText s = .ok m → ∀ e ∈ m.shards, e.isParity = true ↔ m.scheme.data ≤ e.index := by
  have hsecond : ∀ {dataSize shardSize size : Nat} {isParity : Bool}, ∃ e ∈ (pair dataSize shardSize size isParity).shards,
      e.index = 1 ∧ e.size = size ∧ e.isParity = isParity :=
    ⟨_, List.mem_cons_of_mem _ List.mem_cons_self, rfl, rfl, rfl⟩
  refine ⟨fun h => ?_, fun h => ?_, fun h => ?_⟩
  · exact absurd (h _ _ (@ofText_pair 5 1 1 (by decide) (by decide) (by decide) true)) (by decide)
  · obtain ⟨e, he, -, hsize, -⟩ := @hsecond 3 3 2 true
    have heq := h _ _ (@ofText_pair 3 3 2 (by decide) (by decide) (by decide) true) e he
    rw [hsize] at heq
    exact absurd heq (by decide)
  · obtain ⟨e, he, hindex, -, hparity⟩ := @hsecond 3 3 3 false
    have hiff := h _ _ (@ofText_pair 3 3 3 (by decide) (by decide) (by decide) false) e he
    rw [hindex, hparity] at hiff
    exact absurd (hiff.2 (by decide)) (by decide)

end Manifest

end ShardCoding

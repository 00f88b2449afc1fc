import ShardCoding.Manifest
import ShardCoding.Proofs.Code.Effects
import ShardCoding.Proofs.Json.Record
import ShardCoding.Proofs.Manifest.Check
import ShardCoding.Proofs.Time

/-!
# Manifests there and back

* `Manifest.Fits` : the numbers of a manifest are words, and its time exists; `Manifest.fits_of_ofJson?` : so it is with all
  that are read;
* `Manifest.ofJson?_toJson` : the record of a manifest is read as the manifest;
* `Manifest.ofText_toText`, `Manifest.text_roundTrip` : the text of a manifest is.
-/

namespace ShardCoding

/-! ## Shard counts, chunking and entries -/

theorem Scheme.ofJson?_toJson {s : Scheme} (hdata : s.data < wordLimit) (hparity : s.parity < wordLimit) :
    ofJson? (toJson s) = some s := by
  obtain ⟨m, hm, hfinds⟩ : ∃ m, Members.of? ["data_shards", "parity_shards"] (toJson s) = some m ∧
      m.Finds [("data_shards", .nat s.data), ("parity_shards", .nat s.parity)] :=
    Members.exists_of?_record (by simp) (by simp)
  have hdata' : m.required "data_shards" Json.size? = some s.data :=
    hfinds.required_eq (by simp) (Json.word?_nat hdata)
  have hparity' : m.required "parity_shards" Json.size? = some s.parity :=
    hfinds.required_eq (by simp) (Json.word?_nat hparity)
  show (Members.of? _ (toJson s)).bind _ = _
  rw [hm, Option.bind_some]
  simp only [hdata', hparity', Option.bind_eq_bind, Option.bind_some]
  rfl

theorem StreamOptions.ofJson?_toJson {o : StreamOptions} (hchunk : o.chunk < wordLimit) (hoverlap : o.overlap < wordLimit) :
    ofJson? (toJson o) = some o := by
  obtain ⟨m, hm, hfinds⟩ : ∃ m, Members.of? ["chunk_size", "overlap_size"] (toJson o) = some m ∧
      m.Finds [("chunk_size", .nat o.chunk), ("overlap_size", .nat o.overlap)] :=
    Members.exists_of?_record (by simp) (by simp)
  have hchunk' : ∀ default, m.withDefault "chunk_size" default Json.size? = some o.chunk :=
    hfinds.withDefault_eq (by simp) (Json.word?_nat hchunk)
  have hoverlap' : ∀ default, m.withDefault "overlap_size" default Json.size? = some o.overlap :=
    hfinds.withDefault_eq (by simp) (Json.word?_nat hoverlap)
  show (Members.of? _ (toJson o)).bind _ = _
  rw [hm, Option.bind_some]
  simp only [hchunk', hoverlap', Option.bind_eq_bind, Option.bind_some]
  rfl

theorem Manifest.Entry.ofJson?_toJson {e : Entry} (hindex : e.index < wordLimit) (hsize : e.size < wordLimit) :
    ofJson? (toJson e) = some e := by
  obtain ⟨m, hm, hfinds⟩ : ∃ m, Members.of? ["index", "is_parity", "size", "sha256"] (toJson e) = some m ∧
      m.Finds [("index", .nat e.index), ("is_parity", .bool e.isParity), ("size", .nat e.size),
        ("sha256", .str e.sha256)] :=
    Members.exists_of?_record (by simp) (by simp)
  have hindex' : m.required "index" Json.size? = some e.index :=
    hfinds.required_eq (by simp) (Json.word?_nat hindex)
  have hparity : m.required "is_parity" Json.bool? = some e.isParity :=
    hfinds.required_eq (v := .bool e.isParity) (by simp) rfl
  have hsize' : m.required "size" Json.size? = some e.size :=
    hfinds.required_eq (by simp) (Json.word?_nat hsize)
  have hsha256 : m.required "sha256" Json.text? = some e.sha256 :=
    hfinds.required_eq (v := .str e.sha256) (by simp) rfl
  show (Members.of? _ (toJson e)).bind _ = _
  rw [hm, Option.bind_some]
  simp only [hindex', hparity, hsize', hsha256, Option.bind_eq_bind, Option.bind_some]
  rfl

namespace Manifest

/-- The numbers are words, and the time exists. -/
structure Fits (m : Manifest) : Prop where
  version_lt : m.version < 2 ^ 32
  data_lt : m.scheme.data < wordLimit
  parity_lt : m.scheme.parity < wordLimit
  chunk_lt : m.stream.chunk < wordLimit
  overlap_lt : m.stream.overlap < wordLimit
  dataSize_lt : m.dataSize < wordLimit
  shardSize_lt : m.shardSize < wordLimit
  entries_lt : ∀ e ∈ m.shards, e.index < wordLimit ∧ e.size < wordLimit
  time_valid : m.createdAt.isValid = true

/-- The members of a manifest's record; a name is written if there is one. -/
def members (m : Manifest) : List (String × Json) :=
  [("version", .nat m.version)] ++
    (match m.fileName with
      | none => []
      | some s => [("file_name", Json.str s)]) ++
    [("erasure", toJson m.scheme), ("stream", toJson m.stream), ("original_size", .nat m.dataSize),
      ("shard_size", .nat m.shardSize), ("created_at", .ofInstant m.createdAt),
      ("shards", .array (m.shards.map toJson))]

theorem toJson_eq (m : Manifest) : toJson m = .record m.members := rfl

theorem exists_members (m : Manifest) :
    ∃ found, Members.of? fields (toJson m) = some found ∧ found.Finds m.members := by
  rw [toJson_eq]
  apply Members.exists_of?_record
  · unfold members fields
    cases m.fileName <;> simp
  · unfold members
    cases m.fileName <;> simp

theorem withDefault_fileName {m : Manifest} {found : Members} (h : found.Finds m.members) :
    found.withDefault "file_name" none (Json.nullable? Json.text?) = some m.fileName := by
  cases hname : m.fileName with
  | none =>
    apply h.withDefault_absent
    rw [members, hname]
    simp
  | some s =>
    have hvalue : Json.nullable? Json.text? (.str s) = some (some s) := rfl
    refine h.withDefault_eq ?_ hvalue _
    rw [members, hname]
    simp

theorem mem_members (m : Manifest) {member : String × Json}
    (h : member ∈ [("version", .nat m.version)] ++ [("erasure", toJson m.scheme), ("stream", toJson m.stream),
      ("original_size", .nat m.dataSize), ("shard_size", .nat m.shardSize), ("created_at", .ofInstant m.createdAt),
      ("shards", .array (m.shards.map toJson))]) : member ∈ m.members := by
  rcases List.mem_append.1 h with h | h
  · exact List.mem_append_left _ (List.mem_append_left _ h)
  · exact List.mem_append_right _ h

theorem ofJson?_toJson {m : Manifest} (h : m.Fits) (hlow : 0 ≤ m.createdAt.year) (hhigh : m.createdAt.year ≤ 9999) :
    ofJson? (toJson m) = some m := by
  obtain ⟨found, hfound, hfinds⟩ := m.exists_members
  have hversion : found.required "version" (Json.word? (Nat.pow 2 32)) = some m.version :=
    hfinds.required_eq (m.mem_members (by simp)) (Json.word?_nat h.version_lt)
  have hname := withDefault_fileName hfinds
  have herasure : found.required "erasure" ofJson? = some m.scheme :=
    hfinds.required_eq (m.mem_members (by simp)) (Scheme.ofJson?_toJson h.data_lt h.parity_lt)
  have hstream : found.required "stream" ofJson? = some m.stream :=
    hfinds.required_eq (m.mem_members (by simp)) (StreamOptions.ofJson?_toJson h.chunk_lt h.overlap_lt)
  have hdataSize : found.required "original_size" Json.size? = some m.dataSize :=
    hfinds.required_eq (m.mem_members (by simp)) (Json.word?_nat h.dataSize_lt)
  have hshardSize : found.required "shard_size" Json.size? = some m.shardSize :=
    hfinds.required_eq (m.mem_members (by simp)) (Json.word?_nat h.shardSize_lt)
  have htime : found.required "created_at" Json.instant? = some m.createdAt :=
    hfinds.required_eq (m.mem_members (by simp))
      ((Json.instant?_ofInstant m.createdAt).trans (Instant.read?_text h.time_valid hlow hhigh))
  have hshards : found.required "shards" (Json.list? ofJson?) = some m.shards :=
    hfinds.required_eq (m.mem_members (by simp))
      (Json.list?_array fun e he => Entry.ofJson?_toJson (h.entries_lt e he).1 (h.entries_lt e he).2)
  show (Members.of? fields (toJson m)).bind _ = _
  rw [hfound, Option.bind_some]
  simp only [hversion, hname, herasure, hstream, hdataSize, hshardSize, htime, hshards, Option.bind_eq_bind,
    Option.bind_some]
  rfl

/-! ## Manifests that were read -/

theorem lt_of_ofJson?_scheme {j : Json} {s : Scheme} (h : ofJson? j = some s) :
    s.data < wordLimit ∧ s.parity < wordLimit := by
  replace h : (Members.of? _ j).bind _ = some s := h
  simp only [Option.bind_eq_bind, Option.bind_eq_some_iff] at h
  obtain ⟨found, -, data, hdata, parity, hparity, h⟩ := h
  obtain rfl := Option.some.inj h
  exact ⟨Members.of_required (p := (· < wordLimit)) (fun _ _ => Json.lt_of_word?) hdata,
    Members.of_required (p := (· < wordLimit)) (fun _ _ => Json.lt_of_word?) hparity⟩

theorem lt_of_ofJson?_options {j : Json} {o : StreamOptions} (h : ofJson? j = some o) :
    o.chunk < wordLimit ∧ o.overlap < wordLimit := by
  replace h : (Members.of? _ j).bind _ = some o := h
  simp only [Option.bind_eq_bind, Option.bind_eq_some_iff] at h
  obtain ⟨found, -, chunk, hchunk, overlap, hoverlap, h⟩ := h
  obtain rfl := Option.some.inj h
  have hstandard : (262144 : Nat) < wordLimit ∧ 0 < wordLimit := by decide
  exact ⟨Members.of_withDefault (p := (· < wordLimit)) hstandard.1 (fun _ _ => Json.lt_of_word?) hchunk,
    Members.of_withDefault (p := (· < wordLimit)) hstandard.2 (fun _ _ => Json.lt_of_word?) hoverlap⟩

theorem lt_of_ofJson?_entry {j : Json} {e : Entry} (h : ofJson? j = some e) :
    e.index < wordLimit ∧ e.size < wordLimit := by
  replace h : (Members.of? _ j).bind _ = some e := h
  simp only [Option.bind_eq_bind, Option.bind_eq_some_iff] at h
  obtain ⟨found, -, index, hindex, isParity, -, size, hsize, sha256, -, h⟩ := h
  obtain rfl := Option.some.inj h
  exact ⟨Members.of_required (p := (· < wordLimit)) (fun _ _ => Json.lt_of_word?) hindex,
    Members.of_required (p := (· < wordLimit)) (fun _ _ => Json.lt_of_word?) hsize⟩

theorem fits_of_ofJson? {j : Json} {m : Manifest} (h : ofJson? j = some m) : m.Fits := by
  replace h : (Members.of? fields j).bind _ = some m := h
  simp only [Option.bind_eq_bind, Option.bind_eq_some_iff] at h
  obtain ⟨found, -, version, hversion, name, -, scheme, hscheme, stream, hstream, dataSize, hdataSize, shardSize, hshardSize, time,
    htime, shards, hshards, h⟩ := h
  obtain rfl := Option.some.inj h
  have hcounts := Members.of_required (fun _ _ => lt_of_ofJson?_scheme) hscheme
  have hoptions := Members.of_required (fun _ _ => lt_of_ofJson?_options) hstream
  have hentries := Members.of_required (fun _ _ => Json.forall_of_list? fun _ _ => lt_of_ofJson?_entry) hshards
  have htimeValid := Members.of_required (fun _ _ => Json.isValid_of_instant?) htime
  exact {
    version_lt := Members.of_required (p := (· < 2 ^ 32)) (fun _ _ => Json.lt_of_word?) hversion
    data_lt := hcounts.1
    parity_lt := hcounts.2
    chunk_lt := hoptions.1
    overlap_lt := hoptions.2
    dataSize_lt := Members.of_required (p := (· < wordLimit)) (fun _ _ => Json.lt_of_word?) hdataSize
    shardSize_lt := Members.of_required (p := (· < wordLimit)) (fun _ _ => Json.lt_of_word?) hshardSize
    entries_lt := hentries
    time_valid := htimeValid }

/-! ## Text -/

theorem regular_toJson (m : Manifest) : Json.Regular (toJson m) := by
  have hscheme : Json.Regular (toJson m.scheme) := Json.regular_record (by simp)
  have hstream : Json.Regular (toJson m.stream) := Json.regular_record (by simp)
  have hentry : ∀ e : Entry, Json.Regular (toJson e) := fun e => Json.regular_record (by simp)
  have hshards : Json.Regular (.array (m.shards.map toJson)) := Json.regular_array hentry
  rw [toJson_eq]
  apply Json.regular_record
  unfold members
  cases m.fileName <;> simp [hscheme, hstream, hshards]

theorem ofText_toText {m : Manifest} (h : m.Fits) (hlow : 0 ≤ m.createdAt.year) (hhigh : m.createdAt.year ≤ 9999) :
    ofText m.toText = m.check.map fun _ => m := by
  unfold ofText toText
  rw [Json.parse?_pretty m.regular_toJson, Option.bind_some, ofJson?_toJson h hlow hhigh]
  dsimp only
  cases m.check <;> rfl

theorem ofText_eq_ok_iff {s : String} {m : Manifest} :
    ofText s = .ok m ↔ (Json.parse? s).bind ofJson? = some m ∧ m.check = .ok () := by
  unfold ofText
  cases hread : (Json.parse? s).bind (ofJson? : Json → Option Manifest) with
  | none => simp [throw, throwThe, MonadExceptOf.throw]
  | some m' =>
    constructor
    · intro h
      obtain ⟨⟨⟩, hcheck, h⟩ := exists_of_bind_eq_ok h
      obtain rfl := Except.ok.inj h
      exact ⟨rfl, hcheck⟩
    · rintro ⟨hm, hcheck⟩
      obtain rfl := Option.some.inj hm
      dsimp only
      rw [hcheck]
      rfl

theorem exists_of_ofText {s : String} {m : Manifest} (h : ofText s = .ok m) :
    ∃ j : Json, ofJson? j = some m ∧ m.check = .ok () := by
  obtain ⟨hread, hcheck⟩ := ofText_eq_ok_iff.1 h
  obtain ⟨j, -, hj⟩ := Option.bind_eq_some_iff.1 hread
  exact ⟨j, hj, hcheck⟩

/-- **Manifest text**: the text of a manifest whose numbers are words, with a time in a year of four digits, is read as the
manifest if its parts fit together, and refused as its check refuses it if they do not. And whatever text a manifest was
read from, the text that is written of it is read as the same manifest. -/
theorem text_roundTrip :
    (∀ m : Manifest, m.Fits → 0 ≤ m.createdAt.year → m.createdAt.year ≤ 9999 →
      ofText m.toText = m.check.map fun _ => m) ∧
    ∀ (s : String) (m : Manifest), ofText s = .ok m → 0 ≤ m.createdAt.year → m.createdAt.year ≤ 9999 →
      ofText m.toText = .ok m := by
  refine ⟨fun m => ofText_toText, ?_⟩
  intro s m h hlow hhigh
  obtain ⟨j, hj, hcheck⟩ := exists_of_ofText h
  rw [ofText_toText (fits_of_ofJson? hj) hlow hhigh, hcheck]
  rfl

/-- A name with a quote, a line break and a letter beyond ASCII, and a time with three digits of a second; and the same
manifest in a version that is not known. -/
theorem text_roundTrip_named : ∃ m : Manifest,
    m.fileName = some "a\"\n\u00e9" ∧ m.createdAt = ⟨2024, 1, 2, 3, 4, 5, 600000000⟩ ∧ m.shards.length = 2 ∧
    ofText m.toText = .ok m ∧
    ofText { m with version := 2 }.toText = .error (.manifest (.version 2)) := by
  let digits := String.ofList (List.replicate 64 'a')
  let m : Manifest := {
    version := 1
    fileName := some "a\"\n\u00e9"
    scheme := ⟨1, 1⟩
    stream := ⟨4, 1⟩
    dataSize := 3
    shardSize := 3
    createdAt := ⟨2024, 1, 2, 3, 4, 5, 600000000⟩
    shards := [⟨0, false, 3, digits⟩, ⟨1, true, 3, digits⟩] }
  have hentries : ∀ e ∈ m.shards, e.index < wordLimit ∧ e.size < wordLimit := by decide
  have hfits : m.Fits := ⟨by decide, by decide, by decide, by decide, by decide, by decide, by decide, hentries, by decide⟩
  have hfits' : Fits { m with version := 2 } := { hfits with version_lt := by decide }
  have hcheck : m.check = .ok () := by
    have hok : m.check.isOk = true := by decide +kernel
    cases h : m.check with
    | error e =>
      rw [h] at hok
      cases hok
    | ok => rfl
  obtain ⟨hwritten, hread⟩ := text_roundTrip
  have hok : ofText m.toText = .ok m := by
    rw [hwritten m hfits (by decide) (by decide), hcheck]
    rfl
  exact ⟨m, rfl, rfl, rfl, hread m.toText m hok (by decide) (by decide), hwritten _ hfits' (by decide) (by decide)⟩

end Manifest

end ShardCoding

import ShardCoding.Manifest
import ShardCoding.Proofs.Code.Effects
import ShardCoding.Proofs.Digest.Spelling
import ShardCoding.Proofs.Stream.Chunks

/-!
# What the check of a manifest asks for

* `Manifest.readDigest_eq_ok_iff`, `Manifest.digest_eq_ok_iff` : the texts that are read as a digest;
* `Manifest.Checked` : what is known of a manifest that was checked; `Manifest.check_eq_ok_iff` : nothing else is asked;
* `Manifest.checkEntries_eq_ok_iff` : what is asked of the entries;
* `Manifest.pair` : a small manifest that passes.
-/

namespace ShardCoding

theorem Scheme.check_eq_ok {s : Scheme} (hs : s.Accepted) : s.check = .ok () := by
  unfold check
  rw [fault?_eq_none_iff.2 hs]

theorem Scheme.accepted_of_check {s : Scheme} (h : s.check = .ok ()) : s.Accepted := by
  unfold check at h
  split at h
  · cases h
  · next hfault => exact fault?_eq_none_iff.1 hfault

namespace Manifest

variable {m : Manifest} {i : Nat} {d : Digest}

/-! ## Digests -/

theorem readDigest_eq_ok_iff {index : Nat} {s : String} :
    readDigest index s = .ok d ↔ IsDigestText s ∧ d.number = hexNumber s := by
  rw [← hexDecode_eq_digest_iff, readDigest]
  cases hexDecode s with
  | error cause => simp
  | ok bytes =>
    simp only [Except.ok.injEq]
    by_cases hlength : bytes.length = digestSize
    · have hread : Digest.ofBytes? bytes = some ⟨bytes, hlength⟩ := dif_pos hlength
      rw [hread]
      constructor
      · intro h
        rw [← Except.ok.inj h]
      · rintro rfl
        rfl
    · have hread : Digest.ofBytes? bytes = none := dif_neg hlength
      rw [hread]
      constructor
      · intro h
        cases h
      · rintro rfl
        exact absurd d.length_bytes hlength

theorem exists_readDigest_iff {index : Nat} {s : String} : (∃ d, readDigest index s = .ok d) ↔ IsDigestText s := by
  constructor
  · rintro ⟨d, hd⟩
    exact (readDigest_eq_ok_iff.1 hd).1
  · intro h
    obtain ⟨d, hd⟩ := exists_digest_of_isDigestText h
    exact ⟨d, readDigest_eq_ok_iff.2 (isDigestText_of_hexDecode hd)⟩

/-- The digest of an entry is the one that its text spells. -/
theorem digest_eq_ok_iff : m.digest i = .ok d ↔
    ∃ e, m.shards[i]? = some e ∧ IsDigestText e.sha256 ∧ d.number = hexNumber e.sha256 := by
  rw [digest]
  cases m.shards[i]? with
  | none => simp
  | some e => simp [readDigest_eq_ok_iff]

theorem exists_digest_iff : (∃ d, m.digest i = .ok d) ↔ ∃ e, m.shards[i]? = some e ∧ IsDigestText e.sha256 := by
  rw [digest]
  cases m.shards[i]? with
  | none => simp
  | some e => simp [exists_readDigest_iff]

/-! ## The check -/

theorem checkEntries_eq_ok_iff {place : Nat} {entries : List Entry} : checkEntries place entries = .ok () ↔
    ∀ i e, entries[i]? = some e → e.index = place + i ∧ IsDigestText e.sha256 := by
  induction entries generalizing place with
  | nil => simp [checkEntries]
  | cons e entries ih =>
    have hfirst : checkEntries place (e :: entries) = .ok () ↔
        (e.index = place ∧ IsDigestText e.sha256) ∧ checkEntries (place + 1) entries = .ok () := by
      rw [checkEntries, ← @exists_readDigest_iff place]
      by_cases hindex : e.index = place
      · rw [if_neg (not_not.2 hindex)]
        cases readDigest place e.sha256 <;> simp [hindex]
      · simp [hindex]
    rw [hfirst, ih]
    constructor
    · rintro ⟨he, hrest⟩ (_ | i) e' hget
      · obtain rfl := Option.some.inj hget
        exact he
      · have h := hrest i e' hget
        rwa [Nat.add_right_comm] at h
    · intro h
      refine ⟨h 0 e rfl, fun i e' hget => ?_⟩
      have h := h (i + 1) e' hget
      rwa [Nat.add_right_comm]

/-- What the check of a manifest asks for. -/
structure Checked (m : Manifest) : Prop where
  version_eq : m.version = currentVersion
  scheme_accepted : m.scheme.Accepted
  stream_valid : m.stream.Valid
  length_shards : m.shards.length = m.scheme.total
  entries : checkEntries 0 m.shards = .ok ()

theorem check_eq_ok_iff : m.check = .ok () ↔ m.Checked := by
  constructor
  · intro h
    unfold check at h
    dsimp only at h
    split at h
    · cases h
    · next hversion =>
      obtain ⟨⟨⟩, hscheme, h⟩ := exists_of_bind_eq_ok h
      obtain ⟨⟨⟩, hstream, h⟩ := exists_of_bind_eq_ok h
      split at h
      · cases h
      · next hlength =>
        exact ⟨not_not.1 hversion, Scheme.accepted_of_check hscheme, StreamOptions.valid_of_check hstream,
          not_not.1 hlength, h⟩
  · intro h
    unfold check
    rw [if_neg (not_not.2 h.version_eq), if_neg (not_not.2 h.length_shards), Scheme.check_eq_ok h.scheme_accepted,
      StreamOptions.check_eq_ok h.stream_valid, h.entries]
    rfl

theorem checked_of_check (h : m.check = .ok ()) : m.Checked := check_eq_ok_iff.1 h

theorem Checked.entry (h : m.Checked) {e : Entry} (he : m.shards[i]? = some e) : e.index = i ∧ IsDigestText e.sha256 := by
  have hentry := checkEntries_eq_ok_iff.1 h.entries i e he
  rwa [Nat.zero_add] at hentry

theorem Checked.exists_digest (h : m.Checked) (hi : i < m.scheme.total) : ∃ d, m.digest i = .ok d := by
  have hlt : i < m.shards.length := by rwa [h.length_shards]
  have hget := List.getElem?_eq_getElem hlt
  exact exists_digest_iff.2 ⟨_, hget, (h.entry hget).2⟩

/-! ## A small manifest -/

/-- A manifest of one data shard and one parity shard, with the given sizes and the given mark of the second. -/
def pair (dataSize shardSize size : Nat) (isParity : Bool) : Manifest where
  version := currentVersion
  fileName := none
  scheme := ⟨1, 1⟩
  stream := ⟨4, 0⟩
  dataSize := dataSize
  shardSize := shardSize
  createdAt := ⟨2024, 1, 2, 3, 4, 5, 0⟩
  shards := [⟨0, false, shardSize, String.ofList (List.replicate 64 'a')⟩,
    ⟨1, isParity, size, String.ofList (List.replicate 64 'A')⟩]

theorem isDigestText_replicate {c : Char} (hc : (hexDigitValue? c).isSome = true) :
    IsDigestText (String.ofList (List.replicate 64 c)) := by
  constructor
  · simp
  · simp [hc]

/-- The sizes and the mark are not asked for. -/
theorem check_pair (dataSize shardSize size : Nat) (isParity : Bool) :
    (pair dataSize shardSize size isParity).check = .ok () := by
  have hscheme : Scheme.Accepted ⟨1, 1⟩ := by decide
  have hstream : StreamOptions.Valid ⟨4, 0⟩ := by decide
  rw [check_eq_ok_iff]
  refine ⟨rfl, hscheme, hstream, rfl, checkEntries_eq_ok_iff.2 ?_⟩
  rintro (_ | _ | i) e he
  · obtain rfl := Option.some.inj he
    exact ⟨rfl, isDigestText_replicate (by decide)⟩
  · obtain rfl := Option.some.inj he
    exact ⟨rfl, isDigestText_replicate (by decide)⟩
  · cases he

end Manifest

end ShardCoding

import ShardCoding.Error

/-!
# Shard counts

* `wordLimit`, `bufferLimit` : where words and where buffers end;
* `Scheme` : `k` data shards and `m` parity shards; its presets;
* `Scheme.Valid` : both counts positive and at most `maxShards` in all; `Scheme.Accepted`, `Scheme.check` : what is
  checked of that, by a sum that wraps;
* `shardSizeFor` : the shard length that a number of bytes needs.
-/

namespace ShardCoding

/-- As many shards as the field has nonzero elements. -/
def maxShards : Nat := 255

/-- One more than the largest size that a word holds. -/
def wordLimit : Nat := Nat.pow 2 64

/-- One more than the largest size of a buffer; the allocation of a larger one panics. -/
def bufferLimit : Nat := Nat.pow 2 63

structure Scheme where
  data : Nat
  parity : Nat
  deriving DecidableEq, Repr

namespace Scheme

def standard : Scheme := ⟨4, 2⟩

def highRedundancy : Scheme := ⟨6, 2⟩

def extremeRedundancy : Scheme := ⟨8, 4⟩

/-- The number of shards, a sum of words: one that no word holds wraps. -/
def total (s : Scheme) : Nat := (s.data + s.parity) % wordLimit

def Valid (s : Scheme) : Prop :=
  0 < s.data ∧ 0 < s.parity ∧ s.data + s.parity ≤ maxShards

instance (s : Scheme) : Decidable s.Valid :=
  inferInstanceAs (Decidable (_ ∧ _))

theorem Valid.total_eq {s : Scheme} (h : s.Valid) : s.total = s.data + s.parity := by
  obtain ⟨-, -, hle⟩ := h
  exact Nat.mod_eq_of_lt (Nat.lt_of_le_of_lt hle (by decide))

/-- What the check lets through: valid counts, and those whose sum wraps to a small one. -/
def Accepted (s : Scheme) : Prop :=
  0 < s.data ∧ 0 < s.parity ∧ s.total ≤ maxShards

instance (s : Scheme) : Decidable s.Accepted :=
  inferInstanceAs (Decidable (_ ∧ _))

theorem Valid.accepted {s : Scheme} (h : s.Valid) : s.Accepted :=
  ⟨h.1, h.2.1, h.total_eq ▸ h.2.2⟩

/-- What is accepted is valid unless the sum of the counts wraps. -/
theorem Accepted.valid {s : Scheme} (h : s.Accepted) (hs : s.data + s.parity < wordLimit) : s.Valid := by
  obtain ⟨hk, hm, hle⟩ := h
  rw [total, Nat.mod_eq_of_lt hs] at hle
  exact ⟨hk, hm, hle⟩

/-- The first fault of the counts, data before parity before their sum. -/
def fault? (s : Scheme) : Option SchemeFault :=
  if s.data = 0 then some .noData
  else if s.parity = 0 then some .noParity
  else if maxShards < s.total then some (.tooMany maxShards s.total)
  else none

theorem fault?_eq_none_iff {s : Scheme} : s.fault? = none ↔ s.Accepted := by
  unfold fault? Accepted
  by_cases hk : s.data = 0
  · simp [hk]
  by_cases hm : s.parity = 0
  · simp [hk, hm]
  by_cases ht : maxShards < s.total
  · simp [hk, hm, ht]
  · simp [hk, hm, ht]
    omega

def check (s : Scheme) : Except CodingError Unit :=
  match s.fault? with
  | some f => .error (.scheme f)
  | none => .ok ()

/-- `k+m` -/
def text (s : Scheme) : String := s!"{s.data}+{s.parity}"

/-- Parity bytes stored for each data byte. -/
def overhead (s : Scheme) : Float := Float.ofNat s.parity / Float.ofNat s.data

/-- The least shard length at which `k` shards hold `size` bytes. -/
def shardSizeFor (s : Scheme) (size : Nat) : Nat :=
  (size + s.data - 1) / s.data

end Scheme

end ShardCoding

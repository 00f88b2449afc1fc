import ShardCoding.Code.Maintenance

/-!
# The effects of the buffered operations

* `Effect.event?`, `eventsOf` : what effects announce;
* `Code.encode_traced`, `decode_traced`, `verify_traced`, `repair_traced` : each operation with all its effects, by the
  outcome of its checks.
-/

namespace ShardCoding

/-- The event of an announcement. -/
def Effect.event? : Effect → Option Event
  | .announce event => some event
  | _ => none

def eventsOf (effects : List Effect) : List Event := effects.filterMap Effect.event?

theorem eventsOf_append (effects effects' : List Effect) :
    eventsOf (effects ++ effects') = eventsOf effects ++ eventsOf effects' := List.filterMap_append

theorem eventsOf_map_announce (events : List Event) : eventsOf (events.map .announce) = events := by
  unfold eventsOf
  rw [List.filterMap_map]
  exact List.filterMap_some

/-- A sequence that succeeds does so in both parts. -/
theorem exists_of_bind_eq_ok {ε α β : Type} {x : Except ε α} {f : α → Except ε β} {b : β}
    (h : x >>= f = .ok b) : ∃ a, x = .ok a ∧ f a = .ok b := by
  cases x with
  | error e => cases h
  | ok a => exact ⟨a, rfl, h⟩

namespace Code

variable (code : Code)

theorem encode_traced (data : Bytes) :
    let size := code.scheme.shardSizeFor data.length
    (code.encode data).effects = [.acquire .shared, .count .encodes 1, .keepDigests ((code.shardsOf size data).map sha256),
      .count .bytesEncoded data.length, .time .encode, .release .shared,
      .announce (.encoding ⟨data.length, code.scheme.data, code.scheme.parity, size⟩)] := rfl

theorem decode_traced (slots : Slots) (present : List Nat) (dataSize shardSize : Nat) :
    code.decode slots present dataSize shardSize =
      match code.decodeShards slots present dataSize shardSize with
      | .error e => ⟨.error e, [.acquire .shared, .count .decodes 1, .release .shared]⟩
      | .ok data => ⟨.ok data, [.acquire .shared, .count .decodes 1, .count .bytesDecoded dataSize, .time .decode,
          .release .shared, .announce (.decoding ⟨dataSize, present.length, code.scheme.total,
            present.length < code.scheme.total⟩)]⟩ := by
  unfold decode
  cases code.decodeShards slots present dataSize shardSize <;> rfl

theorem verify_traced (slots : Slots) :
    code.verify slots =
      match code.fullSet slots with
      | .error e => ⟨.error e, [.acquire .shared, .release .shared]⟩
      | .ok shards =>
        let corrupted := code.mismatches (shards.headD []).length shards
        ⟨.ok ⟨corrupted.isEmpty, corrupted⟩, .acquire .shared ::
          (if corrupted.isEmpty then [] else [.count .parityMismatches corrupted.length]) ++
          [.time .verify, .release .shared]⟩ := by
  unfold verify
  cases code.fullSet slots with
  | error e => rfl
  | ok shards =>
    simp only [bind, Traced.andThen, Traced.ofExcept, Traced.guarded]
    generalize code.mismatches (shards.headD []).length shards = corrupted
    cases corrupted <;> rfl

theorem repair_traced (slots : Slots) (present : List Nat) (dataSize shardSize : Nat) :
    code.repair slots present dataSize shardSize =
      match code.repairShards slots present dataSize shardSize with
      | .error e => ⟨.error e, [.acquire .exclusive, .release .exclusive]⟩
      | .ok (rebuilt, missing) => ⟨.ok ⟨rebuilt, missing, missing.length * shardSize⟩, [.acquire .exclusive,
          .count .repairs 1, .count .bytesRepaired (missing.length * shardSize), .time .repair, .release .exclusive] ++
          (if missing.isEmpty then [] else [.announce (.repair ⟨missing, shardSize⟩)])⟩ := by
  unfold repair
  cases code.repairShards slots present dataSize shardSize with
  | error e => rfl
  | ok repaired =>
    obtain ⟨rebuilt, missing⟩ := repaired
    simp only [bind, Traced.andThen, Traced.ofExcept, Traced.guarded]
    cases missing <;> rfl

/-- A repair rebuilds the parity shards that are not listed. -/
theorem missing_of_repairShards {slots rebuilt : Slots} {present missing : List Nat} {dataSize shardSize : Nat}
    (h : code.repairShards slots present dataSize shardSize = .ok (rebuilt, missing)) :
    missing = code.unlisted present := by
  unfold repairShards at h
  obtain ⟨_, -, h⟩ := exists_of_bind_eq_ok h
  obtain ⟨_, -, h⟩ := exists_of_bind_eq_ok h
  split at h
  · obtain ⟨_, hthrow, -⟩ := exists_of_bind_eq_ok h
    cases hthrow
  · dsimp only at h
    split at h
    · obtain ⟨_, hthrow, -⟩ := exists_of_bind_eq_ok h
      cases hthrow
    · obtain ⟨_, -, h⟩ := exists_of_bind_eq_ok h
      obtain ⟨_, -, h⟩ := exists_of_bind_eq_ok h
      cases h
      rfl

/-- They are in ascending order. -/
theorem pairwise_unlisted (present : List Nat) : (code.unlisted present).Pairwise (· < ·) := by
  unfold unlisted
  refine List.Pairwise.filter _ (List.pairwise_map.2 ?_)
  exact List.pairwise_lt_range.imp fun h => by omega

end Code

end ShardCoding

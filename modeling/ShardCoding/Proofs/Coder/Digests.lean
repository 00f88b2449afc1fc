import ShardCoding.Proofs.Coder.Session
import ShardCoding.Proofs.Digest.Cache
import ShardCoding.Proofs.Stream.DigestSink

/-!
# The digests that a coder keeps

* `keptBy` : the digests that effects have a coder keep; `Call.shards?` : the shards of a call that encodes and succeeds;
  `Call.keptBy_effects` : a call has their digests kept, and no other call has any kept;
* `Coder.digests_call` : the digests after a call; `Coder.digests_after` : after a session.
-/

namespace ShardCoding

def Effect.digests? : Effect → Option (List Digest)
  | .keepDigests digests => some digests
  | _ => none

/-- All digests that effects have a coder keep, one list for each time. -/
def keptBy (effects : List Effect) : List (List Digest) := effects.filterMap Effect.digests?

theorem keptBy_append (effects effects' : List Effect) :
    keptBy (effects ++ effects') = keptBy effects ++ keptBy effects' := List.filterMap_append

theorem keptBy_map_announce (events : List Event) : keptBy (events.map .announce) = [] := by
  rw [keptBy, List.filterMap_map]
  exact List.filterMap_eq_nil_iff.2 fun _ _ => rfl

/-- The shards of a call that encodes and succeeds: those that it yields, or what it added to its sinks. -/
def Call.shards? (code : Code) : Call → Option (List Bytes)
  | .encode data => (code.encode data).result.toOption.map fun e => e.shards.map Shard.data
  | .encodeParallel data => (code.encodeParallel data).result.toOption.map fun e => e.shards.map Shard.data
  | .encodeStream source sinks o =>
    let encoding := code.encodeStream source sinks o
    encoding.outcome.result.toOption.map fun _ => gained sinks encoding.sinks
  | _ => none

namespace Call

variable {code : Code}

theorem shards?_encode (code : Code) (data : Bytes) :
    (encode data).shards? code = some (code.shardsOf (code.scheme.shardSizeFor data.length) data) := by
  have hresult := code.result_encode data
  rw [shards?, hresult]
  exact congrArg some (Code.map_data_encode hresult)

theorem shards?_encodeParallel (code : Code) (data : Bytes) :
    (encodeParallel data).shards? code = (encode data).shards? code := by
  rw [shards?, shards?, code.encodeParallel_eq]

/-- One shard for each index. -/
theorem length_shards? {call : Call} {shards : List Bytes} (h : call.shards? code = some shards) :
    shards.length = code.scheme.total := by
  cases call with
  | encode data =>
    rw [shards?_encode] at h
    rw [← Option.some.inj h, Code.length_shardsOf]
  | encodeParallel data =>
    rw [shards?_encodeParallel, shards?_encode] at h
    rw [← Option.some.inj h, Code.length_shardsOf]
  | encodeStream source sinks o =>
    rw [shards?] at h
    cases hresult : (code.encodeStream source sinks o).outcome.result with
    | error e =>
      rw [hresult] at h
      cases h
    | ok s =>
      rw [hresult] at h
      rw [← Option.some.inj h]
      exact (Code.checksums_encodeStream hresult).1
  | _ => cases h

theorem keptBy_encodeStream (source : Source) (sinks : List Sink) (o : StreamOptions) :
    keptBy (code.encodeStream source sinks o).outcome.effects =
      (((encodeStream source sinks o).shards? code).map (List.map sha256)).toList := by
  rcases Code.encodeStream_cases code source sinks o with
    ⟨-, e, -, heq⟩ | ⟨-, ⟨-, heq⟩ | ⟨-, r, e, -, heq⟩⟩
  · rw [shards?, heq]
    rfl
  · rw [shards?, heq]
    rfl
  · have heffects : keptBy (code.encodeStream source sinks o).outcome.effects = keptBy (encodeClosing (e.ending r)) := by
      rw [heq, ChunkEncoder.conclude, keptBy_append, keptBy_append]
      show keptBy (e.announced.reverse.map .announce) ++ _ ++ [] = _
      rw [keptBy_map_announce, List.append_nil]
      rfl
    have hresult : (code.encodeStream source sinks o).outcome.result = e.ending r := by rw [heq]; rfl
    rw [heffects, shards?]
    cases hending : e.ending r with
    | error err =>
      rw [hending] at hresult
      rw [hresult]
      rfl
    | ok s =>
      rw [hending] at hresult
      rw [hresult]
      exact congrArg (fun digests => [digests]) (Code.checksums_encodeStream hresult).2

/-- An encode that succeeds has the digests of its shards kept, and nothing else has any kept. -/
theorem keptBy_effects (code : Code) (call : Call) :
    keptBy (call.effects code) = ((call.shards? code).map (List.map sha256)).toList := by
  cases call with
  | encode data =>
    rw [shards?_encode, effects, code.encode_traced]
    rfl
  | encodeParallel data =>
    rw [shards?_encodeParallel, shards?_encode, effects, code.encodeParallel_eq, code.encode_traced]
    rfl
  | decode slots present dataSize shardSize =>
    rw [effects, code.decode_traced]
    cases code.decodeShards slots present dataSize shardSize <;> rfl
  | verify slots =>
    rw [effects, code.verify_traced]
    cases code.fullSet slots with
    | error e => rfl
    | ok shards =>
      dsimp only
      split <;> rfl
  | repair slots present dataSize shardSize =>
    rw [effects, code.repair_traced]
    cases code.repairShards slots present dataSize shardSize with
    | error e => rfl
    | ok repaired =>
      dsimp only
      split <;> rfl
  | encodeStream source sinks o => exact keptBy_encodeStream source sinks o
  | decodeStream sources present dataSize sink o =>
    rw [effects]
    rcases Code.decodeStream_cases code sources present dataSize sink o with
      ⟨-, e, -, heq⟩ | ⟨-, ⟨e, -, heq⟩ | ⟨-, plan, r, d, -, -, heq⟩⟩ <;> rw [heq]
    · rfl
    · rfl
    · rw [ChunkDecoder.conclude, keptBy_append, keptBy_append]
      show keptBy (d.announced.reverse.map .announce) ++ keptBy (decodeClosing plan (d.ending r)) ++ [] = []
      rw [keptBy_map_announce]
      cases d.ending r <;> rfl
  | announce event => rfl

end Call

namespace Coder

/-- Announcements leave the digests alone when no observer calls back. -/
theorem digests_announced (c : Coder) (event : Event) :
    (c.bus.active.foldl (deliver (fun _ c => c) event) c).digests = c.digests :=
  List.foldlRecOn _ _ (motive := fun c' : Coder => c'.digests = c.digests) rfl fun _ hc id _ =>
    deliver_keeps (P := fun c' => c'.digests = c.digests) (fun _ _ _ h => h) (fun _ _ h => h) event hc id

theorem digests_performWith (effects : List Effect) (c : Coder) :
    (performWith (fun _ c => c) effects c).digests = (keptBy effects).getLast?.elim c.digests .ofDigests := by
  rw [performWith_eq]
  induction effects generalizing c with
  | nil => rfl
  | cons effect effects ih =>
    rw [List.foldl_cons, ih]
    cases effect with
    | announce event =>
      exact congrArg (fun kept => (keptBy effects).getLast?.elim kept .ofDigests) (digests_announced c event)
    | keepDigests digests =>
      show _ = (digests :: keptBy effects).getLast?.elim c.digests _
      rw [List.getLast?_cons]
      cases (keptBy effects).getLast? <;> rfl
    | _ => rfl

/-- A call that encodes and succeeds replaces the digests, and every other call leaves them. -/
theorem digests_call {c : Coder} {call : Call} (h : c.callsDuring (call.effects c.code) = []) :
    (c.call call).digests = (call.shards? c.code).elim c.digests fun shards => .ofDigests (shards.map sha256) := by
  rw [Coder.call, perform_of_noCallback (noCallback_of_callsDuring h), digests_performWith, call.keptBy_effects]
  cases call.shards? c.code <;> rfl

/-- The shards of an act that is a call which encodes and succeeds. -/
def shardsOfAct? (code : Code) (a : Act) : Option (List Bytes) := a.call?.bind (Call.shards? code)

theorem digests_act {c : Coder} {a : Act} (h : c.callsIn a = []) :
    (c.act a).digests = (shardsOfAct? c.code a).elim c.digests fun shards => .ofDigests (shards.map sha256) := by
  cases a with
  | call call => exact digests_call h
  | _ => rfl

theorem digests_after_eq {c : Coder} {acts : List Act} (h : c.callbacks acts = []) : (c.after acts).digests =
    (acts.filterMap (shardsOfAct? c.code)).getLast?.elim c.digests fun shards => .ofDigests (shards.map sha256) := by
  unfold after
  induction acts generalizing c with
  | nil => rfl
  | cons a acts ih =>
    obtain ⟨hnone, hlater⟩ := List.append_eq_nil_iff.1 h
    rw [List.foldl_cons, ih hlater, digests_act hnone, code_act, List.filterMap_cons]
    cases shardsOfAct? c.code a with
    | none => rfl
    | some shards =>
      dsimp only
      rw [List.getLast?_cons]
      cases (acts.filterMap (shardsOfAct? c.code)).getLast? <;> rfl

/-- **The digests kept**: after a session in which no observer calls back into the coder, it keeps no digests if no encode
has succeeded, and otherwise those of the shards of the last one that did, under the indices of all shards and no
others. -/
theorem digests_after (code : Code) (thresholds : Thresholds Float) (acts : List Act)
    (h : (fresh code thresholds).callbacks acts = []) :
    let kept := ((fresh code thresholds).after acts).digests
    let encoded := acts.filterMap (shardsOfAct? code)
    (encoded = [] → kept.isEmpty) ∧
    (∀ shards, encoded.getLast? = some shards → shards.length = code.scheme.total ∧
      kept.entries.map Prod.fst = List.range code.scheme.total ∧ ∀ i, kept.get? i = shards[i]?.map sha256) ∧
    ∀ i, code.scheme.total ≤ i → kept.get? i = none := by
  dsimp only
  have hkept := digests_after_eq h
  rw [show (fresh code thresholds).code = code from rfl] at hkept
  have hlength : ∀ shards, (acts.filterMap (shardsOfAct? code)).getLast? = some shards →
      shards.length = code.scheme.total := by
    intro shards hlast
    obtain ⟨a, -, ha⟩ := List.mem_filterMap.1 (List.mem_of_getLast? hlast)
    obtain ⟨call, -, hcall⟩ := Option.bind_eq_some_iff.1 ha
    exact Call.length_shards? hcall
  rw [hkept]
  refine ⟨fun hnone => ?_, fun shards hlast => ?_, fun i hi => ?_⟩
  · rw [hnone]
    rfl
  · have htotal := hlength shards hlast
    rw [hlast, Option.elim_some]
    refine ⟨htotal, ?_, fun i => ?_⟩
    · rw [DigestCache.keys_ofDigests, List.length_map, htotal]
    · rw [DigestCache.get?_ofDigests, List.getElem?_map]
  · cases hlast : (acts.filterMap (shardsOfAct? code)).getLast? with
    | none => rfl
    | some shards =>
      rw [Option.elim_some, DigestCache.get?_ofDigests, List.getElem?_map,
        List.getElem?_eq_none (by rw [hlength shards hlast]; exact hi)]
      rfl

/-- An encode of three bytes, then a streaming encode of two bytes into sinks of which one holds a byte already, and then a
streaming encode that is refused and a decode that fails, while an observer looks on: the digests are those of the
bytes that the first streaming encode added. -/
theorem digests_after_one_one : ∃ (code : Code) (acts : List Act),
    code.scheme = ⟨1, 1⟩ ∧ acts = [.subscribe (.mk .everything []), .call (.encode [1, 2, 3]),
      .call (.encodeStream { rest := [4, 5] } [{ received := #[9] }, {}] ⟨2, 0⟩),
      .call (.encodeStream { rest := [6] } [{}, {}] ⟨0, 0⟩), .call (.decode [] [] 1 1)] ∧
    ((fresh code .standard).after []).digests.isEmpty ∧
    let kept := ((fresh code .standard).after acts).digests
    kept.entries.map Prod.fst = [0, 1] ∧ kept.get? 0 = some (sha256 [4, 5]) ∧ kept.get? 1 = some (sha256 [4, 5]) ∧
    kept.get? 2 = none := by
  let code := Code.ofValid ⟨1, 1⟩ (by decide)
  let acts : List Act := [.subscribe (.mk .everything []), .call (.encode [1, 2, 3]),
    .call (.encodeStream { rest := [4, 5] } [{ received := #[9] }, {}] ⟨2, 0⟩),
    .call (.encodeStream { rest := [6] } [{}, {}] ⟨0, 0⟩), .call (.decode [] [] 1 1)]
  obtain ⟨hempty, -⟩ := digests_after code .standard [] rfl
  obtain ⟨-, hlast, hbeyond⟩ := digests_after code .standard acts (by decide +kernel)
  have hshards : (acts.filterMap (shardsOfAct? code)).getLast? = some [[4, 5], [4, 5]] := by decide +kernel
  obtain ⟨-, hkeys, hget⟩ := hlast _ hshards
  exact ⟨code, acts, rfl, rfl, hempty rfl, hkeys, hget 0, hget 1, hbeyond 2 (by decide)⟩

end Coder

end ShardCoding

import ShardCoding.Proofs.Coder.Delivery
import ShardCoding.Proofs.Stream.Progress

/-!
# What calls announce

* `Call.Announces` : what a call is to announce; `Call.announces_effects` : what its effects announce;
* `Coder.announcements` : what a subscribed observer hears of a call.
-/

namespace ShardCoding

/-- `events` are what a call announces: one event for an encode, one for a decode that succeeds and for a repair that
rebuilds anything, none for a verification, and for a streaming call one for each chunk, with a last one for the whole of
a decode. A streaming call that fails announces a front of the chunks, which for an encode are those of any input that
goes on from the bytes read; these are all of it once the source is at its end. -/
def Call.Announces (code : Code) (events : List Event) : Call → Prop
  | .encode data | .encodeParallel data =>
    events = [.encoding ⟨data.length, code.scheme.data, code.scheme.parity, code.scheme.shardSizeFor data.length⟩]
  | .decode slots present dataSize shardSize =>
    events = if (code.decode slots present dataSize shardSize).result.isOk then
      [code.decodingEvent present.length dataSize] else []
  | .verify _ => events = []
  | .repair slots present dataSize shardSize =>
    match (code.repair slots present dataSize shardSize).result with
    | .ok r => r.repairedIndices.Pairwise (· < ·) ∧
      events = if r.repairedIndices = [] then [] else [.repair ⟨r.repairedIndices, shardSize⟩]
    | .error _ => events = []
  | .encodeStream source sinks o =>
    let encoding := code.encodeStream source sinks o
    let read := source.rest.length - encoding.source.rest.length
    match encoding.outcome.result with
    | .ok s => s.totalBytes = read ∧ s.chunks = o.chunkCount read ∧ events = code.encodeProgress o read ∧
      o.reached read (o.chunkCount read - 1) = read
    | .error _ => ∀ total, read ≤ total → (encoding.source.AtEnd → total = read) →
      events <+: code.encodeProgress o total
  | .decodeStream sources present dataSize sink o =>
    match (code.decodeStream sources present dataSize sink o).outcome.result with
    | .ok written => written = dataSize ∧
      events = code.decodeProgress o present.length dataSize ++ [code.decodingEvent present.length dataSize]
    | .error _ => events <+: code.decodeProgress o present.length dataSize
  | .announce event => events = [event]

namespace Call

variable {code : Code}

theorem announces_repair (slots : Slots) (present : List Nat) (dataSize shardSize : Nat) :
    (repair slots present dataSize shardSize).Announces code
      (eventsOf (code.repair slots present dataSize shardSize).effects) := by
  rw [Announces, code.repair_traced]
  cases hrepair : code.repairShards slots present dataSize shardSize with
  | error e => rfl
  | ok repaired =>
    obtain ⟨rebuilt, missing⟩ := repaired
    obtain rfl := code.missing_of_repairShards hrepair
    refine ⟨code.pairwise_unlisted present, ?_⟩
    dsimp only
    cases code.unlisted present <;> rfl

theorem announces_encodeStream (source : Source) (sinks : List Sink) (o : StreamOptions) :
    (encodeStream source sinks o).Announces code (eventsOf (code.encodeStream source sinks o).outcome.effects) := by
  obtain ⟨delivered, hhands, hok, herror⟩ := code.encodeStream_announces source sinks o
  have hread : source.rest.length - (code.encodeStream source sinks o).source.rest.length = delivered.length := by
    rw [hhands.rest_eq, List.length_append, Nat.add_sub_cancel]
  unfold Announces
  dsimp only
  rw [hread]
  cases hresult : (code.encodeStream source sinks o).outcome.result with
  | error e => exact herror e hresult
  | ok s =>
    obtain ⟨ho, htotal, hchunks, hevents⟩ := hok s hresult
    exact ⟨htotal, hchunks, hevents, StreamOptions.reached_last ho delivered.length⟩

/-- The effects of a call announce what the call is to announce. -/
theorem announces_effects (code : Code) (call : Call) : call.Announces code (eventsOf (call.effects code)) := by
  cases call with
  | encode data => rfl
  | encodeParallel data => rfl
  | decode slots present dataSize shardSize =>
    rw [Announces, effects, code.decode_traced]
    cases code.decodeShards slots present dataSize shardSize <;> rfl
  | verify slots =>
    rw [Announces, effects, code.verify_traced]
    cases code.fullSet slots with
    | error e => rfl
    | ok shards =>
      dsimp only
      split <;> rfl
  | repair slots present dataSize shardSize => exact announces_repair slots present dataSize shardSize
  | encodeStream source sinks o => exact announces_encodeStream source sinks o
  | decodeStream sources present dataSize sink o =>
    obtain ⟨hok, herror⟩ := code.decodeStream_announces sources present dataSize sink o
    unfold Announces
    dsimp only
    cases hresult : (code.decodeStream sources present dataSize sink o).outcome.result with
    | error e => exact herror e hresult
    | ok written => exact hok written hresult
  | announce event => rfl

end Call

namespace Coder

/-- **Announcements**: after any session a call announces what it is to announce. Of this a subscribed observer hears the
events of its interest, in their order, as long as it is subscribed, and the first of them in any case. Other events
come in between only through calls that observers make meanwhile. -/
theorem announcements (code : Code) (thresholds : Thresholds Float) (acts : List Act) (call : Call) :
    let c := (fresh code thresholds).after acts
    let events := eventsOf (call.effects code)
    call.Announces code events ∧
    ∀ id ∈ c.bus.active, ∃ o heard new, c.bus.issued[id]? = some o ∧ heard <+: events ∧
      (events ≠ [] → heard ≠ []) ∧ (id ∈ (c.call call).bus.active → heard = events) ∧
      (c.call call).told id = c.told id ++ new ∧ (heard.filter o.interest.hears).Sublist new ∧
      (c.callsDuring (call.effects code) = [] → new = heard.filter o.interest.hears) := by
  refine ⟨call.announces_effects code, fun id hid => ?_⟩
  have hsound := sound_after code thresholds acts
  obtain ⟨o, ho⟩ := hsound.exists_issued hid
  have hcode : ((fresh code thresholds).after acts).code = code := code_after _ acts
  have hheard := hears_perform (call.effects code) hsound ⟨o, ho, rfl⟩ hid
  obtain ⟨heard, new, hfront, hsome, hwhole, htold, hsub, hnew⟩ := hheard
  rw [Coder.call, hcode]
  exact ⟨o, heard, new, ho, hfront, hsome, hwhole, htold, hsub, hnew⟩

/-- Two observers, the second for encodings only: both hear the four chunks of a streaming encode of five bytes in chunks of
two with one repeated, and only the first hears of a decode. -/
theorem announcements_one_one : ∃ (code : Code) (acts : List Act),
    code.scheme = ⟨1, 1⟩ ∧ acts = [.subscribe (.mk .everything []), .subscribe (.mk .encodings [])] ∧
    code.encodeProgress ⟨2, 1⟩ 5 =
      [.encoding ⟨2, 1, 1, 2⟩, .encoding ⟨3, 1, 1, 2⟩, .encoding ⟨4, 1, 1, 2⟩, .encoding ⟨5, 1, 1, 2⟩] ∧
    let c := (fresh code .standard).after acts
    let encode := Call.encodeStream { rest := [1, 2, 3, 4, 5] } [{}, {}] ⟨2, 1⟩
    let decode := Call.decode [some [7], none] [0] 1 1
    (c.call encode).told 0 = code.encodeProgress ⟨2, 1⟩ 5 ∧ (c.call encode).told 1 = code.encodeProgress ⟨2, 1⟩ 5 ∧
    (c.call decode).told 0 = [code.decodingEvent 1 1] ∧ (c.call decode).told 1 = [] := by
  let code := Code.ofValid ⟨1, 1⟩ (by decide)
  let acts : List Act := [.subscribe (.mk .everything []), .subscribe (.mk .encodings [])]
  let c := (fresh code .standard).after acts
  let encode := Call.encodeStream { rest := [1, 2, 3, 4, 5] } [{}, {}] ⟨2, 1⟩
  let decode := Call.decode [some [7], none] [0] 1 1
  have hears : ∀ (call : Call) (id : Nat) (o : Observer), id ∈ c.bus.active → c.bus.issued[id]? = some o →
      id ∈ (c.call call).bus.active → c.callsDuring (call.effects code) = [] →
      (c.call call).told id = (eventsOf (call.effects code)).filter o.interest.hears := by
    intro call id o hid ho hstill hnone
    obtain ⟨-, hhear⟩ := announcements code .standard acts call
    obtain ⟨o', heard, new, ho', -, -, hwhole, htold, -, hnew⟩ := hhear id hid
    obtain rfl := Option.some.inj (ho.symm.trans ho')
    rw [htold, hnew hnone, hwhole hstill]
    exact List.nil_append _
  have hencode : eventsOf (encode.effects code) = code.encodeProgress ⟨2, 1⟩ 5 := by decide +kernel
  have hdecode : eventsOf (decode.effects code) = [code.decodingEvent 1 1] := by decide +kernel
  have hstill : ∀ id < 2, id ∈ (c.call encode).bus.active ∧ id ∈ (c.call decode).bus.active := by decide +kernel
  have hnone : c.callsDuring (encode.effects code) = [] ∧ c.callsDuring (decode.effects code) = [] := by decide +kernel
  refine ⟨code, acts, rfl, rfl, by decide +kernel, ?_, ?_, ?_, ?_⟩
  · rw [hears encode 0 (.mk .everything []) (by decide) rfl (hstill 0 (by decide)).1 hnone.1, hencode]
    decide +kernel
  · rw [hears encode 1 (.mk .encodings []) (by decide) rfl (hstill 1 (by decide)).1 hnone.1, hencode]
    decide +kernel
  · rw [hears decode 0 (.mk .everything []) (by decide) rfl (hstill 0 (by decide)).2 hnone.2, hdecode]
    decide +kernel
  · rw [hears decode 1 (.mk .encodings []) (by decide) rfl (hstill 1 (by decide)).2 hnone.2, hdecode]
    decide +kernel

end Coder

end ShardCoding

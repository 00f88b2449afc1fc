import ShardCoding.Proofs.Coder.Perform
import ShardCoding.Proofs.Stream.Encode

/-!
# Streaming encodes that fail

A streaming encode is refused or panics before it touches its endpoints, or it is stopped by a failure of the source or of
a sink. Then every sink holds a front of what it would hold otherwise.

* `Code.streamed` : what the sinks get when nothing fails; `GotFronts` : every sink got a front of its own;
* `Code.encodeStream_refused`, `Code.encodeStream_panicked`, `Code.encodeStream_stopped` : the three ways to fail;
* `Coder.encodeStream_failure` : what a refusal and a failure leave of the endpoints and of the coder.
-/

namespace ShardCoding

/-- What the sinks of a streaming encode of `input` get when nothing fails. -/
def Code.streamed (code : Code) (o : StreamOptions) (input : Bytes) : List Bytes :=
  (code.encodeStream { rest := input } (List.replicate code.scheme.total {}) o).sinks.map Sink.content

/-- Every sink got a front of its own one of `wholes`, behind what it held. -/
def GotFronts (sinks : List Sink) (wholes : List Bytes) (sinks' : List Sink) : Prop :=
  ∃ fronts, List.Forall₂ (· <+: ·) fronts wholes ∧
    sinks'.map Sink.content = List.zipWith (· ++ ·) (sinks.map Sink.content) fronts

variable {code : Code} {o : StreamOptions} {source : Source} {sinks : List Sink}

theorem Code.streamed_eq (ho : o.Valid) (hfits : o.chunk < bufferLimit) (input : Bytes) :
    code.streamed o input = (List.range code.scheme.total).map (code.streamShard (o.chunks [] input)) := by
  have hsteady : ({ rest := input } : Source).pacing.Steady := Pacing.steady_default
  obtain ⟨-, -, -, -, -, hcontents⟩ := code.encodeStream_replicate ho hfits hsteady
  exact hcontents

/-- Taking, from the start of a streaming encode, fronts of the shards that it is to write. -/
theorem TakesFronts.gotFronts (ho : o.Valid) (hfits : o.chunk < bufferLimit)
    (hlen : sinks.length = code.scheme.total) {input : Bytes} {sinks' : List DigestSink}
    (h : TakesFronts (ChunkEncoder.start source sinks).sinks (code.streamShard (o.chunks [] input)) sinks') :
    GotFronts sinks (code.streamed o input) (sinks'.map DigestSink.inner) := by
  obtain ⟨pieces, htakes, hfront⟩ := h
  refine ⟨(List.range code.scheme.total).map pieces, ?_, ?_⟩
  · rw [Code.streamed_eq ho hfits, List.forall₂_map_left_iff, List.forall₂_map_right_iff, List.forall₂_same]
    exact fun i _ => hfront i
  · rw [htakes.contents_start]
    refine List.ext_getElem (by simp [hlen]) fun i hi hi' => ?_
    simp

namespace Code

/-- Options or a number of sinks that are refused: the endpoints are not touched and nothing is left to carry out. -/
theorem encodeStream_refused (source : Source) (h : ¬ (o.Valid ∧ sinks.length = code.scheme.total)) :
    ∃ e, e.errorClass = .argument ∧ code.encodeStream source sinks o = ⟨.fail e, source, sinks⟩ := by
  have hcheck : ∃ e : CodingError, e.errorClass = .argument ∧ code.checkEncodeStream sinks o = .error e := by
    unfold checkEncodeStream
    by_cases ho : o.Valid
    · rw [StreamOptions.check_eq_ok ho]
      exact ⟨_, rfl, if_pos fun hlen => h ⟨ho, hlen⟩⟩
    · unfold StreamOptions.check
      cases hfault : o.fault? with
      | none => exact absurd (StreamOptions.fault?_eq_none_iff.1 hfault) ho
      | some f => exact ⟨_, rfl, rfl⟩
  obtain ⟨e, hclass, hcheck⟩ := hcheck
  refine ⟨e, hclass, ?_⟩
  unfold encodeStream
  rw [hcheck]

/-- A chunk that no buffer has room for: the call counts, and panics before it touches its endpoints. -/
theorem encodeStream_panicked (ho : o.Valid) (hlen : sinks.length = code.scheme.total) (hlarge : bufferLimit ≤ o.chunk)
    (source : Source) : code.encodeStream source sinks o =
      ⟨⟨.error (.panicked .capacityOverflow), [.acquire .shared, .count .encodes 1, .release .shared]⟩, source, sinks⟩ := by
  unfold encodeStream
  rw [code.checkEncodeStream_eq_ok ho hlen]
  dsimp only
  rw [if_pos hlarge]
  rfl

/-- A failure of an endpoint comes from the loop, or from the flushing that follows it. The operation has been counted
then, and its chunks have been announced. -/
theorem encodeStream_stopped (ho : o.Valid) (hlen : sinks.length = code.scheme.total) {kind : IoKind}
    (h : (code.encodeStream source sinks o).outcome.result = .error (.io kind)) :
    o.chunk < bufferLimit ∧ ∃ r e, ChunkEncoder.run code o (.start source sinks) = (r, e) ∧
      (code.encodeStream source sinks o).source = e.source ∧
      (code.encodeStream source sinks o).sinks = e.sinks.map DigestSink.inner ∧
      (r = .error kind ∨ r = .ok () ∧ flushFault? e.sinks = some kind) ∧
      (code.encodeStream source sinks o).outcome.effects =
        .acquire .shared :: .count .encodes 1 :: e.announced.reverse.map .announce ++ [.release .shared] := by
  have hfits : o.chunk < bufferLimit := by
    by_contra hlarge
    rw [encodeStream_panicked ho hlen (Nat.le_of_not_lt hlarge)] at h
    cases h
  refine ⟨hfits, ?_⟩
  rcases hrun : ChunkEncoder.run code o (.start source sinks) with ⟨r, e⟩
  refine ⟨r, e, rfl, ?_⟩
  rw [ChunkEncoder.start] at hrun
  unfold encodeStream at h ⊢
  rw [code.checkEncodeStream_eq_ok ho hlen] at h ⊢
  dsimp only at h ⊢
  rw [if_neg (Nat.not_le.2 hfits), hrun] at h ⊢
  dsimp only at h ⊢
  refine ⟨rfl, rfl, ?_⟩
  cases r with
  | error kind' =>
    obtain rfl := CodingError.io.inj (Except.error.inj h)
    refine ⟨Or.inl rfl, ?_⟩
    simp [Traced.guarded, Traced.emit, Traced.announceAll, bind, Traced.andThen, Traced.fail]
  | ok =>
    cases hflush : flushFault? e.sinks with
    | none =>
      rw [hflush] at h
      cases h
    | some kind' =>
      rw [hflush] at h
      obtain rfl := CodingError.io.inj (Except.error.inj h)
      refine ⟨Or.inr ⟨rfl, rfl⟩, ?_⟩
      simp [Traced.guarded, Traced.emit, Traced.announceAll, bind, Traced.andThen, Traced.fail]

/-- The loop of an encode that was stopped left a front of every shard of what it read, and of whatever the source may
go on with unless it has come to its end. -/
theorem gotFronts_of_stopped (ho : o.Valid) (hfits : o.chunk < bufferLimit)
    (hlen : sinks.length = code.scheme.total) {kind : IoKind} {r : Except IoKind Unit} {e : ChunkEncoder}
    (hrun : ChunkEncoder.run code o (.start source sinks) = (r, e))
    (hfailed : r = .error kind ∨ r = .ok () ∧ flushFault? e.sinks = some kind) :
    ∃ delivered, source.Hands delivered e.source ∧
      (e.source.Broken kind ∨ ∃ s ∈ e.sinks, s.inner.Broken kind ∨ s.inner.flushFault = some kind) ∧
      ∀ input, delivered <+: input → (e.source.AtEnd → input = delivered) →
        GotFronts sinks (code.streamed o input) (e.sinks.map DigestSink.inner) := by
  have hcases := ChunkEncoder.run_cases ho (ChunkEncoder.length_carry_start ho source sinks)
    ((ChunkEncoder.length_sinks_start source sinks).trans hlen)
  rw [hrun] at hcases
  obtain ⟨delivered, hhands, ⟨hok, hend, hadvances⟩ | ⟨kind', herr, hbroken, hfronts⟩⟩ := hcases
  · -- only the flushing failed, so the sinks hold all that was read
    rcases hfailed with rfl | ⟨-, hflush⟩
    · cases hok
    obtain ⟨s, hs, hfault⟩ := List.exists_of_findSome?_eq_some hflush
    refine ⟨delivered, hhands, Or.inr ⟨s, hs, Or.inr hfault⟩, fun input _ hwhole => ?_⟩
    rw [hwhole hend]
    exact hadvances.takes.fronts.gotFronts ho hfits hlen
  · rcases hfailed with rfl | ⟨rfl, -⟩
    · obtain rfl := Except.error.inj herr
      refine ⟨delivered, hhands, hbroken.imp_right fun ⟨s, hs, hs'⟩ => ⟨s, hs, Or.inl hs'⟩, ?_⟩
      exact fun input hfront hwhole => (hfronts input hfront hwhole).gotFronts ho hfits hlen
    · cases herr

end Code

instance decidableEqExcept {ε α : Type} [DecidableEq ε] [DecidableEq α] : DecidableEq (Except ε α)
  | .ok a, .ok b => decidable_of_iff (a = b) ⟨congrArg _, Except.ok.inj⟩
  | .error e, .error e' => decidable_of_iff (e = e') ⟨congrArg _, Except.error.inj⟩
  | .ok _, .error _ => .isFalse nofun
  | .error _, .ok _ => .isFalse nofun

namespace Coder

/-- A count of encodes and announcements leave the digests and the count of bytes to the calls of observers. -/
theorem perform_stopped {c : Coder} {events : List Event} {effects : List Effect}
    (heffects : effects = .acquire .shared :: .count .encodes 1 :: events.map .announce ++ [.release .shared])
    (hcallback : c.NoCallback effects) :
    (c.perform effects).digests = c.digests ∧
      (c.perform effects).counters.bytesEncoded = c.counters.bytesEncoded := by
  refine perform_keeps (P := fun c' => c'.digests = c.digests ∧ c'.counters.bytesEncoded = c.counters.bytesEncoded)
    (fun _ _ _ h => h) (fun effect heffect c' h => ?_) hcallback ⟨rfl, rfl⟩
  rw [heffects] at heffect
  simp only [List.cons_append, List.mem_cons, List.mem_append, List.mem_map, List.not_mem_nil, or_false] at heffect
  rcases heffect with rfl | rfl | ⟨event, -, rfl⟩ | rfl <;> exact h

/-- **Failures of a streaming encode**: what is refused changes nothing. When an endpoint fails, every sink got a front of
what it gets in a run without failures on any input that goes on from the bytes that the source handed out, which are all
of it once the source is at its end; so also on the whole input of a source that hands out something while it can. The
digests kept and the count of bytes change only through calls that observers make meanwhile. -/
theorem encodeStream_failure (c : Coder) (source : Source) (sinks : List Sink) (o : StreamOptions) :
    let encoding := c.code.encodeStream source sinks o
    let result := (c.run encoding.outcome).1
    let after := (c.run encoding.outcome).2
    (¬ (o.Valid ∧ sinks.length = c.code.scheme.total) →
      (∃ e, result = .error e ∧ e.errorClass = .argument) ∧
      encoding.source = source ∧ encoding.sinks = sinks ∧ after = c) ∧
    ∀ kind, result = .error (.io kind) →
      (c.NoCallback encoding.outcome.effects →
        after.digests = c.digests ∧ after.counters.bytesEncoded = c.counters.bytesEncoded) ∧
      ∃ delivered, source.Hands delivered encoding.source ∧
        (encoding.source.Broken kind ∨ ∃ s ∈ encoding.sinks, s.Broken kind ∨ s.flushFault = some kind) ∧
        (encoding.source.Broken kind →
          ∀ input, delivered <+: input → GotFronts sinks (c.code.streamed o input) encoding.sinks) ∧
        (∀ input, delivered <+: input → (encoding.source.AtEnd → input = delivered) →
          GotFronts sinks (c.code.streamed o input) encoding.sinks) ∧
        ((∀ calls moved, source.pacing.turn calls moved ≠ .atMost 0) →
          GotFronts sinks (c.code.streamed o source.rest) encoding.sinks) := by
  refine ⟨fun hrefused => ?_, fun kind hkind => ?_⟩
  · obtain ⟨e, hclass, heq⟩ := Code.encodeStream_refused source hrefused
    rw [heq]
    exact ⟨⟨e, rfl, hclass⟩, rfl, rfl, perform_nil c⟩
  · have haccepted : o.Valid ∧ sinks.length = c.code.scheme.total := by
      by_contra hrefused
      obtain ⟨e, hclass, heq⟩ := Code.encodeStream_refused source hrefused
      rw [heq] at hkind
      obtain rfl := Except.error.inj hkind
      cases hclass
    obtain ⟨ho, hlen⟩ := haccepted
    obtain ⟨hfits, r, e, hrun, hsource, hsinks, hfailed, heffects⟩ := Code.encodeStream_stopped ho hlen hkind
    obtain ⟨delivered, hhands, hblame, hgot⟩ := Code.gotFronts_of_stopped ho hfits hlen hrun hfailed
    refine ⟨perform_stopped heffects, delivered, ?_⟩
    rw [hsource, hsinks]
    refine ⟨hhands, ?_, fun hbroken input hfront => ?_, hgot, fun hmoves => ?_⟩
    · simpa using hblame
    · exact hgot input hfront fun hend => absurd hbroken (hend.not_broken kind)
    · refine hgot _ ⟨_, hhands.rest_eq.symm⟩ fun hend => ?_
      rw [hhands.rest_eq, hend.rest_eq_nil (hhands.pacing_eq ▸ hmoves), List.append_nil]

/-- A source that fails after three of five bytes, read in chunks of two into two sinks while an observer looks on: the
first chunk is written and the byte after it is lost. With chunks of no bytes the same is refused. -/
theorem encodeStream_failure_one_one : ∃ (c : Coder) (source : Source) (sinks : List Sink),
    c.code.scheme = ⟨1, 1⟩ ∧ c.bus.size = 1 ∧ source.rest = [1, 2, 3, 4, 5] ∧
    (let encoding := c.code.encodeStream source sinks ⟨2, 0⟩
    let after := (c.run encoding.outcome).2
    (c.run encoding.outcome).1 = .error (.io .connectionReset) ∧
    encoding.sinks.map Sink.content = [[1, 2], [1, 2]] ∧
    after.digests = c.digests ∧ after.counters.bytesEncoded = c.counters.bytesEncoded ∧
    ∀ later, GotFronts sinks (c.code.streamed ⟨2, 0⟩ ([1, 2, 3] ++ later)) encoding.sinks) ∧
    (c.run (c.code.encodeStream source sinks ⟨0, 0⟩).outcome).2 = c := by
  let c : Coder := { code := .ofValid ⟨1, 1⟩ (by decide), bus := EventBus.subscribe {} (.mk .everything []) }
  let pacing : Pacing := { turn := fun _ moved => if moved < 3 then .atMost 1 else .fails .connectionReset }
  let source : Source := { rest := [1, 2, 3, 4, 5], pacing := pacing }
  let encoding := c.code.encodeStream source [{}, {}] ⟨2, 0⟩
  have hresult : (c.run encoding.outcome).1 = .error (.io .connectionReset) := by decide +kernel
  obtain ⟨-, hstopped⟩ := encodeStream_failure c source [{}, {}] ⟨2, 0⟩
  obtain ⟨hkeeps, delivered, hhands, -, hfronts, -⟩ := hstopped _ hresult
  obtain ⟨hdigests, hcount⟩ := hkeeps (noCallback_of_pendingCalls (by decide) _)
  have hrest : encoding.source.rest = [4, 5] := by decide +kernel
  have hdelivered : delivered = [1, 2, 3] := by
    have hsplit := hhands.rest_eq
    rw [hrest] at hsplit
    exact (List.append_cancel_right (show [1, 2, 3] ++ [4, 5] = delivered ++ [4, 5] from hsplit)).symm
  have hbroken : encoding.source.Broken .connectionReset := by
    refine ⟨3, by decide +kernel, ?_⟩
    rw [hhands.pacing_eq, hhands.consumed_eq, hdelivered]
    rfl
  obtain ⟨hrefused, -⟩ := encodeStream_failure c source [{}, {}] ⟨0, 0⟩
  obtain ⟨-, -, -, hsame⟩ := hrefused (by decide)
  refine ⟨c, source, [{}, {}], rfl, rfl, rfl, ⟨hresult, by decide +kernel, hdigests, hcount, fun later => ?_⟩, hsame⟩
  exact hfronts hbroken _ (hdelivered ▸ List.prefix_append _ _)

/-- An observer that encodes when it hears of the first chunk: its call replaces the digests and counts its bytes, and
the streaming encode fails afterwards. -/
theorem encodeStream_failure_called_back : ∃ (c : Coder) (source : Source),
    let encoding := c.code.encodeStream source [{}, {}] ⟨2, 0⟩
    let after := (c.run encoding.outcome).2
    c.code.scheme = ⟨1, 1⟩ ∧ (c.run encoding.outcome).1 = .error (.io .connectionReset) ∧
    after.digests ≠ c.digests ∧ after.counters.bytesEncoded ≠ c.counters.bytesEncoded := by
  refine ⟨
    { code := .ofValid ⟨1, 1⟩ (by decide),
      bus := EventBus.subscribe {} (.mk .everything [[.call (.encode [114, 101, 45, 101, 110, 116, 101, 114])]]) },
    { rest := [1, 2, 3, 4],
      pacing := { turn := fun _ moved => if moved < 2 then .all else .fails .connectionReset } }, rfl, ?_, ?_, ?_⟩
  all_goals decide +kernel

end Coder

end ShardCoding

import ShardCoding.Proofs.Stream.Decode
import ShardCoding.Proofs.Stream.Failure

/-!
# How streaming operations come out

A streaming operation is refused or panics before its loop, or it comes out as the loop and the flushing that follows it
do.

* `ChunkEncoder.ending`, `ChunkDecoder.ending` : the result, from where the loop stopped; `ChunkEncoder.conclude`,
  `ChunkDecoder.conclude` : the whole operation with its effects;
* `Code.decodeStream_refused`, `Code.decodeStream_unsolvable`, `Code.decodeStream_panicked` : the three ways in which a
  decode does not come to its loop;
* `Code.encodeStream_cases`, `Code.decodeStream_cases` : all ways in which the operations come out;
  `Code.exists_run_of_encodeStream` : those of an encode that succeeds.
-/

namespace ShardCoding

/-- The result of a streaming encode whose loop ended as `e`. -/
def ChunkEncoder.ending (r : Except IoKind Unit) (e : ChunkEncoder) : Except CodingError StreamSummary :=
  match r with
  | .error kind => .error (.io kind)
  | .ok () =>
    match flushFault? e.sinks with
    | some kind => .error (.io kind)
    | none => .ok ⟨e.totalBytes, e.chunks, e.shardBytes, e.sinks.map DigestSink.digest⟩

/-- What follows the announcements of a streaming encode, by its result. -/
def encodeClosing : Except CodingError StreamSummary → List Effect
  | .error _ => []
  | .ok s => [.keepDigests s.checksums, .count .bytesEncoded s.totalBytes, .time .streamEncode]

/-- The result of a streaming decode whose loop ended as `d`. -/
def ChunkDecoder.ending (r : Except IoKind Unit) (d : ChunkDecoder) : Except CodingError Nat :=
  match r with
  | .error kind => .error (.io kind)
  | .ok () =>
    match d.sink.flushFault with
    | some kind => .error (.io kind)
    | none => .ok d.written

/-- Once the loop has begun nothing but an endpoint fails. -/
theorem ChunkDecoder.eq_io_of_ending {r : Except IoKind Unit} {d : ChunkDecoder} {e : CodingError}
    (h : d.ending r = .error e) : ∃ kind, e = .io kind := by
  unfold ending at h
  split at h
  · exact ⟨_, (Except.error.inj h).symm⟩
  · split at h
    · exact ⟨_, (Except.error.inj h).symm⟩
    · cases h

/-- What follows the announcements of the chunks of a streaming decode, by its result. -/
def decodeClosing (plan : ChunkDecoder.Plan) : Except CodingError Nat → List Effect
  | .error _ => []
  | .ok written => [.count .bytesDecoded written, .time .streamDecode, .announce (plan.event written)]

/-- A streaming encode whose loop ended as `e`. -/
def ChunkEncoder.conclude (r : Except IoKind Unit) (e : ChunkEncoder) : EncodeStreamRun where
  outcome := {
    result := e.ending r
    effects := .acquire .shared :: .count .encodes 1 :: e.announced.reverse.map .announce ++
      encodeClosing (e.ending r) ++ [.release .shared] }
  source := e.source
  sinks := e.sinks.map DigestSink.inner

/-- A streaming decode whose loop ended as `d`. -/
def ChunkDecoder.conclude (plan : Plan) (r : Except IoKind Unit) (d : ChunkDecoder) : DecodeStreamRun where
  outcome := {
    result := d.ending r
    effects := .acquire .shared :: .count .decodes 1 :: d.announced.reverse.map .announce ++
      decodeClosing plan (d.ending r) ++ [.release .shared] }
  sources := d.sources
  sink := d.sink

theorem errorClass_of_checkIndices {n : Nat} {seen indices : List Nat} {e : CodingError}
    (h : checkIndices n seen indices = .error e) : e.errorClass = .argument := by
  fun_induction checkIndices n seen indices with
  | case1 => cases h
  | case2 =>
    cases h
    rfl
  | case3 =>
    cases h
    rfl
  | case4 seen i rest _ _ ih => exact ih h

namespace Code

variable {code : Code} {o : StreamOptions}

theorem encodeStream_eq (ho : o.Valid) (hfits : o.chunk < bufferLimit) {source : Source} {sinks : List Sink}
    (hlen : sinks.length = code.scheme.total) {r : Except IoKind Unit} {e : ChunkEncoder}
    (hrun : ChunkEncoder.run code o (.start source sinks) = (r, e)) :
    code.encodeStream source sinks o = e.conclude r := by
  rw [ChunkEncoder.start] at hrun
  unfold encodeStream
  rw [code.checkEncodeStream_eq_ok ho hlen]
  dsimp only
  rw [if_neg (Nat.not_le.2 hfits), hrun]
  unfold ChunkEncoder.conclude ChunkEncoder.ending
  cases r with
  | error kind => simp [Traced.guarded, Traced.emit, Traced.announceAll, bind, Traced.andThen, Traced.fail, encodeClosing]
  | ok =>
    cases hflush : flushFault? e.sinks <;>
      simp [Traced.guarded, Traced.emit, Traced.announceAll, bind, pure, Traced.andThen, Traced.fail, encodeClosing]

variable {sources : List Source} {present : List Nat} {dataSize : Nat} {sink : Sink}

theorem decodeStream_eq (hcheck : code.checkDecodeStream sources present o = .ok ()) {plan : ChunkDecoder.Plan}
    (hplan : code.planDecodeStream present = .ok plan) (hroom : code.decodeBuffer o < bufferLimit)
    {r : Except IoKind Unit} {d : ChunkDecoder}
    (hrun : ChunkDecoder.run plan o { sources := sources, sink := sink, remaining := dataSize } = (r, d)) :
    code.decodeStream sources present dataSize sink o = d.conclude plan r := by
  unfold decodeStream
  rw [hcheck, hplan]
  dsimp only
  rw [if_neg (Nat.not_le.2 hroom), hrun]
  unfold ChunkDecoder.conclude ChunkDecoder.ending
  cases r with
  | error kind => simp [Traced.guarded, Traced.emit, Traced.announceAll, bind, Traced.andThen, Traced.fail, decodeClosing]
  | ok =>
    cases hflush : d.sink.flushFault <;>
      simp [Traced.guarded, Traced.emit, Traced.announceAll, bind, pure, Traced.andThen, Traced.fail, decodeClosing]

/-- Options, a number of sources or a number of indices that are refused: the call does not count and the endpoints are
not touched. -/
theorem decodeStream_refused (h : ¬ (o.Valid ∧ code.scheme.data ≤ sources.length ∧ present.length = sources.length)) :
    ∃ e, e.errorClass = .argument ∧ code.decodeStream sources present dataSize sink o = ⟨.fail e, sources, sink⟩ := by
  have hcheck : ∃ e : CodingError, e.errorClass = .argument ∧ code.checkDecodeStream sources present o = .error e := by
    unfold checkDecodeStream
    by_cases ho : o.Valid
    · rw [StreamOptions.check_eq_ok ho]
      by_cases henough : sources.length < code.scheme.data
      · refine ⟨.insufficientShards sources.length code.scheme.data, rfl, ?_⟩
        rw [if_pos henough]
        rfl
      · refine ⟨.argument (.indexCount present.length sources.length), rfl, ?_⟩
        rw [if_neg henough, if_pos fun hcount => h ⟨ho, Nat.not_lt.1 henough, hcount⟩]
        rfl
    · unfold StreamOptions.check
      cases hfault : o.fault? with
      | none => exact absurd (StreamOptions.fault?_eq_none_iff.1 hfault) ho
      | some f => exact ⟨_, rfl, rfl⟩
  obtain ⟨e, hclass, hcheck⟩ := hcheck
  refine ⟨e, hclass, ?_⟩
  unfold decodeStream
  rw [hcheck]

theorem errorClass_of_select {e : CodingError} (h : code.select present = .error e) : e.errorClass = .argument := by
  unfold select at h
  split at h
  · cases h
    rfl
  · dsimp only at h
    split at h
    · next e' hindices =>
      cases h
      exact errorClass_of_checkIndices hindices
    · cases h

/-- A selection that is no selection, or that has no inverse. -/
theorem errorClass_of_planDecodeStream {e : CodingError} (h : code.planDecodeStream present = .error e) :
    e.errorClass = .argument ∨ e.errorClass = .arithmetic := by
  unfold planDecodeStream at h
  cases hselect : code.select present with
  | error e' =>
    rw [hselect] at h
    cases h
    exact Or.inl (errorClass_of_select hselect)
  | ok selected =>
    obtain ⟨hsel, rfl⟩ := selects_of_select hselect
    rcases inverseFor_cases hsel.length_take hsel.lt_total with ⟨-, inverse, hinverse, -⟩ | ⟨-, hinverse⟩ <;>
      simp only [hselect, bind, Except.bind, hinverse] at h <;> cases h
    exact Or.inr rfl

/-- A selection that is refused once the call has counted: the endpoints are not touched. -/
theorem decodeStream_unsolvable (hcheck : code.checkDecodeStream sources present o = .ok ()) {e : CodingError}
    (hplan : code.planDecodeStream present = .error e) :
    code.decodeStream sources present dataSize sink o =
      ⟨⟨.error e, [.acquire .shared, .count .decodes 1, .release .shared]⟩, sources, sink⟩ := by
  unfold decodeStream
  rw [hcheck, hplan]
  rfl

/-- Buffers that no allocation can make, for a selection that can be solved: the endpoints are not touched. -/
theorem decodeStream_panicked (hcheck : code.checkDecodeStream sources present o = .ok ()) {plan : ChunkDecoder.Plan}
    (hplan : code.planDecodeStream present = .ok plan) (hlarge : bufferLimit ≤ code.decodeBuffer o) :
    code.decodeStream sources present dataSize sink o =
      ⟨⟨.error (.panicked .capacityOverflow), [.acquire .shared, .count .decodes 1, .release .shared]⟩, sources, sink⟩ := by
  unfold decodeStream
  rw [hcheck, hplan]
  dsimp only
  rw [if_pos hlarge]
  rfl

/-- A streaming encode is refused, or it panics once it counts, or it comes to its loop. -/
theorem encodeStream_cases (code : Code) (source : Source) (sinks : List Sink) (o : StreamOptions) :
    (¬ (o.Valid ∧ sinks.length = code.scheme.total) ∧
      ∃ e, e.errorClass = .argument ∧ code.encodeStream source sinks o = ⟨.fail e, source, sinks⟩) ∨
    (o.Valid ∧ sinks.length = code.scheme.total) ∧
      (bufferLimit ≤ o.chunk ∧ code.encodeStream source sinks o =
          ⟨⟨.error (.panicked .capacityOverflow), [.acquire .shared, .count .encodes 1, .release .shared]⟩, source, sinks⟩ ∨
        o.chunk < bufferLimit ∧ ∃ r e, ChunkEncoder.run code o (.start source sinks) = (r, e) ∧
          code.encodeStream source sinks o = e.conclude r) := by
  by_cases h : o.Valid ∧ sinks.length = code.scheme.total
  · refine Or.inr ⟨h, ?_⟩
    rcases Nat.lt_or_ge o.chunk bufferLimit with hfits | hlarge
    · rcases hrun : ChunkEncoder.run code o (.start source sinks) with ⟨r, e⟩
      exact Or.inr ⟨hfits, r, e, rfl, encodeStream_eq h.1 hfits h.2 hrun⟩
    · exact Or.inl ⟨hlarge, encodeStream_panicked h.1 h.2 hlarge source⟩
  · exact Or.inl ⟨h, encodeStream_refused source h⟩

/-- A streaming encode that succeeds came to its loop. -/
theorem exists_run_of_encodeStream {source : Source} {sinks : List Sink} {s : StreamSummary}
    (h : (code.encodeStream source sinks o).outcome.result = .ok s) : sinks.length = code.scheme.total ∧
      ∃ r e, ChunkEncoder.run code o (.start source sinks) = (r, e) ∧
        code.encodeStream source sinks o = e.conclude r := by
  rcases encodeStream_cases code source sinks o with
    ⟨-, e, -, heq⟩ | ⟨⟨-, hlen⟩, ⟨-, heq⟩ | ⟨-, r, e, hrun, heq⟩⟩
  · rw [heq] at h
    cases h
  · rw [heq] at h
    cases h
  · exact ⟨hlen, r, e, hrun, heq⟩

/-- A streaming decode is refused before it counts or after, or it panics then, or it comes to its loop. -/
theorem decodeStream_cases (code : Code) (sources : List Source) (present : List Nat) (dataSize : Nat) (sink : Sink)
    (o : StreamOptions) :
    (¬ (o.Valid ∧ code.scheme.data ≤ sources.length ∧ present.length = sources.length) ∧
      ∃ e, e.errorClass = .argument ∧ code.decodeStream sources present dataSize sink o = ⟨.fail e, sources, sink⟩) ∨
    (o.Valid ∧ code.scheme.data ≤ sources.length ∧ present.length = sources.length) ∧
      ((∃ e, (e.errorClass = .argument ∨ e.errorClass = .arithmetic ∨
            e = .panicked .capacityOverflow ∧ bufferLimit ≤ code.decodeBuffer o) ∧
          code.decodeStream sources present dataSize sink o =
            ⟨⟨.error e, [.acquire .shared, .count .decodes 1, .release .shared]⟩, sources, sink⟩) ∨
        code.decodeBuffer o < bufferLimit ∧ ∃ plan r d, code.planDecodeStream present = .ok plan ∧
          ChunkDecoder.run plan o { sources := sources, sink := sink, remaining := dataSize } = (r, d) ∧
          code.decodeStream sources present dataSize sink o = d.conclude plan r) := by
  by_cases h : o.Valid ∧ code.scheme.data ≤ sources.length ∧ present.length = sources.length
  · obtain ⟨ho, henough, hcount⟩ := h
    have hcheck := code.checkDecodeStream_eq_ok ho hcount.symm (hcount ▸ henough)
    refine Or.inr ⟨⟨ho, henough, hcount⟩, ?_⟩
    cases hplan : code.planDecodeStream present with
    | error e =>
      have hclass := errorClass_of_planDecodeStream hplan
      exact Or.inl ⟨e, hclass.imp_right Or.inl, decodeStream_unsolvable hcheck hplan⟩
    | ok plan =>
      rcases Nat.lt_or_ge (code.decodeBuffer o) bufferLimit with hroom | hlarge
      case inr => exact Or.inl ⟨_, Or.inr (Or.inr ⟨rfl, hlarge⟩), decodeStream_panicked hcheck hplan hlarge⟩
      rcases hrun : ChunkDecoder.run plan o { sources := sources, sink := sink, remaining := dataSize } with ⟨r, d⟩
      exact Or.inr ⟨hroom, plan, r, d, rfl, hrun, decodeStream_eq hcheck hplan hroom hrun⟩
  · exact Or.inl ⟨h, decodeStream_refused h⟩

end Code

end ShardCoding

import ShardCoding.Proofs.Code.Effects
import ShardCoding.Proofs.Stream.Outcome

/-!
# The progress of a stream

Both loops announce after each chunk how many bytes are done. They keep different state, the encoder the bytes that it
repeats and the decoder their number and what remains, but their counts are those of one recursion.

* `StreamOptions.chunkCount`, `reached`, `chunkLength` : the number of chunks of a stream, the bytes done after each of
  them and its length; `StreamOptions.marks` : the same from between two chunks, `marks_start` : from the start;
* `ChunkEncoder.run_announces`, `ChunkDecoder.run_announces` : what the loops announce, all of it or, when they are
  stopped, a front of it;
* `Code.encodeStream_announces`, `Code.decodeStream_announces` : what the operations announce.
-/

namespace ShardCoding

namespace StreamOptions

/-- The new bytes of every chunk but the first and the last. -/
def stride (o : StreamOptions) : Nat := o.chunk - o.overlap

/-- The number of chunks of a stream: none for no bytes, else one and as many more as it takes to come to the end. -/
def chunkCount (o : StreamOptions) (total : Nat) : Nat :=
  if total = 0 then 0 else 1 + (total - o.chunk + (o.stride - 1)) / o.stride

/-- How many of `total` bytes are done after chunk `j`, the first of them being chunk 0. -/
def reached (o : StreamOptions) (total j : Nat) : Nat := min total (o.chunk + j * o.stride)

def chunkLength (o : StreamOptions) (total j : Nat) : Nat := min o.chunk (total - j * o.stride)

/-- For each chunk of the bytes that remain: how many bytes are done after it, and its length. -/
def marks (o : StreamOptions) (carry reached remaining : Nat) : List (Nat × Nat) :=
  let fresh := min (o.chunk - carry) remaining
  if _ : fresh = 0 then []
  else
    (reached + fresh, carry + fresh) :: marks o (min o.overlap (carry + fresh)) (reached + fresh) (remaining - fresh)
termination_by remaining

variable {o : StreamOptions}

@[simp] theorem marks_zero (o : StreamOptions) (carry reached : Nat) : o.marks carry reached 0 = [] := by
  rw [marks]
  exact dif_pos (Nat.min_zero _)

theorem marks_eq_cons {carry reached remaining fresh : Nat} (hfresh : min (o.chunk - carry) remaining = fresh)
    (hpos : fresh ≠ 0) : o.marks carry reached remaining = (reached + fresh, carry + fresh) ::
      o.marks (min o.overlap (carry + fresh)) (reached + fresh) (remaining - fresh) := by
  rw [marks, hfresh]
  exact dif_neg hpos

/-- Rounding up: one step more is one more. -/
theorem ceil_add_step {step : Nat} (hstep : 0 < step) (n : Nat) :
    (n + step + (step - 1)) / step = (n + (step - 1)) / step + 1 := by
  rw [Nat.add_right_comm, Nat.add_div_right _ hstep]

/-- A part of a step, or a whole one, is rounded up to one. -/
theorem ceil_eq_one {step n : Nat} (hpos : 0 < n) (hle : n ≤ step) : (n + (step - 1)) / step = 1 := by
  rw [show n + (step - 1) = (n - 1) + step by omega, Nat.add_div_right _ (by omega), Nat.div_eq_of_lt (by omega)]

theorem Valid.stride_pos (ho : o.Valid) : 0 < o.stride := Nat.sub_pos_of_lt ho

/-- After a full chunk each further one goes on by the stride, until the end. -/
theorem marks_overlap (ho : o.Valid) (reached remaining : Nat) : o.marks o.overlap reached remaining =
    (List.range ((remaining + (o.stride - 1)) / o.stride)).map fun j =>
      (reached + min remaining ((j + 1) * o.stride), min o.chunk (o.overlap + remaining - j * o.stride)) := by
  have hstride := ho.stride_pos
  have hchunk : o.chunk = o.overlap + o.stride := (Nat.add_sub_of_le (Nat.le_of_lt ho)).symm
  induction hn : remaining using Nat.strong_induction_on generalizing reached remaining with
  | _ n ih =>
    subst hn
    by_cases hzero : remaining = 0
    · rw [hzero, marks_zero, Nat.div_eq_of_lt (by omega)]
      rfl
    by_cases hfull : o.stride ≤ remaining
    · obtain ⟨later, rfl⟩ := Nat.exists_eq_add_of_le' hfull
      have hfresh : min (o.chunk - o.overlap) (later + o.stride) = o.stride := Nat.min_eq_left hfull
      have hcarry : min o.overlap (o.overlap + o.stride) = o.overlap := Nat.min_eq_left (Nat.le_add_right ..)
      rw [marks_eq_cons hfresh (by omega), hcarry, Nat.add_sub_cancel, ih later (by omega) _ later rfl,
        ceil_add_step hstride, List.range_succ_eq_map, List.map_cons, List.map_map]
      have hhead : (reached + o.stride, o.overlap + o.stride) = (reached + min (later + o.stride) ((0 + 1) * o.stride),
          min o.chunk (o.overlap + (later + o.stride) - 0 * o.stride)) := by
        refine Prod.ext ?_ ?_ <;> dsimp only <;> omega
      refine List.cons_eq_cons.2 ⟨hhead, List.map_congr_left fun j _ => ?_⟩
      have hnext : (j + 1) * o.stride = j * o.stride + o.stride := Nat.succ_mul ..
      have hnext' : (j + 1 + 1) * o.stride = j * o.stride + o.stride + o.stride := by rw [Nat.succ_mul, hnext]
      refine Prod.ext ?_ ?_ <;> dsimp only [Function.comp, Nat.succ_eq_add_one] <;> omega
    · have hfresh : min (o.chunk - o.overlap) remaining = remaining := Nat.min_eq_right (Nat.le_of_not_le hfull)
      rw [marks_eq_cons hfresh hzero, Nat.sub_self, marks_zero, ceil_eq_one (by omega) (by omega)]
      refine List.cons_eq_cons.2 ⟨Prod.ext ?_ ?_, rfl⟩ <;> dsimp only <;> omega

/-- The counts of a whole stream. -/
theorem marks_start (ho : o.Valid) (total : Nat) : o.marks 0 0 total =
    (List.range (o.chunkCount total)).map fun j => (o.reached total j, o.chunkLength total j) := by
  have hstride := ho.stride_pos
  have hchunk : o.chunk = o.overlap + o.stride := (Nat.add_sub_of_le (Nat.le_of_lt ho)).symm
  unfold chunkCount
  by_cases hzero : total = 0
  · rw [if_pos hzero, hzero, marks_zero]
    rfl
  rw [if_neg hzero, Nat.add_comm 1]
  have hhead : (0 + min o.chunk total, 0 + min o.chunk total) = (o.reached total 0, o.chunkLength total 0) := by
    unfold reached chunkLength
    rw [Nat.zero_mul, Nat.add_zero, Nat.sub_zero, Nat.zero_add, Nat.min_comm total]
  rw [marks_eq_cons rfl (by rw [Nat.sub_zero]; omega), Nat.sub_zero, hhead, List.range_succ_eq_map, List.map_cons,
    List.map_map]
  refine List.cons_eq_cons.2 ⟨rfl, ?_⟩
  by_cases hfull : o.chunk ≤ total
  · rw [Nat.min_eq_left hfull, Nat.zero_add, Nat.min_eq_left (Nat.le_of_lt ho), marks_overlap ho]
    refine List.map_congr_left fun j _ => ?_
    have hnext : (j + 1) * o.stride = j * o.stride + o.stride := Nat.succ_mul ..
    refine Prod.ext ?_ ?_ <;> dsimp only [Function.comp, Nat.succ_eq_add_one, reached, chunkLength] <;> omega
  · rw [Nat.min_eq_right (Nat.le_of_not_le hfull), Nat.sub_self, marks_zero, Nat.div_eq_of_lt (by omega)]
    rfl

/-- The last chunk comes to the end. -/
theorem reached_last (ho : o.Valid) (total : Nat) : o.reached total (o.chunkCount total - 1) = total := by
  have hstride := ho.stride_pos
  unfold reached chunkCount
  refine Nat.min_eq_left ?_
  by_cases hzero : total = 0
  · rw [hzero]
    exact Nat.zero_le _
  rw [if_neg hzero, Nat.add_sub_cancel_left]
  have hceil : total - o.chunk ≤ (total - o.chunk + (o.stride - 1)) / o.stride * o.stride := by
    have := Nat.lt_div_mul_add hstride (a := total - o.chunk + (o.stride - 1))
    omega
  omega

end StreamOptions

/-! ## The loops -/

/-- What a streaming encode announces of a chunk. -/
def Code.chunkEvent (code : Code) (mark : Nat × Nat) : Event :=
  .encoding ⟨mark.1, code.scheme.data, code.scheme.parity, code.scheme.shardSizeFor mark.2⟩

namespace ChunkEncoder

variable {code : Code} {o : StreamOptions} {e e' : ChunkEncoder}

/-- `e'` is `e` after the chunks with these marks, in which `fresh` bytes are new, were announced. -/
structure Announces (code : Code) (marks : List (Nat × Nat)) (fresh : Nat) (e e' : ChunkEncoder) : Prop where
  announced_eq : e'.announced.reverse = e.announced.reverse ++ marks.map code.chunkEvent
  totalBytes_eq : e'.totalBytes = e.totalBytes + fresh
  chunks_eq : e'.chunks = e.chunks + marks.length

/-- `e'` is `e` after some of the chunks with these marks were announced. -/
def AnnouncesFront (code : Code) (marks : List (Nat × Nat)) (e e' : ChunkEncoder) : Prop :=
  ∃ front, front <+: marks ∧ e'.announced.reverse = e.announced.reverse ++ front.map code.chunkEvent

theorem AnnouncesFront.of_eq (marks : List (Nat × Nat)) (h : e'.announced = e.announced) :
    AnnouncesFront code marks e e' := ⟨[], List.nil_prefix, by rw [h, List.map_nil, List.append_nil]⟩

theorem Announces.trans {marks marks' : List (Nat × Nat)} {fresh fresh' : Nat} {e'' : ChunkEncoder}
    (h : Announces code marks fresh e e') (h' : Announces code marks' fresh' e' e'') :
    Announces code (marks ++ marks') (fresh + fresh') e e'' where
  announced_eq := by rw [h'.announced_eq, h.announced_eq, List.map_append, List.append_assoc]
  totalBytes_eq := by rw [h'.totalBytes_eq, h.totalBytes_eq, Nat.add_assoc]
  chunks_eq := by rw [h'.chunks_eq, h.chunks_eq, List.length_append, Nat.add_assoc]

theorem Announces.trans_front {marks marks' : List (Nat × Nat)} {fresh : Nat} {e'' : ChunkEncoder}
    (h : Announces code marks fresh e e') (h' : AnnouncesFront code marks' e' e'') :
    AnnouncesFront code (marks ++ marks') e e'' := by
  obtain ⟨front, hfront, heq⟩ := h'
  refine ⟨marks ++ front, (List.prefix_append_right_inj marks).2 hfront, ?_⟩
  rw [heq, h.announced_eq, List.map_append, List.append_assoc]

theorem announces_of_encodeChunk {overlap : Nat} {fresh : Bytes} {source : Source}
    (h : encodeChunk code overlap fresh { e with source := source } = (.ok (), e')) :
    Announces code [(e.totalBytes + fresh.length, e.carry.length + fresh.length)] fresh.length e e' ∧
      e'.source = source ∧ e'.carry.length = min overlap (e.carry.length + fresh.length) := by
  unfold encodeChunk at h
  dsimp only at h
  split at h
  · cases h
  · obtain ⟨-, rfl⟩ := Prod.mk.inj h
    refine ⟨⟨?_, rfl, rfl⟩, rfl, ?_⟩
    · rw [List.length_append, List.reverse_cons]
      rfl
    · rw [List.length_drop, List.length_append]
      omega

/-- A chunk that is not written whole is not announced. -/
theorem announced_of_encodeChunk_error {overlap : Nat} {fresh : Bytes} {source : Source} {kind : IoKind}
    (h : encodeChunk code overlap fresh { e with source := source } = (.error kind, e')) :
    e'.source = source ∧ e'.announced = e.announced := by
  unfold encodeChunk at h
  dsimp only at h
  split at h
  · obtain ⟨-, rfl⟩ := Prod.mk.inj h
    exact ⟨rfl, rfl⟩
  · cases h

/-- The loop announces the chunks of what it read. When it is stopped it announced a front of them, whatever the source
would still have handed out. -/
theorem run_announces (ho : o.Valid) (hcarry : e.carry.length < o.chunk) :
    ∃ delivered, e.source.Hands delivered (run code o e).2.source ∧
      ((run code o e).1 = .ok () ∧ (run code o e).2.source.AtEnd ∧
          Announces code (o.marks e.carry.length e.totalBytes delivered.length) delivered.length e (run code o e).2 ∨
        ∃ kind, (run code o e).1 = .error kind ∧
          ∀ remaining, delivered.length ≤ remaining →
            ((run code o e).2.source.AtEnd → remaining = delivered.length) →
            AnnouncesFront code (o.marks e.carry.length e.totalBytes remaining) e (run code o e).2) := by
  fun_induction run code o e with
  | case1 e kind source hread =>
    obtain ⟨⟨delivered, hhands⟩, -⟩ := Source.broken_of_readUpTo hread
    exact ⟨delivered, hhands, Or.inr ⟨kind, rfl, fun remaining _ _ => .of_eq _ rfl⟩⟩
  | case2 e source hread =>
    obtain ⟨hhands, -, hend⟩ := Source.hands_of_readUpTo hread
    refine ⟨[], hhands, Or.inl ⟨rfl, hend (Nat.sub_pos_of_lt hcarry), ?_⟩⟩
    rw [List.length_nil, StreamOptions.marks_zero]
    exact ⟨(List.append_nil _).symm, rfl, rfl⟩
  | case3 e b fresh source hread kind e' hchunk =>
    obtain ⟨hhands, -, -⟩ := Source.hands_of_readUpTo hread
    obtain ⟨rfl, hannounced⟩ := announced_of_encodeChunk_error hchunk
    exact ⟨b :: fresh, hhands, Or.inr ⟨kind, rfl, fun remaining _ _ => .of_eq _ hannounced⟩⟩
  | case4 e b fresh source hread e' hchunk hshort =>
    obtain ⟨hhands, hle, hend⟩ := Source.hands_of_readUpTo hread
    obtain ⟨hannounces, rfl, -⟩ := announces_of_encodeChunk hchunk
    have hlt : (b :: fresh).length < o.chunk - e.carry.length := by
      rw [List.length_cons]
      omega
    refine ⟨b :: fresh, hhands, Or.inl ⟨rfl, hend hlt, ?_⟩⟩
    rw [StreamOptions.marks_eq_cons (Nat.min_eq_right hle) (Nat.succ_ne_zero _), Nat.sub_self, StreamOptions.marks_zero]
    exact hannounces
  | case5 e b fresh source hread e' hchunk hfull ih =>
    obtain ⟨hhands, hle, -⟩ := Source.hands_of_readUpTo hread
    obtain ⟨hannounces, rfl, hcarry'⟩ := announces_of_encodeChunk hchunk
    have hmarks : ∀ later, o.marks e.carry.length e.totalBytes ((b :: fresh).length + later) =
        [(e.totalBytes + (b :: fresh).length, e.carry.length + (b :: fresh).length)] ++
          o.marks e'.carry.length e'.totalBytes later := by
      intro later
      have hfresh : min (o.chunk - e.carry.length) ((b :: fresh).length + later) = (b :: fresh).length := by
        rw [List.length_cons] at hle ⊢
        omega
      rw [StreamOptions.marks_eq_cons hfresh (Nat.succ_ne_zero _), Nat.add_sub_cancel_left, hcarry',
        hannounces.totalBytes_eq]
      rfl
    have hcarryLt : e'.carry.length < o.chunk := by
      rw [hcarry']
      exact Nat.lt_of_le_of_lt (Nat.min_le_left ..) ho
    obtain ⟨delivered, hlater, hcases⟩ := ih hcarryLt
    refine ⟨b :: fresh ++ delivered, hhands.trans hlater, ?_⟩
    rw [List.length_append]
    rcases hcases with ⟨hok, hend, hannounces'⟩ | ⟨kind, herr, hfronts⟩
    · refine Or.inl ⟨hok, hend, ?_⟩
      rw [hmarks]
      exact hannounces.trans hannounces'
    · refine Or.inr ⟨kind, herr, fun remaining hle hwhole => ?_⟩
      obtain ⟨later, rfl⟩ := Nat.exists_eq_add_of_le (Nat.le_trans (Nat.le_add_right ..) hle)
      rw [hmarks]
      exact hannounces.trans_front (hfronts later (by omega) fun hend => by have := hwhole hend; omega)

end ChunkEncoder

namespace ChunkDecoder

variable {p : Plan} {o : StreamOptions} {d d' : ChunkDecoder}

/-- A chunk that is not written whole is not announced. -/
theorem announced_of_decodeChunk_error {overlap fresh : Nat} {kind : IoKind}
    (h : decodeChunk p overlap fresh d = (.error kind, d')) : d'.announced = d.announced := by
  unfold decodeChunk at h
  dsimp only at h
  split at h
  · obtain ⟨-, rfl⟩ := Prod.mk.inj h
    rfl
  · split at h
    · obtain ⟨-, rfl⟩ := Prod.mk.inj h
      rfl
    · cases h

theorem announced_of_decodeChunk {overlap fresh : Nat} (h : decodeChunk p overlap fresh d = (.ok (), d')) :
    d'.announced = p.event (d.written + fresh) :: d.announced ∧ d'.written = d.written + fresh := by
  unfold decodeChunk at h
  dsimp only at h
  split at h
  · cases h
  · split at h
    · cases h
    · obtain ⟨-, rfl⟩ := Prod.mk.inj h
      exact ⟨rfl, rfl⟩

/-- The loop announces the chunks of what it is to write, or a front of them when it is stopped, whatever it reads. -/
theorem run_announces (ho : o.Valid) (hcarry : d.carry < o.chunk) :
    let events := (o.marks d.carry d.written d.remaining).map fun mark => p.event mark.1
    (run p o d).1 = .ok () ∧ (run p o d).2.announced.reverse = d.announced.reverse ++ events ∧
        (run p o d).2.written = d.written + d.remaining ∨
      ∃ kind front, (run p o d).1 = .error kind ∧ front <+: events ∧
        (run p o d).2.announced.reverse = d.announced.reverse ++ front := by
  fun_induction run p o d with
  | case1 d hzero =>
    have hnone : d.remaining = 0 := by omega
    rw [hnone, StreamOptions.marks_zero]
    exact Or.inl ⟨rfl, (List.append_nil _).symm, rfl⟩
  | case2 d fresh hfresh kind d' =>
    rename_i hround
    refine Or.inr ⟨kind, [], rfl, List.nil_prefix, ?_⟩
    rw [announced_of_decodeChunk_error hround, List.append_nil]
  | case3 d fresh hfresh d' hround =>
    rename_i ih
    obtain ⟨hannounced, hwritten⟩ := announced_of_decodeChunk hround
    have hcarry' := carry_decodeChunk hround
    have hremaining := remaining_decodeChunk hround
    rw [StreamOptions.marks_eq_cons rfl hfresh, ← hcarry', ← hwritten, ← hremaining]
    have hlater := ih (by rw [hcarry']; exact Nat.lt_of_le_of_lt (Nat.min_le_left ..) ho)
    rw [hannounced, List.reverse_cons, hwritten] at hlater
    rcases hlater with ⟨hok, hall, htotal⟩ | ⟨kind, front, herr, hfront, hall⟩
    · refine Or.inl ⟨hok, ?_, ?_⟩
      · rw [hall, hwritten, List.append_assoc, List.map_cons]
        rfl
      · rw [htotal]
        omega
    · refine Or.inr ⟨kind, p.event (d.written + fresh) :: front, herr, ?_, ?_⟩
      · rw [hwritten, List.map_cons]
        exact List.cons_prefix_cons.2 ⟨rfl, hfront⟩
      · rw [hall, List.append_assoc]
        rfl

end ChunkDecoder

/-! ## The operations -/

theorem ChunkEncoder.eventsOf_conclude (r : Except IoKind Unit) (e : ChunkEncoder) :
    eventsOf (e.conclude r).outcome.effects = e.announced.reverse := by
  have hclosing : eventsOf (encodeClosing (e.ending r)) = [] := by cases e.ending r <;> rfl
  rw [conclude, eventsOf_append, eventsOf_append, hclosing]
  show eventsOf (e.announced.reverse.map .announce) ++ [] ++ [] = _
  rw [eventsOf_map_announce, List.append_nil, List.append_nil]

theorem ChunkDecoder.eventsOf_conclude (plan : Plan) (r : Except IoKind Unit) (d : ChunkDecoder) :
    eventsOf (d.conclude plan r).outcome.effects =
      d.announced.reverse ++ eventsOf (decodeClosing plan (d.ending r)) := by
  rw [conclude, eventsOf_append, eventsOf_append]
  show eventsOf (d.announced.reverse.map .announce) ++ _ ++ [] = _
  rw [eventsOf_map_announce, List.append_nil]

/-- An encode that succeeds came to the end of its loop. -/
theorem ChunkEncoder.eq_of_ending_ok {r : Except IoKind Unit} {e : ChunkEncoder} {s : StreamSummary}
    (h : e.ending r = .ok s) :
    r = .ok () ∧ s = ⟨e.totalBytes, e.chunks, e.shardBytes, e.sinks.map DigestSink.digest⟩ := by
  unfold ending at h
  split at h
  · cases h
  · split at h <;> cases h
    exact ⟨rfl, rfl⟩

theorem ChunkDecoder.eq_of_ending_ok {r : Except IoKind Unit} {d : ChunkDecoder} {written : Nat}
    (h : d.ending r = .ok written) : r = .ok () ∧ written = d.written := by
  unfold ending at h
  split at h
  · cases h
  · split at h <;> cases h
    exact ⟨rfl, rfl⟩

namespace Code

/-- What a streaming encode of `total` bytes announces. -/
def encodeProgress (code : Code) (o : StreamOptions) (total : Nat) : List Event :=
  (List.range (o.chunkCount total)).map fun j => .encoding {
    bytesProcessed := o.reached total j
    dataShards := code.scheme.data
    parityShards := code.scheme.parity
    shardSize := code.scheme.shardSizeFor (o.chunkLength total j) }

/-- What a decode from `present` shards announces of `written` bytes. -/
def decodingEvent (code : Code) (present written : Nat) : Event := .decoding {
  bytesProcessed := written
  presentShards := present
  totalShards := code.scheme.total
  hadLoss := present < code.scheme.total }

/-- What a streaming decode of `total` bytes announces of its chunks. -/
def decodeProgress (code : Code) (o : StreamOptions) (present total : Nat) : List Event :=
  (List.range (o.chunkCount total)).map fun j => code.decodingEvent present (o.reached total j)

variable {code : Code} {o : StreamOptions}

theorem map_chunkEvent_marks (ho : o.Valid) (total : Nat) :
    (o.marks 0 0 total).map code.chunkEvent = code.encodeProgress o total := by
  rw [StreamOptions.marks_start ho, List.map_map]
  rfl

theorem map_event_marks (ho : o.Valid) {present : List Nat} {plan : ChunkDecoder.Plan}
    (hplan : code.planDecodeStream present = .ok plan) (total : Nat) :
    (∀ written, plan.event written = code.decodingEvent present.length written) ∧
      ((o.marks 0 0 total).map fun mark => plan.event mark.1) = code.decodeProgress o present.length total := by
  unfold planDecodeStream at hplan
  obtain ⟨_, -, hplan⟩ := exists_of_bind_eq_ok hplan
  obtain ⟨_, -, hplan⟩ := exists_of_bind_eq_ok hplan
  cases hplan
  rw [StreamOptions.marks_start ho, List.map_map]
  exact ⟨fun _ => rfl, rfl⟩

/-- A streaming encode announces the chunks of the bytes that the source handed out. One that fails announces a front of
them, whatever the source would still have handed out. -/
theorem encodeStream_announces (code : Code) (source : Source) (sinks : List Sink) (o : StreamOptions) :
    let encoding := code.encodeStream source sinks o
    let events := eventsOf encoding.outcome.effects
    ∃ delivered, source.Hands delivered encoding.source ∧
      (∀ s, encoding.outcome.result = .ok s → o.Valid ∧ s.totalBytes = delivered.length ∧
        s.chunks = o.chunkCount delivered.length ∧ events = code.encodeProgress o delivered.length) ∧
      ∀ e, encoding.outcome.result = .error e → ∀ total, delivered.length ≤ total →
        (encoding.source.AtEnd → total = delivered.length) → events <+: code.encodeProgress o total := by
  dsimp only
  rcases encodeStream_cases code source sinks o with
    ⟨-, e, -, heq⟩ | ⟨⟨ho, hlen⟩, ⟨-, heq⟩ | ⟨-, r, e, hrun, heq⟩⟩
  · rw [heq]
    exact ⟨[], .refl source, nofun, fun _ _ _ _ _ => List.nil_prefix⟩
  · rw [heq]
    exact ⟨[], .refl source, nofun, fun _ _ _ _ _ => List.nil_prefix⟩
  · have hcarry := ChunkEncoder.length_carry_start ho source sinks
    have hannounces := @ChunkEncoder.run_announces code o (.start source sinks) ho hcarry
    rw [hrun] at hannounces
    obtain ⟨delivered, hhands, hcases⟩ := hannounces
    rw [heq, ChunkEncoder.eventsOf_conclude]
    refine ⟨delivered, hhands, fun s hs => ?_, fun err herr total hle hwhole => ?_⟩
    · obtain ⟨rfl, rfl⟩ := ChunkEncoder.eq_of_ending_ok hs
      rcases hcases with ⟨-, -, hall⟩ | ⟨kind, herr, -⟩
      · refine ⟨ho, hall.totalBytes_eq.trans (Nat.zero_add _), ?_, ?_⟩
        · refine hall.chunks_eq.trans ((Nat.zero_add _).trans ?_)
          show (o.marks 0 0 delivered.length).length = _
          rw [StreamOptions.marks_start ho, List.length_map, List.length_range]
        · exact hall.announced_eq.trans (map_chunkEvent_marks ho _)
      · cases herr
    · rw [← map_chunkEvent_marks ho]
      rcases hcases with ⟨-, hend, hall⟩ | ⟨kind, -, hfronts⟩
      · rw [hwhole hend]
        exact ⟨[], (List.append_nil _).trans hall.announced_eq⟩
      · obtain ⟨front, hfront, hannounced⟩ := hfronts total hle hwhole
        rw [hannounced]
        exact hfront.map code.chunkEvent

/-- A streaming decode announces the chunks of the data and then all of it. One that fails announces a front of the
chunks. -/
theorem decodeStream_announces (code : Code) (sources : List Source) (present : List Nat) (dataSize : Nat) (sink : Sink)
    (o : StreamOptions) :
    let decoding := code.decodeStream sources present dataSize sink o
    let events := eventsOf decoding.outcome.effects
    (∀ written, decoding.outcome.result = .ok written → written = dataSize ∧
      events = code.decodeProgress o present.length dataSize ++ [code.decodingEvent present.length dataSize]) ∧
    ∀ e, decoding.outcome.result = .error e → events <+: code.decodeProgress o present.length dataSize := by
  dsimp only
  rcases decodeStream_cases code sources present dataSize sink o with
    ⟨-, e, -, heq⟩ | ⟨⟨ho, -⟩, ⟨e, -, heq⟩ | ⟨-, plan, r, d, hplan, hrun, heq⟩⟩
  · rw [heq]
    exact ⟨nofun, fun _ _ => List.nil_prefix⟩
  · rw [heq]
    exact ⟨nofun, fun _ _ => List.nil_prefix⟩
  · obtain ⟨hevent, hmarks⟩ := map_event_marks ho hplan dataSize
    have hannounces := ChunkDecoder.run_announces (p := plan) (o := o)
      (d := { sources := sources, sink := sink, remaining := dataSize }) ho (Nat.lt_of_le_of_lt (Nat.zero_le _) ho)
    dsimp only at hannounces
    rw [hrun, hmarks] at hannounces
    rw [heq, ChunkDecoder.eventsOf_conclude]
    refine ⟨fun written hwritten => ?_, fun err herr => ?_⟩
    · have hending := hwritten
      obtain ⟨rfl, rfl⟩ := ChunkDecoder.eq_of_ending_ok hwritten
      rcases hannounces with ⟨-, hall, htotal⟩ | ⟨kind, front, herr, -⟩
      · have hsize : d.written = dataSize := htotal.trans (Nat.zero_add _)
        refine ⟨hsize, ?_⟩
        rw [show d.ending (.ok ()) = .ok d.written from hending, decodeClosing, hall, hsize, ← hevent]
        rfl
      · cases herr
    · rw [show d.ending r = .error err from herr, decodeClosing]
      show d.announced.reverse ++ [] <+: _
      rw [List.append_nil]
      rcases hannounces with ⟨-, hall, -⟩ | ⟨kind, front, -, hfront, hall⟩
      · rw [hall]
        exact List.prefix_rfl
      · rw [hall]
        exact hfront

end Code

end ShardCoding

import Mathlib.Data.List.Forall2
import ShardCoding.Proofs.Code.Reconstruction
import ShardCoding.Proofs.Stream.Chunks
import ShardCoding.Proofs.Stream.Endpoint
import ShardCoding.Stream.Decode

/-!
# What a streaming decode reads and writes

* `ReadsAll` : the same number of bytes read from every source of a list;
* `ChunkDecoder.Rounds` : the loop, round by round, as long as bytes remain; `run_of_rounds` : what it comes to;
* `decodeChunk_reads` : one round from steady sources with any content, into a steady sink; `decodeChunk_steady`,
  `rounds_steady` : from sources that hold the selected shards of a stream.
-/

namespace ShardCoding

/-- `size` bytes were read from each source. -/
def ReadsAll (size : Nat) : List Source → List Source → Prop :=
  List.Forall₂ fun s s' => s.Follows s' ∧ s'.rest = s.rest.drop size

theorem ReadsAll.refl (sources : List Source) : ReadsAll 0 sources sources :=
  List.forall₂_same.2 fun s _ => ⟨.refl s, rfl⟩

theorem ReadsAll.trans {size size' : Nat} {x y z : List Source} (h : ReadsAll size x y) (h' : ReadsAll size' y z) :
    ReadsAll (size + size') x z := by
  induction h generalizing z with
  | nil =>
    cases h'
    exact .nil
  | cons hs _ ih =>
    obtain _ | ⟨hs', hall'⟩ := h'
    refine .cons ⟨hs.1.trans hs'.1, ?_⟩ (ih hall')
    rw [hs'.2, hs.2, List.drop_drop]

/-- Sources of which all is read are at their end. -/
theorem ReadsAll.consumed_eq {size : Nat} {sources sources' : List Source} (h : ReadsAll size sources sources')
    (hsize : ∀ s ∈ sources, s.rest.length = size) :
    List.Forall₂ (fun s s' => s'.consumed = s.consumed + size ∧ s'.rest = []) sources sources' := by
  refine ((List.forall₂_and_left _ _).2 ⟨hsize, h⟩).imp fun s s' hs => ?_
  obtain ⟨hlen, hfollows, hrest⟩ := hs
  have hnil : s'.rest = [] := by rw [hrest, List.drop_eq_nil_of_le hlen.le]
  have hconsumed := hfollows.consumed_eq
  rw [hnil, hlen, List.length_nil, Nat.add_zero] at hconsumed
  exact ⟨hconsumed, hnil⟩

theorem forall_mem_of_forall₂ {α β : Type} {R : α → β → Prop} {p : β → Prop} {l : List α} {u : List β}
    (h : List.Forall₂ R l u) (hp : ∀ a b, R a b → p b) : ∀ b ∈ u, p b := by
  induction h with
  | nil => exact fun _ hb => absurd hb List.not_mem_nil
  | cons hab _ ih => exact List.forall_mem_cons.2 ⟨hp _ _ hab, ih⟩

/-- Steady sources of which each begins with its own `front`. -/
theorem readSegments_steady {size : Nat} {selected : List Nat} {front back : Nat → Bytes} {sources : List Source}
    (h : List.Forall₂ (fun i s => s.pacing.Steady ∧ s.rest = front i ++ back i) selected sources)
    (hsize : ∀ i ∈ selected, (front i).length = size) : ∃ sources',
      readSegments size sources = (.ok (selected.map front), sources') ∧ ReadsAll size sources sources' ∧
      List.Forall₂ (fun i s => s.pacing.Steady ∧ s.rest = back i) selected sources' := by
  induction h with
  | nil => exact ⟨[], rfl, .nil, .nil⟩
  | @cons i source selected sources hs _ ih =>
    have hfront : (front i).length = size := hsize i List.mem_cons_self
    have hle : size ≤ source.rest.length := by
      rw [hs.2, List.length_append]
      omega
    obtain ⟨source', hread, hrest, hfollows⟩ := Source.readExact_steady hs.1 hle
    obtain ⟨sources', hrun, hall, hback⟩ := ih fun j hj => hsize j (List.mem_cons_of_mem _ hj)
    refine ⟨source' :: sources', ?_, .cons ⟨hfollows, hrest⟩ hall, .cons ⟨hfollows.pacing_eq ▸ hs.1, ?_⟩ hback⟩
    · rw [readSegments, hread, hs.2, List.take_left' hfront]
      dsimp only
      rw [hrun]
      rfl
    · rw [hrest, hs.2, List.drop_left' hfront]

namespace ChunkDecoder

variable {p : Plan} {o : StreamOptions} {d d' : ChunkDecoder}

/-- The new bytes of the next chunk. -/
def fresh (o : StreamOptions) (d : ChunkDecoder) : Nat := min (o.chunk - d.carry) d.remaining

/-- So many rounds lead from one state to another in which no byte remains. -/
inductive Rounds (p : Plan) (o : StreamOptions) : Nat → ChunkDecoder → ChunkDecoder → Prop
  | done {d : ChunkDecoder} (h : d.remaining = 0) : Rounds p o 0 d d
  | round {n : Nat} {d d' d'' : ChunkDecoder} (h : d.remaining ≠ 0)
      (hchunk : decodeChunk p o.overlap (d.fresh o) d = (.ok (), d')) (hrest : Rounds p o n d' d'') :
      Rounds p o (n + 1) d d''

theorem carry_decodeChunk {overlap fresh : Nat} (h : decodeChunk p overlap fresh d = (.ok (), d')) :
    d'.carry = min overlap (d.carry + fresh) := by
  unfold decodeChunk at h
  dsimp only at h
  split at h
  · simp at h
  · split at h
    · simp at h
    · obtain ⟨-, rfl⟩ := Prod.mk.inj h
      rfl

/-- With valid options every round brings new bytes, so that the loop stops only where nothing remains. -/
theorem run_of_rounds (ho : o.Valid) {n : Nat} (h : Rounds p o n d d') (hcarry : d.carry < o.chunk) :
    run p o d = (.ok (), d') := by
  induction h with
  | done hzero =>
    rw [run]
    exact if_pos (by rw [hzero, Nat.min_zero])
  | @round n d d₁ d₂ hpos hchunk hrounds ih =>
    have hcarry₁ : d₁.carry < o.chunk := by
      rw [carry_decodeChunk hchunk]
      exact Nat.lt_of_le_of_lt (Nat.min_le_left ..) ho
    rw [run]
    rw [if_neg (show ¬ min (o.chunk - d.carry) d.remaining = 0 by omega)]
    split
    · next hrun => simp_all [fresh]
    · next d' hrun =>
      obtain rfl : d₁ = d' := by simp_all [fresh]
      exact ih hcarry₁

/-- `d'` is `d` after `bytes` were written, with `size` bytes read from each of the first `k` sources for them. -/
structure Advances (p : Plan) (bytes : Bytes) (size : Nat) (d d' : ChunkDecoder) : Prop where
  takes : d.sink.Takes bytes d'.sink
  written_eq : d'.written = d.written + bytes.length
  reads : ReadsAll size (d.sources.take p.code.scheme.data) (d'.sources.take p.code.scheme.data)
  others_eq : d'.sources.drop p.code.scheme.data = d.sources.drop p.code.scheme.data

theorem Advances.refl (p : Plan) (d : ChunkDecoder) : Advances p [] 0 d d := ⟨.refl _, rfl, .refl _, rfl⟩

theorem Advances.trans {front back : Bytes} {size size' : Nat} {d'' : ChunkDecoder} (h : Advances p front size d d')
    (h' : Advances p back size' d' d'') : Advances p (front ++ back) (size + size') d d'' where
  takes := h.takes.trans h'.takes
  written_eq := by rw [h'.written_eq, h.written_eq, List.length_append, Nat.add_assoc]
  reads := h.reads.trans h'.reads
  others_eq := h'.others_eq.trans h.others_eq

/-- The plan for a recoverable selection. -/
structure Plan.For (p : Plan) (selected : List Nat) : Prop where
  length_eq : selected.length = p.code.scheme.data
  lt_total : ∀ i ∈ selected, i < p.code.scheme.total
  recoverable : p.code.Recoverable selected
  solves : p.code.Solves selected p.inverse

/-- The first `k` sources are steady, and what is left in them are the shards of `chunks` that are selected. -/
def Stocked (p : Plan) (selected : List Nat) (chunks : List Bytes) (sources : List Source) : Prop :=
  List.Forall₂ (fun i s => s.pacing.Steady ∧ s.rest = p.code.streamShard chunks i) selected
    (sources.take p.code.scheme.data)

variable {selected : List Nat}

/-- From the segments of a chunk the chunk is reconstructed. -/
theorem Plan.For.reconstruct_segments (hp : p.For selected) (chunk : Bytes) :
    (Code.reconstruct p.inverse (p.code.scheme.shardSizeFor chunk.length)
      (selected.map fun i => p.code.segment i chunk)).take chunk.length = chunk := by
  unfold Code.segment
  rw [hp.solves.reconstruct_eq hp.recoverable hp.length_eq hp.lt_total
    (Scheme.le_mul_shardSizeFor p.code.valid _), List.take_left]

/-- A round reads the front of each of the first `k` sources, whatever it is, and writes what is reconstructed from the
fronts less what it repeats. -/
theorem decodeChunk_reads (overlap : Nat) {fresh : Nat} {front back : Nat → Bytes}
    (hstock : List.Forall₂ (fun i s => s.pacing.Steady ∧ s.rest = front i ++ back i) selected
      (d.sources.take p.code.scheme.data))
    (hcount : selected.length = p.code.scheme.data)
    (hsize : ∀ i ∈ selected, (front i).length = p.code.scheme.shardSizeFor (d.carry + fresh))
    (hsink : d.sink.pacing.Steady) : ∃ d', decodeChunk p overlap fresh d = (.ok (), d') ∧
      d.sink.Takes (((Code.reconstruct p.inverse (p.code.scheme.shardSizeFor (d.carry + fresh))
        (selected.map front)).take (d.carry + fresh)).drop d.carry) d'.sink ∧
      d'.written = d.written + fresh ∧ d'.remaining = d.remaining - fresh ∧
      ReadsAll (p.code.scheme.shardSizeFor (d.carry + fresh)) (d.sources.take p.code.scheme.data)
        (d'.sources.take p.code.scheme.data) ∧
      d'.sources.drop p.code.scheme.data = d.sources.drop p.code.scheme.data ∧
      List.Forall₂ (fun i s => s.pacing.Steady ∧ s.rest = back i) selected (d'.sources.take p.code.scheme.data) := by
  obtain ⟨sources', hread, hall, hback⟩ := readSegments_steady hstock hsize
  obtain ⟨sink', hwrite, htakes⟩ := Sink.writeAll_steady
    (((Code.reconstruct p.inverse (p.code.scheme.shardSizeFor (d.carry + fresh))
      (selected.map front)).take (d.carry + fresh)).drop d.carry) hsink
  have hlen : sources'.length = p.code.scheme.data := by rw [← hback.length_eq, hcount]
  unfold decodeChunk
  dsimp only
  rw [hread]
  dsimp only
  rw [hwrite]
  refine ⟨_, rfl, htakes, rfl, rfl, ?_, List.drop_left' hlen, ?_⟩
  · rwa [List.take_left' hlen]
  · rwa [List.take_left' hlen]

/-- A round reads the segments of one chunk and writes the bytes that it does not repeat. -/
theorem decodeChunk_steady (hp : p.For selected) (overlap : Nat) {fresh : Nat} {chunk : Bytes} {chunks : List Bytes}
    (hchunk : chunk.length = d.carry + fresh) (hstock : Stocked p selected (chunk :: chunks) d.sources)
    (hsink : d.sink.pacing.Steady) : ∃ d', decodeChunk p overlap fresh d = (.ok (), d') ∧
      Advances p (chunk.drop d.carry) (p.code.scheme.shardSizeFor chunk.length) d d' ∧
      Stocked p selected chunks d'.sources ∧ d'.remaining = d.remaining - fresh := by
  have hsize : ∀ i ∈ selected, (p.code.segment i chunk).length = p.code.scheme.shardSizeFor (d.carry + fresh) := by
    intro i hi
    rw [p.code.length_segment (hp.lt_total i hi), hchunk]
  obtain ⟨d', hrun, htakes, hwritten, hremaining, hreads, hothers, hstock'⟩ :=
    decodeChunk_reads overlap hstock hp.length_eq hsize hsink
  rw [← hchunk] at htakes hreads
  rw [hp.reconstruct_segments] at htakes
  refine ⟨d', hrun, ⟨htakes, ?_, hreads, hothers⟩, hstock', hremaining⟩
  rw [hwritten, List.length_drop]
  omega

/-- The loop goes through the chunks that are described, and writes what each of them adds. -/
theorem rounds_steady (ho : o.Valid) (hp : p.For selected) {carry rest : Bytes} (hcarry : d.carry = carry.length)
    (hlt : carry.length < o.chunk) (hremaining : d.remaining = rest.length)
    (hstock : Stocked p selected (o.chunks carry rest) d.sources) (hsink : d.sink.pacing.Steady) :
    ∃ d', Rounds p o (o.chunks carry rest).length d d' ∧
      Advances p rest (p.code.streamSize (o.chunks carry rest)) d d' := by
  -- The decoder knows lengths only; the description knows the bytes, `carry` among them, that they are lengths of.
  induction hn : rest.length using Nat.strong_induction_on generalizing carry rest d with
  | _ n ih =>
    by_cases hnil : rest = []
    · subst hnil
      rw [StreamOptions.chunks_nil]
      exact ⟨d, .done hremaining, .refl p d⟩
    rw [StreamOptions.chunks_of_ne_nil hnil hlt] at hstock ⊢
    have hpos := List.length_pos_iff.2 hnil
    have hlenTake := List.length_take (i := o.chunk - carry.length) (l := rest)
    have hlenDrop := List.length_drop (i := o.chunk - carry.length) (l := rest)
    have hfresh : (carry ++ rest.take (o.chunk - carry.length)).length = d.carry + d.fresh o := by
      rw [List.length_append, hlenTake, hcarry, fresh, hcarry, hremaining]
    obtain ⟨d₁, hchunk, hadvances, hstock₁, hremaining₁⟩ := decodeChunk_steady hp o.overlap hfresh hstock hsink
    have hcarry₁ := carry_decodeChunk hchunk
    rw [← hfresh] at hcarry₁
    have hless : (rest.drop (o.chunk - carry.length)).length < n := by omega
    obtain ⟨d', hrounds, hadvances'⟩ := ih _ hless (by rw [hcarry₁, List.length_drop]; omega) (ho.length_carry_lt _)
      (by rw [hremaining₁, hremaining, fresh, hcarry, hremaining]; omega) hstock₁
      (hadvances.takes.pacing_eq ▸ hsink) rfl
    refine ⟨d', .round (by omega) hchunk hrounds, ?_⟩
    have hall := hadvances.trans hadvances'
    rwa [hcarry, List.drop_left, List.take_append_drop] at hall

end ChunkDecoder

open ChunkDecoder in
/-- The plan of a streaming decode of a recoverable selection. -/
theorem Code.planDecodeStream_eq (code : Code) {present : List Nat} (hsel : code.Selects present)
    (hrec : code.Recoverable (present.take code.scheme.data)) : ∃ inverse,
      code.planDecodeStream present = .ok ⟨code, inverse, present.length⟩ ∧
      Plan.For ⟨code, inverse, present.length⟩ (present.take code.scheme.data) := by
  rcases inverseFor_cases hsel.length_take hsel.lt_total with ⟨-, inverse, hinv, hsolves⟩ | ⟨hnot, -⟩
  · refine ⟨inverse, ?_, hsel.length_take, hsel.lt_total, hrec, hsolves⟩
    unfold planDecodeStream
    rw [hsel.select_eq]
    simp only [bind, Except.bind, hinv]
    rfl
  · exact absurd hrec hnot

theorem Code.checkDecodeStream_eq_ok (code : Code) {o : StreamOptions} (ho : o.Valid) {sources : List Source}
    {present : List Nat} (hcount : sources.length = present.length) (henough : code.scheme.data ≤ present.length) :
    code.checkDecodeStream sources present o = .ok () := by
  unfold checkDecodeStream
  rw [StreamOptions.check_eq_ok ho, if_neg (by omega), if_neg (by rw [not_not]; exact hcount.symm)]
  rfl

/-- The buffer of a decode has room for a chunk. -/
theorem Code.chunk_le_decodeBuffer (code : Code) (o : StreamOptions) : o.chunk ≤ code.decodeBuffer o := by
  rw [decodeBuffer, Nat.mul_comm]
  exact Scheme.le_mul_shardSizeFor code.valid o.chunk

/-- A streaming decode that passes the checks, has its buffers made and goes through all rounds. -/
theorem Code.decodeStream_of_rounds {code : Code} {o : StreamOptions} (ho : o.Valid)
    (hroom : code.decodeBuffer o < bufferLimit) {sources : List Source}
    {present : List Nat} {dataSize n : Nat} {sink : Sink} {plan : ChunkDecoder.Plan} {d : ChunkDecoder}
    (hcheck : code.checkDecodeStream sources present o = .ok ()) (hplan : code.planDecodeStream present = .ok plan)
    (hrounds : ChunkDecoder.Rounds plan o n { sources := sources, sink := sink, remaining := dataSize } d)
    (hflush : d.sink.flushFault = none) :
    (code.decodeStream sources present dataSize sink o).outcome.result = .ok d.written ∧
      (code.decodeStream sources present dataSize sink o).sink = d.sink ∧
      (code.decodeStream sources present dataSize sink o).sources = d.sources := by
  unfold decodeStream
  rw [hcheck, hplan]
  dsimp only
  rw [if_neg (Nat.not_le.2 hroom), ChunkDecoder.run_of_rounds ho hrounds (Nat.lt_of_le_of_lt (Nat.zero_le _) ho)]
  dsimp only
  rw [hflush]
  exact ⟨rfl, rfl, rfl⟩

end ShardCoding

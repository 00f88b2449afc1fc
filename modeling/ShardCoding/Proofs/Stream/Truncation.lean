import ShardCoding.Proofs.Stream.Outcome
import ShardCoding.Proofs.Stream.RoundTrip

/-!
# Streaming decodes that fail

A streaming decode is refused before it touches its endpoints, or it is stopped by a source that fails or ends too soon,
or by the sink. What was written by then is a front of the data.

* `Source.Fails` : a source that is to blame; `Source.readExact_cases`, `readSegments_cases` : the reads of one chunk;
* `ChunkDecoder.Stops` : a decode stopped within some bytes; `ChunkDecoder.run_cases` : the loop comes to the end of the
  data or stops within them;
* `Code.SuppliesFronts` : sources of which the selected ones hold fronts of what their sinks got;
* `Code.decodeStream_untouched` : a decode that is refused; `Code.decodeStream_fronts`, `Code.decodeStream_failure` :
  what such sources and a sink that may fail leave of a decode.
-/

namespace ShardCoding

/-! ## Sources that may fail or end too soon -/

namespace Source

/-- `s`, asked for `size` bytes in all, failed with `kind` as `s'`: its last call failed, or it ended before them. -/
structure Fails (size : Nat) (kind : IoKind) (s s' : Source) : Prop where
  hands : ∃ bytes, s.Hands bytes s'
  blame : s'.Broken kind ∨ kind = .unexpectedEof ∧ s'.AtEnd ∧ s'.consumed < s.consumed + size

variable {s s' s'' : Source} {size size' : Nat} {kind : IoKind}

theorem Fails.after_hands {bytes : Bytes} (h : s'.Fails size kind s'') (hhands : s.Hands bytes s') :
    s.Fails (bytes.length + size) kind s'' where
  hands := by
    obtain ⟨later, hlater⟩ := h.hands
    exact ⟨bytes ++ later, hhands.trans hlater⟩
  blame := by
    refine h.blame.imp_right fun ⟨hkind, hend, hshort⟩ => ⟨hkind, hend, ?_⟩
    rw [hhands.consumed_eq] at hshort
    omega

theorem Fails.mono (h : s.Fails size kind s') (hle : size ≤ size') : s.Fails size' kind s' :=
  ⟨h.hands, h.blame.imp_right fun ⟨hkind, hend, hshort⟩ => ⟨hkind, hend, by omega⟩⟩

/-- Where no call fails, the end is what is unexpected. -/
theorem Fails.kind_eq (h : s.Fails size kind s')
    (hreliable : ∀ calls moved kind, s.pacing.turn calls moved ≠ .fails kind) : kind = .unexpectedEof := by
  obtain ⟨bytes, hhands⟩ := h.hands
  rcases h.blame with ⟨calls, -, hturn⟩ | ⟨hkind, -⟩
  · rw [hhands.pacing_eq] at hturn
    exact absurd hturn (hreliable _ _ _)
  · exact hkind

/-- A steady source that holds all that it is asked for does not fail. -/
theorem not_fails_of_steady (h : s.pacing.Steady) (hsize : size ≤ s.rest.length) : ¬ s.Fails size kind s' := by
  rintro ⟨⟨bytes, hhands⟩, hbroken | ⟨-, hend, hshort⟩⟩
  · exact not_broken_of_steady (hhands.pacing_eq ▸ h) kind hbroken
  · have hnil := hend.rest_eq_nil (hhands.pacing_eq ▸ h.moves)
    rw [hhands.rest_eq, hnil, List.append_nil] at hsize
    rw [hhands.consumed_eq] at hshort
    omega

/-- All of the bytes asked for, or a source that is to blame. -/
theorem readExact_cases (want : Nat) (s : Source) : ∃ bytes, s.Hands bytes (s.readExact want).2 ∧
    ((s.readExact want).1 = .ok bytes ∧ bytes.length = want ∨
      ∃ kind, (s.readExact want).1 = .error kind ∧ s.Fails want kind (s.readExact want).2) := by
  unfold readExact
  rcases hread : s.readUpTo want with ⟨kind | bytes, s'⟩
  · obtain ⟨⟨bytes, hhands⟩, hbroken⟩ := broken_of_readUpTo hread
    exact ⟨bytes, hhands, Or.inr ⟨kind, rfl, ⟨bytes, hhands⟩, Or.inl hbroken⟩⟩
  · obtain ⟨hhands, hle, hend⟩ := hands_of_readUpTo hread
    by_cases hshort : bytes.length < want
    · dsimp only
      rw [if_pos hshort]
      refine ⟨bytes, hhands, Or.inr ⟨_, rfl, ⟨bytes, hhands⟩, Or.inr ⟨rfl, hend hshort, ?_⟩⟩⟩
      rw [hhands.consumed_eq]
      omega
    · dsimp only
      rw [if_neg hshort]
      exact ⟨bytes, hhands, Or.inl ⟨rfl, by omega⟩⟩

end Source

/-- Each source handed out `size` bytes. -/
def HandsAll (size : Nat) : List Source → List Source → Prop :=
  List.Forall₂ fun s s' => ∃ bytes : Bytes, bytes.length = size ∧ s.Hands bytes s'

theorem HandsAll.refl (sources : List Source) : HandsAll 0 sources sources :=
  List.forall₂_same.2 fun s _ => ⟨[], rfl, .refl s⟩

theorem HandsAll.trans {size size' : Nat} {x y z : List Source} (h : HandsAll size x y) (h' : HandsAll size' y z) :
    HandsAll (size + size') x z := by
  induction h generalizing z with
  | nil =>
    cases h'
    exact .nil
  | cons hs _ ih =>
    obtain _ | ⟨⟨back, hback, hhands'⟩, hall'⟩ := h'
    obtain ⟨front, hfront, hhands⟩ := hs
    refine .cons ⟨front ++ back, ?_, hhands.trans hhands'⟩ (ih hall')
    rw [List.length_append, hfront, hback]

theorem HandsAll.exists_of_mem {size : Nat} {sources sources' : List Source} (h : HandsAll size sources sources')
    {s : Source} (hs : s ∈ sources) : ∃ s' ∈ sources', ∃ bytes : Bytes, bytes.length = size ∧ s.Hands bytes s' := by
  induction h with
  | nil => exact absurd hs List.not_mem_nil
  | cons hhands _ ih =>
    rcases List.mem_cons.1 hs with rfl | hlater
    · exact ⟨_, List.mem_cons_self, hhands⟩
    · obtain ⟨s', hs', hhands'⟩ := ih hlater
      exact ⟨s', List.mem_cons_of_mem _ hs', hhands'⟩

/-- One of the sources is to blame. -/
def SomeFails (size : Nat) (kind : IoKind) (sources sources' : List Source) : Prop :=
  ∃ s ∈ sources.zip sources', s.1.Fails size kind s.2

theorem SomeFails.cons {size : Nat} {kind : IoKind} {sources sources' : List Source}
    (h : SomeFails size kind sources sources') (s s' : Source) : SomeFails size kind (s :: sources) (s' :: sources') := by
  obtain ⟨pair, hmem, hfails⟩ := h
  exact ⟨pair, List.mem_cons_of_mem _ hmem, hfails⟩

theorem SomeFails.after_handsAll {size size' : Nat} {kind : IoKind} {x y z : List Source} (h : SomeFails size' kind y z)
    (hall : HandsAll size x y) : SomeFails (size + size') kind x z := by
  induction hall generalizing z with
  | nil =>
    obtain ⟨pair, hmem, -⟩ := h
    exact absurd hmem List.not_mem_nil
  | cons hs _ ih =>
    obtain _ | ⟨s'', z⟩ := z
    · obtain ⟨pair, hmem, -⟩ := h
      exact absurd hmem List.not_mem_nil
    obtain ⟨bytes, rfl, hhands⟩ := hs
    obtain ⟨pair, hmem, hfails⟩ := h
    rcases List.mem_cons.1 hmem with rfl | hlater
    · exact ⟨_, List.mem_cons_self, hfails.after_hands hhands⟩
    · exact (ih ⟨pair, hlater, hfails⟩).cons _ _

theorem not_someFails_of_steady {size : Nat} {sources : List Source}
    (h : ∀ s ∈ sources, s.pacing.Steady ∧ size ≤ s.rest.length) (kind : IoKind) (sources' : List Source) :
    ¬ SomeFails size kind sources sources' := by
  rintro ⟨pair, hmem, hfails⟩
  obtain ⟨hsteady, hsize⟩ := h _ (List.of_mem_zip hmem).1
  exact Source.not_fails_of_steady hsteady hsize hfails

theorem SomeFails.kind_eq {size : Nat} {kind : IoKind} {sources sources' : List Source}
    (h : SomeFails size kind sources sources')
    (hreliable : ∀ s ∈ sources, ∀ calls moved kind, s.pacing.turn calls moved ≠ .fails kind) : kind = .unexpectedEof := by
  obtain ⟨pair, hmem, hfails⟩ := h
  exact hfails.kind_eq (hreliable _ (List.of_mem_zip hmem).1)

/-- A source that is to blame came to an end, or its last call failed. -/
theorem SomeFails.eof_or_broken {size : Nat} {kind : IoKind} {sources sources' : List Source}
    (h : SomeFails size kind sources sources') : kind = .unexpectedEof ∨ ∃ s ∈ sources', s.Broken kind := by
  obtain ⟨pair, hmem, hfails⟩ := h
  rcases hfails.blame with hbroken | ⟨hkind, -⟩
  · exact Or.inr ⟨_, (List.of_mem_zip hmem).2, hbroken⟩
  · exact Or.inl hkind

/-- What is left in the sources are fronts of their own `wholes`. -/
def HoldFronts (selected : List Nat) (wholes : Nat → Bytes) (sources : List Source) : Prop :=
  List.Forall₂ (fun i s => s.rest <+: wholes i) selected sources

/-- Two fronts of one string, cut off at one length. -/
theorem split_of_append_prefix {bytes rest front back : Bytes} (h : bytes ++ rest <+: front ++ back)
    (hlen : bytes.length = front.length) : bytes = front ∧ rest <+: back := by
  obtain ⟨more, hmore⟩ := h
  rw [List.append_assoc] at hmore
  obtain ⟨rfl, hback⟩ := List.append_inj hmore hlen
  exact ⟨rfl, more, hback⟩

/-- A piece from each source, of which it holds no more than a front, or a source that is to blame. -/
theorem readSegments_cases {size : Nat} {selected : List Nat} {front back : Nat → Bytes} {sources : List Source}
    (h : HoldFronts selected (fun i => front i ++ back i) sources) (hsize : ∀ i ∈ selected, (front i).length = size) :
    ∃ sources', sources'.length = sources.length ∧
      (readSegments size sources = (.ok (selected.map front), sources') ∧ HandsAll size sources sources' ∧
          HoldFronts selected back sources' ∨
        ∃ kind, readSegments size sources = (.error kind, sources') ∧ SomeFails size kind sources sources') := by
  induction h with
  | nil => exact ⟨[], rfl, Or.inl ⟨rfl, .nil, .nil⟩⟩
  | @cons i source selected sources hs _ ih =>
    obtain ⟨bytes, hhands, hcases⟩ := source.readExact_cases size
    obtain ⟨sources', hlen, hlater⟩ := ih fun j hj => hsize j (List.mem_cons_of_mem _ hj)
    rw [readSegments]
    rcases hread : source.readExact size with ⟨r, source'⟩
    rw [hread] at hhands hcases
    dsimp only at hhands hcases ⊢
    rcases hcases with ⟨rfl, hbytes⟩ | ⟨kind, rfl, hfails⟩
    · have hcut : bytes.length = (front i).length := by rw [hbytes, hsize i List.mem_cons_self]
      rw [hhands.rest_eq] at hs
      obtain ⟨rfl, hrest⟩ := split_of_append_prefix hs hcut
      refine ⟨source' :: sources', congrArg (· + 1) hlen, ?_⟩
      rcases hlater with ⟨hrun, hall, hhold⟩ | ⟨kind, hrun, hfails⟩
      · left
        rw [hrun]
        exact ⟨rfl, .cons ⟨_, hbytes, hhands⟩ hall, .cons hrest hhold⟩
      · right
        rw [hrun]
        exact ⟨kind, rfl, hfails.cons source source'⟩
    · exact ⟨source' :: sources, rfl, Or.inr ⟨kind, rfl, _, List.mem_cons_self, hfails⟩⟩

/-! ## The loop -/

namespace ChunkDecoder

variable {p : Plan} {o : StreamOptions} {d d' : ChunkDecoder} {selected : List Nat}

/-- `d'` is `d` after `bytes` were written, for which each of the first `k` sources handed out `size` bytes. -/
structure Completes (p : Plan) (bytes : Bytes) (size : Nat) (d d' : ChunkDecoder) : Prop where
  takes : d.sink.Takes bytes d'.sink
  written_eq : d'.written = d.written + bytes.length
  hands : HandsAll size (d.sources.take p.code.scheme.data) (d'.sources.take p.code.scheme.data)

/-- `d'` is `d` stopped by the failure `kind`: a front of `bytes` was written, and a source that was asked for `size`
bytes or the sink is to blame. -/
structure Stops (p : Plan) (bytes : Bytes) (size : Nat) (kind : IoKind) (d d' : ChunkDecoder) : Prop where
  takes : ∃ front, front <+: bytes ∧ d.sink.Takes front d'.sink
  blame : SomeFails size kind (d.sources.take p.code.scheme.data) (d'.sources.take p.code.scheme.data) ∨
    d'.sink.Broken kind

theorem Completes.refl (p : Plan) (d : ChunkDecoder) : Completes p [] 0 d d := ⟨.refl _, rfl, .refl _⟩

theorem Completes.trans {front back : Bytes} {size size' : Nat} {d'' : ChunkDecoder} (h : Completes p front size d d')
    (h' : Completes p back size' d' d'') : Completes p (front ++ back) (size + size') d d'' where
  takes := h.takes.trans h'.takes
  written_eq := by rw [h'.written_eq, h.written_eq, List.length_append, Nat.add_assoc]
  hands := h.hands.trans h'.hands

theorem Completes.trans_stops {front back : Bytes} {size size' : Nat} {kind : IoKind} {d'' : ChunkDecoder}
    (h : Completes p front size d d') (h' : Stops p back size' kind d' d'') :
    Stops p (front ++ back) (size + size') kind d d'' where
  takes := by
    obtain ⟨more, hfront, htakes⟩ := h'.takes
    exact ⟨front ++ more, (List.prefix_append_right_inj front).2 hfront, h.takes.trans htakes⟩
  blame := h'.blame.imp_left fun hfails => hfails.after_handsAll h.hands

theorem Stops.append {front : Bytes} {size : Nat} {kind : IoKind} (h : Stops p front size kind d d') (back : Bytes)
    (size' : Nat) : Stops p (front ++ back) (size + size') kind d d' where
  takes := by
    obtain ⟨more, hfront, htakes⟩ := h.takes
    exact ⟨more, hfront.trans (List.prefix_append front back), htakes⟩
  blame := h.blame.imp_left fun ⟨s, hs, hfails⟩ => ⟨s, hs, hfails.mono (Nat.le_add_right ..)⟩

/-- One round from sources that hold fronts of the selected shards. -/
theorem decodeChunk_cases (hp : p.For selected) (overlap : Nat) {fresh : Nat} {chunk : Bytes} {chunks : List Bytes}
    (hchunk : chunk.length = d.carry + fresh)
    (hhold : HoldFronts selected (p.code.streamShard (chunk :: chunks)) (d.sources.take p.code.scheme.data)) :
    ∃ d', (decodeChunk p overlap fresh d = (.ok (), d') ∧
        Completes p (chunk.drop d.carry) (p.code.scheme.shardSizeFor chunk.length) d d' ∧
        HoldFronts selected (p.code.streamShard chunks) (d'.sources.take p.code.scheme.data) ∧
        d'.remaining = d.remaining - fresh) ∨
      ∃ kind, decodeChunk p overlap fresh d = (.error kind, d') ∧
        Stops p (chunk.drop d.carry) (p.code.scheme.shardSizeFor chunk.length) kind d d' := by
  have hsize : ∀ i ∈ selected, (p.code.segment i chunk).length = p.code.scheme.shardSizeFor chunk.length :=
    fun i hi => p.code.length_segment (hp.lt_total i hi) chunk
  obtain ⟨read, hlen, hread⟩ := readSegments_cases hhold hsize
  have hcount : read.length = p.code.scheme.data := by rw [hlen, ← hhold.length_eq, hp.length_eq]
  have htake : (read ++ d.sources.drop p.code.scheme.data).take p.code.scheme.data = read := List.take_left' hcount
  unfold decodeChunk
  rw [← hchunk]
  dsimp only
  rcases hread with ⟨hrun, hall, hhold'⟩ | ⟨kind, hrun, hfails⟩ <;> rw [hrun] <;> dsimp only
  · rw [hp.reconstruct_segments]
    obtain ⟨n, htakes, hfull⟩ := Sink.takes_writeAll (chunk.drop d.carry) d.sink
    have hbroken := fun kind => @Sink.broken_of_writeAll (chunk.drop d.carry) d.sink kind
    rcases hwrite : d.sink.writeAll (chunk.drop d.carry) with ⟨kind | _, sink⟩ <;>
      rw [hwrite] at htakes hfull hbroken <;> dsimp only at htakes hfull hbroken ⊢
    · exact ⟨_, Or.inr ⟨kind, rfl, ⟨_, List.take_prefix _ _, htakes⟩, Or.inr (hbroken kind rfl)⟩⟩
    · rw [hfull rfl, List.take_length] at htakes
      refine ⟨_, Or.inl ⟨rfl, ⟨htakes, ?_, ?_⟩, ?_, rfl⟩⟩
      · rw [List.length_drop]
        show d.written + fresh = _
        omega
      · dsimp only
        rwa [htake]
      · dsimp only
        rwa [htake]
  · refine ⟨_, Or.inr ⟨kind, rfl, ⟨[], List.nil_prefix, .refl _⟩, Or.inl ?_⟩⟩
    dsimp only
    rwa [htake]

/-- The bytes that the next round writes, and the chunk that they make up with those that it repeats. -/
theorem exists_chunks_eq_cons {carry rest : Bytes} (hcarry : d.carry = carry.length) (hlt : carry.length < o.chunk)
    (hremaining : d.remaining = rest.length) (hfresh : min (o.chunk - d.carry) d.remaining ≠ 0) :
    ∃ front back, rest = front ++ back ∧ front.length = min (o.chunk - d.carry) d.remaining ∧
      o.chunks carry rest = (carry ++ front) ::
        o.chunks ((carry ++ front).drop ((carry ++ front).length - o.overlap)) back := by
  have hnil : rest ≠ [] := by
    rintro rfl
    rw [List.length_nil] at hremaining
    omega
  refine ⟨rest.take (o.chunk - carry.length), rest.drop (o.chunk - carry.length), ?_, ?_, ?_⟩
  · rw [List.take_append_drop]
  · rw [List.length_take, hcarry, hremaining]
  · exact StreamOptions.chunks_of_ne_nil hnil hlt

/-- The loop writes all that is left of the data, or it stops within that. -/
theorem run_cases (ho : o.Valid) (hp : p.For selected) {carry rest : Bytes} (hcarry : d.carry = carry.length)
    (hlt : carry.length < o.chunk) (hremaining : d.remaining = rest.length)
    (hhold : HoldFronts selected (p.code.streamShard (o.chunks carry rest)) (d.sources.take p.code.scheme.data)) :
    (run p o d).1 = .ok () ∧ Completes p rest (p.code.streamSize (o.chunks carry rest)) d (run p o d).2 ∨
      ∃ kind, (run p o d).1 = .error kind ∧
        Stops p rest (p.code.streamSize (o.chunks carry rest)) kind d (run p o d).2 := by
  -- The decoder knows lengths only; `carry` and `rest` are the bytes that they are lengths of.
  fun_induction run p o d generalizing carry rest with
  | case1 d hzero =>
    have hnil : rest = [] := by
      apply List.eq_nil_of_length_eq_zero
      omega
    rw [hnil, StreamOptions.chunks_nil]
    exact Or.inl ⟨rfl, .refl p d⟩
  | case2 d fresh hfresh kind d' =>
    rename_i hround
    obtain ⟨front, back, rfl, hfront, hchunks⟩ := exists_chunks_eq_cons hcarry hlt hremaining hfresh
    rw [hchunks] at hhold ⊢
    have hchunk : (carry ++ front).length = d.carry + fresh := by rw [List.length_append, hfront, ← hcarry]
    obtain ⟨d₁, ⟨hrun, -⟩ | ⟨kind₁, hrun, hstops⟩⟩ := decodeChunk_cases hp o.overlap hchunk hhold
    · rw [hround] at hrun
      cases hrun
    · rw [hround] at hrun
      cases hrun
      rw [hcarry, List.drop_left] at hstops
      exact Or.inr ⟨kind, rfl, hstops.append back _⟩
  | case3 d fresh hfresh d' hround =>
    rename_i ih
    obtain ⟨front, back, rfl, hfront, hchunks⟩ := exists_chunks_eq_cons hcarry hlt hremaining hfresh
    rw [hchunks] at hhold ⊢
    have hchunk : (carry ++ front).length = d.carry + fresh := by rw [List.length_append, hfront, ← hcarry]
    obtain ⟨d₁, ⟨hrun, hcompletes, hhold', hremaining'⟩ | ⟨kind₁, hrun, -⟩⟩ :=
      decodeChunk_cases hp o.overlap hchunk hhold
    · rw [hround] at hrun
      cases hrun
      rw [hcarry, List.drop_left] at hcompletes
      have hcarry' := carry_decodeChunk hround
      rw [← hchunk] at hcarry'
      have hcarryLen : d'.carry = ((carry ++ front).drop ((carry ++ front).length - o.overlap)).length := by
        rw [hcarry', List.length_drop]
        omega
      have hremainingLen : d'.remaining = back.length := by
        rw [hremaining', hremaining, List.length_append, hfront]
        exact Nat.add_sub_cancel_left ..
      rcases ih hcarryLen (ho.length_carry_lt _) hremainingLen hhold' with ⟨hok, hlater⟩ | ⟨kind, herr, hlater⟩
      · exact Or.inl ⟨hok, hcompletes.trans hlater⟩
      · exact Or.inr ⟨kind, herr, hcompletes.trans_stops hlater⟩
    · rw [hround] at hrun
      cases hrun

end ChunkDecoder

/-! ## The operation -/

namespace Code

/-- As many sources as indices; what the first `k` of them hold is no more than a front of the content of the sink that
their index names. -/
structure SuppliesFronts (code : Code) (sinks : List Sink) (present : List Nat) (sources : List Source) : Prop where
  length_eq : sources.length = present.length
  stocked : HoldFronts (present.take code.scheme.data) (fun i => (sinks.getD i {}).content)
    (sources.take code.scheme.data)

variable {code : Code} {o : StreamOptions} {present : List Nat} {sources : List Source} {data : Bytes}

/-- A streaming decode of genuine shards, cut off anywhere: all was read and written, and only the flushing may have
failed, or the loop was stopped. -/
theorem decodeStream_fronts (ho : o.Valid) (hroom : code.decodeBuffer o < bufferLimit) (hsel : code.Selects present)
    (hrec : code.Recoverable (present.take code.scheme.data)) (hcount : sources.length = present.length)
    (hhold : HoldFronts (present.take code.scheme.data) (code.streamShard (o.chunks [] data))
      (sources.take code.scheme.data)) (sink : Sink) :
    let decoding := code.decodeStream sources present data.length sink o
    HandsAll (code.streamSize (o.chunks [] data)) (sources.take code.scheme.data)
        (decoding.sources.take code.scheme.data) ∧ sink.Takes data decoding.sink ∧
        (sink.flushFault = none ∧ decoding.outcome.result = .ok data.length ∨
          ∃ kind, sink.flushFault = some kind ∧ decoding.outcome.result = .error (.io kind)) ∨
      ∃ kind, decoding.outcome.result = .error (.io kind) ∧
        (∃ front, front <+: data ∧ sink.Takes front decoding.sink) ∧
        (SomeFails (code.streamSize (o.chunks [] data)) kind (sources.take code.scheme.data)
            (decoding.sources.take code.scheme.data) ∨ decoding.sink.Broken kind) := by
  obtain ⟨inverse, hplan, hp⟩ := code.planDecodeStream_eq hsel hrec
  let start : ChunkDecoder := { sources := sources, sink := sink, remaining := data.length }
  have hcarry : start.carry = ([] : Bytes).length := rfl
  have hcases := ChunkDecoder.run_cases ho hp hcarry (Nat.lt_of_le_of_lt (Nat.zero_le _) ho) rfl hhold
  have hcheck := code.checkDecodeStream_eq_ok ho hcount hsel.enough
  rcases hrun : ChunkDecoder.run ⟨code, inverse, present.length⟩ o start with ⟨r, d⟩
  dsimp only
  rw [decodeStream_eq hcheck hplan hroom hrun]
  rw [hrun] at hcases
  dsimp only [ChunkDecoder.conclude]
  unfold ChunkDecoder.ending
  rcases hcases with ⟨rfl, hcompletes⟩ | ⟨kind, rfl, hstops⟩
  · refine Or.inl ⟨hcompletes.hands, hcompletes.takes, ?_⟩
    rw [← hcompletes.takes.flushFault_eq]
    dsimp only
    cases d.sink.flushFault with
    | none => exact Or.inl ⟨rfl, congrArg Except.ok (hcompletes.written_eq.trans (Nat.zero_add _))⟩
    | some kind => exact Or.inr ⟨kind, rfl, rfl⟩
  · exact Or.inr ⟨kind, rfl, hstops.takes, hstops.blame⟩

/-- What is refused, and a selection that has no inverse, touches no endpoint. -/
theorem decodeStream_untouched {dataSize : Nat} {sink : Sink} {e : CodingError}
    (herror : (code.decodeStream sources present dataSize sink o).outcome.result = .error e)
    (hclass : e.errorClass = .argument ∨ e.errorClass = .arithmetic) :
    (code.decodeStream sources present dataSize sink o).sources = sources ∧
      (code.decodeStream sources present dataSize sink o).sink = sink := by
  rcases decodeStream_cases code sources present dataSize sink o with
    ⟨-, e', -, heq⟩ | ⟨-, ⟨e', -, heq⟩ | ⟨-, plan, r, d, -, -, heq⟩⟩
  · rw [heq]
    exact ⟨rfl, rfl⟩
  · rw [heq]
    exact ⟨rfl, rfl⟩
  · rw [heq] at herror
    obtain ⟨kind, rfl⟩ := ChunkDecoder.eq_io_of_ending herror
    rcases hclass with hclass | hclass <;> cases hclass

/-- **Failures of a streaming decode**: what is refused touches no endpoint. Where buffers have room for a chunk, from
fronts of what a streaming encode wrote to the sinks of a recoverable selection, all of the data is written, or the decode
stops with a failure of an endpoint and a front of the data is written. Nothing but a cut source or a failing endpoint stops
it, and a cut source always does, with an unexpected end unless an endpoint fails first. -/
theorem decodeStream_failure (code : Code) (o : StreamOptions) :
    (∀ (sources : List Source) (present : List Nat) (dataSize : Nat) (sink : Sink) (e : CodingError),
      let decoding := code.decodeStream sources present dataSize sink o
      decoding.outcome.result = .error e → e.errorClass = .argument ∨ e.errorClass = .arithmetic →
        decoding.sources = sources ∧ decoding.sink = sink) ∧
    ∀ (data : Bytes) (pacing : Pacing) (present : List Nat), o.Valid → code.decodeBuffer o < bufferLimit →
      pacing.Steady → code.Selects present → code.Recoverable (present.take code.scheme.data) →
      ∃ summary,
        let encoding := code.encodeStream { rest := data, pacing := pacing } (List.replicate code.scheme.total {}) o
        encoding.outcome.result = .ok summary ∧
        ∀ (sources : List Source) (sink : Sink), code.SuppliesFronts encoding.sinks present sources →
          let decoding := code.decodeStream sources present data.length sink o
          (decoding.outcome.result = .ok data.length ∧ decoding.sink.content = sink.content ++ data ∨
            ∃ kind front, decoding.outcome.result = .error (.io kind) ∧ front <+: data ∧
              decoding.sink.content = sink.content ++ front) ∧
          ((∀ s ∈ sources.take code.scheme.data, s.pacing.Steady ∧ s.rest.length = summary.shardBytes) →
            sink.pacing.Steady → sink.flushFault = none → decoding.outcome.result = .ok data.length) ∧
          ((∃ s ∈ sources.take code.scheme.data, s.rest.length < summary.shardBytes) →
            (∃ kind, decoding.outcome.result = .error (.io kind) ∧
              (kind = .unexpectedEof ∨ (∃ s ∈ decoding.sources.take code.scheme.data, s.Broken kind) ∨
                decoding.sink.Broken kind)) ∧
            ((∀ s ∈ sources.take code.scheme.data, ∀ calls moved kind, s.pacing.turn calls moved ≠ .fails kind) →
              sink.pacing.Steady → decoding.outcome.result = .error (.io .unexpectedEof))) := by
  refine ⟨fun sources present dataSize sink e => decodeStream_untouched, ?_⟩
  intro data pacing present ho hroom hpacing hsel hrec
  have hfits := Nat.lt_of_le_of_lt (code.chunk_le_decodeBuffer o) hroom
  obtain ⟨summary, hok, -, hsize, hcontents⟩ := code.encodeStream_fresh ho hfits { rest := data, pacing := pacing } hpacing
  refine ⟨summary, hok, fun sources sink hsupplies => ?_⟩
  have hhold : HoldFronts (present.take code.scheme.data) (code.streamShard (o.chunks [] data))
      (sources.take code.scheme.data) := by
    refine ((List.forall₂_and_left _ _).2 ⟨hsel.lt_total, hsupplies.stocked⟩).imp fun i s hs => ?_
    have hfront := hs.2
    dsimp only at hfront
    rwa [hcontents i hs.1] at hfront
  dsimp only at hsize ⊢
  rw [hsize]
  rcases decodeStream_fronts ho hroom hsel hrec hsupplies.length_eq hhold sink with
    ⟨hands, htakes, hflush⟩ | ⟨kind, herror, ⟨front, hfront, htakes⟩, hblame⟩
  · refine ⟨?_, fun _ _ hnone => ?_, ?_⟩
    · rcases hflush with ⟨-, hresult⟩ | ⟨kind, -, hresult⟩
      · exact Or.inl ⟨hresult, htakes.content_eq⟩
      · exact Or.inr ⟨kind, data, hresult, List.prefix_rfl, htakes.content_eq⟩
    · rcases hflush with ⟨-, hresult⟩ | ⟨kind, hfault, -⟩
      · exact hresult
      · rw [hnone] at hfault
        cases hfault
    · rintro ⟨s, hs, hshort⟩
      obtain ⟨s', -, bytes, hbytes, hhands⟩ := hands.exists_of_mem hs
      rw [hhands.rest_eq, List.length_append] at hshort
      omega
  · have hworks : sink.pacing.Steady →
        ¬ (code.decodeStream sources present data.length sink o).sink.Broken kind := fun hsteady =>
      Sink.not_broken_of_steady (htakes.pacing_eq ▸ hsteady) kind
    refine ⟨Or.inr ⟨kind, front, herror, hfront, htakes.content_eq⟩, fun hsources hsink _ => ?_,
      fun _ => ⟨⟨kind, herror, ?_⟩, fun hsources hsink => ?_⟩⟩
    · have hfull : ∀ s ∈ sources.take code.scheme.data,
          s.pacing.Steady ∧ code.streamSize (o.chunks [] data) ≤ s.rest.length :=
        fun s hs => ⟨(hsources s hs).1, (hsources s hs).2.ge⟩
      rcases hblame with hfails | hbroken
      · exact absurd hfails (not_someFails_of_steady hfull kind _)
      · exact absurd hbroken (hworks hsink)
    · rcases hblame with hfails | hbroken
      · exact hfails.eof_or_broken.imp_right Or.inl
      · exact Or.inr (Or.inr hbroken)
    · rcases hblame with hfails | hbroken
      · rw [herror, hfails.kind_eq hsources]
      · exact absurd hbroken (hworks hsink)

/-- Five bytes in chunks of two with one repeated, read back from the parity sink and a data sink: all of them from whole
sources, a front of them once the parity source lacks its last byte, and nothing is touched when one index is listed
twice. -/
theorem decodeStream_failure_two_one : ∃ (code : Code) (summary : StreamSummary) (sinks : List Sink) (front : Bytes),
    code.scheme = ⟨2, 1⟩ ∧
    (code.encodeStream { rest := [1, 2, 3, 4, 5] } (List.replicate 3 {}) ⟨2, 1⟩).outcome.result = .ok summary ∧
    sinks = (code.encodeStream { rest := [1, 2, 3, 4, 5] } (List.replicate 3 {}) ⟨2, 1⟩).sinks ∧
    (let whole := [{ rest := (sinks.getD 2 {}).content }, { rest := (sinks.getD 0 {}).content }]
    (code.decodeStream whole [2, 0] 5 {} ⟨2, 1⟩).outcome.result = .ok 5 ∧
    (code.decodeStream whole [2, 0] 5 {} ⟨2, 1⟩).sink.content = [1, 2, 3, 4, 5]) ∧
    (let cut := [{ rest := (sinks.getD 2 {}).content.dropLast }, { rest := (sinks.getD 0 {}).content }]
    (code.decodeStream cut [2, 0] 5 {} ⟨2, 1⟩).outcome.result = .error (.io .unexpectedEof) ∧
    front <+: [1, 2, 3, 4, 5] ∧ (code.decodeStream cut [2, 0] 5 {} ⟨2, 1⟩).sink.content = front) ∧
    (let twice := code.decodeStream [{ rest := [7] }, { rest := [8] }] [0, 0] 5 {} ⟨2, 1⟩
    twice.outcome.result = .error (.argument (.listedTwice 0)) ∧
    twice.sources = [{ rest := [7] }, { rest := [8] }] ∧ twice.sink = {}) := by
  let code := ofValid ⟨2, 1⟩ (by decide)
  have hsel : code.Selects [2, 0] := ⟨by decide, by decide, by decide⟩
  have hrec : code.Recoverable [2, 0] := recoverable_of_few (Or.inr (by decide)) (by decide) (by decide) (by decide)
  obtain ⟨hrefused, hstopped⟩ := decodeStream_failure code ⟨2, 1⟩
  obtain ⟨summary, hok, hdecode⟩ :=
    hstopped [1, 2, 3, 4, 5] {} [2, 0] (by decide) (by decide) Pacing.steady_default hsel hrec
  let sinks := (code.encodeStream { rest := [1, 2, 3, 4, 5] } (List.replicate 3 {}) ⟨2, 1⟩).sinks
  obtain ⟨fresh, hfresh, -, hsize, hcontents⟩ :=
    code.encodeStream_fresh (o := ⟨2, 1⟩) (by decide) (by decide) { rest := [1, 2, 3, 4, 5] } Pacing.steady_default
  obtain rfl : summary = fresh := Except.ok.inj (hok.symm.trans hfresh)
  have hlen : ∀ i < 3, (sinks.getD i {}).content.length = summary.shardBytes := by
    intro i hi
    have hgenuine : (sinks.getD i {}).content = _ := hcontents i hi
    rw [hgenuine, length_streamShard code hi, hsize]
  have hpos : 0 < summary.shardBytes := by
    have hchunks : (⟨2, 1⟩ : StreamOptions).chunks [] [1, 2, 3, 4, 5] = [[1, 2], [2, 3], [3, 4], [4, 5]] := by
      simp [StreamOptions.chunks]
    rw [hsize, hchunks]
    decide
  let whole : List Source := [{ rest := (sinks.getD 2 {}).content }, { rest := (sinks.getD 0 {}).content }]
  let cut : List Source := [{ rest := (sinks.getD 2 {}).content.dropLast }, { rest := (sinks.getD 0 {}).content }]
  have hwhole : code.SuppliesFronts sinks [2, 0] whole := ⟨rfl, .cons List.prefix_rfl (.cons List.prefix_rfl .nil)⟩
  have hcut : code.SuppliesFronts sinks [2, 0] cut :=
    ⟨rfl, .cons (List.dropLast_prefix _) (.cons List.prefix_rfl .nil)⟩
  obtain ⟨hwrites, hsucceeds, -⟩ := hdecode whole {} hwhole
  have hdone : (code.decodeStream whole [2, 0] 5 {} ⟨2, 1⟩).outcome.result = .ok 5 := by
    refine hsucceeds (fun s hs => ?_) Pacing.steady_default rfl
    rcases List.mem_pair.1 hs with rfl | rfl
    · exact ⟨Pacing.steady_default, hlen 2 (by decide)⟩
    · exact ⟨Pacing.steady_default, hlen 0 (by decide)⟩
  have hcontent : (code.decodeStream whole [2, 0] 5 {} ⟨2, 1⟩).sink.content = [1, 2, 3, 4, 5] := by
    rcases hwrites with ⟨-, hcontent⟩ | ⟨kind, front, herror, -⟩
    · exact hcontent
    · cases hdone.symm.trans herror
  obtain ⟨hfront, -, hshort⟩ := hdecode cut {} hcut
  have hmissing : ∃ s ∈ cut.take 2, s.rest.length < summary.shardBytes := by
    refine ⟨_, List.mem_cons_self, ?_⟩
    rw [List.length_dropLast, hlen 2 (by decide)]
    exact Nat.sub_lt hpos Nat.one_pos
  have hunexpected := (hshort hmissing).2
    (fun s hs => by
      rcases List.mem_pair.1 hs with rfl | rfl
      · exact Pacing.steady_default.reliable
      · exact Pacing.steady_default.reliable)
    Pacing.steady_default
  obtain ⟨front, hprefix, hgot⟩ : ∃ front : Bytes, front <+: [1, 2, 3, 4, 5] ∧
      (code.decodeStream cut [2, 0] 5 {} ⟨2, 1⟩).sink.content = front := by
    rcases hfront with ⟨hok', -⟩ | ⟨kind, front, -, hprefix, hgot⟩
    · cases hunexpected.symm.trans hok'
    · exact ⟨front, hprefix, hgot⟩
  have htwice : (code.decodeStream [{ rest := [7] }, { rest := [8] }] [0, 0] 5 {} ⟨2, 1⟩).outcome.result =
      .error (.argument (.listedTwice 0)) := by decide
  exact ⟨code, summary, sinks, front, rfl, hok, rfl, ⟨hdone, hcontent⟩, ⟨hunexpected, hprefix, hgot⟩, htwice,
    hrefused _ _ _ _ _ htwice (Or.inl rfl)⟩

end Code

end ShardCoding

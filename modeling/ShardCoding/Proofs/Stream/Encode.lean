import ShardCoding.Proofs.Stream.Chunks
import ShardCoding.Proofs.Stream.Endpoint
import ShardCoding.Stream.Encode

/-!
# What a streaming encode writes

* `TakesAll`, `TakesFronts` : every sink of a list took its own bytes, or a front of them; `writeShards_cases` : the
  shards of one chunk into sinks that may fail;
* `ChunkEncoder.Advances` : some chunks written; `ChunkEncoder.run_cases` : what the loop leaves in the sinks, whether
  it comes to the end of the source or is stopped by a failure;
* `ChunkEncoder.run_steady`, `Code.encodeStream_steady` : the whole input from a steady source into steady sinks;
  `Code.encodeStream_replicate` : into fresh sinks.
-/

namespace ShardCoding

/-- Sink `i` took `pieces i`. -/
structure TakesAll (sinks : List DigestSink) (pieces : Nat → Bytes) (sinks' : List DigestSink) : Prop where
  length_eq : sinks'.length = sinks.length
  takes : ∀ (i : Nat) (s s' : DigestSink), sinks[i]? = some s → sinks'[i]? = some s' → s.inner.Takes (pieces i) s'.inner

/-- Every sink of the list is steady. -/
def SteadySinks (sinks : List DigestSink) : Prop := ∀ s ∈ sinks, s.inner.pacing.Steady

variable {sinks sinks' sinks'' : List DigestSink}

theorem TakesAll.refl (sinks : List DigestSink) : TakesAll sinks (fun _ => []) sinks := by
  refine ⟨rfl, fun i s s' hs hs' => ?_⟩
  obtain rfl := Option.some.inj (hs.symm.trans hs')
  exact .refl s.inner

theorem TakesAll.trans {front back : Nat → Bytes} (h : TakesAll sinks front sinks')
    (h' : TakesAll sinks' back sinks'') : TakesAll sinks (fun i => front i ++ back i) sinks'' := by
  refine ⟨h'.length_eq.trans h.length_eq, fun i s s'' hs hs'' => ?_⟩
  have hi : i < sinks'.length := by
    rw [← h'.length_eq]
    exact (List.getElem?_eq_some_iff.1 hs'').1
  exact (h.takes i s _ hs (List.getElem?_eq_getElem hi)).trans (h'.takes i _ s'' (List.getElem?_eq_getElem hi) hs'')

theorem TakesAll.steady {pieces : Nat → Bytes} (h : TakesAll sinks pieces sinks') (hsteady : SteadySinks sinks) :
    SteadySinks sinks' := by
  intro s' hs'
  obtain ⟨i, hi, rfl⟩ := List.getElem_of_mem hs'
  have hi' : i < sinks.length := by rwa [← h.length_eq]
  rw [(h.takes i _ _ (List.getElem?_eq_getElem hi') (List.getElem?_eq_getElem hi)).pacing_eq]
  exact hsteady _ (List.getElem_mem hi')

/-- Taking leaves the flushing as it is. -/
theorem TakesAll.flushFault?_eq_none {pieces : Nat → Bytes} (h : TakesAll sinks pieces sinks')
    (hflush : ∀ s ∈ sinks, s.flushFault = none) : flushFault? sinks' = none := by
  unfold flushFault?
  rw [List.findSome?_eq_none_iff]
  intro s' hs'
  obtain ⟨i, hi, rfl⟩ := List.getElem_of_mem hs'
  have hi' : i < sinks.length := by rwa [← h.length_eq]
  exact (h.takes i _ _ (List.getElem?_eq_getElem hi') (List.getElem?_eq_getElem hi)).flushFault_eq.trans
    (hflush _ (List.getElem_mem hi'))

theorem TakesAll.contents {pieces : Nat → Bytes} (h : TakesAll sinks pieces sinks') :
    sinks'.map (·.inner.content) = sinks.zipIdx.map fun (s, i) => s.inner.content ++ pieces i := by
  refine List.ext_getElem (by simp [h.length_eq]) fun i hi hi' => ?_
  rw [List.length_map] at hi hi'
  rw [List.length_zipIdx] at hi'
  simp only [List.getElem_map, List.getElem_zipIdx, Nat.zero_add]
  exact (h.takes i _ _ (List.getElem?_eq_getElem hi') (List.getElem?_eq_getElem hi)).content_eq

theorem TakesAll.cons {s s' : DigestSink} {pieces pieces' : Nat → Bytes} (h : s.inner.Takes (pieces' 0) s'.inner)
    (hall : TakesAll sinks pieces sinks') (hlater : ∀ i, pieces' (i + 1) = pieces i) :
    TakesAll (s :: sinks) pieces' (s' :: sinks') := by
  refine ⟨by rw [List.length_cons, List.length_cons, hall.length_eq], fun i t t' ht ht' => ?_⟩
  cases i with
  | zero =>
    rw [List.getElem?_cons_zero, Option.some.injEq] at ht ht'
    rwa [← ht, ← ht']
  | succ i =>
    rw [List.getElem?_cons_succ] at ht ht'
    rw [hlater]
    exact hall.takes i t t' ht ht'

/-- Sink `i` took a front of `wholes i`. -/
def TakesFronts (sinks : List DigestSink) (wholes : Nat → Bytes) (sinks' : List DigestSink) : Prop :=
  ∃ pieces, TakesAll sinks pieces sinks' ∧ ∀ i, pieces i <+: wholes i

theorem TakesFronts.refl (sinks : List DigestSink) (wholes : Nat → Bytes) : TakesFronts sinks wholes sinks :=
  ⟨fun _ => [], .refl sinks, fun _ => List.nil_prefix⟩

theorem TakesAll.fronts {pieces : Nat → Bytes} (h : TakesAll sinks pieces sinks') : TakesFronts sinks pieces sinks' :=
  ⟨pieces, h, fun _ => List.prefix_rfl⟩

theorem TakesFronts.append {wholes : Nat → Bytes} (h : TakesFronts sinks wholes sinks') (more : Nat → Bytes) :
    TakesFronts sinks (fun i => wholes i ++ more i) sinks' := by
  obtain ⟨pieces, hall, hfront⟩ := h
  exact ⟨pieces, hall, fun i => (hfront i).trans (List.prefix_append _ _)⟩

theorem TakesAll.trans_fronts {pieces wholes : Nat → Bytes} (h : TakesAll sinks pieces sinks')
    (h' : TakesFronts sinks' wholes sinks'') : TakesFronts sinks (fun i => pieces i ++ wholes i) sinks'' := by
  obtain ⟨later, hall, hfront⟩ := h'
  exact ⟨_, h.trans hall, fun i => (List.prefix_append_right_inj _).2 (hfront i)⟩

/-- A sink that breaks got a front of its shard, and the sinks that follow nothing. -/
theorem writeShards_cases {shards : List Bytes} (hlen : shards.length = sinks.length) :
    (writeShards sinks shards).1 = .ok () ∧ TakesAll sinks (fun i => shards.getD i []) (writeShards sinks shards).2 ∨
    ∃ kind, (writeShards sinks shards).1 = .error kind ∧
      TakesFronts sinks (fun i => shards.getD i []) (writeShards sinks shards).2 ∧
      ∃ s ∈ (writeShards sinks shards).2, s.inner.Broken kind := by
  induction sinks generalizing shards with
  | nil =>
    obtain rfl := List.eq_nil_of_length_eq_zero hlen
    exact Or.inl ⟨rfl, rfl, fun i s s' hs => by simp at hs⟩
  | cons sink sinks ih =>
    obtain _ | ⟨shard, shards⟩ := shards
    · simp at hlen
    obtain ⟨n, htakes, hfull⟩ := Sink.takes_writeAll shard sink.inner
    have hbroken := fun kind => @Sink.broken_of_writeAll shard sink.inner kind
    rw [DigestSink.writeAll_inner] at htakes hfull hbroken
    dsimp only at htakes hfull hbroken
    rw [writeShards]
    rcases hwrite : sink.writeAll shard with ⟨kind | _, sink'⟩ <;> rw [hwrite] at htakes hfull hbroken
    · right
      refine ⟨kind, rfl, ⟨fun i => i.casesOn (shard.take n) fun _ => [], ?_, ?_⟩, sink', List.mem_cons_self,
        hbroken kind rfl⟩
      · exact .cons htakes (.refl sinks) fun _ => rfl
      · rintro (_ | i)
        · exact List.take_prefix _ _
        · exact List.nil_prefix
    · rw [hfull rfl, List.take_length] at htakes
      have hlater : shards.length = sinks.length := by simpa using hlen
      dsimp only
      rcases ih hlater with ⟨hok, hall⟩ | ⟨kind, herr, ⟨pieces, hall, hfront⟩, s, hs, hbroken⟩
      · exact Or.inl ⟨hok, .cons htakes hall fun _ => rfl⟩
      · right
        refine ⟨kind, herr, ⟨fun i => i.casesOn shard pieces, ?_, ?_⟩, s, List.mem_cons_of_mem _ hs, hbroken⟩
        · exact .cons htakes hall fun _ => rfl
        · rintro (_ | i)
          · exact List.prefix_rfl
          · exact hfront i

namespace ChunkEncoder

variable {code : Code} {o : StreamOptions} {e e' e'' : ChunkEncoder}

/-- `e'` is `e` after `chunks` were written, with `fresh` bytes read for them. -/
structure Advances (code : Code) (chunks : List Bytes) (fresh : Nat) (e e' : ChunkEncoder) : Prop where
  takes : TakesAll e.sinks (code.streamShard chunks) e'.sinks
  totalBytes_eq : e'.totalBytes = e.totalBytes + fresh
  chunks_eq : e'.chunks = e.chunks + chunks.length
  shardBytes_eq : e'.shardBytes = e.shardBytes + code.streamSize chunks

theorem Advances.trans {chunks chunks' : List Bytes} {fresh fresh' : Nat} (h : Advances code chunks fresh e e')
    (h' : Advances code chunks' fresh' e' e'') : Advances code (chunks ++ chunks') (fresh + fresh') e e'' where
  takes := by
    rw [Code.streamShard_append]
    exact h.takes.trans h'.takes
  totalBytes_eq := by rw [h'.totalBytes_eq, h.totalBytes_eq, Nat.add_assoc]
  chunks_eq := by rw [h'.chunks_eq, h.chunks_eq, List.length_append, Nat.add_assoc]
  shardBytes_eq := by rw [h'.shardBytes_eq, h.shardBytes_eq, Code.streamSize_append, Nat.add_assoc]

theorem advances_of_encodeChunk {overlap : Nat} {fresh : Bytes} {source : Source}
    (hlen : e.sinks.length = code.scheme.total)
    (h : encodeChunk code overlap fresh { e with source := source } = (.ok (), e')) :
    Advances code [e.carry ++ fresh] fresh.length e e' ∧ e'.source = source ∧
      e'.carry = (e.carry ++ fresh).drop ((e.carry ++ fresh).length - overlap) := by
  have hcount : (code.shardsOf (code.scheme.shardSizeFor (e.carry ++ fresh).length) (e.carry ++ fresh)).length =
      e.sinks.length := by rw [Code.length_shardsOf, hlen]
  have hwrite := writeShards_cases hcount
  unfold encodeChunk at h
  dsimp only at h
  rcases hrun : writeShards e.sinks (code.shardsOf (code.scheme.shardSizeFor (e.carry ++ fresh).length)
    (e.carry ++ fresh)) with ⟨kind | _, sinks'⟩ <;> rw [hrun] at hwrite h
  · cases h
  · obtain ⟨-, rfl⟩ := Prod.mk.inj h
    rcases hwrite with ⟨-, hall⟩ | ⟨kind, herr, -⟩
    · have hpieces : code.streamShard [e.carry ++ fresh] = fun i => code.segment i (e.carry ++ fresh) := by
        funext i
        exact List.flatMap_singleton ..
      refine ⟨⟨hpieces ▸ hall, rfl, rfl, ?_⟩, rfl, rfl⟩
      rw [Code.streamSize, List.map_singleton, List.sum_singleton]
    · cases herr

theorem fronts_of_encodeChunk {overlap : Nat} {fresh : Bytes} {source : Source} {kind : IoKind}
    (hlen : e.sinks.length = code.scheme.total)
    (h : encodeChunk code overlap fresh { e with source := source } = (.error kind, e')) :
    TakesFronts e.sinks (fun i => code.segment i (e.carry ++ fresh)) e'.sinks ∧ e'.source = source ∧
      ∃ s ∈ e'.sinks, s.inner.Broken kind := by
  have hcount : (code.shardsOf (code.scheme.shardSizeFor (e.carry ++ fresh).length) (e.carry ++ fresh)).length =
      e.sinks.length := by rw [Code.length_shardsOf, hlen]
  have hwrite := writeShards_cases hcount
  unfold encodeChunk at h
  dsimp only at h
  rcases hrun : writeShards e.sinks (code.shardsOf (code.scheme.shardSizeFor (e.carry ++ fresh).length)
    (e.carry ++ fresh)) with ⟨kind' | _, sinks'⟩ <;> rw [hrun] at hwrite h
  · obtain ⟨hkind, rfl⟩ := Prod.mk.inj h
    obtain rfl := Except.error.inj hkind
    rcases hwrite with ⟨hok, -⟩ | ⟨kind'', herr, hfronts, hbroken⟩
    · cases hok
    · obtain rfl := Except.error.inj herr
      exact ⟨hfronts, rfl, hbroken⟩
  · cases h

/-- The shards written are those of the bytes read, up to the first failure: a chunk that a failed read cut short is
not written, and a sink that fails holds a front of its shard, whatever the source would still have handed out. -/
theorem run_cases (ho : o.Valid) (hcarry : e.carry.length < o.chunk) (hlen : e.sinks.length = code.scheme.total) :
    ∃ delivered, e.source.Hands delivered (run code o e).2.source ∧
      ((run code o e).1 = .ok () ∧ (run code o e).2.source.AtEnd ∧
          Advances code (o.chunks e.carry delivered) delivered.length e (run code o e).2 ∨
        ∃ kind, (run code o e).1 = .error kind ∧
          ((run code o e).2.source.Broken kind ∨ ∃ s ∈ (run code o e).2.sinks, s.inner.Broken kind) ∧
          ∀ input, delivered <+: input → ((run code o e).2.source.AtEnd → input = delivered) →
            TakesFronts e.sinks (code.streamShard (o.chunks e.carry input)) (run code o e).2.sinks) := by
  fun_induction run code o e with
  | case1 e kind source hread =>
    obtain ⟨⟨delivered, hhands⟩, hbroken⟩ := Source.broken_of_readUpTo hread
    exact ⟨delivered, hhands, Or.inr ⟨kind, rfl, Or.inl hbroken, fun _ _ _ => .refl e.sinks _⟩⟩
  | case2 e source hread =>
    obtain ⟨hhands, -, hend⟩ := Source.hands_of_readUpTo hread
    refine ⟨[], hhands, Or.inl ⟨rfl, hend (Nat.sub_pos_of_lt hcarry), ?_⟩⟩
    rw [StreamOptions.chunks_nil]
    exact ⟨.refl e.sinks, rfl, rfl, rfl⟩
  | case3 e b fresh source hread kind e' hchunk =>
    obtain ⟨hhands, hle, hend⟩ := Source.hands_of_readUpTo hread
    obtain ⟨hfronts, rfl, hbroken⟩ := fronts_of_encodeChunk hlen hchunk
    refine ⟨b :: fresh, hhands, Or.inr ⟨kind, rfl, Or.inr hbroken, fun input hfront hwhole => ?_⟩⟩
    rw [StreamOptions.chunks_eq_cons hcarry (List.cons_ne_nil b fresh) hle hfront fun hlt => hwhole (hend hlt)]
    exact hfronts.append _
  | case4 e b fresh source hread e' hchunk hshort =>
    obtain ⟨hhands, hle, hend⟩ := Source.hands_of_readUpTo hread
    obtain ⟨hadvances, rfl, -⟩ := advances_of_encodeChunk hlen hchunk
    have hlt : (b :: fresh).length < o.chunk - e.carry.length := by
      rw [List.length_cons]
      omega
    refine ⟨b :: fresh, hhands, Or.inl ⟨rfl, hend hlt, ?_⟩⟩
    rw [StreamOptions.chunks_eq_cons hcarry (List.cons_ne_nil b fresh) hle List.prefix_rfl fun _ => rfl,
      List.drop_length, StreamOptions.chunks_nil]
    exact hadvances
  | case5 e b fresh source hread e' hchunk hfull ih =>
    obtain ⟨hhands, hle, -⟩ := Source.hands_of_readUpTo hread
    obtain ⟨hadvances, rfl, hcarry'⟩ := advances_of_encodeChunk hlen hchunk
    have hfull' : ¬ (b :: fresh).length < o.chunk - e.carry.length := by
      rw [List.length_cons]
      omega
    have hchunks : ∀ later, o.chunks e.carry (b :: fresh ++ later) = (e.carry ++ (b :: fresh)) ::
        o.chunks e'.carry later := by
      intro later
      rw [StreamOptions.chunks_eq_cons hcarry (List.cons_ne_nil b fresh) hle (List.prefix_append _ later)
        fun hlt => absurd hlt hfull', List.drop_left, hcarry']
    have hcarryLt : e'.carry.length < o.chunk := by
      rw [hcarry']
      exact ho.length_carry_lt _
    obtain ⟨delivered, hlater, hcases⟩ := ih hcarryLt (hadvances.takes.length_eq.trans hlen)
    refine ⟨b :: fresh ++ delivered, hhands.trans hlater, ?_⟩
    rcases hcases with ⟨hok, hend, hadvances'⟩ | ⟨kind, herr, hbroken, hfronts⟩
    · refine Or.inl ⟨hok, hend, ?_⟩
      rw [hchunks, List.length_append]
      exact hadvances.trans hadvances'
    · refine Or.inr ⟨kind, herr, hbroken, fun input hfront hwhole => ?_⟩
      obtain ⟨later, rfl⟩ := hfront
      rw [List.append_assoc] at hwhole ⊢
      rw [hchunks]
      have hlater := hfronts (delivered ++ later) (List.prefix_append _ _) fun hend =>
        List.append_cancel_left (hwhole hend)
      have hpieces := hadvances.takes.trans_fronts hlater
      rw [← Code.streamShard_append] at hpieces
      exact hpieces

/-- A streaming encode between two chunks goes on to write the segments of all the chunks that are left. -/
theorem run_steady (ho : o.Valid) (hcarry : e.carry.length < o.chunk) (hsource : e.source.pacing.Steady)
    (hlen : e.sinks.length = code.scheme.total) (hsteady : SteadySinks e.sinks) :
    ∃ e', run code o e = (.ok (), e') ∧ Advances code (o.chunks e.carry e.source.rest) e.source.rest.length e e' := by
  obtain ⟨delivered, hhands, ⟨hok, hend, hadvances⟩ | ⟨kind, -, hbroken, hfronts⟩⟩ := run_cases ho hcarry hlen
  · have hnil := hend.rest_eq_nil (hhands.pacing_eq ▸ hsource.moves)
    have hrest : e.source.rest = delivered := by rw [hhands.rest_eq, hnil, List.append_nil]
    rw [hrest]
    exact ⟨_, Prod.ext hok rfl, hadvances⟩
  · exfalso
    rcases hbroken with hread | ⟨s, hs, hwrite⟩
    · exact Source.not_broken_of_steady (hhands.pacing_eq ▸ hsource) kind hread
    · obtain ⟨pieces, htakes, -⟩ := hfronts delivered List.prefix_rfl fun _ => rfl
      exact Sink.not_broken_of_steady (htakes.steady hsteady s hs) kind hwrite

end ChunkEncoder

/-- A streaming encode before its first read. -/
def ChunkEncoder.start (source : Source) (sinks : List Sink) : ChunkEncoder :=
  { source := source, sinks := sinks.map fun s => { inner := s } }

theorem ChunkEncoder.length_sinks_start (source : Source) (sinks : List Sink) :
    (start source sinks).sinks.length = sinks.length := List.length_map ..

theorem ChunkEncoder.length_carry_start {o : StreamOptions} (ho : o.Valid) (source : Source) (sinks : List Sink) :
    (start source sinks).carry.length < o.chunk := Nat.lt_of_le_of_lt (Nat.zero_le _) ho

/-- What the sinks hold after they took bytes from the start on. -/
theorem TakesAll.contents_start {source : Source} {sinks : List Sink} {pieces : Nat → Bytes} {sinks' : List DigestSink}
    (h : TakesAll (ChunkEncoder.start source sinks).sinks pieces sinks') :
    (sinks'.map DigestSink.inner).map Sink.content = sinks.zipIdx.map fun (s, i) => s.content ++ pieces i := by
  rw [List.map_map]
  refine h.contents.trans ?_
  simp [ChunkEncoder.start, List.zipIdx_map]

theorem Code.checkEncodeStream_eq_ok (code : Code) {o : StreamOptions} (ho : o.Valid) {sinks : List Sink}
    (hlen : sinks.length = code.scheme.total) : code.checkEncodeStream sinks o = .ok () := by
  unfold checkEncodeStream
  rw [StreamOptions.check_eq_ok ho, if_neg (by rw [not_not]; exact hlen)]
  rfl

/-- The whole input from a steady source into steady sinks that can be flushed. -/
theorem Code.encodeStream_steady (code : Code) {o : StreamOptions} (ho : o.Valid) (hfits : o.chunk < bufferLimit)
    {source : Source}
    (hsource : source.pacing.Steady) {sinks : List Sink} (hlen : sinks.length = code.scheme.total)
    (hsteady : ∀ s ∈ sinks, s.pacing.Steady) (hflush : ∀ s ∈ sinks, s.flushFault = none) :
    ∃ summary, (code.encodeStream source sinks o).outcome.result = .ok summary ∧
      summary.totalBytes = source.rest.length ∧
      summary.chunks = (o.chunks [] source.rest).length ∧
      summary.shardBytes = code.streamSize (o.chunks [] source.rest) ∧
      (code.encodeStream source sinks o).sinks.map Sink.content =
        sinks.zipIdx.map fun (s, i) => s.content ++ code.streamShard (o.chunks [] source.rest) i := by
  have hcheck := code.checkEncodeStream_eq_ok ho hlen
  have hsinks : SteadySinks (ChunkEncoder.start source sinks).sinks := by
    intro s hs
    obtain ⟨inner, hinner, rfl⟩ := List.mem_map.1 hs
    exact hsteady inner hinner
  have hflush' : ∀ s ∈ (ChunkEncoder.start source sinks).sinks, s.flushFault = none := by
    intro s hs
    obtain ⟨inner, hinner, rfl⟩ := List.mem_map.1 hs
    exact hflush inner hinner
  obtain ⟨e, hrun, hadvances⟩ := ChunkEncoder.run_steady ho (ChunkEncoder.length_carry_start ho source sinks) hsource
    ((ChunkEncoder.length_sinks_start source sinks).trans hlen) hsinks
  rw [ChunkEncoder.start] at hrun
  unfold encodeStream
  rw [hcheck]
  dsimp only
  rw [if_neg (Nat.not_le.2 hfits), hrun]
  dsimp only
  rw [hadvances.takes.flushFault?_eq_none hflush']
  refine ⟨_, rfl, ?_, ?_, ?_, ?_⟩
  · exact hadvances.totalBytes_eq.trans (Nat.zero_add _)
  · exact hadvances.chunks_eq.trans (Nat.zero_add _)
  · exact hadvances.shardBytes_eq.trans (Nat.zero_add _)
  · exact hadvances.takes.contents_start

/-- The whole input from a steady source into sinks in memory. -/
theorem Code.encodeStream_replicate (code : Code) {o : StreamOptions} (ho : o.Valid) (hfits : o.chunk < bufferLimit)
    {source : Source}
    (hsource : source.pacing.Steady) :
    ∃ summary,
      (code.encodeStream source (List.replicate code.scheme.total {}) o).outcome.result = .ok summary ∧
      summary.totalBytes = source.rest.length ∧
      summary.chunks = (o.chunks [] source.rest).length ∧
      summary.shardBytes = code.streamSize (o.chunks [] source.rest) ∧
      (code.encodeStream source (List.replicate code.scheme.total {}) o).sinks.map Sink.content =
        (List.range code.scheme.total).map (code.streamShard (o.chunks [] source.rest)) := by
  have hsteady : ∀ s ∈ List.replicate code.scheme.total ({} : Sink), s.pacing.Steady := by
    intro s hs
    rw [List.eq_of_mem_replicate hs]
    exact Pacing.steady_default
  have hflush : ∀ s ∈ List.replicate code.scheme.total ({} : Sink), s.flushFault = none := by
    intro s hs
    rw [List.eq_of_mem_replicate hs]
  obtain ⟨summary, hok, htotal, hchunks, hsize, hcontents⟩ :=
    code.encodeStream_steady ho hfits hsource List.length_replicate hsteady hflush
  refine ⟨summary, hok, htotal, hchunks, hsize, hcontents.trans ?_⟩
  refine List.ext_getElem (by simp) fun i hi hi' => ?_
  simp only [List.getElem_map, List.getElem_zipIdx, List.getElem_replicate, List.getElem_range, Nat.zero_add]
  rfl

end ShardCoding

import ShardCoding.Proofs.Stream.Progress

/-!
# What digesting sinks note

* `DigestSink.Passes` : a digesting sink after some bytes passed, which the sink inside took and it noted;
  `passes_writeAll` : they are a front of what was poured into it;
* `AllPass` : so for every sink of a list; `ChunkEncoder.allPass_run` : what a streaming encode does to its sinks;
* `gained`, `gained_eq` : what each sink got; `Code.checksums_encodeStream` : the digests of a streaming encode are those
  of what it added to its sinks.
-/

namespace ShardCoding

namespace DigestSink

/-- `s'` is `s` after `bytes` passed on to the sink inside. -/
structure Passes (s : DigestSink) (bytes : Bytes) (s' : DigestSink) : Prop where
  takes : s.inner.Takes bytes s'.inner
  passed_eq : s'.passed.toList = s.passed.toList ++ bytes

variable {s s' s'' : DigestSink}

theorem Passes.refl (s : DigestSink) : s.Passes [] s := ⟨.refl s.inner, (List.append_nil _).symm⟩

theorem Passes.trans {front back : Bytes} (h : s.Passes front s') (h' : s'.Passes back s'') :
    s.Passes (front ++ back) s'' :=
  ⟨h.takes.trans h'.takes, by rw [h'.passed_eq, h.passed_eq, List.append_assoc]⟩

theorem passes_write (data : Bytes) (s : DigestSink) :
    (∃ n, n ≤ data.length ∧ (s.write data).1 = .done n ∧ s.Passes (data.take n) (s.write data).2) ∨
    (∀ n, (s.write data).1 ≠ .done n) ∧ s.Passes [] (s.write data).2 := by
  unfold write
  rcases hwrite : s.inner.write data with ⟨r, inner⟩
  rcases Sink.takes_write data s.inner with ⟨n, hle, hdone, htakes⟩ | ⟨hnone, htakes⟩
  · rw [hwrite] at hdone htakes
    cases hdone
    exact Or.inl ⟨n, hle, rfl, htakes, Array.toList_appendList⟩
  · rw [hwrite] at hnone htakes
    cases r with
    | done n => exact absurd rfl (hnone n)
    | interrupted => exact Or.inr ⟨fun _ => nofun, htakes, (List.append_nil _).symm⟩
    | failed kind => exact Or.inr ⟨fun _ => nofun, htakes, (List.append_nil _).symm⟩

theorem passes_writeThrough (data : Bytes) (s : DigestSink) : Sink.taken (s.writeThrough data).1 ≤ data.length ∧
    s.Passes (data.take (Sink.taken (s.writeThrough data).1)) (s.writeThrough data).2 := by
  fun_induction writeThrough data s with
  | case1 s n s₁ hw =>
    rcases passes_write data s with ⟨m, hm, hdone, hpasses⟩ | ⟨hnone, -⟩
    · rw [hw] at hdone hpasses
      cases hdone
      exact ⟨hm, hpasses⟩
    · rw [hw] at hnone
      exact absurd rfl (hnone n)
  | case2 s kind s₁ hw =>
    rcases passes_write data s with ⟨m, -, hdone, -⟩ | ⟨-, hpasses⟩
    · rw [hw] at hdone
      cases hdone
    · rw [hw] at hpasses
      exact ⟨Nat.zero_le _, hpasses⟩
  | case3 s s₁ hw ih =>
    rcases passes_write data s with ⟨m, -, hdone, -⟩ | ⟨-, hpasses⟩
    · rw [hw] at hdone
      cases hdone
    · rw [hw] at hpasses
      exact ⟨ih.1, hpasses.trans ih.2⟩

/-- A front of what is poured into a digesting sink passes, all of it unless the pouring fails. -/
theorem passes_writeAll (data : Bytes) (s : DigestSink) : ∃ n, s.Passes (data.take n) (s.writeAll data).2 ∧
    ((s.writeAll data).1 = .ok () → n = data.length) :=
  Sink.pour_relates (R := Passes) Passes.refl (fun h h' => h.trans h') passes_writeThrough data s

end DigestSink

/-- Some bytes passed in every sink. -/
def AllPass : List DigestSink → List DigestSink → Prop := List.Forall₂ fun s s' => ∃ bytes, s.Passes bytes s'

theorem AllPass.refl (sinks : List DigestSink) : AllPass sinks sinks := List.forall₂_same.2 fun s _ => ⟨[], .refl s⟩

theorem AllPass.trans {x y z : List DigestSink} (h : AllPass x y) (h' : AllPass y z) : AllPass x z := by
  induction h generalizing z with
  | nil => exact h'
  | cons hs _ ih =>
    obtain _ | ⟨⟨back, hback⟩, hall'⟩ := h'
    obtain ⟨front, hfront⟩ := hs
    exact .cons ⟨front ++ back, hfront.trans hback⟩ (ih hall')

theorem allPass_writeShards (sinks : List DigestSink) (shards : List Bytes) :
    AllPass sinks (writeShards sinks shards).2 := by
  induction sinks generalizing shards with
  | nil => exact .refl []
  | cons sink sinks ih =>
    obtain _ | ⟨shard, shards⟩ := shards
    · exact .refl _
    obtain ⟨n, hpasses, -⟩ := sink.passes_writeAll shard
    rw [writeShards]
    split
    · next hwrite =>
      rw [hwrite] at hpasses
      exact .cons ⟨_, hpasses⟩ (AllPass.refl sinks)
    · next hwrite =>
      rw [hwrite] at hpasses
      exact .cons ⟨_, hpasses⟩ (ih shards)

namespace ChunkEncoder

variable (code : Code) (o : StreamOptions)

theorem allPass_encodeChunk (overlap : Nat) (fresh : Bytes) (e : ChunkEncoder) :
    AllPass e.sinks (encodeChunk code overlap fresh e).2.sinks := by
  have hwrite := allPass_writeShards e.sinks
    (code.shardsOf (code.scheme.shardSizeFor (e.carry ++ fresh).length) (e.carry ++ fresh))
  unfold encodeChunk
  dsimp only
  split <;> next hrun => rwa [hrun] at hwrite

/-- Whatever comes of a streaming encode, its sinks noted what passed. -/
theorem allPass_run (e : ChunkEncoder) : AllPass e.sinks (run code o e).2.sinks := by
  fun_induction run code o e with
  | case1 e kind source hread => exact .refl _
  | case2 e source hread => exact .refl _
  | case3 e b fresh source hread kind e' hchunk =>
    have h := allPass_encodeChunk code o.overlap (b :: fresh) { e with source := source }
    rwa [hchunk] at h
  | case4 e b fresh source hread e' hchunk hshort =>
    have h := allPass_encodeChunk code o.overlap (b :: fresh) { e with source := source }
    rwa [hchunk] at h
  | case5 e b fresh source hread e' hchunk hfull ih =>
    have h := allPass_encodeChunk code o.overlap (b :: fresh) { e with source := source }
    rw [hchunk] at h
    exact h.trans ih

end ChunkEncoder

/-- What each sink got since `sinks`. -/
def gained (sinks sinks' : List Sink) : List Bytes :=
  List.zipWith (fun s s' => s'.content.drop s.content.length) sinks sinks'

/-- What sinks gained whose contents are known. -/
theorem gained_eq {sinks sinks' : List Sink} {pieces : Nat → Bytes}
    (h : sinks'.map Sink.content = sinks.zipIdx.map fun (s, i) => s.content ++ pieces i) :
    gained sinks sinks' = (List.range sinks.length).map pieces := by
  have hlength : sinks'.length = sinks.length := by simpa using congrArg List.length h
  refine List.ext_getElem (by simp [gained, hlength]) fun i hi hi' => ?_
  have hlt : i < sinks.length := by simpa using hi'
  have hlt' : i < sinks'.length := by rwa [hlength]
  have hcontent : sinks'[i].content = sinks[i].content ++ pieces i := by
    simpa [hlt, hlt'] using congrArg (·[i]?) h
  simp [gained, hcontent]

/-- The digests of sinks that were set up around `sinks` are those of what these got. -/
theorem AllPass.map_digest {source : Source} {sinks : List Sink} {sinks' : List DigestSink}
    (h : AllPass (ChunkEncoder.start source sinks).sinks sinks') :
    sinks'.length = sinks.length ∧
      sinks'.map DigestSink.digest = (gained sinks (sinks'.map DigestSink.inner)).map sha256 := by
  unfold ChunkEncoder.start at h
  dsimp only at h
  induction sinks generalizing sinks' with
  | nil =>
    cases h
    exact ⟨rfl, rfl⟩
  | cons sink sinks ih =>
    obtain _ | ⟨⟨bytes, hpasses⟩, hall⟩ := h
    obtain ⟨hlen, hdigests⟩ := ih hall
    refine ⟨congrArg (· + 1) hlen, ?_⟩
    rw [List.map_cons, hdigests, DigestSink.digest, hpasses.passed_eq]
    unfold gained
    rw [List.map_cons, List.zipWith_cons_cons, List.map_cons, hpasses.takes.content_eq, List.drop_left]
    rfl

/-- A streaming encode that succeeds yields, and has its coder keep, the digests of what each sink got. -/
theorem Code.checksums_encodeStream {code : Code} {source : Source} {sinks : List Sink} {o : StreamOptions}
    {s : StreamSummary} (h : (code.encodeStream source sinks o).outcome.result = .ok s) :
    (gained sinks (code.encodeStream source sinks o).sinks).length = code.scheme.total ∧
      s.checksums = (gained sinks (code.encodeStream source sinks o).sinks).map sha256 := by
  obtain ⟨hlen, r, e, hrun, heq⟩ := exists_run_of_encodeStream h
  have hpass := ChunkEncoder.allPass_run code o (.start source sinks)
  rw [hrun] at hpass
  obtain ⟨hcount, hdigests⟩ := hpass.map_digest
  rw [heq] at h ⊢
  obtain ⟨rfl, rfl⟩ := ChunkEncoder.eq_of_ending_ok h
  refine ⟨?_, hdigests⟩
  have hsinks : (e.conclude (.ok ())).sinks = e.sinks.map DigestSink.inner := rfl
  rw [gained, List.length_zipWith, hsinks, List.length_map, hcount, Nat.min_self, hlen]

end ShardCoding

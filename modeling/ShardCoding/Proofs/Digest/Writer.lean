import ShardCoding.Proofs.Stream.Transfer
import ShardCoding.Proofs.Stream.Writer

/-!
# Digests of what is written

* `Hasher` : what an incremental hash function does; `Writer.digesting` : a writer that passes on what it gets and hashes
  what the writer inside takes; `Writer.views_digesting` : it answers as that one does;
* `Digesting.Passes` : what it has counted and hashed; `Writer.passes_of_runs` : after any calls these are the bytes taken;
* `Sink.writer`, `DigestSink.writer` : sinks as writers; `DigestSink.views_writer` : a digesting sink is a sink inside a
  digesting writer; `DigestSink.runs_performAll` : what becomes of any calls on one;
* `Writer.digesting_exact` : all of it.
-/

namespace ShardCoding

/-- A hash function that is fed piece by piece. -/
structure Hasher (η : Type) where
  start : η
  update : Bytes → η → η
  finish : η → Digest
  /-- How the bytes are cut into pieces does not matter. -/
  finish_foldl : ∀ pieces : List Bytes,
    finish (pieces.foldl (fun state piece => update piece state) start) = sha256 pieces.flatten

/-- Note all the bytes, and hash them in the end. -/
def Hasher.noting : Hasher (Array UInt8) where
  start := #[]
  update piece noted := noted ++ piece
  finish noted := sha256 noted.toList
  finish_foldl pieces := by
    have hnoted : ∀ noted : Array UInt8,
        (pieces.foldl (fun state piece => state ++ piece) noted).toList = noted.toList ++ pieces.flatten := by
      induction pieces with
      | nil => simp
      | cons piece pieces ih => simp [ih]
    rw [hnoted]
    rfl

/-- A writer with a hasher and a counter beside it. -/
structure Digesting (σ η : Type) where
  inner : σ
  hasher : η
  written : Nat

variable {σ η : Type} {w : Writer σ} {h : Hasher η}

def Digesting.start (h : Hasher η) (s : σ) : Digesting σ η := ⟨s, h.start, 0⟩

/-- Pass on each call, and hash and count what the writer inside takes. -/
def Writer.digesting (w : Writer σ) (h : Hasher η) : Writer (Digesting σ η) where
  write data d :=
    match w.write data d.inner with
    | (.done n, inner) => (.done n, ⟨inner, h.update (data.take n) d.hasher, d.written + n⟩)
    | (.interrupted, inner) => (.interrupted, { d with inner := inner })
    | (.failed kind, inner) => (.failed kind, { d with inner := inner })
  flush d := ((w.flush d.inner).1, { d with inner := (w.flush d.inner).2 })
  le_length data d n hdone := by
    apply w.le_length data d.inner n
    split at hdone <;> simp_all

theorem Writer.views_digesting (w : Writer σ) (h : Hasher η) : Views w (w.digesting h) Digesting.inner where
  write_eq data d := by
    unfold digesting
    dsimp only
    split <;> assumption
  flush_eq d := rfl

namespace Digesting

/-- `d'` is `d` after `bytes` were hashed, in pieces, and counted. -/
structure Passes (h : Hasher η) (d : Digesting σ η) (bytes : Bytes) (d' : Digesting σ η) : Prop where
  hashed : ∃ pieces : List Bytes, pieces.flatten = bytes ∧
    d'.hasher = pieces.foldl (fun state piece => h.update piece state) d.hasher
  written_eq : d'.written = d.written + bytes.length

variable {d d' d'' : Digesting σ η} {front back bytes : Bytes}

theorem Passes.nothing (hhasher : d'.hasher = d.hasher) (hwritten : d'.written = d.written) : d.Passes h [] d' :=
  ⟨⟨[], rfl, hhasher⟩, hwritten⟩

theorem Passes.trans (hfront : d.Passes h front d') (hback : d'.Passes h back d'') : d.Passes h (front ++ back) d'' where
  hashed := by
    obtain ⟨pieces, rfl, hhasher⟩ := hfront.hashed
    obtain ⟨later, rfl, hhasher'⟩ := hback.hashed
    exact ⟨pieces ++ later, List.flatten_append, by rw [hhasher', hhasher, List.foldl_append]⟩
  written_eq := by rw [hback.written_eq, hfront.written_eq, List.length_append, Nat.add_assoc]

theorem Passes.finish_eq {s : σ} (hpasses : (start h s).Passes h bytes d) :
    d.written = bytes.length ∧ h.finish d.hasher = sha256 bytes := by
  obtain ⟨pieces, rfl, hhasher⟩ := hpasses.hashed
  refine ⟨hpasses.written_eq.trans (Nat.zero_add _), ?_⟩
  rw [hhasher]
  exact h.finish_foldl pieces

theorem passes_write (w : Writer σ) (h : Hasher η) (data : Bytes) (d : Digesting σ η) :
    d.Passes h (((w.digesting h).write data d).1.taken data) ((w.digesting h).write data d).2 := by
  unfold Writer.digesting
  dsimp only
  split
  · next n inner hwrite =>
    have hle := w.le_length data d.inner n (by rw [hwrite])
    refine ⟨⟨[data.take n], List.flatten_singleton, rfl⟩, ?_⟩
    show d.written + n = d.written + (data.take n).length
    rw [List.length_take, Nat.min_eq_left hle]
  · exact .nothing rfl rfl
  · exact .nothing rfl rfl

end Digesting

theorem Writer.passes_of_runs {calls : List WriterCall} {d d' : Digesting σ η} {replies : List WriterReply}
    {taken : Bytes} (hruns : (w.digesting h).Runs calls d replies taken d') : d.Passes h taken d' :=
  hruns.relates (R := Digesting.Passes h) (fun _ => .nothing rfl rfl) Digesting.Passes.trans (Digesting.passes_write w h)
    (fun _ => .nothing rfl rfl)

/-! ## Sinks -/

/-- What flushing comes to, by why it fails. -/
def flushReply : Option IoKind → Transfer Unit
  | none => .done ()
  | some kind => .failed kind

def Sink.writer : Writer Sink where
  write := Sink.write
  flush s := (flushReply s.flushFault, s)
  le_length data s n hdone := by
    rcases takes_write data s with ⟨m, hle, hdone', -⟩ | ⟨hnone, -⟩
    · cases hdone.symm.trans hdone'
      exact hle
    · exact absurd hdone (hnone n)

theorem Sink.takes_of_runs {calls : List WriterCall} {s s' : Sink} {replies : List WriterReply} {taken : Bytes}
    (hruns : Sink.writer.Runs calls s replies taken s') : s.Takes taken s' := by
  refine hruns.relates (R := Sink.Takes) .refl Takes.trans (fun data s => ?_) .refl
  show s.Takes ((s.write data).1.taken data) (s.write data).2
  rcases takes_write data s with ⟨n, -, hdone, htakes⟩ | ⟨hnone, htakes⟩
  · rwa [hdone]
  · cases hwrite : (s.write data).1 with
    | done n => exact absurd hwrite (hnone n)
    | interrupted => exact htakes
    | failed kind => exact htakes

namespace DigestSink

def writer : Writer DigestSink where
  write := DigestSink.write
  flush s := (flushReply s.flushFault, s)
  le_length data s n hdone := by
    have hinner := congrArg Prod.fst (write_inner data s)
    exact Sink.writer.le_length data s.inner n (hinner.trans hdone)

/-- The sink inside, with all that was noted. -/
def asDigesting (s : DigestSink) : Digesting Sink (Array UInt8) := ⟨s.inner, s.passed, s.written⟩

theorem views_writer : Writer.Views (Sink.writer.digesting .noting) writer asDigesting where
  write_eq data s := by
    have hsink : Sink.writer.write = Sink.write := rfl
    have hwriter : writer.write = write := rfl
    rw [hwriter]
    unfold Writer.digesting write asDigesting written
    dsimp only
    rw [hsink]
    rcases hwrite : s.inner.write data with ⟨n | _ | kind, inner⟩
    · have hle := Sink.writer.le_length data s.inner n (congrArg Prod.fst hwrite)
      have hsize : (s.passed ++ data.take n).size = s.passed.size + n := by
        rw [← Array.length_toList, Array.toList_appendList, List.length_append, Array.length_toList, List.length_take,
          Nat.min_eq_left hle]
      dsimp only
      rw [hsize]
      rfl
    · rfl
    · rfl
  flush_eq s := rfl

variable {data taken : Bytes} {s s₁ s' : DigestSink}

/-- A call that is repeated until it is not interrupted, and all that follows it. -/
theorem pours_of_writeThrough (hdata : data ≠ []) {r : Except IoKind Nat} (hrun : s.writeThrough data = (r, s₁)) :
    (∀ kind, r = .error kind → writer.Pours data s (.error kind) [] s₁) ∧
    (r = .ok 0 → writer.Pours data s (.error .writeZero) [] s₁) ∧
    ∀ n outcome, r = .ok (n + 1) → writer.Pours (data.drop (n + 1)) s₁ outcome taken s' →
      writer.Pours data s outcome (data.take (n + 1) ++ taken) s' := by
  fun_induction writeThrough data s with
  | case1 s m s₂ hw =>
    have hcall : writer.write data s = (.done m, s₂) := hw
    obtain ⟨rfl, rfl⟩ := Prod.mk.inj hrun
    refine ⟨fun kind hkind => ?_, fun hzero => ?_, fun n outcome hn hrest => ?_⟩
    · cases hkind
    · obtain rfl := Except.ok.inj hzero
      exact .stopped hdata hcall rfl
    · obtain rfl := Except.ok.inj hn
      have hle := writer.le_length data s (n + 1) (congrArg Prod.fst hw)
      refine .next hdata hcall rfl ?_
      rwa [Transfer.taken, List.length_take, Nat.min_eq_left hle]
  | case2 s kind s₂ hw =>
    have hcall : writer.write data s = (.failed kind, s₂) := hw
    obtain ⟨rfl, rfl⟩ := Prod.mk.inj hrun
    refine ⟨fun kind' hkind => ?_, fun hzero => ?_, fun n outcome hn hrest => ?_⟩
    · obtain rfl := Except.error.inj hkind
      exact .stopped hdata hcall rfl
    · cases hzero
    · cases hn
  | case3 s s₂ hw ih =>
    have hcall : writer.write data s = (.interrupted, s₂) := hw
    obtain ⟨hfailed, hzero, hmore⟩ := ih hrun
    have hagain : ∀ {outcome : Except IoKind Unit} {taken : Bytes} {s' : DigestSink},
        writer.Pours data s₂ outcome taken s' → writer.Pours data s outcome taken s' := .next hdata hcall rfl
    exact ⟨fun kind hkind => hagain (hfailed kind hkind), fun hr => hagain (hzero hr),
      fun n outcome hn hrest => hagain (hmore n outcome hn hrest)⟩

theorem exists_pours_writeAll (data : Bytes) (s : DigestSink) :
    ∃ taken, writer.Pours data s (s.writeAll data).1 taken (s.writeAll data).2 := by
  unfold writeAll
  fun_induction pour writeThrough data s with
  | case1 s => exact ⟨[], .finished s⟩
  | case2 data s hdata kind s₁ hw =>
    obtain ⟨hfailed, -, -⟩ := @pours_of_writeThrough data [] s s₁ s hdata _ hw
    exact ⟨[], hfailed kind rfl⟩
  | case3 data s hdata s₁ hw =>
    obtain ⟨-, hzero, -⟩ := @pours_of_writeThrough data [] s s₁ s hdata _ hw
    exact ⟨[], hzero rfl⟩
  | case4 data s hdata n s₁ hw ih =>
    obtain ⟨taken, hrest⟩ := ih
    obtain ⟨-, -, hmore⟩ := pours_of_writeThrough hdata hw
    exact ⟨_, hmore n _ rfl hrest⟩

end DigestSink

/-! ## Calls on sinks -/

/-- A call, by what does the writing and the flushing. -/
def WriterCall.perform {σ : Type} (write : Bytes → σ → Transfer Nat × σ)
    (writeAll : Bytes → σ → Except IoKind Unit × σ) (flushFault : σ → Option IoKind) (s : σ) :
    WriterCall → WriterReply × σ
  | .write data => ((.wrote (write data s).1), (write data s).2)
  | .writeAll data => ((.wroteAll (writeAll data s).1), (writeAll data s).2)
  | .flush => (.flushed (flushReply (flushFault s)), s)

/-- One call after another, whatever comes of them. -/
def performAll {σ : Type} (perform : σ → WriterCall → WriterReply × σ) : List WriterCall → σ → List WriterReply × σ
  | [], s => ([], s)
  | call :: calls, s =>
    let (reply, s₁) := perform s call
    let (replies, s') := performAll perform calls s₁
    (reply :: replies, s')

def Sink.perform (s : Sink) : WriterCall → WriterReply × Sink :=
  WriterCall.perform Sink.write Sink.writeAll Sink.flushFault s

def DigestSink.perform (s : DigestSink) : WriterCall → WriterReply × DigestSink :=
  WriterCall.perform DigestSink.write DigestSink.writeAll DigestSink.flushFault s

namespace DigestSink

theorem perform_inner (call : WriterCall) (s : DigestSink) :
    s.inner.perform call = ((s.perform call).1, (s.perform call).2.inner) := by
  unfold Sink.perform perform
  cases call with
  | write data => simp only [WriterCall.perform, write_inner]
  | writeAll data => simp only [WriterCall.perform, writeAll_inner]
  | flush => rfl

theorem performAll_inner (calls : List WriterCall) (s : DigestSink) : performAll Sink.perform calls s.inner =
    ((performAll perform calls s).1, (performAll perform calls s).2.inner) := by
  induction calls generalizing s with
  | nil => rfl
  | cons call calls ih => simp only [performAll, perform_inner, ih]

theorem exists_answers_perform (call : WriterCall) (s : DigestSink) :
    ∃ taken, writer.Answers call s (s.perform call).1 taken (s.perform call).2 := by
  cases call with
  | write data => exact ⟨_, .write rfl⟩
  | writeAll data =>
    obtain ⟨taken, hpours⟩ := exists_pours_writeAll data s
    exact ⟨taken, .writeAll hpours⟩
  | flush => exact ⟨_, .flush rfl⟩

theorem exists_runs_performAll (calls : List WriterCall) (s : DigestSink) :
    ∃ taken, writer.Runs calls s (performAll perform calls s).1 taken (performAll perform calls s).2 := by
  induction calls generalizing s with
  | nil => exact ⟨[], .done s⟩
  | cons call calls ih =>
    obtain ⟨taken, hanswers⟩ := exists_answers_perform call s
    obtain ⟨later, hrest⟩ := ih (s.perform call).2
    exact ⟨_, .call hanswers hrest⟩

end DigestSink

/-- **Digesting writers**: whatever the writer inside does, and whatever calls are made, also behind a failure, a digesting
writer gives the replies that the writer inside would give, and comes to no end just where that one comes to none; it has
counted the bytes that were taken and hashed them in their order. So it is with the sinks of a streaming encode, on which
every call comes to an end. -/
theorem Writer.digesting_exact :
    (∀ (σ η : Type) (w : Writer σ) (h : Hasher η) (s : σ) (calls : List WriterCall),
      (∀ (replies : List WriterReply) (taken : Bytes) (d : Digesting σ η),
        (w.digesting h).Runs calls (.start h s) replies taken d →
          w.Runs calls s replies taken d.inner ∧ d.written = taken.length ∧ h.finish d.hasher = sha256 taken) ∧
      (∀ (replies : List WriterReply) (taken : Bytes) (s' : σ), w.Runs calls s replies taken s' →
        (∃ d, d.inner = s' ∧ (w.digesting h).Runs calls (.start h s) replies taken d) ∧
        ∀ (replies' : List WriterReply) (taken' : Bytes) (s'' : σ), w.Runs calls s replies' taken' s'' →
          replies' = replies ∧ taken' = taken ∧ s'' = s')) ∧
    ∀ (calls : List WriterCall) (sink : Sink),
      let run := performAll DigestSink.perform calls { inner := sink }
      performAll Sink.perform calls sink = (run.1, run.2.inner) ∧
      ∃ taken, (Sink.writer.digesting .noting).Runs calls (.start .noting sink) run.1 taken run.2.asDigesting ∧
        run.2.inner.content = sink.content ++ taken ∧ run.2.written = taken.length ∧ run.2.digest = sha256 taken := by
  have hpassed : ∀ {σ η : Type} {w : Writer σ} {h : Hasher η} {s : σ} {calls : List WriterCall}
      {replies : List WriterReply} {taken : Bytes} {d : Digesting σ η},
      (w.digesting h).Runs calls (.start h s) replies taken d →
        w.Runs calls s replies taken d.inner ∧ d.written = taken.length ∧ h.finish d.hasher = sha256 taken :=
    fun hruns => ⟨(views_digesting _ _).runs hruns, (passes_of_runs hruns).finish_eq⟩
  refine ⟨fun σ η w h s calls => ⟨fun replies taken d => hpassed, fun replies taken s' hruns => ⟨?_, ?_⟩⟩,
    fun calls sink => ⟨DigestSink.performAll_inner calls { inner := sink }, ?_⟩⟩
  · exact (w.views_digesting h).exists_runs hruns rfl
  · intro replies' taken' s'' hruns'
    exact hruns'.unique hruns
  · obtain ⟨taken, hruns⟩ := DigestSink.exists_runs_performAll calls { inner := sink }
    have hdigesting := DigestSink.views_writer.runs hruns
    obtain ⟨hinner, hwritten, hdigest⟩ := hpassed hdigesting
    exact ⟨taken, hdigesting, (Sink.takes_of_runs hinner).content_eq, hwritten, hdigest⟩

/-- Two bytes of three are taken, then a call is interrupted and the next one fails; of two bytes more nothing is taken,
and a third is taken. -/
theorem Writer.digesting_exact_paced : ∃ (sink : Sink) (calls : List WriterCall) (d : Digesting Sink (Array UInt8)),
    calls = [.writeAll [1, 2, 3], .write [4, 5], .flush, .writeAll [6]] ∧
    let run := performAll DigestSink.perform calls { inner := sink }
    run.1 = [.wroteAll (.error .connectionReset), .wrote (.done 0), .flushed (.done ()), .wroteAll (.ok ())] ∧
    performAll Sink.perform calls sink = (run.1, run.2.inner) ∧
    run.2.written = 3 ∧ run.2.digest = sha256 [1, 2, 6] ∧
    (Sink.writer.digesting .noting).Runs calls (.start .noting sink) run.1 [1, 2, 6] d ∧
    Sink.writer.Runs calls sink run.1 [1, 2, 6] d.inner ∧ d.written = 3 ∧
    Hasher.noting.finish d.hasher = sha256 [1, 2, 6] := by
  let sink : Sink := { pacing := {
    turn := fun calls _ =>
      match calls with
      | 0 => .atMost 2
      | 1 => .fails .connectionReset
      | 2 => .atMost 0
      | _ => .all
    interruptions := fun calls => if calls = 1 then 1 else 0 } }
  let calls : List WriterCall := [.writeAll [1, 2, 3], .write [4, 5], .flush, .writeAll [6]]
  have hreplies : (performAll DigestSink.perform calls { inner := sink }).1 =
      [.wroteAll (.error .connectionReset), .wrote (.done 0), .flushed (.done ()), .wroteAll (.ok ())] := by
    with_unfolding_all rfl
  have hcontent : (performAll DigestSink.perform calls { inner := sink }).2.inner.content = [1, 2, 6] := by
    decide +kernel
  obtain ⟨hgeneral, hsinks⟩ := digesting_exact
  obtain ⟨hbare, taken, hruns, hadded, hwritten, hdigest⟩ := hsinks calls sink
  obtain rfl : taken = [1, 2, 6] := hadded.symm.trans hcontent
  obtain ⟨hpassed, hback⟩ := hgeneral Sink (Array UInt8) Sink.writer .noting sink calls
  obtain ⟨hinner, -⟩ := hpassed _ _ _ hruns
  obtain ⟨⟨d, hd, hruns'⟩, -⟩ := hback _ _ _ hinner
  obtain ⟨hinner', hwritten', hdigest'⟩ := hpassed _ _ d hruns'
  exact ⟨sink, calls, d, rfl, hreplies, hbare, hwritten, hdigest, hruns', hinner', hwritten', hdigest'⟩

end ShardCoding

import ShardCoding.Stream.Endpoint

/-!
# Writers

Anything that bytes can be written to, one call after another, whatever comes of a call.

* `Writer` : the two calls that a writer answers by itself; `Writer.Pours` : all of a buffer, by repeated calls;
* `WriterCall`, `WriterReply`, `Writer.Runs` : calls in a row, with the replies and the bytes that were taken;
  `Runs.unique` : they are determined;
* `Runs.relates` : a relation between states that every call keeps; `Writer.Views`, `Views.runs`, `Views.exists_runs` : a
  writer that is seen as another one answers as that one does.
-/

namespace ShardCoding

/-- What a call took of the `data` that it was offered. -/
def Transfer.taken (data : Bytes) : Transfer Nat → Bytes
  | .done n => data.take n
  | .interrupted => []
  | .failed _ => []

/-- Why no further call is made to get rid of a buffer. -/
def Transfer.stop? : Transfer Nat → Option IoKind
  | .done 0 => some .writeZero
  | .done (_ + 1) => none
  | .interrupted => none
  | .failed kind => some kind

/-- A writer with states in `σ`. -/
structure Writer (σ : Type) where
  /-- Offer some bytes; it takes a front of them, or is interrupted, or fails in another way. -/
  write : Bytes → σ → Transfer Nat × σ
  flush : σ → Transfer Unit × σ
  /-- It claims no more than it was offered. -/
  le_length : ∀ (data : Bytes) (s : σ) (n : Nat), (write data s).1 = .done n → n ≤ data.length

inductive WriterCall where
  | write (data : Bytes)
  | writeAll (data : Bytes)
  | flush

inductive WriterReply where
  | wrote (r : Transfer Nat)
  | wroteAll (r : Except IoKind Unit)
  | flushed (r : Transfer Unit)

namespace Writer

variable {σ τ : Type} {w : Writer σ} {w' : Writer τ}

/-- `data` is offered again and again, each time what is left of it, until all of it is taken or a call fails or takes
nothing. An interrupted call is repeated, so a writer that is interrupted for ever comes to no end. -/
inductive Pours (w : Writer σ) : Bytes → σ → Except IoKind Unit → Bytes → σ → Prop
  | finished (s : σ) : Pours w [] s (.ok ()) [] s
  | stopped {data : Bytes} {s s' : σ} {r : Transfer Nat} {kind : IoKind} (hdata : data ≠ [])
      (hwrite : w.write data s = (r, s')) (hstop : r.stop? = some kind) :
      Pours w data s (.error kind) (r.taken data) s'
  | next {data taken : Bytes} {s s₁ s' : σ} {r : Transfer Nat} {outcome : Except IoKind Unit} (hdata : data ≠ [])
      (hwrite : w.write data s = (r, s₁)) (hstop : r.stop? = none)
      (hrest : Pours w (data.drop (r.taken data).length) s₁ outcome taken s') :
      Pours w data s outcome (r.taken data ++ taken) s'

/-- A writer in state `s` replies to a call, takes some bytes and is then in another state. -/
inductive Answers (w : Writer σ) : WriterCall → σ → WriterReply → Bytes → σ → Prop
  | write {data : Bytes} {s s' : σ} {r : Transfer Nat} (hwrite : w.write data s = (r, s')) :
      Answers w (.write data) s (.wrote r) (r.taken data) s'
  | writeAll {data taken : Bytes} {s s' : σ} {r : Except IoKind Unit} (hpours : w.Pours data s r taken s') :
      Answers w (.writeAll data) s (.wroteAll r) taken s'
  | flush {s s' : σ} {r : Transfer Unit} (hflush : w.flush s = (r, s')) : Answers w .flush s (.flushed r) [] s'

/-- Calls in a row, also behind one that failed. -/
inductive Runs (w : Writer σ) : List WriterCall → σ → List WriterReply → Bytes → σ → Prop
  | done (s : σ) : Runs w [] s [] [] s
  | call {call : WriterCall} {calls : List WriterCall} {s s₁ s' : σ} {reply : WriterReply} {replies : List WriterReply}
      {taken later : Bytes} (hanswers : w.Answers call s reply taken s₁) (hrest : Runs w calls s₁ replies later s') :
      Runs w (call :: calls) s (reply :: replies) (taken ++ later) s'

/-! ## One outcome -/

variable {data taken taken' : Bytes} {s s' s'' : σ}

theorem Pours.unique {r r' : Except IoKind Unit} (h : w.Pours data s r taken s') (h' : w.Pours data s r' taken' s'') :
    r = r' ∧ taken = taken' ∧ s' = s'' := by
  induction h generalizing r' taken' s'' with
  | finished s =>
    cases h' with
    | finished => exact ⟨rfl, rfl, rfl⟩
    | stopped hdata => exact absurd rfl hdata
    | next hdata => exact absurd rfl hdata
  | stopped hdata hwrite hstop =>
    cases h' with
    | finished => exact absurd rfl hdata
    | stopped _ hwrite' hstop' =>
      cases hwrite.symm.trans hwrite'
      cases hstop.symm.trans hstop'
      exact ⟨rfl, rfl, rfl⟩
    | next _ hwrite' hstop' =>
      cases hwrite.symm.trans hwrite'
      cases hstop.symm.trans hstop'
  | next hdata hwrite hstop _ ih =>
    cases h' with
    | finished => exact absurd rfl hdata
    | stopped _ hwrite' hstop' =>
      cases hwrite.symm.trans hwrite'
      cases hstop.symm.trans hstop'
    | next _ hwrite' _ hrest' =>
      cases hwrite.symm.trans hwrite'
      obtain ⟨rfl, rfl, rfl⟩ := ih hrest'
      exact ⟨rfl, rfl, rfl⟩

theorem Answers.unique {call : WriterCall} {reply reply' : WriterReply} (h : w.Answers call s reply taken s')
    (h' : w.Answers call s reply' taken' s'') : reply = reply' ∧ taken = taken' ∧ s' = s'' := by
  cases h with
  | write hwrite =>
    cases h' with
    | write hwrite' =>
      cases hwrite.symm.trans hwrite'
      exact ⟨rfl, rfl, rfl⟩
  | writeAll hpours =>
    cases h' with
    | writeAll hpours' =>
      obtain ⟨rfl, rfl, rfl⟩ := hpours.unique hpours'
      exact ⟨rfl, rfl, rfl⟩
  | flush hflush =>
    cases h' with
    | flush hflush' =>
      cases hflush.symm.trans hflush'
      exact ⟨rfl, rfl, rfl⟩

theorem Runs.unique {calls : List WriterCall} {replies replies' : List WriterReply} (h : w.Runs calls s replies taken s')
    (h' : w.Runs calls s replies' taken' s'') : replies = replies' ∧ taken = taken' ∧ s' = s'' := by
  induction h generalizing replies' taken' s'' with
  | done s =>
    cases h'
    exact ⟨rfl, rfl, rfl⟩
  | call hanswers _ ih =>
    cases h' with
    | call hanswers' hrest' =>
      obtain ⟨rfl, rfl, rfl⟩ := hanswers.unique hanswers'
      obtain ⟨rfl, rfl, rfl⟩ := ih hrest'
      exact ⟨rfl, rfl, rfl⟩

/-! ## What every call keeps -/

section

variable {R : σ → Bytes → σ → Prop} (hrefl : ∀ s, R s [] s)
  (htrans : ∀ {s s' s'' : σ} {front back : Bytes}, R s front s' → R s' back s'' → R s (front ++ back) s'')
  (hwrite : ∀ data s, R s ((w.write data s).1.taken data) (w.write data s).2) (hflush : ∀ s, R s [] (w.flush s).2)

include hrefl htrans hwrite in
theorem Pours.relates {r : Except IoKind Unit} (h : w.Pours data s r taken s') : R s taken s' := by
  induction h with
  | finished s => exact hrefl s
  | @stopped data s s' r kind _ hrun _ =>
    have hstep := hwrite data s
    rwa [hrun] at hstep
  | @next data taken s s₁ s' r outcome _ hrun _ _ ih =>
    have hstep := hwrite data s
    rw [hrun] at hstep
    exact htrans hstep ih

include hrefl htrans hwrite hflush in
theorem Runs.relates {calls : List WriterCall} {replies : List WriterReply} (h : w.Runs calls s replies taken s') :
    R s taken s' := by
  induction h with
  | done s => exact hrefl s
  | @call call calls s s₁ s' reply replies taken later hanswers _ ih =>
    refine htrans ?_ ih
    cases hanswers with
    | @write data s s' r hrun =>
      have hstep := hwrite data s
      rwa [hrun] at hstep
    | writeAll hpours => exact hpours.relates hrefl htrans hwrite
    | @flush s s' r hrun =>
      have hstep := hflush s
      rwa [hrun] at hstep

end

/-! ## One writer seen as another -/

/-- In what `view` shows of its states, `w'` answers as `w` does. -/
structure Views (w : Writer σ) (w' : Writer τ) (view : τ → σ) : Prop where
  write_eq : ∀ data t, w.write data (view t) = ((w'.write data t).1, view (w'.write data t).2)
  flush_eq : ∀ t, w.flush (view t) = ((w'.flush t).1, view (w'.flush t).2)

namespace Views

variable {view : τ → σ} {t t' : τ}

theorem pours (h : Views w w' view) {r : Except IoKind Unit} (hpours : w'.Pours data t r taken t') :
    w.Pours data (view t) r taken (view t') := by
  induction hpours with
  | finished t => exact .finished _
  | stopped hdata hwrite hstop => exact .stopped hdata (by rw [h.write_eq, hwrite]) hstop
  | next hdata hwrite hstop _ ih => exact .next hdata (by rw [h.write_eq, hwrite]) hstop ih

theorem exists_pours (h : Views w w' view) {r : Except IoKind Unit} (hpours : w.Pours data s r taken s') {t : τ}
    (ht : view t = s) : ∃ t', view t' = s' ∧ w'.Pours data t r taken t' := by
  induction hpours generalizing t with
  | finished s => exact ⟨t, ht, .finished t⟩
  | @stopped data s s' r kind hdata hwrite hstop =>
    subst ht
    rw [h.write_eq] at hwrite
    obtain ⟨rfl, rfl⟩ := Prod.mk.inj hwrite
    exact ⟨_, rfl, .stopped hdata rfl hstop⟩
  | @next data taken s s₁ s' r outcome hdata hwrite hstop _ ih =>
    subst ht
    rw [h.write_eq] at hwrite
    obtain ⟨rfl, rfl⟩ := Prod.mk.inj hwrite
    obtain ⟨t', ht', hrest⟩ := ih rfl
    exact ⟨t', ht', .next hdata rfl hstop hrest⟩

theorem answers (h : Views w w' view) {call : WriterCall} {reply : WriterReply}
    (hanswers : w'.Answers call t reply taken t') : w.Answers call (view t) reply taken (view t') := by
  cases hanswers with
  | write hwrite => exact .write (by rw [h.write_eq, hwrite])
  | writeAll hpours => exact .writeAll (h.pours hpours)
  | flush hflush => exact .flush (by rw [h.flush_eq, hflush])

theorem exists_answers (h : Views w w' view) {call : WriterCall} {reply : WriterReply}
    (hanswers : w.Answers call (view t) reply taken s') : ∃ t', view t' = s' ∧ w'.Answers call t reply taken t' := by
  cases hanswers with
  | write hwrite =>
    rw [h.write_eq] at hwrite
    obtain ⟨rfl, rfl⟩ := Prod.mk.inj hwrite
    exact ⟨_, rfl, .write rfl⟩
  | writeAll hpours =>
    obtain ⟨t', ht', hpours'⟩ := h.exists_pours hpours rfl
    exact ⟨t', ht', .writeAll hpours'⟩
  | flush hflush =>
    rw [h.flush_eq] at hflush
    obtain ⟨rfl, rfl⟩ := Prod.mk.inj hflush
    exact ⟨_, rfl, .flush rfl⟩

variable {calls : List WriterCall} {replies : List WriterReply}

theorem runs (h : Views w w' view) (hruns : w'.Runs calls t replies taken t') :
    w.Runs calls (view t) replies taken (view t') := by
  induction hruns with
  | done t => exact .done _
  | call hanswers _ ih => exact .call (h.answers hanswers) ih

theorem exists_runs (h : Views w w' view) (hruns : w.Runs calls s replies taken s') {t : τ} (ht : view t = s) :
    ∃ t', view t' = s' ∧ w'.Runs calls t replies taken t' := by
  induction hruns generalizing t with
  | done s => exact ⟨t, ht, .done t⟩
  | call hanswers _ ih =>
    subst ht
    obtain ⟨t₁, ht₁, hanswers'⟩ := h.exists_answers hanswers
    obtain ⟨t', ht', hrest⟩ := ih ht₁
    exact ⟨t', ht', .call hanswers' hrest⟩

end Views

end Writer

end ShardCoding

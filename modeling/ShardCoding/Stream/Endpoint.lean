import ShardCoding.GF256
import ShardCoding.Error

/-!
# Byte sources and byte sinks

A source hands out bytes and a sink takes them in pieces of its own choosing. Either may interrupt a call, which the
caller then repeats, and either may fail.

* `Turn` : how one completed call comes out; `Pacing` : the turns of an endpoint and the interruptions before each;
* `Source.read`, `Sink.write` : one call; an interrupted one moves nothing;
* `Source.readUpTo` : as much of a buffer as the source can fill; `Source.readExact` : all of it;
* `pour` : all of a buffer into a sink, or a failure.
-/

namespace ShardCoding

/-- One completed call: it moves all it is offered, at most so many bytes, or it fails. -/
inductive Turn where
  | all
  | atMost (most : Nat)
  | fails (kind : IoKind)

/-- The behaviour of an endpoint: how the call that follows `calls` completed calls and `moved` moved bytes comes
out, and how many interruptions come before it. -/
structure Pacing where
  turn : (calls moved : Nat) → Turn := fun _ _ => .all
  interruptions : (calls : Nat) → Nat := fun _ => 0

/-- What one call yields. -/
inductive Transfer (α : Type) where
  | done (moved : α)
  | interrupted
  | failed (kind : IoKind)

/-! ## Sources -/

structure Source where
  rest : Bytes
  pacing : Pacing := {}
  consumed : Nat := 0
  calls : Nat := 0
  /-- Interruptions still due before the next call completes. -/
  due : Nat := pacing.interruptions 0

namespace Source

/-- `piece` handed out by a call that is now complete. -/
def advance (s : Source) (piece : Bytes) : Source :=
  { s with
    rest := s.rest.drop piece.length
    consumed := s.consumed + piece.length
    calls := s.calls + 1
    due := s.pacing.interruptions (s.calls + 1) }

/-- One call for at most `want` bytes. No bytes at all mean that the source is at its end. -/
def read (want : Nat) (s : Source) : Transfer Bytes × Source :=
  match s.due with
  | d + 1 => (.interrupted, { s with due := d })
  | 0 =>
    if want = 0 then (.done [], s.advance [])
    else
      match s.pacing.turn s.calls s.consumed with
      | .fails kind => (.failed kind, s.advance [])
      | .atMost most => let piece := s.rest.take (min want most); (.done piece, s.advance piece)
      | .all => let piece := s.rest.take want; (.done piece, s.advance piece)

theorem due_lt_of_read {want : Nat} {s s' : Source} (h : s.read want = (.interrupted, s')) : s'.due < s.due := by
  unfold read at h
  split at h
  · next d hd =>
    obtain ⟨-, rfl⟩ := Prod.mk.inj h
    simp [hd]
  · split at h
    · simp at h
    · split at h <;> simp at h

/-- A call repeated until it is not interrupted. -/
def readThrough (want : Nat) (s : Source) : Except IoKind Bytes × Source :=
  match _ : s.read want with
  | (.done piece, s') => (.ok piece, s')
  | (.failed kind, s') => (.error kind, s')
  | (.interrupted, s') => readThrough want s'
termination_by s.due
decreasing_by exact due_lt_of_read ‹_›

/-- What a completed call hands out is the front of the source. -/
theorem append_rest_of_read {want : Nat} {s s' : Source} {piece : Bytes} (h : s.read want = (.done piece, s')) :
    piece ++ s'.rest = s.rest := by
  unfold read advance at h
  split at h
  · simp at h
  · split at h
    · obtain ⟨h₁, rfl⟩ := Prod.mk.inj h
      cases h₁
      simp
    · split at h
      · simp at h
      all_goals
        obtain ⟨h₁, rfl⟩ := Prod.mk.inj h
        cases h₁
        exact List.prefix_iff_eq_append.1 (List.take_prefix _ _)

theorem rest_of_read_interrupted {want : Nat} {s s' : Source} (h : s.read want = (.interrupted, s')) :
    s'.rest = s.rest := by
  unfold read at h
  split at h
  · obtain ⟨-, rfl⟩ := Prod.mk.inj h
    rfl
  · split at h
    · simp at h
    · split at h <;> simp at h

theorem append_rest_of_readThrough {want : Nat} {s s' : Source} {piece : Bytes}
    (h : s.readThrough want = (.ok piece, s')) : piece ++ s'.rest = s.rest := by
  fun_induction readThrough want s with
  | case1 s bytes s₁ hr =>
    obtain ⟨h₁, rfl⟩ := Prod.mk.inj h
    cases h₁
    exact append_rest_of_read hr
  | case2 s kind s₁ hr => simp at h
  | case3 s s₁ hr ih => rw [ih h, rest_of_read_interrupted hr]

/-- Up to `want` bytes: fewer only at the end of the source. The bytes read before a failure are lost. -/
def readUpTo (want : Nat) (s : Source) : Except IoKind Bytes × Source :=
  go want [] s
where
  /-- `got` holds the bytes read so far, latest first. -/
  go (want : Nat) (got : Bytes) (s : Source) : Except IoKind Bytes × Source :=
    if want = 0 then (.ok got.reverse, s)
    else
      match s.readThrough want with
      | (.error kind, s') => (.error kind, s')
      | (.ok [], s') => (.ok got.reverse, s')
      | (.ok (b :: piece), s') => go (want - (piece.length + 1)) (piece.reverseAux (b :: got)) s'
  termination_by want

theorem append_rest_of_go {want : Nat} {got bytes : Bytes} {s s' : Source}
    (h : readUpTo.go want got s = (.ok bytes, s')) : bytes ++ s'.rest = got.reverse ++ s.rest := by
  fun_induction readUpTo.go want got s with
  | case1 got s =>
    obtain ⟨h₁, rfl⟩ := Prod.mk.inj h
    cases h₁
    rfl
  | case2 want got s hw kind s₁ hr => simp at h
  | case3 want got s hw s₁ hr =>
    obtain ⟨h₁, rfl⟩ := Prod.mk.inj h
    cases h₁
    simpa using append_rest_of_readThrough hr
  | case4 want got s hw b piece s₁ hr ih =>
    rw [ih h, ← append_rest_of_readThrough hr]
    simp [List.reverseAux_eq]

/-- What is read is the front of the source. -/
theorem append_rest_of_readUpTo {want : Nat} {s s' : Source} {bytes : Bytes}
    (h : s.readUpTo want = (.ok bytes, s')) : bytes ++ s'.rest = s.rest := by
  simpa using append_rest_of_go h

/-- Exactly `want` bytes; a source that ends before them fails. -/
def readExact (want : Nat) (s : Source) : Except IoKind Bytes × Source :=
  match s.readUpTo want with
  | (.error kind, s') => (.error kind, s')
  | (.ok bytes, s') => if bytes.length < want then (.error .unexpectedEof, s') else (.ok bytes, s')

end Source

/-! ## Sinks -/

structure Sink where
  received : Array UInt8 := #[]
  pacing : Pacing := {}
  calls : Nat := 0
  /-- Interruptions still due before the next call completes. -/
  due : Nat := pacing.interruptions 0
  /-- Why flushing fails, if it does. -/
  flushFault : Option IoKind := none

namespace Sink

/-- What the sink got, in order. -/
def content (s : Sink) : Bytes := s.received.toList

/-- `piece` taken by a call that is now complete. -/
def advance (s : Sink) (piece : Bytes) : Sink :=
  { s with
    received := s.received ++ piece
    calls := s.calls + 1
    due := s.pacing.interruptions (s.calls + 1) }

/-- One call that offers `data`; yields how many of its bytes were taken. -/
def write (data : Bytes) (s : Sink) : Transfer Nat × Sink :=
  match s.due with
  | d + 1 => (.interrupted, { s with due := d })
  | 0 =>
    if data.isEmpty then (.done 0, s.advance [])
    else
      match s.pacing.turn s.calls s.received.size with
      | .fails kind => (.failed kind, s.advance [])
      | .atMost most => let piece := data.take most; (.done piece.length, s.advance piece)
      | .all => (.done data.length, s.advance data)

theorem due_lt_of_write {data : Bytes} {s s' : Sink} (h : s.write data = (.interrupted, s')) : s'.due < s.due := by
  unfold write at h
  split at h
  · next d hd =>
    obtain ⟨-, rfl⟩ := Prod.mk.inj h
    simp [hd]
  · split at h
    · simp at h
    · split at h <;> simp at h

/-- A call repeated until it is not interrupted. -/
def writeThrough (data : Bytes) (s : Sink) : Except IoKind Nat × Sink :=
  match _ : s.write data with
  | (.done n, s') => (.ok n, s')
  | (.failed kind, s') => (.error kind, s')
  | (.interrupted, s') => writeThrough data s'
termination_by s.due
decreasing_by exact due_lt_of_write ‹_›

end Sink

/-- Offer what is left of `data` until all of it is taken; an offer of which nothing is taken is a failure. -/
def pour {σ : Type} (put : Bytes → σ → Except IoKind Nat × σ) (data : Bytes) (s : σ) : Except IoKind Unit × σ :=
  if _ : data = [] then (.ok (), s)
  else
    match put data s with
    | (.error kind, s') => (.error kind, s')
    | (.ok 0, s') => (.error .writeZero, s')
    | (.ok (n + 1), s') => pour put (data.drop (n + 1)) s'
termination_by data.length
decreasing_by
  have := List.length_pos_iff.2 ‹¬ data = []›
  rw [List.length_drop]
  omega

def Sink.writeAll (data : Bytes) (s : Sink) : Except IoKind Unit × Sink := pour Sink.writeThrough data s

end ShardCoding

import ShardCoding.Digest.Sha256
import ShardCoding.Stream.Endpoint

/-!
# Sinks that digest what passes

* `DigestSink` : a sink together with the bytes that passed on to it; `digest` and `written` speak of those bytes;
* `write`, `writeAll` : as on the sink inside.
-/

namespace ShardCoding

structure DigestSink where
  inner : Sink
  passed : Array UInt8 := #[]

namespace DigestSink

/-- How many bytes the sink inside took. -/
def written (s : DigestSink) : Nat := s.passed.size

def digest (s : DigestSink) : Digest := sha256 s.passed.toList

/-- One call on the sink inside; the bytes that it takes are noted. -/
def write (data : Bytes) (s : DigestSink) : Transfer Nat × DigestSink :=
  match s.inner.write data with
  | (.done n, inner) => (.done n, { inner := inner, passed := s.passed ++ data.take n })
  | (.interrupted, inner) => (.interrupted, { s with inner := inner })
  | (.failed kind, inner) => (.failed kind, { s with inner := inner })

theorem due_lt_of_write {data : Bytes} {s s' : DigestSink} (h : s.write data = (.interrupted, s')) :
    s'.inner.due < s.inner.due := by
  unfold write at h
  split at h
  · simp at h
  · next hw =>
    obtain ⟨-, rfl⟩ := Prod.mk.inj h
    exact Sink.due_lt_of_write hw
  · simp at h

/-- A call repeated until it is not interrupted. -/
def writeThrough (data : Bytes) (s : DigestSink) : Except IoKind Nat × DigestSink :=
  match _ : s.write data with
  | (.done n, s') => (.ok n, s')
  | (.failed kind, s') => (.error kind, s')
  | (.interrupted, s') => writeThrough data s'
termination_by s.inner.due
decreasing_by exact due_lt_of_write ‹_›

def writeAll (data : Bytes) (s : DigestSink) : Except IoKind Unit × DigestSink := pour writeThrough data s

/-- Why flushing the sink inside fails, if it does. -/
def flushFault (s : DigestSink) : Option IoKind := s.inner.flushFault

end DigestSink

end ShardCoding

import ShardCoding.Error

/-!
# Chunking

* `StreamOptions` : the chunk length and how many bytes of each chunk the next one repeats;
* `StreamOptions.Valid`, `check` : chunks are not empty and longer than the overlap.
-/

namespace ShardCoding

structure StreamOptions where
  chunk : Nat := 262144
  overlap : Nat := 0
  deriving DecidableEq, Repr

namespace StreamOptions

def Valid (o : StreamOptions) : Prop := o.overlap < o.chunk

instance (o : StreamOptions) : Decidable o.Valid := inferInstanceAs (Decidable (_ < _))

def fault? (o : StreamOptions) : Option ArgumentFault :=
  if o.chunk = 0 then some .emptyChunk
  else if o.chunk ≤ o.overlap then some (.overlap o.overlap o.chunk)
  else none

theorem fault?_eq_none_iff {o : StreamOptions} : o.fault? = none ↔ o.Valid := by
  unfold fault? Valid
  by_cases h : o.chunk = 0
  · simp [h]
  by_cases h' : o.chunk ≤ o.overlap
  · simp [h, h']
  · simp [h, h']
    omega

def check (o : StreamOptions) : Except CodingError Unit :=
  match o.fault? with
  | some f => .error (.argument f)
  | none => .ok ()

theorem valid_of_check {o : StreamOptions} (h : o.check = .ok ()) : o.Valid := by
  unfold check at h
  split at h
  · simp at h
  · exact fault?_eq_none_iff.1 ‹_›

end StreamOptions

end ShardCoding

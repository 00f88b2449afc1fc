import ShardCoding.Digest.Basic
import ShardCoding.Event

/-!
# What an operation does besides its result

No result of a coding operation depends on the counters, the digests kept or the observers of a coder, so an operation
is a result together with the effects that its coder has to carry out, in order.

* `Counter`, `Operation`, `Guard`, `Effect` : counting, timing, locking, keeping digests, announcing events;
* `Traced α` : a result, or a refusal, and the effects on the way to it.
-/

namespace ShardCoding

inductive Counter where
  | encodes
  | decodes
  | repairs
  | bytesEncoded
  | bytesDecoded
  | bytesRepaired
  | parityMismatches
  deriving DecidableEq, Repr

/-- What durations are sampled by. -/
inductive Operation where
  | encode
  | decode
  | verify
  | repair
  | streamEncode
  | streamDecode
  deriving DecidableEq, Repr

/-- A side of the lock that repairs hold against all other operations. -/
inductive Guard where
  | shared
  | exclusive
  deriving DecidableEq, Repr

inductive Effect where
  | acquire (guard : Guard)
  | release (guard : Guard)
  | count (counter : Counter) (amount : Nat)
  | time (operation : Operation)
  | keepDigests (digests : List Digest)
  | announce (event : Event)

structure Traced (α : Type) where
  result : Except CodingError α
  effects : List Effect := []

namespace Traced

variable {α β : Type}

def fail (e : CodingError) : Traced α := ⟨.error e, []⟩

def ofExcept (r : Except CodingError α) : Traced α := ⟨r, []⟩

/-- An effect and nothing else. -/
def emit (e : Effect) : Traced Unit := ⟨.ok (), [e]⟩

/-- The events, one after another. -/
def announceAll (events : List Event) : Traced Unit := ⟨.ok (), events.map .announce⟩

/-- `x`, then `f` of its value; nothing more after a refusal. -/
def andThen (x : Traced α) (f : α → Traced β) : Traced β :=
  match x.result with
  | .error e => ⟨.error e, x.effects⟩
  | .ok a =>
    let y := f a
    ⟨y.result, x.effects ++ y.effects⟩

instance : Monad Traced where
  pure a := ⟨.ok a, []⟩
  bind := andThen

/-- `x` under a guard that is released whether `x` succeeds or not. -/
def guarded (g : Guard) (x : Traced α) : Traced α :=
  ⟨x.result, .acquire g :: x.effects ++ [.release g]⟩

end Traced

end ShardCoding

import ShardCoding.Coder.Counters
import ShardCoding.Coder.Observer
import ShardCoding.Network.Selection

/-!
# Coders

A coder is a code with the state that its operations leave behind. Observers may call back into the coder while an
event is delivered, even in the middle of a streaming operation.

* `Lock` : the guards held on the coder, and whether a call has waited for a guard held by a call around it;
* `Coder.settle` : an effect other than an announcement;
* `Coder.perform` : effects in order, every announcement delivered to the observers subscribed when it is made, in the
  order of subscription;
* `Coder.call`, `Coder.run` : an operation carried out;
* `Coder.recommendedParity`, `Coder.selectPeers` : the parity count and the peers for given network conditions.
-/

namespace ShardCoding

/-- The guards held by the calls in progress on one thread. -/
structure Lock where
  held : List Guard := []
  /-- A guard was asked for that one of the guards held excludes, so the call never returns. -/
  stuck : Bool := false
  deriving DecidableEq

namespace Lock

/-- Only shared guards go together. -/
def admits (l : Lock) : Guard → Bool
  | .shared => l.held.all (· = .shared)
  | .exclusive => l.held.isEmpty

def acquire (l : Lock) (g : Guard) : Lock :=
  { held := g :: l.held, stuck := l.stuck || !l.admits g }

def release (l : Lock) (g : Guard) : Lock :=
  { l with held := l.held.erase g }

end Lock

/-- What observers were told, by subscription id, and what a metrics recorder got. -/
structure Journal where
  deliveries : List (Nat × Event) := []
  samples : List Sample := []

structure Coder where
  code : Code
  thresholds : Thresholds Float := .standard
  counters : Counters := {}
  digests : DigestCache := {}
  bus : EventBus := {}
  lock : Lock := {}
  journal : Journal := {}

namespace Coder

def sample (c : Coder) (s : Sample) : Coder :=
  { c with journal := { c.journal with samples := c.journal.samples ++ [s] } }

/-- Carry out an effect other than an announcement. -/
def settle (c : Coder) : Effect → Coder
  | .acquire g => { c with lock := c.lock.acquire g }
  | .release g => { c with lock := c.lock.release g }
  | .count counter n =>
    { c with counters := c.counters.add counter n }.sample (.increment counter c.code.scheme n)
  | .time operation => c.sample (.duration operation c.code.scheme)
  | .keepDigests digests => { c with digests := .ofDigests digests }
  | .announce _ => c

/-- One reaction of observer `id`; `perform` carries out the effects of a call that it makes. -/
def react (perform : List Effect → Coder → Coder) (id : Nat) (c : Coder) : Reaction → Coder
  | .subscribe o => { c with bus := c.bus.subscribe o }
  | .unsubscribe other => { c with bus := c.bus.unsubscribe other }
  | .leave => { c with bus := c.bus.unsubscribe id }
  | .call call => perform (call.effects c.code) c

/-- Tell observer `id` of an event; it reacts after it has noted the event. -/
def deliver (perform : List Effect → Coder → Coder) (event : Event) (c : Coder) (id : Nat) : Coder :=
  match c.bus.issued[id]? with
  | none => c
  | some o =>
    if o.interest.hears event then
      let noted := { c with
        bus := c.bus.spend id
        journal := { c.journal with deliveries := c.journal.deliveries ++ [(id, event)] } }
      o.reactions.foldl (react perform id) noted
    else c

/-- Carry out effects in order, calls made by observers through `perform`. -/
def performWith (perform : List Effect → Coder → Coder) (effects : List Effect) (c : Coder) : Coder :=
  effects.foldl
    (fun c effect =>
      match effect with
      | .announce event => c.bus.active.foldl (deliver perform event) c
      | effect => c.settle effect)
    c

/-- Calls made by observers nest at most `depth` deep. -/
def performNested : (depth : Nat) → List Effect → Coder → Coder
  | 0 => performWith fun _ c => c
  | depth + 1 => performWith (performNested depth)

/-- Every nested call spends one of the calls that the observers may still make, which bounds the nesting. -/
def perform (effects : List Effect) (c : Coder) : Coder :=
  performNested c.bus.pendingCalls effects c

def call (c : Coder) (call : Call) : Coder := c.perform (call.effects c.code)

/-- Carry out the effects of an operation of this coder's code, and yield its result. -/
def run {α : Type} (c : Coder) (t : Traced α) : Except CodingError α × Coder :=
  (t.result, c.perform t.effects)

/-! ## Construction -/

def ofScheme (s : Scheme) (thresholds : Thresholds Float) : Except CodingError Coder :=
  (Code.ofScheme s).map fun code => { code, thresholds }

/-- The standard counts, with twice the parity on an unhealthy network. -/
def schemeForNetwork (h : Health) : Scheme :=
  ⟨Scheme.standard.data, if h = .unhealthy then 4 else 2⟩

/-! ## Choices for a network -/

def recommendedParity (c : Coder) (conditions : Conditions Float) : Nat :=
  c.thresholds.recommendParity c.code.scheme.parity conditions

/-- As many peers as parity shards are recommended. -/
def selectPeers (c : Coder) (conditions : Conditions Float) (peers : List (Candidate Float)) : List (Candidate Float) :=
  Candidate.rank peers (c.recommendedParity conditions)

/-! ## Description -/

/-- The shard counts, the number of observers and the counters. -/
def description (c : Coder) : String :=
  let s := c.code.scheme
  let n := c.counters
  "ErasureCoder \x7b config: ErasureConfig \x7b " ++
    s!"data_shards: {s.data}, parity_shards: {s.parity}" ++
    s!" \x7d, observers: {c.bus.size}, stats: CoderStats \x7b " ++
    s!"encode_count: {n.encodes}, decode_count: {n.decodes}, repair_count: {n.repairs}, " ++
    s!"bytes_encoded: {n.bytesEncoded}, bytes_decoded: {n.bytesDecoded}, bytes_repaired: {n.bytesRepaired}" ++
    " \x7d \x7d"

end Coder

end ShardCoding

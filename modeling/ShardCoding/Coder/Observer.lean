import ShardCoding.Stream.Encode
import ShardCoding.Stream.Decode
import ShardCoding.Code.Maintenance

/-!
# Calls and observers

* `Call` : an operation of a coder with its arguments, or an event announced from outside; `Call.effects` : what it has
  the coder carry out;
* `Observer` : which events it hears, and what it does on the first, second, ... event that reaches it;
* `EventBus` : all observers ever subscribed, and the ids of those still subscribed, in the order of subscription.
-/

namespace ShardCoding

/-- An operation of a coder, with its arguments. -/
inductive Call where
  | encode (data : Bytes)
  | encodeParallel (data : Bytes)
  | decode (slots : Slots) (present : List Nat) (dataSize shardSize : Nat)
  | verify (slots : Slots)
  | repair (slots : Slots) (present : List Nat) (dataSize shardSize : Nat)
  | encodeStream (source : Source) (sinks : List Sink) (options : StreamOptions)
  | decodeStream (sources : List Source) (present : List Nat) (dataSize : Nat) (sink : Sink)
      (options : StreamOptions)
  | announce (event : Event)

def Call.effects (code : Code) : Call → List Effect
  | encode data => (code.encode data).effects
  | encodeParallel data => (code.encodeParallel data).effects
  | decode slots present dataSize shardSize => (code.decode slots present dataSize shardSize).effects
  | verify slots => (code.verify slots).effects
  | repair slots present dataSize shardSize => (code.repair slots present dataSize shardSize).effects
  | encodeStream source sinks options => (code.encodeStream source sinks options).outcome.effects
  | decodeStream sources present dataSize sink options =>
    (code.decodeStream sources present dataSize sink options).outcome.effects
  | announce event => [.announce event]

inductive Interest where
  | everything
  | encodings
  | decodings
  | repairs
  deriving DecidableEq, Repr

def Interest.hears : Interest → Event → Bool
  | everything, _ => true
  | encodings, .encoding _ => true
  | decodings, .decoding _ => true
  | repairs, .repair _ => true
  | _, _ => false

mutual

/-- What an observer may do while an event is delivered to it. One that makes a call that panics catches the panic. -/
inductive Reaction where
  | subscribe (observer : Observer)
  | unsubscribe (id : Nat)
  | leave
  | call (call : Call)

/-- Hears the events of its interest, and spends one entry of its script on each. -/
inductive Observer where
  | mk (interest : Interest) (script : List (List Reaction))

end

namespace Observer

def interest : Observer → Interest
  | mk i _ => i

def script : Observer → List (List Reaction)
  | mk _ s => s

/-- The observer once it has spent the first entry of its script. -/
def afterEvent : Observer → Observer
  | mk i s => mk i s.tail

/-- What the observer does on the next event. -/
def reactions (o : Observer) : List Reaction := o.script.headD []

end Observer

/-! ## Calls that an observer may still make -/

mutual

def Reaction.calls : Reaction → Nat
  | .subscribe o => o.calls
  | .unsubscribe _ => 0
  | .leave => 0
  | .call _ => 1

def Observer.calls : Observer → Nat
  | .mk _ script => callsOfScript script

def callsOfScript : List (List Reaction) → Nat
  | [] => 0
  | reactions :: rest => callsOfReactions reactions + callsOfScript rest

def callsOfReactions : List Reaction → Nat
  | [] => 0
  | r :: rest => r.calls + callsOfReactions rest

end

/-! ## Subscriptions -/

/-- A subscription's id is its place in `issued`, so ids are never used again. -/
structure EventBus where
  issued : List Observer := []
  active : List Nat := []

namespace EventBus

def size (b : EventBus) : Nat := b.active.length

/-- The bus with one more observer, whose id is the number issued so far. -/
def subscribe (b : EventBus) (o : Observer) : EventBus where
  issued := b.issued ++ [o]
  active := b.active ++ [b.issued.length]

def unsubscribe (b : EventBus) (id : Nat) : EventBus :=
  { b with active := b.active.filter (· ≠ id) }

/-- Whether the observer with this id is subscribed, and so whether it can be removed. -/
def isActive (b : EventBus) (id : Nat) : Bool := b.active.contains id

/-- The observer with this id has spent one entry of its script. -/
def spend (b : EventBus) (id : Nat) : EventBus :=
  { b with issued := b.issued.modify id Observer.afterEvent }

/-- How many calls all observers together may still make. -/
def pendingCalls (b : EventBus) : Nat := b.issued.foldr (fun o n => o.calls + n) 0

/-- The number of observers. -/
def description (b : EventBus) : String := "EventBus \x7b observers: " ++ s!"{b.size}" ++ " \x7d"

end EventBus

end ShardCoding

import ShardCoding.Network.Peer
import ShardCoding.Time

/-!
# Network contexts

What is known of a network and its peers, shared by the coders on it.

* `NetworkContext` : the latest conditions, when health was last set, and the metrics of each peer by id;
* `recordSuccess`, `recordFailure`, `peerScore` : the metrics of one peer.
-/

namespace ShardCoding

structure NetworkContext (R : Type) where
  conditions : Conditions R
  /-- When health was last set. -/
  lastUpdate : Option Instant := none
  /-- Metrics in ascending order of the ids. -/
  peers : List (String × PeerMetrics R) := []

namespace NetworkContext

variable {R : Type} [Scale R]

def empty : NetworkContext R where
  conditions := ⟨.unknown, Scale.ofNat 0, Scale.ofNat 0⟩

def setHealth (n : NetworkContext R) (h : Health) (now : Instant) : NetworkContext R :=
  { n with conditions := { n.conditions with health := h }, lastUpdate := some now }

def setLatency (n : NetworkContext R) (ms : R) : NetworkContext R :=
  { n with conditions := { n.conditions with averageLatency := ms } }

def setLoss (n : NetworkContext R) (rate : R) : NetworkContext R :=
  { n with conditions := { n.conditions with packetLoss := rate } }

/-- The entry of `id` after `change`, or a new one. -/
def upsert (id : String) (change : PeerMetrics R → PeerMetrics R) (new : PeerMetrics R) :
    List (String × PeerMetrics R) → List (String × PeerMetrics R)
  | [] => [(id, new)]
  | (other, m) :: rest =>
    if id = other then (id, change m) :: rest
    else if id < other then (id, new) :: (other, m) :: rest
    else (other, m) :: upsert id change new rest

def metricsOf? (n : NetworkContext R) (id : String) : Option (PeerMetrics R) :=
  (n.peers.find? (·.1 = id)).map (·.2)

def recordSuccess (n : NetworkContext R) (id : String) (latency : Nat) : NetworkContext R :=
  { n with peers := upsert id (·.recordSuccess latency) (.firstSuccess latency) n.peers }

def recordFailure (n : NetworkContext R) (id : String) : NetworkContext R :=
  { n with peers := upsert id .recordFailure .firstFailure n.peers }

def peerScore (n : NetworkContext R) (id : String) : R :=
  match n.metricsOf? id with
  | some m => m.score
  | none => unknownPeerScore

end NetworkContext

end ShardCoding

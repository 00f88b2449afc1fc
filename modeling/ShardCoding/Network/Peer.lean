import ShardCoding.Network.Selection

/-!
# What is known of a peer

* `Scale` : the arithmetic that rates and scores need; programs take `Float`;
* `PeerMetrics` : counts, latencies and the success rate of one peer, after `recordSuccess` and `recordFailure`;
* `PeerMetrics.score` : reliability, speed and consistency in one number from 0 to 100.
-/

namespace ShardCoding

class Scale (R : Type) extends Add R, Sub R, Mul R, Div R, Max R where
  ofNat : Nat → R

instance : Scale Float where
  ofNat := Float.ofNat

structure PeerMetrics (R : Type) where
  successes : Nat
  failures : Nat
  /-- The mean over successes, each step rounded down. -/
  averageLatency : Nat
  minLatency : Nat
  maxLatency : Nat
  successRate : R
  deriving Repr

namespace PeerMetrics

variable {R : Type} [Scale R]

def firstSuccess (latency : Nat) : PeerMetrics R where
  successes := 1
  failures := 0
  averageLatency := latency
  minLatency := latency
  maxLatency := latency
  successRate := Scale.ofNat 1

def firstFailure : PeerMetrics R where
  successes := 0
  failures := 1
  averageLatency := 0
  minLatency := 0
  maxLatency := 0
  successRate := Scale.ofNat 0

/-- The part that the successes are of all attempts. -/
def rate (successes failures : Nat) : R := Scale.ofNat successes / Scale.ofNat (successes + failures)

def recordSuccess (m : PeerMetrics R) (latency : Nat) : PeerMetrics R where
  successes := m.successes + 1
  failures := m.failures
  averageLatency := (m.averageLatency * m.successes + latency) / (m.successes + 1)
  minLatency := if m.successes = 0 then latency else min m.minLatency latency
  maxLatency := if m.successes = 0 then latency else max m.maxLatency latency
  successRate := rate (m.successes + 1) m.failures

def recordFailure (m : PeerMetrics R) : PeerMetrics R :=
  { m with
    failures := m.failures + 1
    successRate := rate m.successes (m.failures + 1) }

/-- How little the latencies vary, none being known without a success. -/
def consistency (m : PeerMetrics R) : R :=
  if m.successes = 0 then Scale.ofNat 0
  else if 0 < m.maxLatency then
    Scale.ofNat 1 - Scale.ofNat (m.maxLatency - m.minLatency) / Scale.ofNat m.maxLatency
  else Scale.ofNat 1

/-- Forty parts reliability, thirty parts speed below a second, twenty parts consistency, and ten for every peer. -/
def score (m : PeerMetrics R) : R :=
  let reliability := m.successRate * Scale.ofNat 40
  let speed := max (Scale.ofNat 1 - Scale.ofNat m.averageLatency / Scale.ofNat 1000) (Scale.ofNat 0) * Scale.ofNat 30
  reliability + speed + m.consistency * Scale.ofNat 20 + Scale.ofNat 10

end PeerMetrics

/-- The score of a peer without history. -/
def unknownPeerScore {R : Type} [Scale R] : R := Scale.ofNat 50

end ShardCoding

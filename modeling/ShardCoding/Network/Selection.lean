import ShardCoding.Network.Health

/-!
# Parity counts and peers for a network

Latencies, losses and scores are of any type `R` with an order that may be partial; programs take `R := Float`.

* `Thresholds`, `Conditions` : what the choice depends on; `Level` : where a value stands between two thresholds;
* `Thresholds.recommendParity` : the parity count for a base count under given conditions;
* `Candidate`, `rank` : the best peers, by score and then by latency.
-/

namespace ShardCoding

variable {R : Type}

structure Thresholds (R : Type) where
  /-- Ceiling for doubling and for raises by latency and loss. -/
  maxParity : Nat
  /-- Ceiling for the raise by degraded health. -/
  degradedMaxParity : Nat
  /-- Floor for cuts by latency and loss. -/
  minParity : Nat
  highLatency : R
  lowLatency : R
  highLoss : R
  lowLoss : R
  deriving Repr

namespace Thresholds

def standard : Thresholds Float where
  maxParity := 8
  degradedMaxParity := 6
  minParity := 2
  highLatency := 500
  lowLatency := 100
  highLoss := 0.1
  lowLoss := 0.01

end Thresholds

/-- The state of a network at one point in time. -/
structure Conditions (R : Type) where
  health : Health
  averageLatency : R
  packetLoss : R
  deriving Repr

/-! ## Parity -/

inductive Level where
  | low
  | middle
  | high
  deriving DecidableEq, Repr

/-- A value that compares with neither threshold is in the middle. -/
def Level.of [LT R] [DecidableLT R] (low high value : R) : Level :=
  if high < value then .high
  else if value < low then .low
  else .middle

namespace Thresholds

/-- Health doubles the count, or raises it by one, up to a ceiling. -/
def afterHealth (t : Thresholds R) (parity : Nat) : Health → Nat
  | .unhealthy => min (parity * 2) t.maxParity
  | .degraded => min (parity + 1) t.degradedMaxParity
  | .healthy | .unknown => parity

/-- A high level raises the count up to the ceiling, a low one cuts it down to the floor. -/
def afterLevel (t : Thresholds R) (parity : Nat) : Level → Nat
  | .high => min (parity + 1) t.maxParity
  | .low => max (parity - 1) t.minParity
  | .middle => parity

variable [LT R] [DecidableLT R]

def latencyLevel (t : Thresholds R) (c : Conditions R) : Level := .of t.lowLatency t.highLatency c.averageLatency

def lossLevel (t : Thresholds R) (c : Conditions R) : Level := .of t.lowLoss t.highLoss c.packetLoss

/-- Health, latency and loss in turn, each applied to what the one before has left. -/
def recommendParity (t : Thresholds R) (base : Nat) (c : Conditions R) : Nat :=
  t.afterLevel (t.afterLevel (t.afterHealth base c.health) (t.latencyLevel c)) (t.lossLevel c)

end Thresholds

/-! ## Peers -/

/-- A peer that may take shards. -/
structure Candidate (R : Type) where
  id : String
  score : R
  latency : Nat
  health : Health
  deriving Repr

namespace Candidate

variable [LT R] [DecidableLT R]

/-- Higher scores come first, and of scores that do not differ lower latencies. -/
def NoWorse (a b : Candidate R) : Prop :=
  b.score < a.score ∨ (¬ a.score < b.score ∧ a.latency ≤ b.latency)

instance (a b : Candidate R) : Decidable (NoWorse a b) :=
  inferInstanceAs (Decidable (_ ∨ _))

/-- The `count` best of the peers, best first; peers that do not differ stay in their order. -/
def rank (peers : List (Candidate R)) (count : Nat) : List (Candidate R) :=
  (peers.mergeSort fun a b => NoWorse a b).take count

end Candidate

end ShardCoding

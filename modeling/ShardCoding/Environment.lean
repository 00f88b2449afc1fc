import ShardCoding.Decimal.Read
import ShardCoding.Scheme

/-!
# Shard counts from the environment

* `Environment` : the variables that the program reads, where they are set;
* `Environment.scheme` : the shard counts that they ask for, each the standard one unless it is a number.
-/

namespace ShardCoding

structure Environment where
  /-- ERASURE_DATA_SHARDS -/
  dataShards : Option String := none
  /-- ERASURE_PARITY_SHARDS -/
  parityShards : Option String := none
  /-- SUPERNODE_CONFIG -/
  configFile : Option String := none

namespace Environment

/-- The number in a variable. -/
def count (default : Nat) : Option String → Nat
  | none => default
  | some s => (readWord wordLimit s).toOption.getD default

def scheme (e : Environment) : Scheme :=
  ⟨count Scheme.standard.data e.dataShards, count Scheme.standard.parity e.parityShards⟩

end Environment

end ShardCoding

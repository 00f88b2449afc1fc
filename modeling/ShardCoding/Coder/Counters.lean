import ShardCoding.Effect
import ShardCoding.Scheme

/-!
# Counters and samples

* `Counters` : what a coder has counted, modulo `2^64`;
* `Sample` : an entry for a metrics recorder, a counter's increment or a duration, under a name and labels;
* `Counter.metric`, `descriptions` : the recorder's names and their descriptions.
-/

namespace ShardCoding

structure Counters where
  encodes : UInt64 := 0
  decodes : UInt64 := 0
  /-- Every repair that succeeded, also those with nothing to rebuild. -/
  repairs : UInt64 := 0
  bytesEncoded : UInt64 := 0
  bytesDecoded : UInt64 := 0
  bytesRepaired : UInt64 := 0
  deriving DecidableEq

namespace Counters

/-- Parity mismatches go to the recorder alone. -/
def add (c : Counters) (counter : Counter) (amount : Nat) : Counters :=
  let n := amount.toUInt64
  match counter with
  | .encodes => { c with encodes := c.encodes + n }
  | .decodes => { c with decodes := c.decodes + n }
  | .repairs => { c with repairs := c.repairs + n }
  | .bytesEncoded => { c with bytesEncoded := c.bytesEncoded + n }
  | .bytesDecoded => { c with bytesDecoded := c.bytesDecoded + n }
  | .bytesRepaired => { c with bytesRepaired := c.bytesRepaired + n }
  | .parityMismatches => c

end Counters

/-! ## What a recorder sees -/

inductive Sample where
  | increment (counter : Counter) (scheme : Scheme) (amount : Nat)
  | duration (operation : Operation) (scheme : Scheme)
  deriving DecidableEq, Repr

def Counter.metric : Counter → String
  | encodes => "supernode_erasure_encode_total"
  | decodes => "supernode_erasure_decode_total"
  | repairs => "supernode_erasure_repair_total"
  | bytesEncoded => "supernode_erasure_encode_bytes"
  | bytesDecoded => "supernode_erasure_decode_bytes"
  | bytesRepaired => "supernode_erasure_repair_bytes"
  | parityMismatches => "supernode_erasure_parity_mismatch_total"

def Counter.description : Counter → String
  | encodes => "Number of encode operations"
  | decodes => "Number of decode operations"
  | repairs => "Number of parity repair operations"
  | bytesEncoded => "Input bytes erasure-coded"
  | bytesDecoded => "Original bytes reconstructed"
  | bytesRepaired => "Parity bytes rebuilt by repair"
  | parityMismatches => "Parity shards found inconsistent during verification"

/-- In the order in which they are described. -/
def Counter.all : List Counter :=
  [encodes, decodes, repairs, bytesEncoded, bytesDecoded, bytesRepaired, parityMismatches]

def Operation.label : Operation → String
  | encode => "encode"
  | decode => "decode"
  | verify => "verify"
  | repair => "repair"
  | streamEncode => "stream_encode"
  | streamDecode => "stream_decode"

/-- Whether a metric is counted or sampled. -/
inductive MetricKind where
  | counter
  | histogram
  deriving DecidableEq, Repr

def durationMetric : String := "supernode_erasure_operation_duration_seconds"

/-- Kind, name and description of every metric. -/
def descriptions : List (MetricKind × String × String) :=
  Counter.all.map (fun c => (.counter, c.metric, c.description)) ++
    [(.histogram, durationMetric, "Duration of erasure coding operations in seconds")]

namespace Sample

def name : Sample → String
  | increment counter _ _ => counter.metric
  | duration _ _ => durationMetric

def labels : Sample → List (String × String)
  | increment _ scheme _ => [("config", scheme.text)]
  | duration operation scheme => [("config", scheme.text), ("operation", operation.label)]

def amount? : Sample → Option Nat
  | increment _ _ n => some n
  | duration _ _ => none

end Sample

end ShardCoding

import ShardCoding.Coder.Basic
import ShardCoding.Command.Basic
import ShardCoding.Decimal.Text
import ShardCoding.Json.Values
import ShardCoding.Json.Writer
import ShardCoding.Settings.Basic

/-!
# Planning

Which parity count and which peers suit given network conditions, without encoding anything.
-/

namespace ShardCoding

structure PlanRequest where
  scheme : Scheme
  network : NetworkSettings
  peers : List (Candidate Float)

structure PlanReport where
  scheme : Scheme
  conditions : Conditions Float
  recommendedParity : Nat
  /-- How many peers there were to choose from. -/
  candidates : Nat
  selected : List (Candidate Float)

def plan (r : PlanRequest) : Except CommandError PlanReport := do
  let coder ← (Coder.ofScheme r.scheme r.network.thresholds).mapError .coding
  let conditions := r.network.conditions
  return {
    scheme := r.scheme
    conditions
    recommendedParity := coder.recommendedParity conditions
    candidates := r.peers.length
    selected := coder.selectPeers conditions r.peers }

namespace PlanReport

instance : Coe PlanReport Json where
  coe r := .record [("data_shards", .nat r.scheme.data), ("base_parity", .nat r.scheme.parity),
    ("recommended_parity", .nat r.recommendedParity), ("health", toJson r.conditions.health),
    ("selected_peers", .array (r.selected.map toJson))]

def peerLine (p : Candidate Float) (rank : Nat) : String :=
  s!"  {padLeft 2 (toString rank)}. {padRight 20 p.id} score {padLeft 5 (fixedText 1 p.score)}  " ++
    s!"{padLeft 5 (toString p.latency)} ms  {p.health.text}\n"

/-- The change from the parity count asked for. -/
def changeText (r : PlanReport) : String :=
  if r.scheme.parity < r.recommendedParity then "raised"
  else if r.recommendedParity < r.scheme.parity then "lowered"
  else "unchanged"

def peersText (r : PlanReport) : String :=
  let skipped := r.candidates - r.selected.length
  s!"\nSelected peers\n{ruleText}\n" ++
    String.join (r.selected.zipIdx.map fun (p, i) => peerLine p (i + 1)) ++
    if skipped = 0 then "" else s!"  {skipped} candidate(s) not selected\n"

def text (r : PlanReport) : String :=
  let c := r.conditions
  s!"Adaptive Plan\n\n  Network:   {c.health.text} (latency {fixedText 0 c.averageLatency} ms, " ++
    s!"loss {fixedText 2 (c.packetLoss * 100)}%)\n" ++
    s!"  Layout:    {r.scheme.data} data + {r.scheme.parity} parity\n" ++
    s!"  Parity:    {r.recommendedParity} ({r.changeText})\n" ++
    if r.candidates = 0 then "" else r.peersText

def jsonText (r : PlanReport) : String := Json.pretty r ++ "\n"

end PlanReport

end ShardCoding

import ShardCoding.Code.Maintenance
import ShardCoding.Command.Shards
import ShardCoding.Decimal.Text

/-!
# Verifying files

Compares the shard files with their manifest and, if all are there, the parity shards with the data shards.
-/

namespace ShardCoding

structure VerifyRequest where
  manifest : Path
  /-- Whether to recompute the parity shards. -/
  parity : Bool := true

structure VerifyReport where
  name : Option String
  dataShards : Nat
  parityRequested : Bool
  states : List ShardState
  /-- `none` where the parity shards were not recomputed. -/
  parity : Option Verification

namespace VerifyReport

def isHealthy (r : VerifyReport) : Bool := r.states.all (· = .valid) && r.parity.all (·.valid)

end VerifyReport

/-- Shards of different lengths are not compared. -/
def verifyFiles {m : Type → Type} [Monad m] [FileSystem m] (r : VerifyRequest) : Command m VerifyReport := do
  let layout ← Command.ofExcept .layout (Layout.ofManifestPath r.manifest)
  let manifest ← loadManifest layout
  let states ← inspectShards layout manifest
  let report (parity : Option Verification) : VerifyReport :=
    { name := manifest.fileName, dataShards := manifest.scheme.data, parityRequested := r.parity, states, parity }
  if r.parity ∧ .missing ∉ states then
    let code ← Command.ofExcept .coding (Code.ofScheme manifest.scheme)
    let slots ← readShards layout states fun _ => true
    return report (code.verify slots).result.toOption
  else return report none

/-! ## Text -/

namespace VerifyReport

def mark : ShardState → String
  | .valid => checkMark
  | .corrupt => crossMark
  | .missing => missingMark

def line (r : VerifyReport) (state : ShardState) (index : Nat) : String :=
  let kind := if index < r.dataShards then "data" else "parity"
  s!"  {mark state} {padLeft 3 (toString index)} {padRight 6 kind} {state.text}\n"

def parityText (r : VerifyReport) : String :=
  match r.parity with
  | some v =>
    if v.valid then s!"Parity:  {checkMark} consistent\n"
    else s!"Parity:  {crossMark} mismatch on parity shard(s) {listText v.corruptedIndices}\n"
  | none => if r.parityRequested then "Parity:  skipped (shards missing)\n" else ""

def statusText (r : VerifyReport) : String :=
  let usable := (usableShards r.states).length
  let total := r.states.length
  if usable = total then "healthy"
  else if r.dataShards ≤ usable then s!"recoverable ({usable} of {total} usable)"
  else s!"unrecoverable ({usable} of {total} usable)"

def text (r : VerifyReport) : String :=
  "Shards for " ++ r.name.getD "<unnamed>" ++ "\n" ++
    String.join (r.states.zipIdx.map fun (state, i) => r.line state i) ++
    s!"{ruleText}\n" ++ r.parityText ++ s!"Status:  {r.statusText}\n"

end VerifyReport

end ShardCoding

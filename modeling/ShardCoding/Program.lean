import ShardCoding.Command.Decode
import ShardCoding.Command.Encode
import ShardCoding.Command.Plan
import ShardCoding.Command.Repair
import ShardCoding.Command.Verify
import ShardCoding.CommandLine.Request
import ShardCoding.Settings.File

/-!
# The program

* `Reply` : the answer to a request, with its text and its exit code;
* `Invocation.run` : a request carried out.
-/

namespace ShardCoding

inductive Reply where
  | encoded (report : EncodeReport) (quiet : Bool)
  | decoded (report : DecodeReport) (quiet : Bool)
  | verified (report : VerifyReport)
  | repaired (report : RepairReport)
  | planned (report : PlanReport) (json : Bool)
  | settings (s : Settings) (file : Path) (isPresent : Bool)
  | settingsPath (file : Path)
  | settingsKept (file : Path)
  | settingsMade (file : Path)

namespace Reply

/-- `elapsed` tells how long the request took. -/
def text (elapsed : String) : Reply → String
  | encoded r quiet => if quiet then "" else r.text
  | decoded r quiet => if quiet then "" else r.text
  | verified r => r.text
  | repaired r => r.text elapsed
  | planned r json => if json then r.jsonText else r.text
  | settings s file isPresent =>
    s.summary ++ s!"Config file: {file.text}\n" ++
      if isPresent then "" else "(not created yet) Run 'supernode config init' to create it\n"
  | settingsPath file => s!"{file.text}\n"
  | settingsKept file => s!"{warnMark} Config file already exists at {file.text}\nUse --force to overwrite\n"
  | settingsMade file => s!"{checkMark} Config file created at {file.text}\n"

/-- One for files that are not healthy. -/
def exitCode : Reply → Nat
  | verified r => if r.isHealthy then 0 else 1
  | _ => 0

end Reply

namespace Request

variable {m : Type → Type} [Monad m] [FileSystem m]

/-- With `adaptive`, the parity count is the one recommended for the network. -/
def chooseScheme (s : Settings) (data parity : Option Nat) (adaptive : Bool) : Except CommandError Scheme := do
  let scheme ← s.resolve data parity
  if adaptive then
    let report ← ShardCoding.plan ⟨scheme, s.network, []⟩
    s.resolve (some scheme.data) (some report.recommendedParity)
  else return scheme

def chooseStream (s : Settings) (chunk overlap : Option Nat) : Except CommandError StreamOptions :=
  let options : StreamOptions := ⟨chunk.getD s.stream.chunk, overlap.getD s.stream.overlap⟩
  match options.check with
  | .ok () => .ok options
  | .error e => .error (.coding e)

/-- The network of the settings, with the conditions given elsewhere in their place. -/
def chooseNetwork (s : Settings) (health : Option Health) (latency loss : Option Float) : NetworkSettings :=
  let c := s.network.conditions
  { s.network with
    conditions := ⟨health.getD c.health, latency.getD c.averageLatency, loss.getD c.packetLoss⟩ }

def run (now : Instant) (e : Environment) (file : Path) (s : Settings) : Request → Command m Reply
  | encode input outDir data parity chunk overlap adaptive quiet => do
    let scheme ← Command.ofExcept id (chooseScheme s data parity adaptive)
    let stream ← Command.ofExcept id (chooseStream s chunk overlap)
    return .encoded (← encodeFile now { input, outDir, scheme, stream }) quiet
  | decode manifest output quiet => return .decoded (← decodeFile { manifest, output }) quiet
  | verify manifest parity => return .verified (← verifyFiles { manifest, parity })
  | repair manifest => return .repaired (← repairFiles manifest)
  | plan health latency loss data parity peers json => do
    let scheme ← Command.ofExcept id (s.resolve data parity)
    let network := chooseNetwork s health latency loss
    return .planned (← Command.ofExcept id (ShardCoding.plan { scheme, network, peers })) json
  | showSettings => return .settings s file (← (FileSystem.isPresent file : m Bool))
  | settingsPath => return .settingsPath file
  | initSettings force => do
    if (← (FileSystem.isPresent file : m Bool)) ∧ ¬ force then return .settingsKept file
    saveSettings file (.standard e)
    return .settingsMade file

end Request

/-- Carry out a request with the settings of its file. -/
def Invocation.run {m : Type → Type} [Monad m] [FileSystem m] (now : Instant) (e : Environment) (i : Invocation) :
    Command m Reply := do
  let s ← loadSettings e i.settingsFile
  i.request.run now e i.settingsFile s

/-- What `--version` tells. -/
def versionText : String := "supernode 0.1.0\n"

def usageText : String :=
  "Usage: supernode [--config FILE] [-v] COMMAND\n\n" ++
    "  encode INPUT [-o DIR] [-k N] [-m N] [--chunk-size N] [--overlap N] [--adaptive] [-q]\n" ++
    "  decode MANIFEST -o OUTPUT [-q]\n" ++
    "  verify MANIFEST [--no-parity]\n" ++
    "  repair MANIFEST\n" ++
    "  plan [--health H] [--latency MS] [--loss RATE] [-k N] [-m N] [--peer PEER]... [--json]\n" ++
    "  config [show | path | init [-f]]\n"

end ShardCoding

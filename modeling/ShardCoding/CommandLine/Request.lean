import ShardCoding.CommandLine.Arguments
import ShardCoding.Environment
import ShardCoding.Network.CandidateText
import ShardCoding.Path

/-!
# Requests

* `Request` : what a command line asks for; `Invocation` : that, and the settings file to read first;
* `Invocation.read` : the invocation that words and the environment make.
-/

namespace ShardCoding

inductive Request where
  | encode (input outDir : Path) (data parity chunk overlap : Option Nat) (adaptive quiet : Bool)
  | decode (manifest output : Path) (quiet : Bool)
  | verify (manifest : Path) (parity : Bool)
  | repair (manifest : Path)
  | plan (health : Option Health) (latency loss : Option Float) (data parity : Option Nat)
      (peers : List (Candidate Float)) (json : Bool)
  | showSettings
  | settingsPath
  | initSettings (force : Bool)

structure Invocation where
  settingsFile : Path
  request : Request

/-! ## Grammar -/

namespace Grammar

def path (name : String) (letter : Option Char) : OptionSpec := { name, letter, accepts := some (· ≠ "") }

def count (name : String) (letter : Option Char) : OptionSpec :=
  { name, letter, accepts := some fun s => (readWord wordLimit s).isOk }

def real (name : String) : OptionSpec := { name, accepts := some fun s => (readFloat s).isOk }

def flag (name : String) (letter : Option Char) : OptionSpec := { name, letter }

/-- Options of every command. -/
def everywhere : List OptionSpec := [path "config" none, { name := "verbose", letter := 'v', repeatable := true }]

def main : Grammar where
  options := everywhere
  commands := ["encode", "decode", "verify", "repair", "plan", "config", "help"]
  hasVersion := true

def encode : Grammar where
  options := everywhere ++ [path "out-dir" 'o', count "data-shards" 'k', count "parity-shards" 'm',
    count "chunk-size" none, count "overlap" none, flag "adaptive" none, flag "quiet" 'q']
  operands := 1

def decode : Grammar where
  options := everywhere ++ [path "output" 'o', flag "quiet" 'q']
  operands := 1

def verify : Grammar where
  options := everywhere ++ [flag "no-parity" none]
  operands := 1

def repair : Grammar where
  options := everywhere
  operands := 1

def plan : Grammar where
  options := everywhere ++ [
    { name := "health", accepts := some fun s => (Health.read s).isOk },
    real "latency", real "loss", count "data-shards" 'k', count "parity-shards" 'm',
    { name := "peer", accepts := some fun s => (Candidate.read s).isOk, repeatable := true },
    flag "json" none]

def settings : Grammar where
  options := everywhere
  commands := ["show", "path", "init", "help"]

def bare : Grammar where
  options := everywhere

def init : Grammar where
  options := everywhere ++ [flag "force" 'f']

/-- The words that lead to each command. -/
def topics : List (List String) :=
  [] :: main.commands.map ([·]) ++ settings.commands.map (["config", ·])

end Grammar

/-- Help may be asked for on a command that there is. -/
def Interruption.helpOn (topic : List String) : Interruption :=
  if topic ∈ Grammar.topics then .help else .misuse

/-! ## Reading -/

namespace Arguments

def path? (a : Arguments) (name : String) : Option Path := (a.value? name).map Path.mk

def count? (a : Arguments) (name : String) : Option Nat :=
  (a.value? name).bind fun s => (readWord wordLimit s).toOption

def real? (a : Arguments) (name : String) : Option Float := (a.value? name).bind fun s => (readFloat s).toOption

/-- The one operand of a command. -/
def onlyOperand (a : Arguments) : Except Interruption Path :=
  match a.operands with
  | [s] => .ok ⟨s⟩
  | _ => .error .misuse

end Arguments

namespace Request

/-- A request, with the settings files named at each level of commands, innermost first. -/
abbrev Reading := Except Interruption (Request × List (Option String))

def ofArguments (g : Grammar) (ws : List String) (request : Arguments → Except Interruption Request) : Reading := do
  let a ← Arguments.scan g {} ws
  return (← request a, [a.value? "config"])

def readEncode (ws : List String) : Reading :=
  ofArguments .encode ws fun a => do
    return .encode (← a.onlyOperand) ((a.path? "out-dir").getD ⟨"."⟩) (a.count? "data-shards")
      (a.count? "parity-shards") (a.count? "chunk-size") (a.count? "overlap") (a.has "adaptive") (a.has "quiet")

def readDecode (ws : List String) : Reading :=
  ofArguments .decode ws fun a => do
    match a.path? "output" with
    | none => throw .misuse
    | some output => return .decode (← a.onlyOperand) output (a.has "quiet")

def readPlan (ws : List String) : Reading :=
  ofArguments .plan ws fun a =>
    .ok (.plan ((a.value? "health").bind fun s => (Health.read s).toOption) (a.real? "latency") (a.real? "loss")
      (a.count? "data-shards") (a.count? "parity-shards")
      ((a.values "peer").filterMap fun s => (Candidate.read s).toOption) (a.has "json"))

def readSettings (ws : List String) : Reading := do
  let a ← Arguments.scan .settings {} ws
  let (request, files) ← match a.command with
    | none => pure (showSettings, [])
    | some ("show", ws) => ofArguments .bare ws fun _ => .ok showSettings
    | some ("path", ws) => ofArguments .bare ws fun _ => .ok settingsPath
    | some ("init", ws) => ofArguments .init ws fun a => .ok (.initSettings (a.has "force"))
    | some (_, ws) => throw (.helpOn ("config" :: ws))
  return (request, files ++ [a.value? "config"])

/-- A command has to be named. -/
def read (ws : List String) : Reading := do
  let a ← Arguments.scan .main {} ws
  let (request, files) ← match a.command with
    | some ("encode", ws) => readEncode ws
    | some ("decode", ws) => readDecode ws
    | some ("verify", ws) =>
      ofArguments .verify ws fun a => do return .verify (← a.onlyOperand) (!a.has "no-parity")
    | some ("repair", ws) => ofArguments .repair ws fun a => do return .repair (← a.onlyOperand)
    | some ("plan", ws) => readPlan ws
    | some ("config", ws) => readSettings ws
    | some (_, ws) => throw (.helpOn ws)
    | none => throw .misuse
  return (request, files ++ [a.value? "config"])

end Request

namespace Invocation

def defaultSettingsFile : String := "supernode.toml"

/-- The innermost settings file that is named counts, then that of the environment, which may be empty only if every
level names one. -/
def read (e : Environment) (ws : List String) : Except Interruption Invocation := do
  let (request, files) ← Request.read ws
  if e.configFile = some "" ∧ none ∈ files then throw .misuse
  return ⟨⟨((files.findSome? id).orElse fun _ => e.configFile).getD defaultSettingsFile⟩, request⟩

end Invocation

end ShardCoding

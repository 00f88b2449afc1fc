import ShardCoding.Decimal.Read
import ShardCoding.Network.Selection

/-!
# Peers as text

`id:score:latency` or `id:score:latency:health`; a peer without a health is of unknown health.
-/

namespace ShardCoding

/-- Why a text is not a peer. -/
inductive CandidateFault where
  | shape (text : String)
  | score (text : String) (fault : NumberFault)
  | latency (text : String) (fault : NumberFault)
  | health (message : String)
  deriving DecidableEq, Repr

/-- What is wrong, then why. -/
def CandidateFault.messages : CandidateFault → List String
  | shape s => [s!"expected id:score:latency_ms[:health], got '{s}'"]
  | score s f => [s!"invalid score '{s}'", f.message]
  | latency s f => [s!"invalid latency '{s}'", f.message]
  | health m => [m]

/-- The text between colons. -/
def colonParts (s : String) : List String :=
  let cs := s.toList
  let add (c : Char) : List (List Char) → List (List Char)
    | [] => [[c]]
    | p :: ps => if c = ':' then [] :: p :: ps else (c :: p) :: ps
  (cs.foldr add [[]]).map String.ofList

namespace Candidate

def readParts (id score latency : String) (health : Option String) : Except CandidateFault (Candidate Float) := do
  let score ← (readFloat score).mapError (.score score)
  let latency ← (readWord (Nat.pow 2 64) latency).mapError (.latency latency)
  let health ← match health with
    | none => pure .unknown
    | some h => (Health.read h).mapError .health
  return { id, score, latency, health }

def read (s : String) : Except CandidateFault (Candidate Float) :=
  match colonParts s with
  | [id, score, latency] => if id.isEmpty then .error (.shape s) else readParts id score latency none
  | [id, score, latency, health] => if id.isEmpty then .error (.shape s) else readParts id score latency (some health)
  | _ => .error (.shape s)

end Candidate

end ShardCoding

/-!
# The health of a network
-/

namespace ShardCoding

inductive Health where
  | healthy
  | degraded
  | unhealthy
  | unknown
  deriving DecidableEq, Repr, Inhabited

namespace Health

def text : Health → String
  | healthy => "healthy"
  | degraded => "degraded"
  | unhealthy => "unhealthy"
  | unknown => "unknown"

/-- The name of the case. -/
def caseName : Health → String
  | healthy => "Healthy"
  | degraded => "Degraded"
  | unhealthy => "Unhealthy"
  | unknown => "Unknown"

def all : List Health := [healthy, degraded, unhealthy, unknown]

def ofText? (s : String) : Option Health := all.find? (·.text = s)

/-- Upper-case ASCII letters count as lower-case ones; the message names the text in lower case. -/
def read (s : String) : Except String Health :=
  let lower := String.ofList (s.toList.map Char.toLower)
  match ofText? lower with
  | some h => .ok h
  | none => .error s!"unknown health status: {lower}"

end Health

end ShardCoding

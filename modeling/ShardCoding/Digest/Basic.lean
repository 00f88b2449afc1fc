import ShardCoding.GF256
import ShardCoding.Error

/-!
# Digests and their text

* `Digest` : 32 bytes;
* `hexEncode`, `hexDecode` : bytes as lower-case hexadecimal digits, and back from digits of either case;
* `DigestCache` : the digests of the shards last produced, by shard index.
-/

namespace ShardCoding

def digestSize : Nat := 32

structure Digest where
  bytes : Bytes
  length_bytes : bytes.length = digestSize
  deriving DecidableEq

namespace Digest

/-- The digest with the given bytes, if there are 32 of them. -/
def ofBytes? (b : Bytes) : Option Digest :=
  if h : b.length = digestSize then some ⟨b, h⟩ else none

end Digest

/-! ## Hexadecimal text -/

def hexDigit (n : UInt8) : Char :=
  if n < 10 then Char.ofNat (48 + n.toNat) else Char.ofNat (87 + n.toNat)

def hexEncode (b : Bytes) : String :=
  String.ofList (b.flatMap fun x => [hexDigit (x / 16), hexDigit (x % 16)])

/-- The value of an ASCII hexadecimal digit of either case. -/
def hexValue? (b : UInt8) : Option UInt8 :=
  if 48 ≤ b ∧ b ≤ 57 then some (b - 48)
  else if 97 ≤ b ∧ b ≤ 102 then some (b - 87)
  else if 65 ≤ b ∧ b ≤ 70 then some (b - 55)
  else none

/-- The bytes that pairs of digits spell; `position` is that of the first digit. -/
def hexPairs (position : Nat) : Bytes → Except HexError Bytes
  | [] => .ok []
  | [_] => .error .oddLength
  | hi :: lo :: rest =>
    match hexValue? hi, hexValue? lo with
    | none, _ => .error (.badDigit hi position)
    | some _, none => .error (.badDigit lo (position + 1))
    | some h, some l =>
      match hexPairs (position + 2) rest with
      | .ok bytes => .ok ((16 * h + l) :: bytes)
      | .error e => .error e

/-- An odd number of digits is noticed before any wrong digit. -/
def hexDecode (s : String) : Except HexError Bytes :=
  let digits := s.toUTF8.toList
  if digits.length % 2 = 1 then .error .oddLength else hexPairs 0 digits

/-! ## The digests last produced -/

/-- Digests in ascending order of their shard indices, one for each index. -/
structure DigestCache where
  entries : List (Nat × Digest) := []
  deriving DecidableEq

namespace DigestCache

def insertInto (i : Nat) (d : Digest) : List (Nat × Digest) → List (Nat × Digest)
  | [] => [(i, d)]
  | (j, e) :: rest =>
    if i < j then (i, d) :: (j, e) :: rest
    else if i = j then (i, d) :: rest
    else (j, e) :: insertInto i d rest

/-- The cache of the given digests; of two for one index the later counts. -/
def ofList (digests : List (Nat × Digest)) : DigestCache :=
  ⟨digests.foldl (fun entries (i, d) => insertInto i d entries) []⟩

/-- The digests of shards `0, 1, ...`. -/
def ofDigests (digests : List Digest) : DigestCache :=
  ofList (digests.zipIdx.map fun (d, i) => (i, d))

def get? (c : DigestCache) (i : Nat) : Option Digest :=
  (c.entries.find? (·.1 == i)).map (·.2)

def size (c : DigestCache) : Nat := c.entries.length

def isEmpty (c : DigestCache) : Bool := c.entries.isEmpty

end DigestCache

end ShardCoding

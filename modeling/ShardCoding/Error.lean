/-!
# What can go wrong

* `IoKind` : why a byte stream or a file operation failed;
* `HexError` : why a text is not a string of hexadecimal bytes;
* `Panic` : why a call does not return;
* `CodingError` : every refusal of the coding engine, by cause, and every panic, with its `message` and its
  `errorClass`.
-/

namespace ShardCoding

/-! ## Input and output -/

inductive IoKind where
  | notFound
  | alreadyExists
  | isADirectory
  | notADirectory
  | invalidInput
  | invalidFilename
  | invalidData
  | unexpectedEof
  | writeZero
  | brokenPipe
  | connectionReset
  | interrupted
  | permissionDenied
  | other
  deriving DecidableEq, Repr

namespace IoKind

def name : IoKind → String
  | notFound => "NotFound"
  | alreadyExists => "AlreadyExists"
  | isADirectory => "IsADirectory"
  | notADirectory => "NotADirectory"
  | invalidInput => "InvalidInput"
  | invalidFilename => "InvalidFilename"
  | invalidData => "InvalidData"
  | unexpectedEof => "UnexpectedEof"
  | writeZero => "WriteZero"
  | brokenPipe => "BrokenPipe"
  | connectionReset => "ConnectionReset"
  | interrupted => "Interrupted"
  | permissionDenied => "PermissionDenied"
  | other => "Other"

end IoKind

/-! ## Hexadecimal text -/

inductive HexError where
  | oddLength
  | badDigit (byte : UInt8) (position : Nat)
  deriving DecidableEq, Repr

/-! ## The coding engine -/

/-- Why a call does not return: a buffer that no allocation can make, or an access outside of one. -/
inductive Panic where
  | capacityOverflow
  | indexOutOfBounds
  deriving DecidableEq, Repr

/-- Why shard counts are refused. -/
inductive SchemeFault where
  | noData
  | noParity
  | tooMany (limit total : Nat)
  deriving DecidableEq, Repr

/-- Why an argument is refused. -/
inductive ArgumentFault where
  | notSquare (rows cols : Nat)
  | shapes (rows cols rows' cols' : Nat)
  | capacity (shardSize dataShards size : Nat)
  | listedTwice (index : Nat)
  | emptyChunk
  | overlap (overlap chunk : Nat)
  | indexCount (indices inputs : Nat)
  deriving DecidableEq, Repr

/-- Why a manifest is refused. -/
inductive ManifestFault where
  | malformed
  | version (found : Nat)
  | entryIndex (position index : Nat)
  | digestText (index : Nat) (cause : HexError)
  | digestLength (index size : Nat)
  deriving DecidableEq, Repr

inductive CodingError where
  | scheme (fault : SchemeFault)
  | insufficientShards (available required : Nat)
  | shardCount (expected actual : Nat)
  | shardSize (expected actual : Nat)
  | shardIndex (index max : Nat)
  | missingShard (index : Nat)
  | argument (fault : ArgumentFault)
  | divisionByZero
  | zeroInverse
  | singularMatrix
  | io (kind : IoKind)
  | manifest (fault : ManifestFault)
  /-- No refusal: the call unwinds, and lets go of its guard on the way, unless panics abort the program. -/
  | panicked (cause : Panic)
  deriving DecidableEq, Repr

/-- The broad class of a refusal; a panic is in none of theirs. -/
inductive ErrorClass where
  | configuration
  | argument
  | arithmetic
  | io
  | serialization
  | panic
  deriving DecidableEq, Repr

def CodingError.errorClass : CodingError → ErrorClass
  | scheme _ => .configuration
  | insufficientShards _ _ | shardCount _ _ | shardSize _ _ | shardIndex _ _ | missingShard _ | argument _ => .argument
  | divisionByZero | zeroInverse | singularMatrix => .arithmetic
  | io _ => .io
  | manifest _ => .serialization
  | panicked _ => .panic

def CodingError.panic? : CodingError → Option Panic
  | panicked cause => some cause
  | _ => none

/-! ## Wording -/

/-- A Latin-1 character between quotes as it is shown in messages: control characters, the quote and the backslash are
escaped, and so are the no-break space and the soft hyphen, which show nothing. -/
def quotedChar (c : Char) : String :=
  let hex := String.ofList (Nat.toDigits 16 c.toNat)
  let body :=
    if c = '\x00' then "\\0"
    else if c = '\t' then "\\t"
    else if c = '\n' then "\\n"
    else if c = '\r' then "\\r"
    else if c = '\'' then "\\'"
    else if c = '\\' then "\\\\"
    else if c.toNat < 0x20 ∨ (0x7f ≤ c.toNat ∧ c.toNat < 0xa1) ∨ c.toNat = 0xad then
      "\\u\x7b" ++ hex ++ "\x7d"
    else c.toString
  "'" ++ body ++ "'"

def HexError.message : HexError → String
  | oddLength => "Odd number of digits"
  | badDigit b i => s!"Invalid character {quotedChar (Char.ofNat b.toNat)} at position {i}"

def SchemeFault.message : SchemeFault → String
  | noData => "data_shards must be > 0"
  | noParity => "parity_shards must be > 0"
  | tooMany limit total => s!"total shards must be <= {limit}, got {total}"

def ArgumentFault.message : ArgumentFault → String
  | notSquare r c => s!"cannot invert a {r}x{c} matrix"
  | shapes r c h w => s!"cannot multiply {r}x{c} by {h}x{w}"
  | capacity s k n => s!"shard size {s} x {k} data shards cannot hold {n} bytes"
  | listedTwice i => s!"shard index {i} listed twice"
  | emptyChunk => "chunk_size must be > 0"
  | overlap o c => s!"overlap_size {o} must be smaller than chunk_size {c}"
  | indexCount p i => s!"{p} shard indices for {i} inputs"

def ManifestFault.message : ManifestFault → String
  | malformed => "not a manifest"
  | version v => s!"unsupported manifest version {v}"
  | entryIndex p i => s!"shard entry {p} has index {i}"
  | digestText i cause => s!"shard {i}: {cause.message}"
  | digestLength i size => s!"shard {i}: digest is not {size} bytes"

def Panic.message : Panic → String
  | capacityOverflow => "capacity overflow"
  | indexOutOfBounds => "index out of bounds"

def CodingError.message : CodingError → String
  | scheme f => s!"Configuration error: {f.message}"
  | insufficientShards a r => s!"Insufficient shards: have {a}, need {r}"
  | shardCount e a => s!"Shard count mismatch: expected {e}, got {a}"
  | shardSize e a => s!"Shard size mismatch: expected {e}, got {a}"
  | shardIndex i m => s!"Invalid shard index: {i} (max: {m})"
  | missingShard i => s!"Shard {i} is listed as present but has no data"
  | argument f => s!"Invalid argument: {f.message}"
  | divisionByZero => "Division by zero in GF(256)"
  | zeroInverse => "Cannot invert zero in GF(256)"
  | singularMatrix => "Matrix is not invertible"
  | io k => s!"I/O error: {k.name}"
  | manifest f => s!"Serialization error: {f.message}"
  | panicked p => p.message

end ShardCoding

import ShardCoding.Code.Basic

/-!
# Reconstruction

* `Code.checkCapacity` : the stated sizes fit together;
* `Code.select` : the first `k` listed indices, each in range and named once;
* `presentShard` : the shard of a selected slot;
* `Code.inverseFor` : the matrix that takes the selected shards back to the data shards, none for the data shards
  themselves in their order;
* `Code.decode` : the data from any `k` shards whose generator rows are independent.
-/

namespace ShardCoding

/-- The shard in slot `i`, which has to hold `size` bytes. -/
def presentShard (slots : Slots) (size i : Nat) : Except CodingError Bytes :=
  match slots[i]? with
  | some (some shard) => if shard.length = size then .ok shard else .error (.shardSize size shard.length)
  | _ => .error (.missingShard i)

/-- Every index is below `n`, and none stands twice in the list or in `seen`. -/
def checkIndices (n : Nat) (seen : List Nat) : List Nat → Except CodingError Unit
  | [] => .ok ()
  | i :: rest =>
    if n ≤ i then .error (.shardIndex i (n - 1))
    else if i ∈ seen then .error (.argument (.listedTwice i))
    else checkIndices n (i :: seen) rest

namespace Code

variable (code : Code)

/-- `k` shards of `shardSize` bytes hold `dataSize` bytes, and their sum fits in a word. -/
def checkCapacity (dataSize shardSize : Nat) : Except CodingError Unit :=
  let capacity := shardSize * code.scheme.data
  if wordLimit ≤ capacity ∨ capacity < dataSize then
    .error (.argument (.capacity shardSize code.scheme.data dataSize))
  else .ok ()

def checkSlotCount (slots : Slots) : Except CodingError Unit :=
  if slots.length = code.scheme.total then .ok ()
  else .error (.shardCount code.scheme.total slots.length)

/-- The first `k` entries of `present`. -/
def select (present : List Nat) : Except CodingError (List Nat) :=
  if present.length < code.scheme.data then
    .error (.insufficientShards present.length code.scheme.data)
  else
    let selected := present.take code.scheme.data
    match checkIndices code.scheme.total [] selected with
    | .error e => .error e
    | .ok () => .ok selected

/-- Nothing has to be solved for when the selection is `0, 1, ..., k - 1`. -/
def inverseFor (selected : List Nat) : Except CodingError (Option ByteMatrix) :=
  if selected = List.range code.scheme.data then .ok none
  else
    match code.generator.selectRows selected with
    | .error e => .error e
    | .ok m =>
      match m.invert with
      | .error e => .error e
      | .ok inverse => .ok (some inverse)

/-- The data shards, one after another. -/
def reconstruct (inverse : Option ByteMatrix) (size : Nat) (inputs : List Bytes) : Bytes :=
  match inverse with
  | none => inputs.flatten
  | some m => m.lines.flatMap fun row => combine size row inputs

/-- What `decode` yields, by the checks that come before it. -/
def decodeShards (slots : Slots) (present : List Nat) (dataSize shardSize : Nat) : Except CodingError Bytes := do
  code.checkSlotCount slots
  code.checkCapacity dataSize shardSize
  let selected ← code.select present
  let inputs ← selected.mapM (presentShard slots shardSize)
  let inverse ← code.inverseFor selected
  return (reconstruct inverse shardSize inputs).take dataSize

def decode (slots : Slots) (present : List Nat) (dataSize shardSize : Nat) : Traced Bytes := do
  let data ← Traced.guarded .shared do
    Traced.emit (.count .decodes 1)
    let data ← Traced.ofExcept (code.decodeShards slots present dataSize shardSize)
    Traced.emit (.count .bytesDecoded dataSize)
    Traced.emit (.time .decode)
    return data
  Traced.emit (.announce (.decoding {
    bytesProcessed := dataSize
    presentShards := present.length
    totalShards := code.scheme.total
    hadLoss := present.length < code.scheme.total }))
  return data

end Code

end ShardCoding

/-!
# Arguments

The grammar of a command's arguments: options with a long name and perhaps a letter, values of options behind a blank
or an equals sign, letters of flags in one word, operands, and the name of a command with arguments of its own. Behind
two dashes all arguments are operands.

* `OptionSpec`, `Grammar` : what a command takes;
* `Arguments` : what was given; `Arguments.scan` : the arguments that words make.
-/

namespace ShardCoding

structure OptionSpec where
  name : String
  letter : Option Char := none
  /-- The values that an option takes; a flag takes none. -/
  accepts : Option (String → Bool) := none
  repeatable : Bool := false

structure Grammar where
  options : List OptionSpec
  /-- How many operands there may be; none is empty. -/
  operands : Nat := 0
  commands : List String := []
  /-- Whether the version may be asked for. -/
  hasVersion : Bool := false

/-- What ends the reading of arguments. -/
inductive Interruption where
  | misuse
  | help
  | version
  deriving DecidableEq, Repr

structure Arguments where
  /-- The options given with their values, empty ones for flags, latest first. -/
  options : List (String × String) := []
  /-- Latest first. -/
  operands : List String := []
  /-- A command, and the words behind it. -/
  command : Option (String × List String) := none
  /-- An option whose value has to come next. -/
  pending : Option OptionSpec := none
  /-- Whether two dashes were met. -/
  operandsOnly : Bool := false

namespace Arguments

def has (a : Arguments) (name : String) : Bool := a.options.any (·.1 = name)

def value? (a : Arguments) (name : String) : Option String := (a.options.find? (·.1 = name)).map (·.2)

/-- All values of a repeatable option, in order. -/
def values (a : Arguments) (name : String) : List String :=
  (a.options.filterMap fun (n, v) => if n = name then some v else none).reverse

/-! ## Reading -/

def give (a : Arguments) (o : OptionSpec) (v : String) : Except Interruption Arguments :=
  if a.has o.name ∧ ¬ o.repeatable then .error .misuse
  else if o.accepts.all (· v) then .ok { a with options := (o.name, v) :: a.options, pending := none }
  else .error .misuse

/-- An option by name, with the value behind an equals sign, if any. -/
def long (g : Grammar) (a : Arguments) (name : String) (attached : Option String) : Except Interruption Arguments :=
  match g.options.find? (·.name = name) with
  | some o =>
    match o.accepts, attached with
    | none, none => a.give o ""
    | some _, some v => a.give o v
    | some _, none => .ok { a with pending := some o }
    | none, some _ => .error .misuse
  | none =>
    if attached.isSome then .error .misuse
    else if name = "help" then .error .help
    else if name = "version" ∧ g.hasVersion then .error .version
    else .error .misuse

/-- Options by letter; what stands behind the letter of one that takes a value is its value. -/
def letters (g : Grammar) (a : Arguments) : List Char → Except Interruption Arguments
  | [] => .ok a
  | c :: cs =>
    match g.options.find? (·.letter = some c) with
    | some o =>
      if o.accepts.isNone then
        match a.give o "" with
        | .ok a => letters g a cs
        | .error e => .error e
      else
        match cs with
        | [] => .ok { a with pending := some o }
        | '=' :: v => a.give o (String.ofList v)
        | v => a.give o (String.ofList v)
    | none =>
      if c = 'h' then .error .help
      else if c = 'V' ∧ g.hasVersion then .error .version
      else .error .misuse

def operand (g : Grammar) (a : Arguments) (word : String) : Except Interruption Arguments :=
  if a.operands.length < g.operands ∧ word ≠ "" then .ok { a with operands := word :: a.operands }
  else .error .misuse

/-- The name behind two dashes, and the value behind an equals sign. -/
def splitLong (cs : List Char) : String × Option String :=
  (String.ofList (cs.takeWhile (· ≠ '=')), ((cs.dropWhile (· ≠ '=')).tail?).map String.ofList)

/-- A word that is not the name of a command. -/
def word (g : Grammar) (a : Arguments) (w : String) : Except Interruption Arguments :=
  if a.operandsOnly then a.operand g w
  else
    match w.toList, a.pending with
    | ['-', '-'], none => .ok { a with operandsOnly := true }
    | '-' :: '-' :: cs, none => a.long g (splitLong cs).1 (splitLong cs).2
    | '-' :: c :: cs, none => a.letters g (c :: cs)
    | '-' :: _ :: _, some _ => .error .misuse
    | _, some o => a.give o w
    | _, none => a.operand g w

/-- The arguments that words make, up to the name of a command. -/
def scan (g : Grammar) (a : Arguments) : List String → Except Interruption Arguments
  | [] => if a.pending.isSome then .error .misuse else .ok a
  | w :: ws =>
    if ¬ a.operandsOnly ∧ a.pending.isNone ∧ w ∈ g.commands then .ok { a with command := some (w, ws) }
    else
      match a.word g w with
      | .ok a => scan g a ws
      | .error e => .error e

end Arguments

end ShardCoding

import ShardCoding.Command.Error
import ShardCoding.Files.Basic

/-!
# Commands

A command is a program over the files of `m` that ends in a report or a `CommandError`.

* `Command m` : such programs; `Command.file` : an operation on a file; `Command.ofExcept` : a result of the engine;
* `checkMark`, ... : the marks in reports.
-/

namespace ShardCoding

abbrev Command (m : Type → Type) := ExceptT CommandError m

namespace Command

variable {m : Type → Type} [Monad m] {α : Type}

/-- An operation on files, with the failure that its own failure makes. -/
def fileOr (failure : IoKind → CommandError) (x : m (Except IoKind α)) : Command m α :=
  ExceptT.mk do
    match ← x with
    | .ok a => return .ok a
    | .error kind => return .error (failure kind)

def file (action : FileAction) (path : Path) (x : m (Except IoKind α)) : Command m α :=
  fileOr (.file action path) x

/-- A result of the engine, with the failure that its refusal makes. -/
def ofExcept {ε : Type} (failure : ε → CommandError) (x : Except ε α) : Command m α :=
  ExceptT.mk (pure (x.mapError failure))

end Command

/-! ## Marks in reports -/

def checkMark : String := "\u2713"

def crossMark : String := "\u2717"

def warnMark : String := "!"

def missingMark : String := "\u2205"

/-- The line under headings. -/
def ruleText : String := String.ofList (List.replicate 32 '\u2500')

end ShardCoding

import Pseudocode.Operator
import Pseudocode.Record
import Pseudocode.Table

/-!
# The machine

A machine runs programs. Its state is the table of cells, the lines shown so far, and notes of
what it did. A run changes the state and ends with a value or a fault; a loop that goes round more
often than it is allowed to ends with neither.

## Main definitions

* `Note`: what the machine did.
* `Machine`: the state of a machine.
* `Fault`: why a run stops early.
* `Run`: a computation on the state.
* `Run.value`, `Run.store`, `Run.print`: the access to cells and to the output.
* `Run.rounds`: repeats a computation and counts its rounds.
-/

namespace Pseudocode

/-- What the machine did. -/
inductive Note where
  /-- It starts an assignment to the cell of this name. -/
  | assignment (name : String)
  /-- It starts a condition. -/
  | ifThen
  /-- It starts a choice with so many arms. -/
  | choice (arms : Nat)
  /-- It starts a loop that tests first. -/
  | whileDo
  /-- It starts a loop that tests last. -/
  | repeatUntil
  /-- It starts a counted loop. -/
  | forLoop
  /-- It starts to show so many cells. -/
  | read (cells : Nat)
  /-- It starts to show so many items. -/
  | write (items : Nat)
  /-- A loop that opens with this keyword ended after so many rounds. -/
  | finished (loop : Keyword) (rounds : Nat)
deriving DecidableEq

namespace Note

/-- What the log tells about a note. -/
def text : Note → String
  | assignment name => "Executing Assignment to `" ++ name ++ "`"
  | ifThen => "Executing If"
  | choice arms => "Executing RichIf with " ++ Decimal.ofNat arms ++ " arms"
  | whileDo => "Executing While"
  | repeatUntil => "Executing RepeatUntil"
  | forLoop => "Executing For"
  | read cells => "Executing Read of " ++ Decimal.ofNat cells ++ " cells"
  | write items => "Executing Write of " ++ Decimal.ofNat items ++ " items"
  | finished loop rounds =>
    loop.text ++ " finished after " ++ Decimal.ofNat rounds ++ " iterations"

/-- The log record of a note. -/
def record (n : Note) : Record where
  level :=
    match n with
    | finished _ _ => .debug
    | _ => .trace
  source := .machine
  message := n.text

end Note

/-- Why a run stops early. -/
inductive Fault where
  /-- The right operand of the division written here is zero. -/
  | divisionByZero (span : Span)
  /-- There is no cell with this index. -/
  | noCell (id : Nat)
deriving DecidableEq

/-- The message of a fault. -/
def Fault.message : Fault → String
  | divisionByZero _ => "Division by zero"
  | noCell id => "There is no cell " ++ Decimal.ofNat id

/-- The state of a machine. -/
structure Machine where
  /-- The cells. -/
  table : Table
  /-- The lines shown so far. -/
  lines : Array String := #[]
  /-- What the machine did so far. -/
  notes : Array Note := #[]
deriving DecidableEq

namespace Machine

/-- The log of the machine. -/
def records (m : Machine) : List Record :=
  m.notes.toList.map Note.record

end Machine

/-- A computation on the state of a machine. It ends with a value or a fault and leaves a state, or
it does not end within its bounds. -/
abbrev Run (α : Type) : Type :=
  ExceptT Fault (StateT Machine Option) α

namespace Run

/-- The cell at an index. -/
def cell (id : Nat) : Run Cell := do
  match (← get).table.get? id with
  | some c => pure c
  | none => throw (.noCell id)

/-- The value of the cell at an index. -/
def value (id : Nat) : Run Int64 := do
  pure (← cell id).value

/-- Gives the cell at an index a value. -/
def store (id : Nat) (v : Int64) : Run Unit := do
  discard (cell id)
  modify fun m ↦ { m with table := m.table.store id v }

/-- Shows a line. -/
def print (line : String) : Run Unit :=
  modify fun m ↦ { m with lines := m.lines.push line }

/-- Adds a note. -/
def note (n : Note) : Run Unit :=
  modify fun m ↦ { m with notes := m.notes.push n }

/-- Does not end. -/
def unfinished {α : Type} : Run α := fun _ ↦ none

/-- Repeats `round` as long as it answers `true`, and counts these rounds on from `count`. It ends
only if `round` answers `false` before the bound is used up. -/
def rounds (round : Run Bool) : (bound : Nat) → (count : Nat) → Run Nat
  | 0, _ => unfinished
  | bound + 1, count => do
    if ← round then rounds round bound (count + 1) else pure count

end Run

end Pseudocode

import Pseudocode.Grammar.SyntaxError
import Pseudocode.Record
import Pseudocode.Table

/-!
# The trail of a reading

While it reads, the reader leaves a trail: which symbols it met, which instructions it understood,
and which errors made it give up. Everything else that a reading is asked for is a view of its
trail: the cells that its symbols get, the diagnostics, and the log.

## Main definitions

* `Event`: one step of a trail.
* `Trail.table`: the cells of the symbols, numbered in the order in which they were first met.
* `Trail.diagnostics`: the errors, each told once.
* `Trail.records`: the log.
-/

namespace Pseudocode

/-- What the reader does. -/
inductive Event where
  /-- A symbol is met. -/
  | met (s : Symbol)
  /-- An instruction with a root of this name is understood. -/
  | understood (name : String)
  /-- An instruction is given up. -/
  | discarded (e : SyntaxError)
  /-- The program is given up. -/
  | rejected (e : SyntaxError)
deriving DecidableEq

namespace Event

/-- The symbol that is met. -/
def symbol? : Event → Option Symbol
  | met s => some s
  | _ => none

/-- The error that makes the reader give up. -/
def error? : Event → Option SyntaxError
  | discarded e => some e
  | rejected e => some e
  | _ => none

end Event

namespace Trail

/-- One trail behind the other. The first one is not walked over if the second is empty. -/
def concat : List Event → List Event → List Event
  | first, [] => first
  | first, second => first ++ second

@[simp]
theorem concat_eq_append (first second : List Event) : concat first second = first ++ second := by
  cases second <;> simp [concat]

/-- The symbols along a trail, in order. -/
def symbols (trail : List Event) : List Symbol :=
  trail.filterMap Event.symbol?

/-- The cells of the symbols along a trail, added to a table. -/
def intern (t : Table) (trail : List Event) : Table :=
  t.internAll (symbols trail)

/-- The cells of the symbols along a trail. -/
def table (trail : List Event) : Table :=
  intern {} trail

/-- Adds an error to a list of diagnostics, unless it is the last one already: an error that makes
an inner and then an outer part be given up is told once. -/
def addDiagnostic (diagnostics : List SyntaxError) (e : SyntaxError) : List SyntaxError :=
  if diagnostics.getLast? = some e then diagnostics else diagnostics ++ [e]

/-- The errors along a trail, each told once. -/
def diagnostics (trail : List Event) : List SyntaxError :=
  (trail.filterMap Event.error?).foldl addDiagnostic []

/-- The records of one event, when the table holds the cells of the symbols met before. -/
def record? (t : Table) : Event → Option Record
  | .met s =>
    if t.contains s.text then
      none
    else
      some {
        level := .trace
        source := .table
        message := "Interned " ++ s.cell.kind.text ++ " `" ++ s.text ++ "` as cell " ++
          Decimal.ofNat t.size }
  | .understood name =>
    some { level := .trace, source := .reader, message := "Parsed instruction " ++ name }
  | .discarded e =>
    some {
      level := .debug
      source := .reader
      message := e.message ++ " => instruction discarded, abstract tree emptied" }
  | .rejected _ => none

/-- The log of a trail that starts with the cells of a table. -/
def recordsFrom (t : Table) : List Event → List Record
  | [] => []
  | e :: trail => (record? t e).toList ++ recordsFrom (intern t [e]) trail

/-- The log of a trail. -/
def records (trail : List Event) : List Record :=
  recordsFrom {} trail

@[simp]
theorem symbols_append (a b : List Event) : symbols (a ++ b) = symbols a ++ symbols b :=
  List.filterMap_append

theorem intern_append (t : Table) (a b : List Event) :
    intern t (a ++ b) = intern (intern t a) b := by
  simp [intern, Table.internAll]

theorem recordsFrom_append (t : Table) (a b : List Event) :
    recordsFrom t (a ++ b) = recordsFrom t a ++ recordsFrom (intern t a) b := by
  induction a generalizing t with
  | nil => rfl
  | cons e a ih =>
    have h : intern t (e :: a) = intern (intern t [e]) a := intern_append t [e] a
    simp [recordsFrom, ih, h]

theorem source_of_record? {t : Table} {x : Event} {r : Record} (h : record? t x = some r) :
    r.source = .table ∨ r.source = .reader := by
  cases x with
  | met s =>
    rw [record?] at h
    split at h
    · cases h
    · cases h
      exact .inl rfl
  | understood name | discarded e =>
    cases h
    exact .inr rfl
  | rejected e => cases h

/-- The log of a trail is kept by the table and by the reader. -/
theorem source_of_mem_recordsFrom (t : Table) (trail : List Event) :
    ∀ r ∈ recordsFrom t trail, r.source = .table ∨ r.source = .reader := by
  induction trail generalizing t with
  | nil => exact fun r hr ↦ absurd hr List.not_mem_nil
  | cons x trail ih =>
    intro r hr
    rcases List.mem_append.1 hr with hr | hr
    · exact source_of_record? (Option.mem_toList.1 hr)
    · exact ih _ r hr

end Trail

end Pseudocode

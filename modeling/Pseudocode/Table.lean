import Pseudocode.Text.Decimal

/-!
# Tables of cells

A running program keeps its values in cells. There is one cell for each distinct text: a variable
goes by its name and an integer literal by its digits. Interning a symbol finds its cell, or makes
one at the end of the table, so a cell is known by its index for ever.

## Main definitions

* `Symbol`: a variable or an integer literal, as a program spells it.
* `Cell`: a value under a name.
* `Table`: cells in the order of their creation.
* `Table.indexOf`, `Table.find?`: the index of the cell with a given name.
* `Table.intern`: makes sure that a symbol has its cell.
* `Table.store`: gives a cell a value.
* `Table.display`: the table as it is shown to the user.

## Main results

* `Table.indexOf_intern_self`: a symbol gets the index that was told before it was interned.
* `Table.indexOf_intern_of_mem`: interning moves no cell.
* `Table.get?_store`: a store changes the cell at its index and no other.
-/

namespace Pseudocode

/-- What a cell was made for. -/
inductive Cell.Kind where
  | var
  | integer
deriving DecidableEq

/-- How a kind of cell is named to the user. -/
def Cell.Kind.text : Cell.Kind → String
  | var => "variable"
  | integer => "integer"

/-- A value under a name. -/
structure Cell where
  /-- The name of the variable, or the digits of the literal. -/
  name : String
  /-- What the cell was made for. -/
  kind : Cell.Kind
  /-- The current value. -/
  value : Int64
  /-- Whether the cell was ever given a value. Literals have theirs from the start. -/
  defined : Bool
deriving DecidableEq

/-- A variable or an integer literal, as a program spells it. -/
inductive Symbol where
  /-- A variable. -/
  | var (name : String)
  /-- An integer literal and the number it stands for. -/
  | literal (digits : String) (value : Int64)
deriving DecidableEq

namespace Symbol

/-- The text by which the symbol is known. -/
def text : Symbol → String
  | var name => name
  | literal digits _ => digits

/-- The cell that is made for the symbol: a variable is zero and undefined at first. -/
def cell : Symbol → Cell
  | var name => { name, kind := .var, value := 0, defined := false }
  | literal digits value => { name := digits, kind := .integer, value, defined := true }

@[simp]
theorem cell_name (s : Symbol) : s.cell.name = s.text := by
  cases s <;> rfl

end Symbol

/-- Gives a cell a value. -/
def Cell.store (c : Cell) (v : Int64) : Cell :=
  { c with value := v, defined := true }

/-- Cells in the order of their creation. -/
structure Table where
  /-- The cells; a cell is known by its index. -/
  cells : Array Cell := #[]
deriving DecidableEq, Inhabited

namespace Table

/-- The number of cells. -/
def size (t : Table) : Nat :=
  t.cells.size

/-- The cell at an index. -/
def get? (t : Table) (id : Nat) : Option Cell :=
  t.cells[id]?

/-- The index of the first cell with this name, or the size of the table if there is none. -/
def indexOf (t : Table) (name : String) : Nat :=
  t.cells.findIdx (·.name == name)

/-- The index of the first cell with this name, if there is one. -/
def find? (t : Table) (name : String) : Option Nat :=
  t.cells.findIdx? (·.name == name)

/-- Whether a cell has this name. -/
def contains (t : Table) (name : String) : Bool :=
  t.cells.any (·.name == name)

/-- Adds a cell for a symbol, unless its text is the name of a cell already. -/
def intern (t : Table) (s : Symbol) : Table :=
  if t.contains s.text then t else { cells := t.cells.push s.cell }

/-- Interns symbols from left to right. -/
def internAll (t : Table) (symbols : List Symbol) : Table :=
  symbols.foldl intern t

/-- Gives the cell at an index a value; without such a cell nothing changes. -/
def store (t : Table) (id : Nat) (v : Int64) : Table :=
  { cells := t.cells.modify id (·.store v) }

/-! ### The table as text -/

/-- Fills a text with spaces on the left up to a width. -/
def padLeft (width : Nat) (s : String) : String :=
  String.ofList (List.replicate (width - s.length) ' ') ++ s

/-- Fills a text with spaces on the right up to a width. -/
def padRight (width : Nat) (s : String) : String :=
  s ++ String.ofList (List.replicate (width - s.length) ' ')

/-- The line of one cell: index, kind, name and value in columns. -/
def row (id : Nat) (c : Cell) : String :=
  "  [" ++ padLeft 3 (Decimal.ofNat id) ++ "] " ++ padRight 9 c.kind.text ++ " " ++
    padRight 16 c.name ++ " " ++ (if c.defined then Decimal.ofInt64 c.value else "undefined") ++
    "\n"

/-- A heading with the number of cells, then one line for each cell in order. -/
def display (t : Table) : String :=
  "Symbol table (" ++ Decimal.ofNat t.size ++ " cells):\n" ++
    String.join (t.cells.toList.mapIdx row)

/-! ### Interning -/

theorem contains_eq_true_iff {t : Table} {name : String} :
    t.contains name = true ↔ ∃ c ∈ t.cells, c.name = name := by
  rw [contains, Array.any_eq_true']
  simp only [beq_iff_eq]

theorem contains_intern_self (t : Table) (s : Symbol) : (t.intern s).contains s.text = true := by
  unfold intern
  split
  · assumption
  · simp [contains_eq_true_iff]

theorem indexOf_lt_size_iff {t : Table} {name : String} :
    t.indexOf name < t.size ↔ t.contains name = true := by
  rw [indexOf, size, Array.findIdx_lt_size, contains_eq_true_iff]
  simp only [beq_iff_eq]

/-- A cell is found exactly at the index that `indexOf` tells. -/
theorem find?_eq_some_iff {t : Table} {name : String} {id : Nat} :
    t.find? name = some id ↔ id < t.size ∧ t.indexOf name = id :=
  Array.findIdx?_eq_some_iff_findIdx_eq

/-- Interning moves no cell. -/
theorem indexOf_intern_of_mem {t : Table} {name : String} (s : Symbol)
    (h : t.contains name = true) : (t.intern s).indexOf name = t.indexOf name := by
  unfold intern
  split
  · rfl
  · have h' := indexOf_lt_size_iff.2 h
    simp only [indexOf, size] at h' ⊢
    rw [Array.findIdx_push, if_pos h']

/-- A symbol gets the index that `indexOf` tells before it is interned. -/
theorem indexOf_intern_self (t : Table) (s : Symbol) :
    (t.intern s).indexOf s.text = t.indexOf s.text := by
  by_cases h : t.contains s.text = true
  · exact indexOf_intern_of_mem s h
  · have hle : ¬ t.indexOf s.text < t.size := fun hlt ↦ h (indexOf_lt_size_iff.1 hlt)
    have heq : t.indexOf s.text = t.size :=
      Nat.le_antisymm Array.findIdx_le_size (Nat.le_of_not_lt hle)
    simp only [intern, if_neg h]
    simp only [indexOf, size] at hle heq ⊢
    rw [Array.findIdx_push, if_neg hle]
    simp [heq]

/-! ### Storing -/

@[simp]
theorem size_store (t : Table) (id : Nat) (v : Int64) : (t.store id v).size = t.size :=
  Array.size_modify

theorem get?_store (t : Table) (id id' : Nat) (v : Int64) :
    (t.store id v).get? id' = (t.get? id').map fun c ↦ if id = id' then c.store v else c := by
  unfold store get?
  rw [Array.getElem?_modify]
  split
  · rfl
  · simp

end Table

end Pseudocode

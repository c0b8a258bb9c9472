import Pseudocode.Text.Decimal

/-!
# Locations in a program text

A location is a place between two characters of a text. It is kept in three ways at once: as a
byte offset into the UTF-8 form of the text, as a line number, and as a column counted in code
points. Walking over a character advances all three, so the location of a place is a function of
the characters before it.

## Main definitions

* `Location`: offset, line and column, all counted from zero.
* `Location.advance`: the location behind one character.
* `Location.after`: the location behind a whole piece of text.

## Main results

* `Location.after_append`: text may be walked over piece by piece.
* `Location.offset_after`: the offset grows by the number of bytes walked over.
-/

namespace Pseudocode

/-- A place in a text. The order is lexicographic: offset, then line, then column. -/
structure Location where
  /-- Number of bytes before the place. -/
  offset : Nat := 0
  /-- Number of line breaks before the place. -/
  line : Nat := 0
  /-- Number of code points between the last line break and the place. -/
  column : Nat := 0
deriving DecidableEq, Ord, Inhabited

namespace Location

/-- The location behind the character `c`, which opens a new line if it is a line break. -/
def advance (l : Location) (c : Char) : Location :=
  if c = '\n' then
    { offset := l.offset + c.utf8Size, line := l.line + 1, column := 0 }
  else
    { offset := l.offset + c.utf8Size, line := l.line, column := l.column + 1 }

/-- The location behind the characters of `text`. -/
def after (l : Location) (text : List Char) : Location :=
  text.foldl advance l

/-- Line and column as people count them, from one. -/
def display (l : Location) : String :=
  Decimal.ofNat (l.line + 1) ++ ":" ++ Decimal.ofNat (l.column + 1)

/-- The same in words, as messages start. -/
def inWords (l : Location) : String :=
  "Line " ++ Decimal.ofNat (l.line + 1) ++ ", Column " ++ Decimal.ofNat (l.column + 1)

/-! ### Walking over text -/

@[simp]
theorem after_nil (l : Location) : l.after [] = l := rfl

@[simp]
theorem after_cons (l : Location) (c : Char) (text : List Char) :
    l.after (c :: text) = (l.advance c).after text := rfl

@[simp]
theorem after_append (l : Location) (s t : List Char) :
    l.after (s ++ t) = (l.after s).after t :=
  List.foldl_append

theorem offset_advance (l : Location) (c : Char) :
    (l.advance c).offset = l.offset + c.utf8Size := by
  unfold advance
  split <;> rfl

/-- Every character takes at least one byte, so a step moves the offset. -/
theorem offset_lt_advance (l : Location) (c : Char) : l.offset < (l.advance c).offset := by
  have := c.utf8Size_pos
  rw [offset_advance]
  omega

theorem offset_after (l : Location) (text : List Char) :
    (l.after text).offset = l.offset + (String.ofList text).utf8ByteSize := by
  induction text generalizing l with
  | nil => rfl
  | cons c text ih =>
    rw [after_cons, ih, offset_advance, String.ofList_cons, String.utf8ByteSize_append,
      String.utf8ByteSize_singleton, Nat.add_assoc]

/-- Walking never moves the offset back. -/
theorem offset_le_after (l : Location) (text : List Char) : l.offset ≤ (l.after text).offset := by
  rw [offset_after]
  exact Nat.le_add_right ..

end Location

end Pseudocode

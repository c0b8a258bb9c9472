import Pseudocode.Report.Style
import Pseudocode.Span
import Pseudocode.Text.Blank
import Pseudocode.Text.Decimal
import Pseudocode.Text.Lines

/-!
# Excerpts of the program text

A message about a place in a program shows the line of that place with its number, a caret under
the character in question, tildes under the bytes behind it, and the lines before and after.

## Main definitions

* `Excerpt`: the lines to show and where the caret goes.
* `Excerpt.ofSpan`: the excerpt of a text around a span.
* `Excerpt.render`: the excerpt as text.
-/

namespace Pseudocode

/-- The lines around a place in a text. -/
structure Excerpt where
  /-- The number of the line of the place, from one. -/
  number : Nat
  /-- The line before, unless it is blank or missing. -/
  before? : Option String
  /-- The line of the place. -/
  primary : String
  /-- The line after. -/
  after? : Option String
  /-- How many characters stand before the caret. -/
  column : Nat
  /-- How many tildes follow the caret. -/
  tildes : Nat
deriving DecidableEq

namespace Excerpt

/-- The excerpt of a text around a span. The place may lie behind the last line break, where there
is no line; it is shown as an empty one. -/
def ofSpan (source : String) (span : Span) : Excerpt :=
  let lines := Text.lines source
  let line := span.start.line
  { number := line + 1
    before? :=
      if line = 0 then none
      else (lines[line - 1]?).filter fun s ↦ !Text.isAllBlank s.toList
    primary := (lines[line]?).getD ""
    after? := lines[line + 1]?
    column := span.start.column
    tildes := span.length - 1 }

/-- A number of equal characters. -/
def repeated (n : Nat) (c : Char) : String :=
  String.ofList (List.replicate n c)

/-- The bar between the margin and the text. -/
def bar (paint : Painter) : String :=
  " " ++ paint .boldBlue " | "

/-- A line with an empty margin. -/
def unnumbered (e : Excerpt) (paint : Painter) (text : String) : String :=
  repeated (Decimal.ofNat e.number).length ' ' ++ bar paint ++ text ++ "\n"

/-- A line with its number in the margin. -/
def numbered (e : Excerpt) (paint : Painter) (text : String) : String :=
  paint .boldBlue (Decimal.ofNat e.number) ++ bar paint ++ text ++ "\n"

/-- The caret and the tildes, and perhaps a hint behind them. -/
def marker (e : Excerpt) (paint : Painter) (hint? : Option String) : String :=
  let hint :=
    match hint? with
    | some hint => paint .boldRed ("hint: " ++ hint)
    | none => paint .bold ""
  repeated e.column ' ' ++ paint .boldRed "^" ++
    paint .red (repeated e.tildes '~') ++ " " ++ hint

/-- The lines of the excerpt, with the caret under the line of the place. -/
def render (e : Excerpt) (paint : Painter) (hint? : Option String) : String :=
  let around (line? : Option String) : String :=
    match line? with
    | some line => e.unnumbered paint line
    | none => ""
  around e.before? ++ e.numbered paint e.primary ++
    e.unnumbered paint (e.marker paint hint?) ++ around e.after?

end Excerpt

end Pseudocode

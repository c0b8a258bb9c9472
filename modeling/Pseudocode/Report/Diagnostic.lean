import Pseudocode.Grammar.SyntaxError
import Pseudocode.Machine
import Pseudocode.Report.Excerpt
import Pseudocode.Token.Scan

/-!
# Diagnostics

A diagnostic is a message about a place in a program, shown with an excerpt of the program and the
name of its file.

## Main definitions

* `Diagnostic`: a message, its place, and perhaps a label and a hint.
* `Diagnostic.render`: the diagnostic as text.
* `Diagnostic.ofLexical`, `Diagnostic.ofSyntax`, `Diagnostic.ofDivision`: the diagnostics of the
  three kinds of errors.
-/

namespace Pseudocode

/-- A message about a place in a program. -/
structure Diagnostic where
  /-- What the message is about, for messages that do not tell themselves. -/
  label? : Option String := none
  /-- The message. -/
  message : String
  /-- The place. -/
  span : Span
  /-- A hint to show next to the place. -/
  hint? : Option String := none

namespace Diagnostic

/-- The diagnostic of a flawed token points at its first character. -/
def ofLexical (e : LexicalError) : Diagnostic :=
  { message := e.message, span := e.location.point }

/-- The diagnostic of a syntax error points at the offending token. -/
def ofSyntax (e : SyntaxError) : Diagnostic :=
  { message := e.message, span := e.span }

/-- The diagnostic of a division by zero points at the operator. -/
def ofDivision (span : Span) : Diagnostic :=
  { label? := some "error"
    message := (Fault.divisionByZero span).message
    span
    hint? := some "the right-hand side evaluated to 0" }

/-- A label and a message on a line. -/
def titled (paint : Painter) (label message : String) : String :=
  paint .boldRed label ++ ": " ++ paint .bold message ++ "\n"

/-- The first line. -/
def title (d : Diagnostic) (paint : Painter) : String :=
  match d.label? with
  | some label => titled paint label d.message
  | none => paint .boldRed d.message ++ "\n"

/-- The diagnostic as text: the message, the excerpt, and where that is. -/
def render (d : Diagnostic) (paint : Painter) (path source : String) : String :=
  d.title paint ++ "\n" ++ (Excerpt.ofSpan source d.span).render paint d.hint? ++ "\n" ++
    "In " ++ path ++ ":" ++ d.span.start.display ++ "\n\n"

end Diagnostic

end Pseudocode

import Pseudocode.Evaluation
import Pseudocode.Grammar.Program
import Pseudocode.Path
import Pseudocode.Report.Diagnostic
import Pseudocode.Settings

/-!
# What the command line answers

The command line reads the settings next to the program, reads the program, and runs it only if
nothing is wrong with it. What it prints, and how it exits, is a function of what the arguments ask
for and of the two files. How arguments and settings are read and how text is styled is not its own
business: requests come read, and the reader of settings and the painter are handed to it.

## Main definitions

* `Entry`: what a path leads to.
* `Answer`: exit code and printed text.
* `Invocation`, `Request`: what the arguments ask for.
* `Check`: a program text with all its errors.
* `Invocation.answer`: the answer to a program that is to be run.
* `Request.answer`: the answer to any request.
-/

namespace Pseudocode

/-- What a path leads to. -/
inductive Entry where
  /-- Nothing. -/
  | missing
  /-- A directory. -/
  | directory
  /-- Nothing, because the path goes on behind a file as if that were a directory. -/
  | behindFile
  /-- Nothing, because no file can have so long a name. -/
  | nameTooLong
  /-- A file with these bytes. -/
  | file (bytes : ByteArray)

/-- What the command line leaves behind. -/
structure Answer where
  /-- The exit code. -/
  exit : UInt32
  /-- What goes to the standard output. -/
  output : String := ""
  /-- What goes to the standard error output. -/
  errors : String := ""
deriving DecidableEq

namespace Answer

/-- The exit code for a program with errors. -/
def rejected : UInt32 := 1

/-- The exit code for a run that stops with a fault. -/
def faulted : UInt32 := 2

/-- The exit code for a file that cannot be read. -/
def unreadable : UInt32 := 3

end Answer

/-- A file to run, and how. -/
structure Invocation where
  /-- The path of the program. -/
  file : String
  /-- Whether to log everything. -/
  verbose : Bool := false
  /-- Whether to show the table when the program has run. -/
  showTable : Bool := false
deriving DecidableEq

/-- What the arguments ask for. -/
inductive Request where
  /-- To run a program. -/
  | run (i : Invocation)
  /-- To be told something about the command line itself. -/
  | reply (a : Answer)
deriving DecidableEq

/-! ### Checking a program -/

/-- A program text with all its errors. -/
structure Check where
  /-- The errors of single tokens. -/
  lexical : List LexicalError
  /-- The errors of the grammar. -/
  diagnostics : List SyntaxError
  /-- The trail of the reader. -/
  trail : List Event
  /-- The program and its cells, if the grammar accepts it. -/
  program? : Option (Tree Nat × Table)

namespace Check

/-- Checks a program text. Errors of single tokens do not keep the reader from going on. -/
def ofSource (source : String) : Check :=
  let scan := Scan.ofSource source
  let read := (Reading.ofTokens scan.tokens).program
  { lexical := scan.errors
    diagnostics := read.2.diagnostics
    trail := read.2.trail
    program? := read.1.toOption.map fun tree ↦ (read.2.resolve tree, read.2.table) }

/-- The number of errors. -/
def count (c : Check) : Nat :=
  c.lexical.length + c.diagnostics.length

/-- The program, if nothing is wrong with it. -/
def accepted? (c : Check) : Option (Tree Nat × Table) :=
  if c.lexical.isEmpty then c.program? else none

end Check

/-! ### Running a program -/

/-- How an answer is printed: in which colours, and with the log or without. -/
structure Display where
  /-- How texts are written in styles. -/
  paint : Painter
  /-- Whether to print the log. -/
  verbose : Bool

namespace Display

/-- The log, if it is to be printed. -/
def log (d : Display) (records : List Record) : String :=
  if d.verbose then String.join (records.map fun r ↦ r.line ++ "\n") else ""

/-- A message about a file that cannot be used. -/
def fileError (d : Display) (message : String) : String :=
  Diagnostic.titled d.paint "error" message

/-- All errors of a program, with the log of the reader where it belongs: the reader starts when the
errors of single tokens are known. -/
def check (d : Display) (path source : String) (c : Check) : String :=
  let render (x : Diagnostic) : String := x.render d.paint path source
  let total :=
    if 1 < c.count then
      let message := Decimal.ofNat c.count ++ " errors found, the program was not run"
      d.paint .boldRed message ++ "\n"
    else ""
  String.join (c.lexical.map fun e ↦ render (.ofLexical e)) ++ d.log (Trail.records c.trail) ++
    String.join (c.diagnostics.map fun e ↦ render (.ofSyntax e)) ++ total

/-- A fault. -/
def fault (d : Display) (path source : String) : Fault → String
  | .divisionByZero span => (Diagnostic.ofDivision span).render d.paint path source
  | .noCell id => Diagnostic.titled d.paint "error" (Fault.noCell id).message

end Display

/-- Checks a program and runs it if nothing is wrong with it, with loops of at most `bound` rounds.
There is no answer if a loop goes on longer. -/
def Check.answer (c : Check) (bound : Nat) (d : Display) (showTable : Bool)
    (path source : String) : Option Answer :=
  let errors := d.check path source c
  match c.accepted? with
  | none => some { exit := Answer.rejected, errors }
  | some (tree, table) => do
    let ready : Record :=
      { level := .debug
        source := .commandLine
        message := "Parsed program with " ++ Decimal.ofNat table.size ++ " cells" }
    let (result, m) ← tree.run bound { table }
    let output := String.join (m.lines.toList.map (· ++ "\n")) ++
      if showTable then m.table.display else ""
    let errors := errors ++ d.log [ready] ++ d.log m.records
    match result with
    | .ok _ => some { exit := 0, output, errors }
    | .error fault =>
      some { exit := Answer.faulted, output, errors := errors ++ d.fault path source fault }

/-! ### Files -/

/-- Why bytes are no text. -/
def notText : String := "stream did not contain valid UTF-8"

/-- The text of an entry, or why there is none. -/
def Entry.text : Entry → Except String String
  | missing => .error "No such file or directory (os error 2)"
  | directory => .error "Is a directory (os error 21)"
  | behindFile => .error "Not a directory (os error 20)"
  | nameTooLong => .error "File name too long (os error 36)"
  | file bytes =>
    match String.fromUTF8? bytes with
    | some text => .ok text
    | none => .error notText

/-- The settings that an entry holds, or what is wrong with it. Without a file there are the usual
settings. -/
def Entry.settings (read : Settings.Reader) (path : String) : Entry → Except String Settings
  | file bytes =>
    match String.fromUTF8? bytes with
    | none => .error ("Failed to read configuration " ++ path ++ ": " ++ notText)
    | some text =>
      (read text).mapError fun reason ↦ "Invalid configuration in " ++ path ++ ": " ++ reason
  | _ => .ok {}

namespace Invocation

/-- Where the settings for a program are. -/
def settingsPath (i : Invocation) : String :=
  Path.sibling i.file Settings.fileName

/-- What the log tells before anything else. -/
def opening (settings : Settings) : List Record :=
  [{ level := .info, source := .log, message := "Logger installed at level TRACE" },
    { level := .debug, source := .commandLine, message := "Configuration: " ++ settings.display }]

/-- The answer to a program that is to be run, given what stands at the path of its settings and at
its own path. -/
def answer (i : Invocation) (read : Settings.Reader) (paint : Painter) (bound : Nat)
    (settings program : Entry) : Option Answer :=
  match settings.settings read i.settingsPath with
  | .error message =>
    some { exit := Answer.unreadable, errors := Diagnostic.titled paint "error" message }
  | .ok settings =>
    let d : Display := { paint, verbose := i.verbose || settings.debug }
    let start := d.log (opening settings)
    match program.text with
    | .error reason =>
      let message := "Failed to read " ++ i.file ++ ": " ++ reason
      some { exit := Answer.unreadable, errors := start ++ d.fileError message }
    | .ok source => do
      let a ← (Check.ofSource source).answer bound d (i.showTable || settings.showTable) i.file
        source
      some { a with errors := start ++ a.errors }

end Invocation

/-- The answer to a request, when `entry` tells what a path leads to. -/
def Request.answer (r : Request) (read : Settings.Reader) (paint : Painter) (bound : Nat)
    (entry : String → Entry) : Option Answer :=
  match r with
  | .run i => i.answer read paint bound (entry i.settingsPath) (entry i.file)
  | .reply a => some a

end Pseudocode

/-!
# Log records

A log record tells one thing that a part of the program did, at a level of detail.

## Main definitions

* `Record`: a level, the part of the program that speaks, and what it tells.
* `Record.Source`: the parts of the program that keep a log.
* `Record.line`: a record as it is shown.
-/

namespace Pseudocode

namespace Record

/-- How much a record matters, from the most to the least. -/
inductive Level where
  | info
  | debug
  | trace
deriving DecidableEq

/-- How a level is shown. -/
def Level.text : Level → String
  | info => "INFO"
  | debug => "DEBUG"
  | trace => "TRACE"

/-- The parts of the program that keep a log. -/
inductive Source where
  /-- The table of cells. -/
  | table
  /-- The reader of programs. -/
  | reader
  /-- The machine that runs programs. -/
  | machine
  /-- The log itself. -/
  | log
  /-- The command line. -/
  | commandLine
deriving DecidableEq

/-- The name under which a part speaks. -/
def Source.file : Source → String
  | table => "principale/src/symbol_table.rs"
  | reader => "principale/src/parser.rs"
  | machine => "principale/src/evaluator.rs"
  | log => "interpreter/src/logger.rs"
  | commandLine => "interpreter/src/main.rs"

end Record

/-- One thing that a part of the program did. -/
structure Record where
  /-- How much it matters. -/
  level : Record.Level
  /-- Which part did it. -/
  source : Record.Source
  /-- What it did. -/
  message : String
deriving DecidableEq

namespace Record

/-- The record as a line of text. -/
def line (r : Record) : String :=
  "[" ++ r.level.text ++ "] " ++ r.source.file ++ ": " ++ r.message

end Record

end Pseudocode

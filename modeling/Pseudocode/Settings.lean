/-!
# Settings

A settings file next to the program turns on what the command line could turn on too. Both settings
are off unless the file turns them on. How the text of the file is read is up to the reader of
settings.

## Main definitions

* `Settings`: what can be set.
* `Settings.Reader`: how the text of a settings file is read.
-/

namespace Pseudocode

/-- What can be set. -/
structure Settings where
  /-- Whether to log everything. -/
  debug : Bool := false
  /-- Whether to show the table when the program has run. -/
  showTable : Bool := false
deriving DecidableEq

namespace Settings

/-- The settings in the text of a file, or what is wrong with it. -/
abbrev Reader : Type :=
  String → Except String Settings

/-- The name of the settings file. -/
def fileName : String := "principale.toml"

/-- How a switch is written. -/
def switchText (b : Bool) : String :=
  if b then "true" else "false"

/-- The settings as the log tells them. -/
def display (s : Settings) : String :=
  "ConfigRoot \x7b log: ConfigSectionLog \x7b debug: " ++ switchText s.debug ++
    " \x7d, execution: ConfigSectionExecution \x7b show_symbol_table: " ++
    switchText s.showTable ++ " \x7d \x7d"

end Settings

end Pseudocode

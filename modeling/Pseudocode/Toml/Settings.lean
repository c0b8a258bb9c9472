import Pseudocode.Settings
import Pseudocode.Toml.Document

/-!
# Settings in TOML

A settings file is a TOML document with two sections, and everything else in it is ignored.

```text
[log]
debug = true

[execution]
show-symbol-table = true
```

## Main definitions

* `Settings.ofToml`: reads the text of a settings file.
-/

namespace Pseudocode.Settings

/-- A switch in a section. The section is a table, or an array in which the switch comes first. A
date is read as a section with nothing in it. -/
def switch? (root : Toml.Entries) (sectionName key : String) : Option Bool :=
  match root.lookup sectionName with
  | none => some false
  | some (.table _ entries) =>
    match entries.lookup key with
    | none => some false
    | some (.boolean b) => some b
    | some _ => none
  | some (.array []) => some false
  | some (.array (.boolean b :: _)) => some b
  | some (.datetime _) => some false
  | some _ => none

/-- The settings in a document, or `none` if the text is no document or a switch is no switch. -/
def ofToml? (text : String) : Option Settings := do
  let root ← Toml.document? text
  let debug ← switch? root "log" "debug"
  let showTable ← switch? root "execution" "show-symbol-table"
  some { debug, showTable }

/-- Reads the text of a settings file. -/
def ofToml : Reader := fun text ↦
  match ofToml? text with
  | some settings => .ok settings
  | none => .error "TOML parse error"

end Pseudocode.Settings

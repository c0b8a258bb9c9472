import Pseudocode.CommandLine.Arguments
import Pseudocode.Report.Terminal
import Pseudocode.Toml.Settings

/-!
# The program

Reads the files that an invocation names, and prints the answer.
-/

namespace Pseudocode

/-- What a path leads to. -/
def Entry.load (path : String) : IO Entry := do
  try
    return .file (← IO.FS.readBinFile path)
  catch
    | .inappropriateType _ code _ => return if code = 21 then .directory else .behindFile
    | .invalidArgument _ _ _ => return .nameTooLong
    | _ => return .missing

/-- Whether to print in colours: the environment may force or forbid them, and else it depends on
whether somebody is watching. -/
def wantsColour : IO Bool := do
  if let some force ← IO.getEnv "CLICOLOR_FORCE" then
    if force ≠ "0" then return true
  if (← IO.getEnv "NO_COLOR").isSome then return false
  (← IO.getStdout).isTty

end Pseudocode

open Pseudocode in
/-- Runs the program that the arguments name. -/
def main (arguments : List String) : IO UInt32 := do
  let request := Request.ofArguments arguments
  let entries ← match request with
    | .run i => do
      pure [(i.settingsPath, ← Entry.load i.settingsPath), (i.file, ← Entry.load i.file)]
    | _ => pure []
  let entry (path : String) : Entry := (entries.lookup path).getD .missing
  match request.answer Settings.ofToml (.terminal (← wantsColour)) Tree.ampleBound entry with
  | some answer =>
    IO.print answer.output
    IO.eprint answer.errors
    return answer.exit
  | none => return 1

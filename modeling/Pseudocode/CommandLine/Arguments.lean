import Pseudocode.CommandLine.Answer

/-!
# Arguments of the command line

The command line names one program file and may turn switches on. Switches go before or after the
file, a cluster of short ones may share a dash, and behind two dashes alone everything is a file.

## Main definitions

* `Switch`: what can be turned on.
* `Misuse.reply`: what to tell the user about arguments that make no sense.
* `Request.ofArguments`: reads arguments from left to right.
-/

namespace Pseudocode

/-- What can be turned on. -/
inductive Switch where
  | verbose
  | symbolTable
deriving DecidableEq

/-- The long name of a switch. -/
def Switch.text : Switch → String
  | verbose => "--verbose"
  | symbolTable => "--symbol-table"

/-- What can be wrong with the arguments. -/
inductive Misuse where
  /-- No file is named; these switches are on. -/
  | noFile (switches : List Switch)
  /-- An argument has no place. -/
  | unexpected (argument : String)
  /-- An argument looks like a switch, but is none. -/
  | unknown (argument : String)
  /-- A switch is turned on twice. -/
  | repeated (s : Switch)
deriving DecidableEq

namespace Misuse

/-- What is wrong. -/
def problem : Misuse → String
  | noFile _ => "the following required arguments were not provided:\n  <FILE>"
  | unexpected argument => "unexpected argument '" ++ argument ++ "' found"
  | unknown argument =>
    "unexpected argument '" ++ argument ++ "' found\n\n  tip: to pass '" ++ argument ++
      "' as a value, use '-- " ++ argument ++ "'"
  | repeated s => "the argument '" ++ s.text ++ "' cannot be used multiple times"

/-- The form of the arguments that would have been right. -/
def usage : Misuse → String
  | noFile switches => String.intercalate " " (switches.map Switch.text ++ ["<FILE>"])
  | _ => "[OPTIONS] <FILE>"

/-- What the user is told. -/
def message (m : Misuse) : String :=
  "error: " ++ m.problem ++ "\n\nUsage: principale " ++ m.usage ++
    "\n\nFor more information, try '--help'.\n"

/-- The reply to such arguments. -/
def reply (m : Misuse) : Answer :=
  { exit := 2, errors := m.message }

end Misuse

namespace Request

/-! ### Replies -/

/-- How the program is used, line by line. -/
def helpLines : List String :=
  ["Runs a `procedure principale()` program",
    "",
    "Usage: principale [OPTIONS] <FILE>",
    "",
    "Arguments:",
    "  <FILE>  The source file of the program",
    "",
    "Options:",
    "  -v, --verbose       Log everything the parser and evaluator do",
    "  -s, --symbol-table  Print the symbol table after the program has run",
    "  -h, --help          Print help",
    "  -V, --version       Print version"]

/-- How the program is used. -/
def helpText : String :=
  String.join (helpLines.map (· ++ "\n"))

/-- The name and version of the program. -/
def versionText : String :=
  "principale-interpreter 0.1.0\n"

/-! ### From left to right -/

/-- What an argument means. -/
inductive Meaning where
  | turnOn (s : Switch)
  | help
  | version
  | unknown (argument : String)
  | file (path : String)
deriving DecidableEq

/-- The meaning of a letter in a cluster of short switches. -/
def letter : Char → Meaning
  | 'v' => .turnOn .verbose
  | 's' => .turnOn .symbolTable
  | 'h' => .help
  | 'V' => .version
  | c => .unknown ("-" ++ c.toString)

/-- The meanings of an argument that stands before two dashes alone. -/
def meanings (argument : String) : List Meaning :=
  match argument.toList with
  | '-' :: '-' :: _ =>
    match argument with
    | "--verbose" => [.turnOn .verbose]
    | "--symbol-table" => [.turnOn .symbolTable]
    | "--help" => [.help]
    | "--version" => [.version]
    | other => [.unknown other]
  | '-' :: letter :: letters => (letter :: letters).map Request.letter
  | _ => [.file argument]

/-- The meanings of all arguments. -/
def allMeanings : List String → List Meaning
  | [] => []
  | "--" :: files => files.map .file
  | argument :: others => meanings argument ++ allMeanings others

/-- Goes through meanings from left to right with the switches that are on and the file that is
named. The first thing that makes no sense, or that asks for a mere answer, decides. -/
def ofMeanings (switches : List Switch) (file? : Option String) : List Meaning → Request
  | [] =>
    match file? with
    | none => .reply (Misuse.noFile switches).reply
    | some file =>
      run { file, verbose := .verbose ∈ switches, showTable := .symbolTable ∈ switches }
  | .turnOn s :: rest =>
    if s ∈ switches then .reply (Misuse.repeated s).reply
    else ofMeanings (switches ++ [s]) file? rest
  | .help :: _ => .reply { exit := 0, output := helpText }
  | .version :: _ => .reply { exit := 0, output := versionText }
  | .unknown argument :: _ => .reply (Misuse.unknown argument).reply
  | .file path :: rest =>
    match file? with
    | none => ofMeanings switches (some path) rest
    | some _ => .reply (Misuse.unexpected path).reply

/-- What the arguments ask for. -/
def ofArguments (arguments : List String) : Request :=
  ofMeanings [] none (allMeanings arguments)

end Request

end Pseudocode

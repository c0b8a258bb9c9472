import Pseudocode.Toml.Scalar
import Pseudocode.Toml.Quoted

/-!
# TOML documents

A document is read line by line: blank lines and comments, headings, and keys with their values. A
reader takes characters from the front of a text and fails where the text has not the right form.

## Main definitions

* `Toml.Reader`: a reader of text.
* `Toml.value`: reads a value.
* `Toml.document?`: the table that a whole document describes.
-/

namespace Pseudocode.Toml

/-- Reads something from the front of a text, or fails. -/
abbrev Reader (α : Type) : Type :=
  StateT (List Char) Option α

namespace Reader

/-- The next character, which stays. -/
def peek : Reader (Option Char) := do
  pure (← get).head?

/-- Takes the given characters. -/
def exactly (expected : List Char) : Reader Unit := fun text ↦
  if expected.isPrefixOf text then some ((), text.drop expected.length) else none

/-- Takes all characters up to the first that does not satisfy `p`. -/
def span (p : Char → Bool) : Reader (List Char) := fun text ↦
  some (text.takeWhile p, text.dropWhile p)

/-- Fails unless the whole text is taken. -/
def finished : Reader Unit := do
  guard (← get).isEmpty

end Reader

open Reader

/-! ### Blanks, comments and line ends -/

/-- Whether the character is a blank inside a line. -/
def isSpace (c : Char) : Bool :=
  c == ' ' || c == '\t'

/-- Blanks inside a line. -/
def spaces : Reader Unit :=
  discard (span isSpace)

/-- A comment, if one comes next. -/
def comment : Reader Unit := do
  if (← peek) = some '#' then discard (span isPrintable)

/-- A line break. -/
def lineBreak : Reader Unit :=
  exactly ['\n'] <|> exactly ['\r', '\n']

/-- The rest of a line that has nothing more to tell. -/
def lineEnd : Reader Unit := do
  spaces
  comment
  lineBreak <|> finished

/-- Blanks, comments and line breaks, in at most `limit` lines. -/
def gapWithin : Nat → Reader Unit
  | 0 => pure ()
  | limit + 1 => do
    spaces
    comment
    (do lineBreak; gapWithin limit) <|> pure ()

/-- Blanks, comments and line breaks. -/
def gap : Reader Unit := do
  gapWithin (← get).length

/-- How many parts a key may have, and how deep arrays and tables in braces may be nested. -/
def deepest : Nat := 79

/-! ### Keys -/

/-- Whether the character may stand in a key without quotes. -/
def isBare (c : Char) : Bool :=
  c.isAlphanum || c == '_' || c == '-'

/-- One part of a key: a bare word, or a string on one line. -/
def keyPart : Reader String := do
  match ← peek with
  | some '"' =>
    exactly ['"']
    return String.ofList (← basic?)
  | some '\'' =>
    exactly ['\'']
    return String.ofList (← literal?)
  | _ =>
    let word ← span isBare
    guard (!word.isEmpty)
    return String.ofList word

/-- Further parts of a key, each behind a dot, at most `limit` of them. -/
def keyParts : Nat → Reader (List String)
  | 0 => pure []
  | limit + 1 => do
    spaces
    if (← peek) = some '.' then
      exactly ['.']
      spaces
      let part ← keyPart
      return part :: (← keyParts limit)
    else
      return []

/-- A key as the parts before the last one, and the last one. There are at most `deepest` parts. -/
def key : Reader (List String × String) := do
  let first ← keyPart
  let others ← keyParts (← get).length
  let parts := first :: others
  guard (parts.length ≤ deepest)
  return (parts.dropLast, parts.getLastD first)

/-! ### Values -/

/-- Whether the character ends a scalar. -/
def endsScalar (c : Char) : Bool :=
  isSpace c || c == '\n' || c == '\r' || c == ',' || c == ']' || c == '}' || c == '#'

/-- A scalar that is no string. A date may have its time of day behind a space. -/
def scalar : Reader Value := do
  let text ← span (!endsScalar ·)
  if isDate text then
    let withTime : Reader Value := do
      exactly [' ']
      let time ← span (!endsScalar ·)
      guard (isTimeWithOffset time)
      return .datetime (String.ofList (text ++ ' ' :: time))
    withTime <|> return .datetime (String.ofList text)
  else
    scalar? text

/-- A string of any of the four forms. -/
def string : Reader Value := do
  let contents ←
    (do exactly ['"', '"', '"']; multiBasic?) <|>
    (do exactly ['\'', '\'', '\'']; multiLiteral?) <|>
    (do exactly ['"']; basic?) <|>
    (do exactly ['\'']; literal?)
  return .string (String.ofList contents)

/-- A value that is neither an array nor a table. -/
def plain : Reader Value := do
  match ← peek with
  | some '"' | some '\'' => string
  | _ => scalar

/-- Values up to the closing bracket, with commas between them and perhaps behind the last. -/
def items (value : Reader Value) : Nat → Reader (List Value)
  | 0 => failure
  | limit + 1 => do
    gap
    if (← peek) = some ']' then
      exactly [']']
      return []
    else
      let first ← value
      gap
      if (← peek) = some ',' then
        exactly [',']
        return first :: (← items value limit)
      else
        exactly [']']
        return [first]

/-- A key, an equals sign and a value. -/
def pair (value : Reader Value) : Reader ((List String × String) × Value) := do
  let k ← key
  spaces
  exactly ['=']
  spaces
  return (k, ← value)

/-- Pairs up to the closing brace, with commas between them, added to the entries so far. -/
def pairs (value : Reader Value) : Nat → Entries → Reader Entries
  | 0, _ => failure
  | limit + 1, entries => do
    let ((path, key), v) ← pair value
    let entries ← insert? path key v .braces entries
    spaces
    if (← peek) = some ',' then
      exactly [',']
      spaces
      pairs value limit entries
    else
      exactly ['}']
      return entries

/-- A value, in which arrays and tables are nested at most `depth` deep. -/
def value : (depth : Nat) → Reader Value
  | 0 => plain
  | depth + 1 => do
    match ← peek with
    | some '[' =>
      exactly ['[']
      return .array (← items (value depth) ((← get).length + 1))
    | some '{' =>
      exactly ['{']
      spaces
      if (← peek) = some '}' then
        exactly ['}']
        return .table .braces []
      else
        return .table .braces (← pairs (value depth) ((← get).length + 1) [])
    | _ => plain

/-! ### The document -/

/-- A document in the middle: all its entries so far, and the heading that is open. -/
structure State where
  /-- All entries so far. -/
  root : Entries := []
  /-- The path of the open heading; none is open at first. -/
  heading : List String := []

/-- Adds a value under the open heading. -/
def State.insert? (s : State) (path : List String) (key : String) (v : Value) : Option State := do
  let root ← alter? false (fun _ ↦ Toml.insert? path key v .heading) s.heading .heading s.root
  some { s with root }

/-- A heading in single or double brackets. -/
def heading (s : State) : Reader State := do
  exactly ['[']
  let double := (← peek) = some '['
  if double then exactly ['[']
  spaces
  let (path, key) ← key
  spaces
  exactly (if double then [']', ']'] else [']'])
  let root ← (if double then openElement? path key s.root else openTable? path key s.root)
  return { root, heading := path ++ [key] }

/-- One line. -/
def line (s : State) : Reader State := do
  spaces
  let s ← match ← peek with
    | some '[' => heading s
    | none | some '#' | some '\n' | some '\r' => pure s
    | some _ => do
      let ((path, key), v) ← pair (value deepest)
      s.insert? path key v
  lineEnd
  return s

/-- Lines up to the end of the text, at most `limit` of them. -/
def linesWithin : Nat → State → Reader State
  | 0, s => do
    finished
    return s
  | limit + 1, s => do
    if (← get).isEmpty then return s else linesWithin limit (← line s)

/-- The table that a document describes. A byte order mark at its head is no part of it. -/
def document? (text : String) : Option Entries := do
  let text :=
    match text.toList with
    | '\ufeff' :: rest => rest
    | text => text
  let (s, _) ← linesWithin (text.length + 1) {} text
  some s.root

end Pseudocode.Toml

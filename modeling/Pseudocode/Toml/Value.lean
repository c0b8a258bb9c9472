/-!
# TOML values and tables

A TOML document is a table: keys with values, some of which are tables again. A document may come
back to a table under several headings, but only in some ways, so a table remembers how it came
about.

## Main definitions

* `Toml.Value`: a value of a document.
* `Toml.Entries`: the contents of a table.
* `Toml.insert?`: adds a value under a dotted key.
* `Toml.openTable?`, `Toml.openElement?`: adds the table of a `[heading]` or of a `[[heading]]`.

All of them fail where a document would define something twice.
-/

namespace Pseudocode.Toml

/-- How a table came about. -/
inductive Origin where
  /-- It is written as a value, between braces, and takes no further entries. -/
  | braces
  /-- It has a heading of its own. -/
  | heading
  /-- It is on the way to a table with a heading. -/
  | implied
  /-- It is on the way to the last part of a dotted key. -/
  | dotted
deriving DecidableEq

/-- A value of a document. -/
inductive Value where
  /-- A text. -/
  | string (contents : String)
  /-- A whole number. -/
  | integer (n : Int)
  /-- A number with a fraction or an exponent, as it is written. -/
  | float (text : String)
  /-- A truth value. -/
  | boolean (b : Bool)
  /-- A date, a time of day, or both, as it is written. -/
  | datetime (text : String)
  /-- Values in brackets. -/
  | array (items : List Value)
  /-- Keys with values. -/
  | table (origin : Origin) (entries : List (String × Value))
  /-- The tables of all `[[heading]]`s of one name. -/
  | elements (tables : List (List (String × Value)))

/-- The contents of a table, in the order in which keys first appear. -/
abbrev Entries : Type :=
  List (String × Value)

/-- Replaces the value of a key. -/
def replace (key : String) (v : Value) (entries : Entries) : Entries :=
  entries.map fun e ↦ if e.1 = key then (key, v) else e

/-- Changes the table that a path of keys leads to by `change`, which is told how that table came
about. Tables on the way are made where they are missing. The path of a dotted key (`viaDots`) must
not enter a table that has a heading of its own, and no path enters a table in braces. -/
def alter? (viaDots : Bool) (change : Origin → Entries → Option Entries) :
    List String → Origin → Entries → Option Entries
  | [], origin, entries => change origin entries
  | key :: path, _, entries =>
    match entries.lookup key with
    | none => do
      let origin := if viaDots then Origin.dotted else Origin.implied
      let inner ← alter? viaDots change path origin []
      some (entries ++ [(key, .table origin inner)])
    | some (.table origin inner) =>
      if origin = .braces || viaDots && origin = .heading then
        none
      else do
        let inner ← alter? viaDots change path origin inner
        some (replace key (.table origin inner) entries)
    | some (.elements tables) =>
      match tables.getLast? with
      | none => none
      | some inner => do
        let inner ← alter? viaDots change path .heading inner
        some (replace key (.elements (tables.dropLast ++ [inner])) entries)
    | some _ => none

/-- Adds a value under a key, which must be new. -/
def add? (key : String) (v : Value) (entries : Entries) : Option Entries :=
  if (entries.lookup key).isSome then none else some (entries ++ [(key, v)])

/-- Adds a value under a dotted key `path.key`. A table on the path has to be one that dotted keys
made. -/
def insert? (path : List String) (key : String) (v : Value) (origin : Origin)
    (entries : Entries) : Option Entries :=
  let change (origin : Origin) (inner : Entries) : Option Entries :=
    if path.isEmpty || origin = .dotted then add? key v inner else none
  alter? true change path origin entries

/-- Adds the table of the heading `[path.key]`, which may have been implied before. -/
def openTable? (path : List String) (key : String) (entries : Entries) : Option Entries :=
  let change (_ : Origin) (inner : Entries) : Option Entries :=
    match inner.lookup key with
    | none => some (inner ++ [(key, .table .heading [])])
    | some (.table .implied contents) => some (replace key (.table .heading contents) inner)
    | some _ => none
  alter? false change path .heading entries

/-- Adds one more table of the heading `[[path.key]]`. -/
def openElement? (path : List String) (key : String) (entries : Entries) : Option Entries :=
  let change (_ : Origin) (inner : Entries) : Option Entries :=
    match inner.lookup key with
    | none => some (inner ++ [(key, .elements [[]])])
    | some (.elements tables) => some (replace key (.elements (tables ++ [[]])) inner)
    | some _ => none
  alter? false change path .heading entries

end Pseudocode.Toml

/-!
# Paths

Paths of files as text: names with slashes between them. A path may start at the root (`/a`) or at
the current directory (`./a`); apart from that, empty names and single dots do not count.

## Main definitions

* `Path.parent?`: the path of the directory that holds a file.
* `Path.join`: the path of a name inside a directory.
-/

namespace Pseudocode.Path

/-- Cuts a path at its slashes. -/
def names (path : List Char) : List (List Char) :=
  path.foldr (fun c rest ↦
    if c = '/' then
      [] :: rest
    else
      match rest with
      | [] => [[c]]
      | first :: others => (c :: first) :: others) [[]]

/-- Whether a name does not count. -/
def isIdle (name : List Char) : Bool :=
  name.isEmpty || name == ['.']

/-- The names of a path without those at its end that do not count. -/
def dropIdle (names : List (List Char)) : List (List Char) :=
  (names.reverse.dropWhile isIdle).reverse

/-- The head of a path, which is no name: the root, a leading dot, or nothing. -/
def head : List Char → List Char
  | '/' :: _ => ['/']
  | ['.'] => ['.']
  | '.' :: '/' :: _ => ['.']
  | _ => []

/-- The path of the directory that holds what the path names. The root and the empty path have
none. -/
def parent? (path : String) : Option String :=
  let start := head path.toList
  match dropIdle (names (path.toList.drop start.length)) with
  | [] => if start = ['.'] then some "" else none
  | named =>
    some (String.ofList (start ++ List.intercalate ['/'] (dropIdle named.dropLast)))

/-- The path of `name` inside the directory `path`; the empty path is the current directory. -/
def join (path name : String) : String :=
  if path.isEmpty || path.toList.getLast? = some '/' then path ++ name else path ++ "/" ++ name

/-- The path of another name in the directory that holds what the path names. -/
def sibling (path name : String) : String :=
  join ((parent? path).getD ".") name

end Pseudocode.Path

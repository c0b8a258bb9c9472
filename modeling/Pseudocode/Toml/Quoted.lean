/-!
# TOML strings

A string stands between quotes. Between double quotes a backslash starts an escape, between single
quotes every character stands for itself. A string between three quotes may run over several lines.
The readers below start behind the opening quotes and give the contents and the text behind the
closing ones.

## Main definitions

* `Toml.basic?`, `Toml.literal?`: strings on one line.
* `Toml.multiBasic?`, `Toml.multiLiteral?`: strings over several lines.
-/

namespace Pseudocode.Toml

/-- Whether the character may stand in a comment: a tab, or any character that is no control
character. -/
def isPrintable (c : Char) : Bool :=
  c == '\t' || (' ' ≤ c && c != '\x7f')

/-- The number that hexadecimal digits denote. -/
def hexValue? (digits : List Char) : Option Nat :=
  digits.foldlM (fun n c ↦
    if c.isDigit then some (16 * n + (c.toNat - '0'.toNat))
    else if 'a' ≤ c && c ≤ 'f' then some (16 * n + (c.toNat - 'a'.toNat + 10))
    else if 'A' ≤ c && c ≤ 'F' then some (16 * n + (c.toNat - 'A'.toNat + 10))
    else none) 0

/-- The character with a hexadecimal code point. -/
def codePoint? (digits : List Char) : Option Char := do
  let n ← hexValue? digits
  if n.isValidChar then some (Char.ofNat n) else none

/-- The character that a short escape stands for. -/
def escaped? : Char → Option Char
  | 'b' => some '\x08'
  | 't' => some '\t'
  | 'n' => some '\n'
  | 'f' => some '\x0c'
  | 'r' => some '\r'
  | '"' => some '"'
  | '\\' => some '\\'
  | _ => none

/-- Puts a character in front of the contents of a string. -/
def cons (c : Char) (r : List Char × List Char) : List Char × List Char :=
  (c :: r.1, r.2)

/-- A string in double quotes. -/
def basic? : List Char → Option (List Char × List Char)
  | [] => none
  | '"' :: rest => some ([], rest)
  | '\\' :: 'u' :: a :: b :: c :: d :: rest => do
    let x ← codePoint? [a, b, c, d]
    (basic? rest).map (cons x)
  | '\\' :: 'U' :: a :: b :: c :: d :: e :: f :: g :: h :: rest => do
    let x ← codePoint? [a, b, c, d, e, f, g, h]
    (basic? rest).map (cons x)
  | '\\' :: c :: rest => do
    let x ← escaped? c
    (basic? rest).map (cons x)
  | c :: rest => if isPrintable c && c != '\\' then (basic? rest).map (cons c) else none

/-- A string in single quotes. -/
def literal? : List Char → Option (List Char × List Char)
  | [] => none
  | '\'' :: rest => some ([], rest)
  | c :: rest => if isPrintable c then (literal? rest).map (cons c) else none

/-- The text without a line break at its head. -/
def dropBreak : List Char → List Char
  | '\n' :: rest => rest
  | '\r' :: '\n' :: rest => rest
  | text => text

/-- The end of a string between three quotes, when as many quotes as `quotes` come at once: the
last three close the string, and up to two before them belong to it. -/
def closing? (quote : Char) (quotes : Nat) (rest : List Char) : Option (List Char × List Char) :=
  if quotes ≤ 5 then some (List.replicate (quotes - 3) quote, rest) else none

/-- A string between three double quotes. A backslash at the end of a line takes the line break and
all blanks behind it away; `trimming` tells whether that is going on, and `afterBackslash` whether
only blanks may come before the line break. -/
def multiBasicFrom (trimming afterBackslash : Bool) (quotes : Nat) :
    List Char → Option (List Char × List Char)
  | [] => if 3 ≤ quotes then closing? '"' quotes [] else none
  | '"' :: rest =>
    if afterBackslash then none else multiBasicFrom false false (quotes + 1) rest
  | c :: rest =>
    if 3 ≤ quotes then
      closing? '"' quotes (c :: rest)
    else
      let before (r : List Char × List Char) : List Char × List Char :=
        (List.replicate quotes '"' ++ r.1, r.2)
      if afterBackslash && !(c == ' ' || c == '\t' || c == '\n' || c == '\r') then
        none
      else if c == '\n' then
        if trimming || afterBackslash then multiBasicFrom true false 0 rest
        else (multiBasicFrom false false 0 rest).map fun r ↦ before (cons c r)
      else if c == '\r' then
        if rest.head? = some '\n' then (multiBasicFrom trimming afterBackslash 0 rest).map before
        else none
      else if (trimming || afterBackslash) && (c == ' ' || c == '\t') then
        multiBasicFrom trimming afterBackslash 0 rest
      else if c == '\\' then
        match rest with
        | 'u' :: a :: b :: c :: d :: rest => do
          let x ← codePoint? [a, b, c, d]
          (multiBasicFrom false false 0 rest).map fun r ↦ before (cons x r)
        | 'U' :: a :: b :: c :: d :: e :: f :: g :: h :: rest => do
          let x ← codePoint? [a, b, c, d, e, f, g, h]
          (multiBasicFrom false false 0 rest).map fun r ↦ before (cons x r)
        | c :: rest =>
          match escaped? c with
          | some x => (multiBasicFrom false false 0 rest).map fun r ↦ before (cons x r)
          | none =>
            if c == '\n' then (multiBasicFrom true false 0 rest).map before
            else if c == ' ' || c == '\t' then (multiBasicFrom false true 0 rest).map before
            else if c == '\r' && rest.head? = some '\n' then
              (multiBasicFrom false true 0 rest).map before
            else none
        | [] => none
      else if isPrintable c then
        (multiBasicFrom false false 0 rest).map fun r ↦ before (cons c r)
      else none

/-- A string between three double quotes. -/
def multiBasic? (text : List Char) : Option (List Char × List Char) :=
  multiBasicFrom false false 0 (dropBreak text)

/-- A string between three single quotes, when `quotes` of them have just come. -/
def multiLiteralFrom (quotes : Nat) : List Char → Option (List Char × List Char)
  | [] => if 3 ≤ quotes then closing? '\'' quotes [] else none
  | '\'' :: rest => multiLiteralFrom (quotes + 1) rest
  | c :: rest =>
    if 3 ≤ quotes then
      closing? '\'' quotes (c :: rest)
    else if isPrintable c || c == '\n' || (c == '\r' && rest.head? = some '\n') then
      (multiLiteralFrom 0 rest).map fun r ↦
        (List.replicate quotes '\'' ++ (if c == '\r' then r.1 else c :: r.1), r.2)
    else none

/-- A string between three single quotes. -/
def multiLiteral? (text : List Char) : Option (List Char × List Char) :=
  multiLiteralFrom 0 (dropBreak text)

end Pseudocode.Toml

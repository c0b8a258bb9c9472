import Pseudocode.Token.Lexeme

/-!
# Scanning a program text

A cursor stands at a place of a text and looks at the characters behind it. It walks over the gap
in front of a token (white space and comments) and over the token itself. A scanner has a cursor
that goes through a text from token to token, and keeps the errors of all tokens that it has come
by.

## Main definitions

* `Cursor`: a location and the characters from there on.
* `Cursor.next?`: the next token, and the cursor behind it.
* `Scanner`: a cursor, and the errors of the tokens behind which it stands.
* `Scanner.next`: asks for the next token.
* `Scanner.scan`: all tokens that are left, closed by the end of input, and all errors.
* `Scan.ofSource`: the tokens and errors of a program text.
-/

namespace Pseudocode

/-- A flaw of a token, and where that token starts. -/
structure LexicalError where
  /-- The start of the token. -/
  location : Location
  /-- What is wrong with it. -/
  flaw : Flaw
deriving DecidableEq

/-- The message of a lexical error. -/
def LexicalError.message (e : LexicalError) : String :=
  e.location.inWords ++ " - Lexical error - " ++ e.flaw.text

/-- A token with the error that it brings along, if any. -/
structure Scanned where
  /-- The token. -/
  token : Token
  /-- What is wrong with it. -/
  error? : Option LexicalError
deriving DecidableEq

/-- The tokens of a text in order, the last of which is the end of input, and its errors. -/
structure Scan where
  /-- All tokens. -/
  tokens : List Token
  /-- The errors, in the order of their tokens. -/
  errors : List LexicalError
deriving DecidableEq

/-- A place in a text and the characters that follow it. -/
structure Cursor where
  /-- The place. -/
  location : Location
  /-- The characters from the place on. -/
  rest : List Char
deriving DecidableEq

namespace Cursor

/-- The cursor at the start of a text. -/
def ofSource (source : String) : Cursor :=
  { location := {}, rest := source.toList }

/-- The cursor behind `text`, which the rest starts with. -/
def move (c : Cursor) (text : List Char) : Cursor :=
  { location := c.location.after text, rest := c.rest.drop text.length }

/-- Walks from `l` over the gap at the head of a text. A comment starts with a hash sign and runs
up to the end of its line; `inComment` tells whether `l` lies inside one. -/
def skipGapFrom (inComment : Bool) (l : Location) : List Char → Cursor
  | [] => { location := l, rest := [] }
  | c :: cs =>
    if inComment then
      skipGapFrom (c != '\n') (l.advance c) cs
    else if c = '#' then
      skipGapFrom true (l.advance c) cs
    else if Text.isBlank c then
      skipGapFrom false (l.advance c) cs
    else
      { location := l, rest := c :: cs }

/-- The cursor behind the gap in front of the next token. -/
def skipGap (c : Cursor) : Cursor :=
  skipGapFrom false c.location c.rest

/-- Places a lexeme at the cursor. -/
def place (c : Cursor) (lexeme : Lexeme) : Scanned where
  token :=
    { kind := lexeme.kind, start := c.location, stop := c.location.after lexeme.text }
  error? := lexeme.flaw.map fun flaw ↦ { location := c.location, flaw }

/-- The next token and the cursor behind it, or `none` when only a gap is left. -/
def next? (c : Cursor) : Option (Scanned × Cursor) :=
  let c := c.skipGap
  match c.rest with
  | [] => none
  | head :: tail =>
    let lexeme := Lexeme.ofHead head tail
    some (c.place lexeme, c.move lexeme.text)

end Cursor

/-- A scanner at work on a text. -/
structure Scanner where
  /-- Where it stands. -/
  cursor : Cursor
  /-- The errors of the tokens that it has come by, in their order. -/
  errors : List LexicalError
deriving DecidableEq

namespace Scanner

/-- A scanner at the start of a text. -/
def ofSource (source : String) : Scanner :=
  { cursor := .ofSource source, errors := [] }

/-- Asks for the next token. Its error is kept, if it has one. When only a gap is left, there is no
token, and the scanner goes over the gap. -/
def next (s : Scanner) : Option Token × Scanner :=
  match s.cursor.next? with
  | some (scanned, c) => (some scanned.token, ⟨c, s.errors ++ scanned.error?.toList⟩)
  | none => (none, { s with cursor := s.cursor.skipGap })

/-- Asks for tokens until there is none, at most `limit` times. -/
def take : Nat → Scanner → List Token × Scanner
  | 0, s => ([], s)
  | limit + 1, s =>
    match s.next with
    | (none, s) => ([], s)
    | (some token, s) =>
      let (tokens, s) := take limit s
      (token :: tokens, s)

/-- Asks for all tokens that are left. A token has at least one character, so there are no more
tokens than characters, and a last call finds none. -/
def drain (s : Scanner) : List Token × Scanner :=
  s.take (s.cursor.rest.length + 1)

/-- All tokens that are left, and the errors of all tokens, those given before included. -/
def scan (s : Scanner) : Scan :=
  let left := s.drain
  { tokens := left.1 ++ [Token.endAt left.2.cursor.location], errors := left.2.errors }

end Scanner

/-- The tokens and errors of a program text. -/
def Scan.ofSource (source : String) : Scan :=
  (Scanner.ofSource source).scan

end Pseudocode

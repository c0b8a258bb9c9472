import Pseudocode.Span
import Pseudocode.Token.Keyword
import Pseudocode.Token.Punctuator

/-!
# Tokens

A token is the smallest piece of a program text that has a meaning: its kind says what it is, and
two locations say where it stands.

## Main definitions

* `Token.Kind`: what a token is.
* `Token.Category`: the class of a kind, as named in messages.
* `Token.Kind.text`: how a kind is written.
* `Token`: a kind between two locations.
* `Token.span?`: the stretch of text that a token covers.
-/

namespace Pseudocode

namespace Token

/-- What a token is. -/
inductive Kind where
  /-- A reserved word. -/
  | keyword (k : Keyword)
  /-- A mark. -/
  | punctuator (p : Punctuator)
  /-- A variable and its name. -/
  | var (name : String)
  /-- An integer literal as it is spelled, and the number it stands for. -/
  | integer (digits : String) (value : Int64)
  /-- A string literal, without its quotes. -/
  | string (contents : String)
  /-- A character that starts no token. -/
  | illegal (c : Char)
  /-- The end of the program text. -/
  | endOfInput
deriving DecidableEq

/-- The class of a kind of token. Keywords and marks are classes of their own. -/
inductive Category where
  | keyword (k : Keyword)
  | punctuator (p : Punctuator)
  | var
  | integer
  | string
  | illegal
  | endOfInput
deriving DecidableEq

/-- How messages name a class. -/
def Category.text : Category → String
  | keyword k => k.text
  | punctuator p => p.text
  | var => "<VARIABLE>"
  | integer => "<INTEGER>"
  | string => "<STRING>"
  | illegal => "<ILLEGAL>"
  | endOfInput => "<END_OF_INPUT>"

namespace Kind

/-- The class of a kind. -/
def category : Kind → Category
  | keyword k => .keyword k
  | punctuator p => .punctuator p
  | var _ => .var
  | integer _ _ => .integer
  | string _ => .string
  | illegal _ => .illegal
  | endOfInput => .endOfInput

/-- How a kind is written. A string literal gets its quotes back. -/
def text : Kind → String
  | keyword k => k.text
  | punctuator p => p.text
  | var name => name
  | integer digits _ => digits
  | string contents => "\"" ++ contents ++ "\""
  | illegal c => c.toString
  | endOfInput => "<END_OF_INPUT>"

/-- The name of a variable, and nothing for every other kind. -/
def name? : Kind → Option String
  | var name => some name
  | _ => none

/-- The contents of a string literal, and nothing for every other kind. -/
def contents? : Kind → Option String
  | string contents => some contents
  | _ => none

@[simp]
theorem category_eq_keyword_iff {kind : Kind} {k : Keyword} :
    kind.category = .keyword k ↔ kind = .keyword k := by
  cases kind <;> simp [category]

@[simp]
theorem category_eq_punctuator_iff {kind : Kind} {p : Punctuator} :
    kind.category = .punctuator p ↔ kind = .punctuator p := by
  cases kind <;> simp [category]

@[simp]
theorem category_eq_endOfInput_iff {kind : Kind} :
    kind.category = .endOfInput ↔ kind = .endOfInput := by
  cases kind <;> simp [category]

end Kind

end Token

/-- A kind of token between two locations. The scanner puts them in order, but a token made by
hand may have them in any order. -/
structure Token where
  /-- What the token is. -/
  kind : Token.Kind
  /-- Where the token starts. -/
  start : Location
  /-- The place behind the token. -/
  stop : Location
deriving DecidableEq

namespace Token

/-- The stretch of text that the token covers, unless its locations run backwards. -/
def span? (t : Token) : Option Span :=
  Span.between? t.start t.stop

/-- The locations of the token are in order. -/
def Ordered (t : Token) : Prop :=
  t.start.offset ≤ t.stop.offset

instance (t : Token) : Decidable t.Ordered :=
  inferInstanceAs (Decidable (_ ≤ _))

/-- The end of the program text at `l`. -/
def endAt (l : Location) : Token :=
  { kind := .endOfInput, start := l, stop := l }

/-- Whether the token marks the end of the program text. -/
def isEnd (t : Token) : Bool :=
  t.kind = .endOfInput

@[simp]
theorem isEnd_endAt (l : Location) : (endAt l).isEnd = true := rfl

end Token

end Pseudocode

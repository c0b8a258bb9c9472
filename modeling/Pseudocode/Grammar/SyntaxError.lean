import Pseudocode.Token.Basic

/-!
# Syntax errors

A syntax error says what the reader wanted at some token, and how the token it found is written.

## Main definitions

* `Expectation`: what the reader wanted.
* `SyntaxError`: an expectation that was not met, where, and what was found instead.
* `Failure`: why reading stops.
-/

namespace Pseudocode

/-- What the reader wants at a token. -/
inductive Expectation where
  /-- A token of one certain class. -/
  | token (c : Token.Category)
  /-- Any instruction. -/
  | instruction
  /-- Any operand. -/
  | factor
deriving DecidableEq

namespace Expectation

/-- The name of the only class of tokens that would do, if there is only one. -/
def symbol? : Expectation → Option String
  | token c => some c.text
  | _ => none

/-- What a message tells about an expectation. -/
def text : Expectation → String
  | token c => "Expected: " ++ c.text
  | instruction => "Invalid instruction"
  | factor => "Invalid factor"

end Expectation

/-- An expectation that was not met. -/
structure SyntaxError where
  /-- Where the offending token stands. -/
  span : Span
  /-- What was wanted there. -/
  expectation : Expectation
  /-- How the offending token is written. -/
  found : String
deriving DecidableEq

/-- The message of a syntax error. -/
def SyntaxError.message (e : SyntaxError) : String :=
  e.span.start.inWords ++ " - Syntax error - " ++ e.expectation.text ++ " - Found: " ++ e.found

/-- Why reading stops. -/
inductive Failure where
  /-- An expectation was not met. -/
  | syntactic (e : SyntaxError)
  /-- The span of a token was needed, but its locations run backwards. -/
  | unordered (t : Token)
deriving DecidableEq

end Pseudocode

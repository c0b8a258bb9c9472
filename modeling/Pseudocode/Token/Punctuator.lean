/-!
# Punctuators

The marks of the language that are not words: separators, parentheses, the assignment mark and
the operators written with signs.

## Main definitions

* `Punctuator`: the fifteen marks.
* `Punctuator.text`: how a mark is spelled.
* `Punctuator.ofText?`: the mark that a text spells.
-/

namespace Pseudocode

/-- The marks of the language. -/
inductive Punctuator where
  | comma
  | leftParenthesis
  | rightParenthesis
  | semicolon
  | plus
  | assign
  | equal
  | notEqual
  | minus
  | slash
  | asterisk
  | less
  | lessOrEqual
  | greater
  | greaterOrEqual
deriving DecidableEq

namespace Punctuator

/-- How the mark is spelled. -/
def text : Punctuator → String
  | comma => ","
  | leftParenthesis => "("
  | rightParenthesis => ")"
  | semicolon => ";"
  | plus => "+"
  | assign => "="
  | equal => "=="
  | notEqual => "!="
  | minus => "-"
  | slash => "/"
  | asterisk => "*"
  | less => "<"
  | lessOrEqual => "<="
  | greater => ">"
  | greaterOrEqual => ">="

/-- All marks. -/
def all : List Punctuator :=
  [comma, leftParenthesis, rightParenthesis, semicolon, plus, assign, equal, notEqual, minus,
    slash, asterisk, less, lessOrEqual, greater, greaterOrEqual]

/-- The mark spelled `word`, if there is one. -/
def ofText? (word : String) : Option Punctuator :=
  all.find? (·.text == word)

theorem ofText?_text (p : Punctuator) : ofText? p.text = some p := by
  cases p <;> decide

/-- No two marks share a spelling. -/
theorem text_injective {p q : Punctuator} (h : p.text = q.text) : p = q := by
  have := ofText?_text p
  rw [h, ofText?_text] at this
  exact (Option.some.inj this).symm

end Punctuator

end Pseudocode

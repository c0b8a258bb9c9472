import Pseudocode.Text.Blank
import Pseudocode.Text.Decimal
import Pseudocode.Token.Basic

/-!
# Lexemes

The lexeme at the head of a text is the longest run of its characters that spells one token. What
comes first decides its class: a quote opens a string, a letter or underscore a word, a digit a
number, and every other character is a mark, alone or with an equals sign behind it, or illegal.

A lexeme may be flawed: a number may be too large, and a string may lack its closing quote because
the line or the text ended first. It is a lexeme all the same, and the flaw goes with it.

## Main definitions

* `Lexeme`: the kind, the characters and the flaw of a token.
* `Lexeme.ofHead`: the lexeme at the head of a text.

## Main results

* `Lexeme.ofHead_text_ne_nil`, `Lexeme.ofHead_text_isPrefix`: a lexeme takes at least one
  character, from the front of the text.
-/

namespace Pseudocode

/-- What can be wrong with a token in itself. -/
inductive Flaw where
  /-- The number is larger than every 64-bit integer. -/
  | invalidNumber
  /-- The line or the text ends before the closing quote. -/
  | unterminatedString
deriving DecidableEq

/-- What a message tells about a flaw. -/
def Flaw.text : Flaw → String
  | invalidNumber => "Invalid number, it does not fit in a 64-bit integer"
  | unterminatedString => "String literal is missing its closing `\"`"

/-- A token as it stands in a text, without its place. -/
structure Lexeme where
  /-- What the token is. -/
  kind : Token.Kind
  /-- The characters that spell it. -/
  text : List Char
  /-- What is wrong with it. -/
  flaw : Option Flaw := none
deriving DecidableEq

namespace Lexeme

/-- Whether a word may start with the character. -/
def isWordStart (c : Char) : Bool :=
  c.isAlpha || c == '_'

/-- Whether a word may go on with the character. -/
def isWordPart (c : Char) : Bool :=
  c.isAlphanum || c == '_'

/-- Whether a string goes on with the character: neither a quote nor the end of the line. -/
def isStringPart (c : Char) : Bool :=
  c != '"' && c != '\n'

/-- A word is a keyword if it is spelled as one, and a variable otherwise. -/
def word (letters : List Char) : Lexeme :=
  match Keyword.ofText? (String.ofList letters) with
  | some k => { kind := .keyword k, text := letters }
  | none => { kind := .var (String.ofList letters), text := letters }

/-- A number stands for its value, and for 0 if the value is too large. -/
def number (digits : List Char) : Lexeme :=
  match Decimal.int64? digits with
  | some value => { kind := .integer (String.ofList digits) value, text := digits }
  | none =>
    { kind := .integer (String.ofList digits) 0, text := digits, flaw := some .invalidNumber }

/-- The string that an opening quote before `cs` starts. -/
def quoted (cs : List Char) : Lexeme :=
  let contents := cs.takeWhile isStringPart
  let kind := .string (String.ofList contents)
  match cs.dropWhile isStringPart with
  | '"' :: _ => { kind, text := '"' :: contents ++ ['"'] }
  | _ => { kind, text := '"' :: contents, flaw := some .unterminatedString }

/-- The kind of the mark `c`, which may take an equals sign that comes `next`. A character that is
no mark is illegal, and so is an exclamation mark alone. -/
def mark (c : Char) (next : Option Char) : Token.Kind :=
  match c, next with
  | '(', _ => .punctuator .leftParenthesis
  | ')', _ => .punctuator .rightParenthesis
  | ';', _ => .punctuator .semicolon
  | ',', _ => .punctuator .comma
  | '+', _ => .punctuator .plus
  | '-', _ => .punctuator .minus
  | '*', _ => .punctuator .asterisk
  | '/', _ => .punctuator .slash
  | '=', some '=' => .punctuator .equal
  | '=', _ => .punctuator .assign
  | '<', some '=' => .punctuator .lessOrEqual
  | '<', _ => .punctuator .less
  | '>', some '=' => .punctuator .greaterOrEqual
  | '>', _ => .punctuator .greater
  | '!', some '=' => .punctuator .notEqual
  | c, _ => .illegal c

/-- The lexeme at the head of the text `c :: cs`. -/
def ofHead (c : Char) (cs : List Char) : Lexeme :=
  if c = '"' then
    quoted cs
  else if isWordStart c then
    word (c :: cs.takeWhile isWordPart)
  else if c.isDigit then
    number (c :: cs.takeWhile Char.isDigit)
  else
    let kind := mark c cs.head?
    { kind, text := kind.text.toList }

/-! ### The characters of a lexeme -/

@[simp]
theorem text_word (letters : List Char) : (word letters).text = letters := by
  unfold word
  split <;> rfl

@[simp]
theorem text_number (digits : List Char) : (number digits).text = digits := by
  unfold number
  split <;> rfl

theorem text_quoted_isPrefix (cs : List Char) : (quoted cs).text <+: '"' :: cs := by
  have h := List.takeWhile_append_dropWhile (p := isStringPart) (l := cs)
  unfold quoted
  split
  · next rest hrest =>
    rw [hrest] at h
    exact ⟨rest, by simp [h]⟩
  · exact ⟨cs.dropWhile isStringPart, by simp [h]⟩

theorem text_mark_isPrefix (c : Char) (cs : List Char) :
    (mark c cs.head?).text.toList <+: c :: cs := by
  unfold mark
  split
  case h_9 h | h_11 h | h_13 h | h_15 h =>
    obtain ⟨rest, rfl⟩ := List.head?_eq_some_iff.1 h
    exact ⟨rest, rfl⟩
  all_goals exact ⟨cs, by simp [Token.Kind.text, Punctuator.text]⟩

/-- A lexeme is a piece of the text that it heads. -/
theorem ofHead_text_isPrefix (c : Char) (cs : List Char) : (ofHead c cs).text <+: c :: cs := by
  unfold ofHead
  split
  · next h => exact h ▸ text_quoted_isPrefix cs
  split
  · exact ⟨cs.dropWhile isWordPart, by simp⟩
  split
  · exact ⟨cs.dropWhile Char.isDigit, by simp⟩
  · exact text_mark_isPrefix c cs

/-- A lexeme has at least one character. -/
theorem ofHead_text_ne_nil (c : Char) (cs : List Char) : (ofHead c cs).text ≠ [] := by
  unfold ofHead
  split
  · unfold quoted
    split <;> simp
  split
  · simp
  split
  · simp
  · unfold mark
    split <;> simp [Token.Kind.text, Punctuator.text]

end Lexeme

end Pseudocode

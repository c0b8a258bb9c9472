import Pseudocode.Report.Style

/-!
# The painter of a terminal

On a terminal, an escape sequence turns a style on, and another one turns every style off again.

## Main definitions

* `Painter.terminal`: writes texts in colours, or as they stand.
-/

namespace Pseudocode

namespace Style

/-- The codes of a style. -/
def codes : Style → String
  | bold => "1"
  | red => "31"
  | boldRed => "1;31"
  | boldBlue => "1;34"

/-- The sequence that turns a style on. -/
def opening (s : Style) : String :=
  "\x1b[" ++ s.codes ++ "m"

/-- The sequence that turns every style off. -/
def reset : String := "\x1b[0m"

/-- Turns the style on again behind every sequence inside a text that turns it off. -/
def reopen (opening : List Char) : List Char → List Char
  | [] => []
  | '\x1b' :: '[' :: '0' :: 'm' :: rest =>
    '\x1b' :: '[' :: '0' :: 'm' :: (opening ++ reopen opening rest)
  | c :: rest => c :: reopen opening rest

end Style

/-- Writes texts in colours, if there are colours at all. An empty text is styled too. -/
def Painter.terminal (colour : Bool) : Painter :=
  if colour then fun s text ↦
    s.opening ++ String.ofList (Style.reopen s.opening.toList text.toList) ++ Style.reset
  else
    .plain

end Pseudocode

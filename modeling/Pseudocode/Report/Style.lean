/-!
# Styled text

What is told about a program is styled piece by piece. How a text looks in a style is not known
here: it is up to the painter, and without colours every text stands as it is.

## Main definitions

* `Style`: the styles in use.
* `Painter`: how texts are written in styles.
-/

namespace Pseudocode

/-- The styles in use. -/
inductive Style where
  | bold
  | red
  | boldRed
  | boldBlue
deriving DecidableEq

/-- How a text is written in a style. -/
abbrev Painter : Type :=
  Style → String → String

/-- Writes every text as it stands. -/
def Painter.plain : Painter := fun _ text ↦ text

end Pseudocode

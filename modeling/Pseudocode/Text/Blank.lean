/-!
# Blank characters

The characters with the property `White_Space` of the Unicode character database: twenty-five code
points, in ten ranges.

## Main definitions

* `Text.blankRanges`: the ranges of the property.
* `Text.isBlank`: membership in the property.
-/

namespace Pseudocode.Text

/-- First and last code point of each range of `White_Space`, in increasing order. -/
def blankRanges : List (Nat × Nat) :=
  [(0x09, 0x0D), (0x20, 0x20), (0x85, 0x85), (0xA0, 0xA0), (0x1680, 0x1680), (0x2000, 0x200A),
    (0x2028, 0x2029), (0x202F, 0x202F), (0x205F, 0x205F), (0x3000, 0x3000)]

/-- Whether the character is white space. -/
def isBlank (c : Char) : Bool :=
  blankRanges.any fun r ↦ r.1 ≤ c.toNat && c.toNat ≤ r.2

/-- Whether a text has no character other than white space. -/
def isAllBlank (text : List Char) : Bool :=
  text.all isBlank

example : (blankRanges.map fun r ↦ r.2 + 1 - r.1).sum = 25 := by decide

/-- A line break is white space. -/
theorem isBlank_newline : isBlank '\n' = true := by decide

end Pseudocode.Text

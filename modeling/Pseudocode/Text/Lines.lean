/-!
# Lines of a text

A text is cut into lines behind every line feed. The line feed is not part of the line, nor is a
carriage return right before it. A text that ends in a line feed has no further empty line, and an
empty text has no line at all.

## Main definitions

* `Text.segments`: the pieces of a text, each up to and including a line feed.
* `Text.lines`: the lines of a text.

## Main results

* `Text.flatten_segments`: cutting a text into segments loses nothing.
-/

namespace Pseudocode.Text

/-- Puts a character in front of a text that is cut into segments. -/
def consSegments (c : Char) (rest : List (List Char)) : List (List Char) :=
  if c = '\n' then
    [c] :: rest
  else
    match rest with
    | [] => [[c]]
    | first :: others => (c :: first) :: others

/-- The pieces of a text: every piece but the last ends with the only line feed in it. -/
def segments (text : List Char) : List (List Char) :=
  text.foldr consSegments []

/-- A segment without its line end: a line feed, with the carriage return before it if any. -/
def withoutLineEnd (segment : List Char) : List Char :=
  match segment.reverse with
  | '\n' :: '\r' :: line => line.reverse
  | '\n' :: line => line.reverse
  | _ => segment

/-- The lines of a text. -/
def lines (text : String) : List String :=
  (segments text.toList).map fun s ↦ String.ofList (withoutLineEnd s)

@[simp]
theorem segments_nil : segments [] = [] := rfl

@[simp]
theorem segments_cons (c : Char) (text : List Char) :
    segments (c :: text) = consSegments c (segments text) := rfl

theorem flatten_consSegments (c : Char) (rest : List (List Char)) :
    (consSegments c rest).flatten = c :: rest.flatten := by
  unfold consSegments
  split
  · rfl
  · split <;> rfl

theorem flatten_segments (text : List Char) : (segments text).flatten = text := by
  induction text with
  | nil => rfl
  | cons c text ih => rw [segments_cons, flatten_consSegments, ih]

end Pseudocode.Text

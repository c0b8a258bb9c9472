import Pseudocode.Token.Basic

/-!
# Streams of tokens

A stream holds the tokens that are still ahead of a reader, and the end of input that closes them.
The end of input is never passed: a reader that has taken every token keeps seeing it.

## Main definitions

* `Stream`: the tokens ahead and the place of the end of input.
* `Stream.ofTokens`: the stream of a list of tokens, up to its first end of input.
* `Stream.peek`, `Stream.advance`: looking at the next token and taking it.

## Main results

* `Stream.ofTokens_append_end`: what follows the first end of input does not matter.
-/

namespace Pseudocode

/-- The tokens ahead of a reader, and where the end of input stands behind them. -/
structure Stream where
  /-- The tokens ahead. -/
  ahead : List Token
  /-- Where the end of input starts. -/
  endStart : Location
  /-- Where the end of input stops. -/
  endStop : Location
deriving DecidableEq

namespace Stream

/-- The end of input behind the tokens ahead. -/
def close (s : Stream) : Token :=
  { kind := .endOfInput, start := s.endStart, stop := s.endStop }

/-- The tokens before the first end of input, closed by a token. -/
def closedBy (tokens : List Token) (last : Token) : Stream where
  ahead := tokens.takeWhile (!·.isEnd)
  endStart := last.start
  endStop := last.stop

/-- The stream of a list of tokens. It is closed by the first end of input in the list. A list
without one is closed where its last token stops. -/
def ofTokens (tokens : List Token) : Stream :=
  closedBy tokens <|
    (tokens.find? (·.isEnd)).getD (Token.endAt ((tokens.getLast?.map (·.stop)).getD {}))

/-- The number of tokens ahead. -/
def length (s : Stream) : Nat :=
  s.ahead.length

/-- The next token, which stays ahead. -/
def peek (s : Stream) : Token :=
  s.ahead.headD s.close

/-- The stream behind the next token. The end of input stays. -/
def advance (s : Stream) : Stream :=
  { s with ahead := s.ahead.tail }

/-- Whether every token is taken. -/
def atEnd (s : Stream) : Bool :=
  s.ahead.isEmpty

/-- The stream from the first token on that satisfies `p`. -/
def dropUntil (p : Token → Bool) (s : Stream) : Stream :=
  { s with ahead := s.ahead.dropWhile (!p ·) }

theorem length_advance (s : Stream) : s.advance.length = s.length - 1 := by
  simp [advance, length]

theorem length_advance_le (s : Stream) : s.advance.length ≤ s.length := by
  rw [length_advance]
  exact Nat.sub_le ..

/-- Whatever is not the end of input can be taken. -/
theorem length_advance_lt {s : Stream} (h : s.peek.kind ≠ .endOfInput) :
    s.advance.length < s.length := by
  cases hs : s.ahead with
  | nil => simp [peek, close, hs] at h
  | cons t rest => simp [advance, length, hs]

theorem length_dropUntil_le (p : Token → Bool) (s : Stream) :
    (s.dropUntil p).length ≤ s.length :=
  (List.dropWhile_sublist _).length_le

theorem atEnd_iff {s : Stream} : s.atEnd = true ↔ s.length = 0 := by
  simp [atEnd, length]

/-- What follows the first end of input does not matter. -/
theorem ofTokens_append_end {tokens : List Token} {t : Token} (ht : t.isEnd = true)
    (more : List Token) : ofTokens (tokens ++ t :: more) = ofTokens (tokens ++ [t]) := by
  have hahead : ∀ l : List Token,
      (tokens ++ t :: l).takeWhile (!·.isEnd) = tokens.takeWhile (!·.isEnd) := by
    intro l
    induction tokens with
    | nil => simp [ht]
    | cons u tokens ih => simp [List.takeWhile_cons, ih]
  have hclose : ∀ l : List Token,
      (tokens ++ t :: l).find? (·.isEnd) = some ((tokens.find? (·.isEnd)).getD t) := by
    intro l
    simp [List.find?_append, ht, Option.or_some]
  simp only [ofTokens, closedBy, hahead, hclose, Option.getD_some]

end Stream

end Pseudocode

import Pseudocode.Grammar.Rule

/-!
# Tokens at other places

Tokens may be moved to other places. Whatever tells about places is moved along: the errors, the
trail, and the tokens that are left.

## Main definitions

* `Token.relocate`, `Stream.relocate`: tokens at other places.
* `Outcome.relocate`: what a rule does, told about other places.
-/

namespace Pseudocode

/-! ### Tokens and streams -/

section Tokens

variable (f : Span → Span)

/-- The token at another place. A token that runs backwards stays where it is. -/
def Token.relocate (t : Token) : Token :=
  match t.span? with
  | some span => { t with start := (f span).start, stop := (f span).stop }
  | none => t

@[simp]
theorem Token.kind_relocate (t : Token) : (t.relocate f).kind = t.kind := by
  unfold Token.relocate
  split <;> rfl

theorem Token.relocate_of_span? {t : Token} {span : Span} (h : t.span? = some span) :
    t.relocate f = { t with start := (f span).start, stop := (f span).stop } := by
  simp only [Token.relocate, h]

@[simp]
theorem Token.span?_relocate (t : Token) : (t.relocate f).span? = t.span?.map f := by
  cases h : t.span? with
  | none => simp only [Token.relocate, h, Option.map_none]
  | some span =>
    rw [Token.relocate_of_span? f h]
    exact Span.between?_eq_some_iff.2 ⟨rfl, rfl⟩

theorem Token.relocate_id (t : Token) : t.relocate id = t := by
  cases h : t.span? with
  | none => simp only [Token.relocate, h]
  | some span =>
    obtain ⟨hstart, hstop⟩ := Span.between?_eq_some_iff.1 h
    rw [Token.relocate_of_span? id h, id, hstart, hstop]

/-- The stream with all tokens at other places. -/
def Stream.relocate (s : Stream) : Stream where
  ahead := s.ahead.map (·.relocate f)
  endStart := (s.close.relocate f).start
  endStop := (s.close.relocate f).stop

theorem Stream.close_relocate (s : Stream) : (s.relocate f).close = s.close.relocate f := by
  have hkind : (s.close.relocate f).kind = .endOfInput := Token.kind_relocate f s.close
  rw [Stream.close, ← hkind]
  rfl

end Tokens

/-! ### Errors, trails and outcomes -/

section Outcomes

variable (f : Span → Span)

/-- The error at another place. -/
def SyntaxError.relocate (e : SyntaxError) : SyntaxError :=
  { e with span := f e.span }

/-- The failure at another place. -/
def Failure.relocate : Failure → Failure
  | .syntactic e => .syntactic (e.relocate f)
  | .unordered t => .unordered (t.relocate f)

/-- The event, told about other places. -/
def Event.relocate : Event → Event
  | .met x => .met x
  | .understood name => .understood name
  | .discarded e => .discarded (e.relocate f)
  | .rejected e => .rejected (e.relocate f)

/-- The outcome, told about other places. The function `g` moves the result. -/
def Outcome.relocate {α β : Type} (g : α → β) (o : Outcome α) : Outcome β where
  result := (o.result.map g).mapError (Failure.relocate f)
  rest := o.rest.relocate f
  events := o.events.map (Event.relocate f)

end Outcomes

end Pseudocode

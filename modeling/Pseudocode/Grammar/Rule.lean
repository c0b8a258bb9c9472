import Pseudocode.Grammar.Stream
import Pseudocode.Grammar.Trail

/-!
# Grammar rules

A rule reads some tokens from the front of a stream. It ends with a result or a failure, the
stream that is left, and the trail that it leaves. Rules are put together with `do`: the second
rule goes on where the first stopped, and their trails follow each other.

Repetition and self-reference go through two combinators, `many` and `nest`. The tokens ahead bound
the number of rounds of both, which is enough for rules that take a token before they come round
again.

## Main definitions

* `Outcome`: result, rest and trail of a rule.
* `Rule`: a function from streams to outcomes, with its monad structure.
* `Rule.expect`, `Rule.fail`, `Rule.attempt`: the steps that rules are made of.
* `Rule.many`: repeats a rule as long as the next token asks for it.
* `Rule.nest`: a rule that may refer to itself.
-/

namespace Pseudocode

/-- What becomes of a stream under a rule. -/
structure Outcome (α : Type) where
  /-- What was read, or why reading stopped. -/
  result : Except Failure α
  /-- The stream that is left. -/
  rest : Stream
  /-- The trail. -/
  events : List Event

/-- A way to read something from the front of a stream. -/
def Rule (α : Type) : Type :=
  Stream → Outcome α

namespace Rule

variable {α β : Type}

/-- Reads nothing. -/
protected def pure (a : α) : Rule α := fun s ↦
  { result := .ok a, rest := s, events := [] }

/-- One rule after the other. A failure of the first is a failure of both. -/
protected def bind (r : Rule α) (f : α → Rule β) : Rule β := fun s ↦
  match r s with
  | { result := .ok a, rest, events } =>
    let after := f a rest
    { after with events := Trail.concat events after.events }
  | { result := .error e, rest, events } => { result := .error e, rest, events }

instance : Monad Rule where
  pure := Rule.pure
  bind := Rule.bind

/-! ### Laws of sequencing -/

theorem pure_apply (a : α) (s : Stream) :
    (pure a : Rule α) s = { result := .ok a, rest := s, events := [] } := rfl

theorem bind_of_ok {r : Rule α} {s : Stream} {a : α} (f : α → Rule β)
    (h : (r s).result = .ok a) :
    (r >>= f) s =
      { result := (f a (r s).rest).result
        rest := (f a (r s).rest).rest
        events := (r s).events ++ (f a (r s).rest).events } := by
  change Rule.bind r f s = _
  rcases hr : r s with ⟨result, rest, events⟩
  rw [hr] at h
  subst h
  simp [Rule.bind, hr]

theorem bind_of_error {r : Rule α} {s : Stream} {e : Failure} (f : α → Rule β)
    (h : (r s).result = .error e) :
    (r >>= f) s = { result := .error e, rest := (r s).rest, events := (r s).events } := by
  change Rule.bind r f s = _
  rcases hr : r s with ⟨result, rest, events⟩
  rw [hr] at h
  subst h
  simp [Rule.bind, hr]

/-! ### Single steps -/

/-- Looks at the next token. -/
def peek : Rule Token := fun s ↦
  { result := .ok s.peek, rest := s, events := [] }

/-- Takes the next token. -/
def advance : Rule Unit := fun s ↦
  { result := .ok (), rest := s.advance, events := [] }

/-- Whether every token is taken. -/
def atEnd : Rule Bool := fun s ↦
  { result := .ok s.atEnd, rest := s, events := [] }

/-- Takes the tokens before the first one that satisfies `p`. -/
def skipUntil (p : Token → Bool) : Rule Unit := fun s ↦
  { result := .ok (), rest := s.dropUntil p, events := [] }

/-- Adds an event to the trail. -/
def leave (e : Event) : Rule Unit := fun s ↦
  { result := .ok (), rest := s, events := [e] }

/-- Stops reading. -/
def stop (f : Failure) : Rule α := fun s ↦
  { result := .error f, rest := s, events := [] }

/-- Runs a rule and turns a syntax error into a value. -/
def attempt (r : Rule α) : Rule (Except SyntaxError α) := fun s ↦
  let o := r s
  match o.result with
  | .ok a => { o with result := .ok (.ok a) }
  | .error (.syntactic e) => { o with result := .ok (.error e) }
  | .error (.unordered t) => { o with result := .error (.unordered t) }

/-- The span of a token. -/
def spanOf (t : Token) : Rule Span :=
  match t.span? with
  | some span => pure span
  | none => stop (.unordered t)

/-- Fails at the next token because of what is wanted there. -/
def fail (wanted : Expectation) : Rule α := do
  let t ← peek
  let span ← spanOf t
  stop (.syntactic { span, expectation := wanted, found := t.kind.text })

/-- Takes a token of the given class, and fails if the next token is of another class. -/
def expect (c : Token.Category) : Rule Unit := do
  if (← peek).kind.category = c then advance else fail (.token c)

/-- Takes the given keyword. -/
def keyword (k : Keyword) : Rule Unit :=
  expect (.keyword k)

/-- Takes the given mark. -/
def mark (p : Punctuator) : Rule Unit :=
  expect (.punctuator p)

/-- Leaves a symbol on the trail. -/
def meet (s : Symbol) : Rule Symbol := do
  leave (.met s)
  pure s

/-! ### Repetition and self-reference -/

/-- `Rule.many` with a round for each token of a list at most. -/
def manyAlong (starts : Token.Kind → Option β) (item : β → Rule α) : List Token → Rule (List α)
  | [] => pure []
  | _ :: bound => do
    match starts (← peek).kind with
    | none => pure []
    | some b =>
      let first ← item b
      let others ← manyAlong starts item bound
      pure (first :: others)

/-- Reads an item as long as `starts` has an answer for the next token. The item has to take that
token, so there are no more rounds than tokens ahead. -/
def many (starts : Token.Kind → Option β) (item : β → Rule α) : Rule (List α) := fun s ↦
  manyAlong starts item s.ahead s

/-- `Rule.nest` with a level of nesting for each token of a list at most, and `base` below. -/
def nestAlong (base : Rule α) (rule : Rule α → Rule α) : List Token → Rule α
  | [] => base
  | _ :: bound => rule (nestAlong base rule bound)

/-- A rule that may refer to itself. It has to take a token before it does, so it is nested no
deeper than there are tokens ahead, and `base` is never reached. -/
def nest (base : Rule α) (rule : Rule α → Rule α) : Rule α := fun s ↦
  rule (nestAlong base rule s.ahead) s

/-- One item, and another one behind each comma. -/
def list (item : Rule α) : Rule (List α) := do
  let first ← item
  let others ← many (fun kind ↦ if kind = .punctuator .comma then some () else none) fun _ ↦ do
    mark .comma
    item
  pure (first :: others)

/-- What stands between parentheses. -/
def parenthesized (item : Rule α) : Rule α := do
  mark .leftParenthesis
  let a ← item
  mark .rightParenthesis
  pure a

end Rule

end Pseudocode

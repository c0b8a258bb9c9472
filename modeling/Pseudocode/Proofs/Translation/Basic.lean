import Pseudocode.Proofs.Derivation.Phrase
import Pseudocode.Proofs.Relocation.Evaluation
import Pseudocode.Proofs.Relocation.Tokens

/-!
# Other names and other places

Variables may get other names, and tokens may be moved to other places. Whatever tells about names
and places is translated along: the symbols and operators of a tree, the errors, and the tokens that
are left.

An error tells the text of the token that was found. So the names have to be translated in such a
way that this text is the text of the translated token; for a token that is no variable, this means
that its text is kept.

## Main definitions

* `Symbol.rename`, `Token.rename`: symbols and tokens under other names.
* `Translation`: other names and other places, and what becomes of all that tells about them.
* `Translation.Covers`: the text of a token is translated as the token is.
* `Translation.moving`, `Translation.naming`: other places only, and other names only.

## Main results

* `Translation.peek_stream`: the next token of a translated stream.
* `Translation.moving_outcome`: a translation that keeps names does nothing but move.
* `Translation.naming_stream_ofTokens`: the stream of tokens under other names.
-/

namespace Pseudocode

open Token (Kind)

/-! ### Other names -/

section Rename

variable (ρ : String → String)

/-- The symbol under another name. A literal keeps its digits. -/
def Symbol.rename : Symbol → Symbol
  | var name => var (ρ name)
  | literal digits value => literal digits value

namespace Token

/-- The kind under another name, if it is a variable. -/
def Kind.rename : Kind → Kind
  | .var name => .var (ρ name)
  | kind => kind

/-- The token under another name, if it is a variable. -/
def rename (t : Token) : Token :=
  { t with kind := t.kind.rename ρ }

namespace Kind

variable {ρ} (kind : Kind)

@[simp]
theorem category_rename : (kind.rename ρ).category = kind.category := by
  cases kind <;> rfl

theorem name?_rename : (kind.rename ρ).name? = kind.name?.map ρ := by
  cases kind <;> rfl

theorem contents?_rename : (kind.rename ρ).contents? = kind.contents? := by
  cases kind <;> rfl

theorem rename_eq_keyword_iff {k : Keyword} : kind.rename ρ = .keyword k ↔ kind = .keyword k := by
  cases kind <;> simp [rename]

theorem rename_eq_punctuator_iff {p : Punctuator} :
    kind.rename ρ = .punctuator p ↔ kind = .punctuator p := by
  cases kind <;> simp [rename]

theorem rename_id : kind.rename id = kind := by
  cases kind <;> rfl

end Kind

end Token

theorem Operator.ofKind?_rename (kind : Kind) : ofKind? (kind.rename ρ) = ofKind? kind := by
  cases kind <;> rfl

theorem Grammar.Form.ofKind?_rename (kind : Kind) : ofKind? (kind.rename ρ) = ofKind? kind := by
  cases kind <;> rfl

/-- The form of a factor under another name. -/
def Grammar.Factor.rename : Factor → Factor
  | leaf x => leaf (x.rename ρ)
  | form => form

theorem Grammar.Factor.ofKind?_rename (kind : Kind) :
    ofKind? (kind.rename ρ) = (ofKind? kind).map (rename ρ) := by
  rcases kind with k | p | _ | _ | _ | _ | _
  · cases k <;> rfl
  · cases p <;> rfl
  all_goals rfl

theorem Symbol.rename_id : Symbol.rename id = id := by
  funext x
  cases x <;> rfl

end Rename

/-! ### Translations -/

/-- Other names for variables, and other places. -/
structure Translation where
  /-- The name that takes the place of a name. -/
  name : String → String
  /-- The place that a place is moved to. -/
  span : Span → Span

namespace Translation

variable (T : Translation)

/-- The token under another name and at another place. -/
def token (t : Token) : Token :=
  (t.relocate T.span).rename T.name

/-- The stream with all tokens under other names and at other places. -/
def stream (s : Stream) : Stream where
  ahead := s.ahead.map T.token
  endStart := (T.token s.close).start
  endStop := (T.token s.close).stop

/-- The error about the translated token. -/
def error (e : SyntaxError) : SyntaxError where
  span := T.span e.span
  expectation := e.expectation
  found := T.name e.found

/-- The failure at the translated token. -/
def failure : Failure → Failure
  | .syntactic e => .syntactic (T.error e)
  | .unordered t => .unordered (T.token t)

/-- The event, told about other names and places. -/
def event : Event → Event
  | .met x => .met (x.rename T.name)
  | .understood name => .understood name
  | .discarded e => .discarded (T.error e)
  | .rejected e => .rejected (T.error e)

/-- The outcome, told about other names and places. The function `g` translates the result. -/
def outcome {α β : Type} (g : α → β) (o : Outcome α) : Outcome β where
  result := (o.result.map g).mapError T.failure
  rest := T.stream o.rest
  events := o.events.map T.event

/-- The tree with its symbols under other names and its operators at other places. -/
def tree (t : Tree Symbol) : Tree Symbol :=
  (t.map (Symbol.rename T.name)).relocate T.span

/-- `Translation.tree` inside an arm. -/
def arm : Arm Symbol → Arm Symbol
  | .guarded condition body => .guarded (T.tree condition) (T.tree body)
  | .otherwise body => .otherwise (T.tree body)

/-- `Translation.tree` inside a clause. -/
def clause : Clause Symbol → Clause Symbol
  | .absent => .absent
  | .assign target expression => .assign (target.rename T.name) (T.tree expression)

/-- `Translation.tree` inside an item. -/
def item : Item Symbol → Item Symbol
  | .value expression => .value (T.tree expression)
  | .text contents => .text contents

/-- The text of the token is translated as the token is. -/
def Covers (t : Token) : Prop :=
  T.name t.kind.text = (t.kind.rename T.name).text

/-! ### Tokens and streams -/

@[simp]
theorem kind_token (t : Token) : (T.token t).kind = t.kind.rename T.name := by
  rw [token, Token.rename, Token.kind_relocate]

@[simp]
theorem span?_token (t : Token) : (T.token t).span? = t.span?.map T.span :=
  Token.span?_relocate T.span t

theorem close_stream (s : Stream) : (T.stream s).close = T.token s.close := by
  have hkind : (T.token s.close).kind = .endOfInput := T.kind_token s.close
  rw [Stream.close, ← hkind]
  rfl

@[simp]
theorem peek_stream (s : Stream) : (T.stream s).peek = T.token s.peek := by
  unfold Stream.peek
  rw [close_stream]
  cases h : s.ahead <;> simp [stream, h]

@[simp]
theorem advance_stream (s : Stream) : (T.stream s).advance = T.stream s.advance := by
  simp [Stream.advance, stream, Stream.close]

@[simp]
theorem atEnd_stream (s : Stream) : (T.stream s).atEnd = s.atEnd := by
  simp [Stream.atEnd, stream]

theorem dropUntil_stream {p : Token → Bool} (hp : ∀ t : Token, p (T.token t) = p t) (s : Stream) :
    (T.stream s).dropUntil p = T.stream (s.dropUntil p) := by
  simp [Stream.dropUntil, stream, Stream.close, List.dropWhile_map, Function.comp_def, hp]

/-! ### Trees -/

theorem tree_sequence (items : List (Tree Symbol)) :
    T.tree (.sequence items) = .sequence (items.map T.tree) := by
  rw [tree, Tree.map, Tree.relocate, Tree.mapList_eq_map, Tree.relocateList_eq_map, List.map_map]
  rfl

theorem tree_choice (arms : List (Arm Symbol)) :
    T.tree (.choice arms) = .choice (arms.map T.arm) := by
  rw [tree, Tree.map, Tree.relocate]
  congr 1
  induction arms with
  | nil => rfl
  | cons arm arms ih =>
    cases arm <;> rw [Tree.mapArms, Tree.relocateArms, ih, List.map_cons] <;> rfl

theorem tree_write (items : List (Item Symbol)) :
    T.tree (.write items) = .write (items.map T.item) := by
  rw [tree, Tree.map, Tree.relocate]
  congr 1
  induction items with
  | nil => rfl
  | cons item items ih =>
    cases item <;> rw [Tree.mapItems, Tree.relocateItems, ih, List.map_cons] <;> rfl

@[simp]
theorem name_tree (t : Tree Symbol) : (T.tree t).name = t.name := by
  cases t <;> rfl

end Translation

/-! ### Other places only, and other names only -/

namespace Translation

/-- Names are kept, and places are moved. -/
def moving (f : Span → Span) : Translation where
  name := id
  span := f

/-- Variables get other names, and places are kept. -/
def naming (ρ : String → String) : Translation where
  name := ρ
  span := id

section Moving

variable (f : Span → Span)

theorem moving_covers (t : Token) : (moving f).Covers t := by
  rw [Covers, moving, Kind.rename_id]
  rfl

theorem moving_token : (moving f).token = Token.relocate f := by
  funext t
  rw [token, moving, Token.rename, Kind.rename_id]

theorem moving_stream : (moving f).stream = Stream.relocate f := by
  funext s
  rw [stream, moving_token]
  rfl

theorem moving_failure : (moving f).failure = Failure.relocate f := by
  funext failure
  cases failure with
  | syntactic e => rfl
  | unordered t => exact congrArg (fun g ↦ Failure.unordered (g t)) (moving_token f)

theorem moving_event : (moving f).event = Event.relocate f := by
  funext x
  cases x with
  | met x => exact congrArg (fun g ↦ Event.met (g x)) Symbol.rename_id
  | understood name | discarded e | rejected e => rfl

theorem moving_tree : (moving f).tree = Tree.relocate f := by
  funext t
  rw [tree, moving, Symbol.rename_id, Tree.map_id]

theorem moving_outcome {α β : Type} (g : α → β) (o : Outcome α) :
    (moving f).outcome g o = o.relocate f g := by
  rw [outcome, moving_failure, moving_stream, moving_event]
  rfl

end Moving

section Naming

variable (ρ : String → String)

theorem naming_token : (naming ρ).token = Token.rename ρ := by
  funext t
  rw [token, naming, Token.relocate_id]

theorem naming_tree (t : Tree Symbol) : (naming ρ).tree t = t.map (Symbol.rename ρ) := by
  rw [tree, naming, Tree.relocate_id]

/-- The stream of tokens under other names. -/
theorem naming_stream_ofTokens (tokens : List Token) :
    (naming ρ).stream (Stream.ofTokens tokens) =
      Stream.ofTokens (tokens.map (Token.rename ρ)) := by
  have hend (t : Token) : (t.rename ρ).isEnd = t.isEnd := by
    obtain ⟨kind, start, stop⟩ := t
    cases kind <;> rfl
  rw [stream, naming_token, Stream.ofTokens, Stream.ofTokens, Stream.closedBy, Stream.closedBy,
    List.takeWhile_map, List.find?_map, List.getLast?_map]
  simp only [Function.comp_def, hend]
  cases tokens.find? (·.isEnd) with
  | none => cases tokens.getLast? <;> rfl
  | some t => rfl

end Naming

end Translation

end Pseudocode

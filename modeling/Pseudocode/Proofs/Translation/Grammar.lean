import Pseudocode.Proofs.Diagnostics
import Pseudocode.Proofs.Translation.Basic

/-!
# Reading under other names and at other places

What the reader does depends on the kinds of the tokens alone, and not on the names of variables.
Under other names and at other places it does the same, and whatever it tells about names and places
is translated along.

## Main definitions

* `Rule.Translates`: one rule does under other names and at other places what another one does.

## Main results

* `Rule.Translates.bind`, `Rule.Translates.many`, `Rule.Translates.nest`: the combinators keep this.
* `Grammar.translates_program`: the rule of programs does the same after a translation.
-/

namespace Pseudocode

open Token (Kind)

/-! ### Rules -/

namespace Rule

variable {α β γ δ : Type} {T : Translation}

/-- On tokens whose texts are translated as they are, the rule `r'` does under other names and at
other places what `r` does. The function `g` translates the result. -/
def Translates (T : Translation) (g : α → β) (r : Rule α) (r' : Rule β) : Prop :=
  ∀ s : Stream, (∀ t ∈ s.all, T.Covers t) →
    r' (T.stream s) = T.outcome g (r s) ∧ ∀ t ∈ (r s).rest.all, T.Covers t

theorem translates_pure (g : α → β) (a : α) : Translates T g (pure a) (pure (g a)) :=
  fun _ hs ↦ ⟨rfl, hs⟩

theorem translates_pure_of_eq {g : α → β} {a : α} {b : β} (h : g a = b) :
    Translates T g (pure a) (pure b) :=
  h ▸ translates_pure g a

theorem translates_advance : Translates T id advance advance := by
  intro s hs
  refine ⟨?_, fun t ht ↦ hs t (s.all_advance_suffix.mem ht)⟩
  rw [advance, T.advance_stream]
  rfl

theorem translates_atEnd : Translates T id atEnd atEnd := by
  intro s hs
  refine ⟨?_, hs⟩
  rw [atEnd, T.atEnd_stream]
  rfl

theorem translates_skipUntil {p : Token → Bool} (hp : ∀ t : Token, p (T.token t) = p t) :
    Translates T id (skipUntil p) (skipUntil p) := by
  intro s hs
  refine ⟨?_, fun t ht ↦ hs t ((s.all_dropUntil_suffix p).mem ht)⟩
  rw [skipUntil, T.dropUntil_stream hp]
  rfl

theorem translates_leave (e : Event) : Translates T id (leave e) (leave (T.event e)) :=
  fun _ hs ↦ ⟨rfl, hs⟩

theorem translates_stop (g : α → β) (failure : Failure) :
    Translates T g (stop failure) (stop (T.failure failure)) :=
  fun _ hs ↦ ⟨rfl, hs⟩

namespace Translates

theorem bind {g : α → β} {h : γ → δ} {r : Rule α} {r' : Rule β} {k : α → Rule γ} {k' : β → Rule δ}
    (hr : Translates T g r r') (hk : ∀ a, Translates T h (k a) (k' (g a))) :
    Translates T h (r >>= k) (r' >>= k') := by
  intro s hs
  obtain ⟨heq, hrest⟩ := hr s hs
  cases hresult : (r s).result with
  | ok a =>
    have hresult' : (r' (T.stream s)).result = .ok (g a) := by
      rw [heq, Translation.outcome, hresult]
      rfl
    obtain ⟨heq', hrest'⟩ := hk a _ hrest
    rw [bind_of_ok k hresult, bind_of_ok k' hresult', heq]
    refine ⟨?_, hrest'⟩
    simp only [Translation.outcome, heq', List.map_append]
  | error e =>
    have hresult' : (r' (T.stream s)).result = .error (T.failure e) := by
      rw [heq, Translation.outcome, hresult]
      rfl
    rw [bind_of_error k hresult, bind_of_error k' hresult', heq]
    exact ⟨rfl, hrest⟩

/-- Behind a look at the next token, the token is translated. -/
theorem peek_bind {h : γ → δ} {k : Token → Rule γ} {k' : Token → Rule δ}
    (hk : ∀ t, T.Covers t → Translates T h (k t) (k' (T.token t))) :
    Translates T h (peek >>= k) (peek >>= k') := by
  intro s hs
  rw [Rule.peek_bind, Rule.peek_bind, T.peek_stream]
  exact hk s.peek (hs _ s.peek_mem_all) s hs

/-- The result may be worked on behind a rule. -/
theorem map {g : α → β} {h : γ → δ} {r : Rule α} {r' : Rule β} (hr : Translates T g r r')
    {k : α → γ} {k' : β → δ} (hk : ∀ a, h (k a) = k' (g a)) :
    Translates T h (r >>= fun a ↦ pure (k a)) (r' >>= fun b ↦ pure (k' b)) :=
  hr.bind fun a ↦ translates_pure_of_eq (hk a)

/-- A syntax error that is turned into a value is translated as one. -/
theorem attempt {g : α → β} {r : Rule α} {r' : Rule β} (hr : Translates T g r r') :
    Translates T (fun result ↦ (result.map g).mapError T.error) (attempt r) (attempt r') := by
  intro s hs
  obtain ⟨heq, hrest⟩ := hr s hs
  rw [Rule.attempt, heq, Rule.attempt]
  revert hrest
  rcases r s with ⟨_ | _, rest, events⟩
  · next e => cases e <;> exact fun hrest ↦ ⟨rfl, hrest⟩
  · exact fun hrest ↦ ⟨rfl, hrest⟩

theorem many {g : α → β} {starts : Kind → Option γ} {item : γ → Rule α} {item' : γ → Rule β}
    (hstarts : ∀ kind, starts (kind.rename T.name) = starts kind)
    (h : ∀ c, Translates T g (item c) (item' c)) :
    Translates T (List.map g) (many starts item) (many starts item') := by
  -- the bound on the rounds is translated along with the stream, which keeps its length
  have along (bound : List Token) : Translates T (List.map g) (manyAlong starts item bound)
      (manyAlong starts item' (bound.map T.token)) := by
    induction bound with
    | nil => exact translates_pure _ _
    | cons t bound ih =>
      refine peek_bind fun t _ ↦ ?_
      rw [T.kind_token, hstarts]
      split
      · exact translates_pure _ _
      · exact (h _).bind fun _ ↦ ih.map fun _ ↦ rfl
  exact fun s ↦ along s.ahead s

theorem nest {g : α → β} {base : Rule α} {base' : Rule β} {rule : Rule α → Rule α}
    {rule' : Rule β → Rule β} (hbase : Translates T g base base')
    (hrule : ∀ {p p'}, Translates T g p p' → Translates T g (rule p) (rule' p')) :
    Translates T g (nest base rule) (nest base' rule') := by
  have along (bound : List Token) : Translates T g (nestAlong base rule bound)
      (nestAlong base' rule' (bound.map T.token)) := by
    induction bound with
    | nil => exact hbase
    | cons t bound ih => exact hrule ih
  exact fun s ↦ hrule (along s.ahead) s

end Translates

/-! ### Steps that rules are made of -/

theorem translates_spanOf (t : Token) : Translates T T.span (spanOf t) (spanOf (T.token t)) := by
  rw [spanOf, spanOf, T.span?_token]
  cases t.span? with
  | none => exact translates_stop _ _
  | some span => exact translates_pure _ _

/-- An error tells how the token is written, so this has to be translated as the token is. -/
theorem translates_fail (g : α → β) (wanted : Expectation) :
    Translates T g (fail wanted) (fail wanted) := by
  refine .peek_bind fun t ht ↦ (translates_spanOf t).bind fun span ↦ ?_
  rw [T.kind_token, ← ht]
  exact translates_stop _ _

theorem translates_expect (c : Token.Category) : Translates T id (expect c) (expect c) := by
  refine .peek_bind fun t _ ↦ ?_
  rw [T.kind_token, Kind.category_rename]
  split
  · exact translates_advance
  · exact translates_fail _ _

/-- A token of a given class may stand in front. -/
theorem Translates.behind_expect {g : α → β} (c : Token.Category) {k : Unit → Rule α}
    {k' : Unit → Rule β} (hk : Translates T g (k ()) (k' ())) :
    Translates T g (expect c >>= k) (expect c >>= k') :=
  (translates_expect c).bind fun _ ↦ hk

theorem translates_meet (x : Symbol) :
    Translates T (Symbol.rename T.name) (meet x) (meet (x.rename T.name)) :=
  (translates_leave _).bind fun _ ↦ translates_pure _ _

theorem Translates.list {g : α → β} {item : Rule α} {item' : Rule β}
    (h : Translates T g item item') : Translates T (List.map g) (list item) (list item') := by
  refine h.bind fun _ ↦ (Translates.many (fun kind ↦ ?_) fun _ ↦ .behind_expect _ h).map fun _ ↦ rfl
  simp only [Kind.rename_eq_punctuator_iff]

theorem Translates.parenthesized {g : α → β} {item : Rule α} {item' : Rule β}
    (h : Translates T g item item') : Translates T g (parenthesized item) (parenthesized item') :=
  .behind_expect _ <| h.bind fun _ ↦ .behind_expect _ (translates_pure _ _)

end Rule

/-! ### The grammar -/

namespace Grammar

open Rule

variable {T : Translation}

/-- The link with its operand translated and its operator at another place. -/
def Link.translate (T : Translation) (l : Link) : Link :=
  { op := l.op, span := T.span l.span, operand := T.tree l.operand }

theorem translate_foldl_attach (lhs : Tree Symbol) (links : List Link) :
    T.tree (links.foldl Link.attach lhs) =
      (links.map (Link.translate T)).foldl Link.attach (T.tree lhs) := by
  induction links generalizing lhs with
  | nil => rfl
  | cons l links ih => exact ih (l.attach lhs)

/-- The rules `p` and `p'` read trees, the second one after a translation. -/
abbrev TranslatesTree (T : Translation) (p p' : Rule (Tree Symbol)) : Prop :=
  Translates T T.tree p p'

section Inner

variable {p p' : Rule (Tree Symbol)}

theorem translates_chain (hp : TranslatesTree T p p') : TranslatesTree T (chain p) (chain p') := by
  have hlink (op : Operator) : Translates T (Link.translate T) (link p op) (link p' op) :=
    .peek_bind fun t _ ↦ (translates_spanOf t).bind fun _ ↦ translates_advance.bind fun _ ↦
      hp.map fun _ ↦ rfl
  exact hp.bind fun first ↦ (Translates.many (Operator.ofKind?_rename _) hlink).map fun links ↦
    translate_foldl_attach first links

theorem translates_factorRule (hp : TranslatesTree T p p') :
    TranslatesTree T (factorRule p) (factorRule p') := by
  refine .peek_bind fun t _ ↦ ?_
  rw [T.kind_token, Factor.ofKind?_rename]
  cases Factor.ofKind? t.kind with
  | none => exact translates_fail _ _
  | some form =>
    cases form with
    | leaf x => exact translates_advance.bind fun _ ↦ (translates_meet x).map fun _ ↦ rfl
    | negative =>
      exact translates_advance.bind fun _ ↦ (translates_meet zero).bind fun _ ↦ hp.bind fun _ ↦
        (translates_spanOf t).map fun _ ↦ rfl
    | negated =>
      exact translates_advance.bind fun _ ↦ hp.bind fun _ ↦ (translates_spanOf t).map fun _ ↦ rfl
    | group => exact (translates_chain hp).parenthesized

end Inner

theorem translates_expression : TranslatesTree T expression expression :=
  translates_chain (.nest (translates_fail _ _) translates_factorRule)

theorem translates_variableName :
    Translates T (Symbol.rename T.name) variableName variableName := by
  refine .peek_bind fun t _ ↦ ?_
  rw [T.kind_token, Kind.name?_rename]
  cases t.kind.name? with
  | none => exact translates_fail _ _
  | some name => exact translates_advance.bind fun _ ↦ translates_meet (.var name)

theorem translates_assignment :
    Translates T (Prod.map (Symbol.rename T.name) T.tree) assignment assignment :=
  translates_variableName.bind fun _ ↦ .behind_expect _ (translates_expression.map fun _ ↦ rfl)

theorem translates_clauseBefore (closing : Punctuator) :
    Translates T T.clause (clauseBefore closing) (clauseBefore closing) := by
  refine .peek_bind fun t _ ↦ ?_
  rw [T.kind_token]
  simp only [Kind.rename_eq_punctuator_iff]
  split
  · exact translates_pure _ _
  · exact translates_assignment.map fun _ ↦ rfl

theorem translates_condition : TranslatesTree T condition condition :=
  translates_expression.parenthesized

theorem translates_item : Translates T T.item item item := by
  refine .peek_bind fun t _ ↦ ?_
  rw [T.kind_token, Kind.contents?_rename]
  split
  · exact translates_advance.bind fun _ ↦ translates_pure _ _
  · exact translates_expression.map fun _ ↦ rfl

section Inner

variable {p p' : Rule (Tree Symbol)}

theorem translates_sequenceOf (hp : TranslatesTree T p p') :
    TranslatesTree T (sequenceOf p) (sequenceOf p') :=
  hp.bind fun first ↦ (Translates.many (Form.ofKind?_rename _) fun _ ↦ hp).map fun others ↦
    T.tree_sequence (first :: others)

theorem translates_furtherArms (hp : TranslatesTree T p p') :
    Translates T (List.map T.arm) (furtherArms p) (furtherArms p') := by
  have hsequence := translates_sequenceOf hp
  have hguarded : Translates T T.arm (guardedArm p) (guardedArm p') :=
    .behind_expect _ <| translates_condition.bind fun _ ↦ hsequence.map fun _ ↦ rfl
  have hlast : Translates T (List.map T.arm) (lastArm p) (lastArm p') := by
    refine .peek_bind fun t _ ↦ ?_
    rw [T.kind_token]
    simp only [Kind.rename_eq_keyword_iff]
    split
    · exact translates_advance.bind fun _ ↦ hsequence.map fun _ ↦ rfl
    · exact translates_pure _ _
  refine (Translates.many (fun kind ↦ ?_) fun _ ↦ hguarded).bind fun _ ↦
    hlast.map fun _ ↦ List.map_append
  simp only [Kind.rename_eq_keyword_iff]

theorem translates_ifThen (hp : TranslatesTree T p p') :
    TranslatesTree T (ifThen p) (ifThen p') := by
  refine .behind_expect _ <| translates_condition.bind fun test ↦
    (translates_sequenceOf hp).bind fun body ↦ (translates_furtherArms hp).bind fun arms ↦
      .behind_expect _ (translates_pure_of_eq ?_)
  cases arms with
  | nil => rfl
  | cons arm arms => exact T.tree_choice (.guarded test body :: arm :: arms)

theorem translates_formRule (hp : TranslatesTree T p p') (form : Form) :
    TranslatesTree T (formRule p form) (formRule p' form) := by
  have hsequence := translates_sequenceOf hp
  cases form with
  | assignment =>
    exact translates_assignment.bind fun _ ↦ .behind_expect _ (translates_pure _ _)
  | ifThen => exact translates_ifThen hp
  | repeatUntil =>
    exact .behind_expect _ <| hsequence.bind fun _ ↦ .behind_expect _ <|
      translates_condition.map fun _ ↦ rfl
  | whileDo =>
    exact .behind_expect _ <| translates_condition.bind fun _ ↦ hsequence.bind fun _ ↦
      .behind_expect _ (translates_pure _ _)
  | forLoop =>
    refine .behind_expect _ <| .behind_expect _ <| (translates_clauseBefore _).bind fun init ↦
      .behind_expect _ <| translates_expression.bind fun test ↦ .behind_expect _ <|
        (translates_clauseBefore _).bind fun step ↦ .behind_expect _ <| hsequence.bind fun body ↦
          .behind_expect _ (translates_pure_of_eq ?_)
    cases init <;> cases step <;> rfl
  | write =>
    exact .behind_expect _ <| translates_item.list.parenthesized.map T.tree_write
  | read =>
    exact .behind_expect _ <| translates_variableName.list.parenthesized.map fun _ ↦ rfl

theorem translates_bareInstruction (hp : TranslatesTree T p p') :
    TranslatesTree T (bareInstruction p) (bareInstruction p') := by
  refine .peek_bind fun t _ ↦ ?_
  rw [T.kind_token, Form.ofKind?_rename]
  split
  · exact translates_formRule hp _
  · exact translates_fail _ _

/-- Recovery skips the same tokens and tells the same errors. -/
theorem translates_instructionRule (hp : TranslatesTree T p p') :
    TranslatesTree T (instructionRule p) (instructionRule p') := by
  refine (translates_bareInstruction hp).attempt.bind fun result ↦ ?_
  cases result with
  | ok tree =>
    refine .bind (g := id) ?_ fun _ ↦ translates_pure _ _
    rw [← T.name_tree tree]
    exact translates_leave _
  | error e =>
    have hstarts (t : Token) : startsInstruction (T.token t) = startsInstruction t := by
      rw [startsInstruction, T.kind_token, Form.ofKind?_rename, startsInstruction]
    refine (translates_leave _).bind fun _ ↦ translates_advance.bind fun _ ↦
      (translates_skipUntil hstarts).bind fun _ ↦ translates_atEnd.bind fun atEnd ↦ ?_
    cases atEnd with
    | true => exact translates_stop _ _
    | false => exact hp

end Inner

theorem translates_instruction : TranslatesTree T instruction instruction :=
  .nest (translates_fail _ _) translates_instructionRule

/-- A program is read in the same way under other names and at other places. -/
theorem translates_program : TranslatesTree T program program :=
  .behind_expect _ <| .behind_expect _ <| .behind_expect _ <| .behind_expect _ <|
    (translates_sequenceOf translates_instruction).bind fun _ ↦ .behind_expect _ <|
      .behind_expect _ (translates_pure _ _)

end Grammar

end Pseudocode

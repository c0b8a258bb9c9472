import Pseudocode.Grammar.Program

/-!
# Properties of all rules of the grammar

The rules of the grammar are put together from a few steps. A property of rules that holds of these
steps, and that sequencing and recovery keep, holds of the reader of programs. The tokens that a
rule looks at may be taken to have their locations in order.

## Main definitions

* `Rule.Closed`: a property of rules with a clause for each step that rules are made of.

## Main results

* `Rule.Closed.holds_expression`, `Rule.Closed.holds_program`: what is closed holds of expressions
  and of programs.
-/

namespace Pseudocode

namespace Rule

/-- A property of rules that holds of whatever the grammar puts together. -/
structure Closed (P : (α : Type) → Rule α → Prop) : Prop where
  /-- It holds of reading nothing. -/
  holds_pure : ∀ {α : Type} (a : α), P α (pure a)
  /-- Sequencing keeps it. -/
  holds_bind : ∀ {α β : Type} {r : Rule α} {f : α → Rule β}, P α r → (∀ a, P β (f a)) →
    P β (r >>= f)
  /-- What follows a look at the next token may depend on that token. -/
  holds_peek : ∀ {β : Type} {f : Token → Rule β}, (∀ t, t.Ordered → P β (f t)) → P β (peek >>= f)
  /-- It holds of taking the next token. -/
  holds_advance : P Unit advance
  /-- It holds of meeting a symbol. -/
  holds_meet : ∀ x, P Symbol (meet x)
  /-- It holds of failing at the next token. -/
  holds_fail : ∀ {α : Type} (wanted : Expectation), P α (fail wanted)
  /-- It holds of a rule that does on every stream what some rule of this property does. -/
  holds_of_forall : ∀ {α : Type} {r : Rule α}, (∀ s, ∃ r', P α r' ∧ r s = r' s) → P α r
  /-- Recovery keeps it. -/
  holds_instructionRule : ∀ {p}, P (Tree Symbol) p → P (Tree Symbol) (Grammar.bareInstruction p) →
    P (Tree Symbol) (Grammar.instructionRule p)

namespace Closed

variable {P : (α : Type) → Rule α → Prop} {α β : Type}

/-! ### Steps and combinators -/

theorem holds_spanOf (h : Closed P) {t : Token} (ht : t.Ordered) : P _ (spanOf t) := by
  have hspan : t.span? = some ⟨t.start, t.stop, ht⟩ := Span.between?_eq_some_iff.2 ⟨rfl, rfl⟩
  rw [spanOf, hspan]
  exact h.holds_pure _

theorem holds_expect (h : Closed P) (c : Token.Category) : P _ (expect c) := by
  refine h.holds_peek fun t _ ↦ ?_
  split
  · exact h.holds_advance
  · exact h.holds_fail _

/-- A token of a given class may stand in front. -/
theorem holds_expect_bind (h : Closed P) (c : Token.Category) {f : Unit → Rule β}
    (hf : P _ (f ())) : P _ (expect c >>= f) :=
  h.holds_bind (h.holds_expect c) fun _ ↦ hf

theorem holds_map (h : Closed P) {r : Rule α} (hr : P _ r) (f : α → β) :
    P _ (r >>= fun a ↦ pure (f a)) :=
  h.holds_bind hr fun _ ↦ h.holds_pure _

theorem holds_many (h : Closed P) {starts : Token.Kind → Option β} {item : β → Rule α}
    (hitem : ∀ b, P _ (item b)) : P _ (many starts item) := by
  have along (bound : List Token) : P _ (manyAlong starts item bound) := by
    induction bound with
    | nil => exact h.holds_pure _
    | cons t bound ih =>
      refine h.holds_peek fun t _ ↦ ?_
      split
      · exact h.holds_pure _
      · exact h.holds_bind (hitem _) fun _ ↦ h.holds_map ih _
  exact h.holds_of_forall fun s ↦ ⟨_, along s.ahead, rfl⟩

theorem holds_list (h : Closed P) {item : Rule α} (hitem : P _ item) : P _ (list item) :=
  h.holds_bind hitem fun _ ↦
    h.holds_map (h.holds_many fun _ ↦ h.holds_expect_bind _ hitem) _

theorem holds_parenthesized (h : Closed P) {item : Rule α} (hitem : P _ item) :
    P _ (parenthesized item) :=
  h.holds_expect_bind _ <| h.holds_bind hitem fun _ ↦ h.holds_expect_bind _ (h.holds_pure _)

theorem holds_nest (h : Closed P) {base : Rule α} {rule : Rule α → Rule α} (hbase : P _ base)
    (hrule : ∀ {p}, P _ p → P _ (rule p)) : P _ (nest base rule) := by
  have along (bound : List Token) : P _ (nestAlong base rule bound) := by
    induction bound with
    | nil => exact hbase
    | cons t bound ih => exact hrule ih
  exact h.holds_of_forall fun s ↦ ⟨_, hrule (along s.ahead), rfl⟩

/-! ### Expressions -/

theorem holds_chain (h : Closed P) {factor : Rule (Tree Symbol)} (hfactor : P _ factor) :
    P _ (Grammar.chain factor) := by
  have hlink (op : Operator) : P _ (Grammar.link factor op) :=
    h.holds_peek fun t ht ↦ h.holds_bind (h.holds_spanOf ht) fun _ ↦
      h.holds_bind h.holds_advance fun _ ↦ h.holds_map hfactor _
  exact h.holds_bind hfactor fun _ ↦ h.holds_map (h.holds_many hlink) _

theorem holds_factorRule (h : Closed P) {p : Rule (Tree Symbol)} (hp : P _ p) :
    P _ (Grammar.factorRule p) := by
  refine h.holds_peek fun t ht ↦ ?_
  split
  · exact h.holds_bind h.holds_advance fun _ ↦ h.holds_map (h.holds_meet _) _
  · exact h.holds_bind h.holds_advance fun _ ↦ h.holds_bind (h.holds_meet _) fun _ ↦
      h.holds_bind hp fun _ ↦ h.holds_map (h.holds_spanOf ht) _
  · exact h.holds_bind h.holds_advance fun _ ↦ h.holds_bind hp fun _ ↦
      h.holds_map (h.holds_spanOf ht) _
  · exact h.holds_parenthesized (h.holds_chain hp)
  · exact h.holds_fail _

theorem holds_factor (h : Closed P) : P _ Grammar.factor :=
  h.holds_nest (h.holds_fail _) h.holds_factorRule

theorem holds_expression (h : Closed P) : P _ Grammar.expression :=
  h.holds_chain h.holds_factor

/-! ### Instructions -/

theorem holds_variableName (h : Closed P) : P _ Grammar.variableName := by
  refine h.holds_peek fun t _ ↦ ?_
  split
  · exact h.holds_bind h.holds_advance fun _ ↦ h.holds_meet _
  · exact h.holds_fail _

theorem holds_assignment (h : Closed P) : P _ Grammar.assignment :=
  h.holds_bind h.holds_variableName fun _ ↦ h.holds_expect_bind _ (h.holds_map h.holds_expression _)

theorem holds_clauseBefore (h : Closed P) (closing : Punctuator) :
    P _ (Grammar.clauseBefore closing) := by
  refine h.holds_peek fun t _ ↦ ?_
  split
  · exact h.holds_pure _
  · exact h.holds_map h.holds_assignment _

theorem holds_condition (h : Closed P) : P _ Grammar.condition :=
  h.holds_parenthesized h.holds_expression

theorem holds_item (h : Closed P) : P _ Grammar.item := by
  refine h.holds_peek fun t _ ↦ ?_
  split
  · exact h.holds_bind h.holds_advance fun _ ↦ h.holds_pure _
  · exact h.holds_map h.holds_expression _

section Inner

variable {p : Rule (Tree Symbol)}

theorem holds_sequenceOf (h : Closed P) (hp : P _ p) : P _ (Grammar.sequenceOf p) :=
  h.holds_bind hp fun _ ↦ h.holds_map (h.holds_many fun _ ↦ hp) _

theorem holds_furtherArms (h : Closed P) (hp : P _ p) : P _ (Grammar.furtherArms p) := by
  have hguarded : P _ (Grammar.guardedArm p) :=
    h.holds_expect_bind _ <| h.holds_bind h.holds_condition fun _ ↦
      h.holds_map (h.holds_sequenceOf hp) _
  have hlast : P _ (Grammar.lastArm p) := by
    refine h.holds_peek fun t _ ↦ ?_
    split
    · exact h.holds_bind h.holds_advance fun _ ↦ h.holds_map (h.holds_sequenceOf hp) _
    · exact h.holds_pure _
  exact h.holds_bind (h.holds_many fun _ ↦ hguarded) fun _ ↦ h.holds_map hlast _

theorem holds_formRule (h : Closed P) (hp : P _ p) (form : Grammar.Form) :
    P _ (Grammar.formRule p form) := by
  have hsequence := h.holds_sequenceOf hp
  cases form with
  | assignment =>
    exact h.holds_bind h.holds_assignment fun _ ↦ h.holds_expect_bind _ (h.holds_pure _)
  | ifThen =>
    exact h.holds_expect_bind _ <| h.holds_bind h.holds_condition fun _ ↦
      h.holds_bind hsequence fun _ ↦ h.holds_bind (h.holds_furtherArms hp) fun _ ↦
        h.holds_expect_bind _ (h.holds_pure _)
  | repeatUntil =>
    exact h.holds_expect_bind _ <| h.holds_bind hsequence fun _ ↦
      h.holds_expect_bind _ (h.holds_map h.holds_condition _)
  | whileDo =>
    exact h.holds_expect_bind _ <| h.holds_bind h.holds_condition fun _ ↦
      h.holds_bind hsequence fun _ ↦ h.holds_expect_bind _ (h.holds_pure _)
  | forLoop =>
    exact h.holds_expect_bind _ <| h.holds_expect_bind _ <|
      h.holds_bind (h.holds_clauseBefore _) fun _ ↦ h.holds_expect_bind _ <|
        h.holds_bind h.holds_expression fun _ ↦ h.holds_expect_bind _ <|
          h.holds_bind (h.holds_clauseBefore _) fun _ ↦ h.holds_expect_bind _ <|
            h.holds_bind hsequence fun _ ↦ h.holds_expect_bind _ (h.holds_pure _)
  | write =>
    exact h.holds_expect_bind _
      (h.holds_map (h.holds_parenthesized (h.holds_list h.holds_item)) _)
  | read =>
    exact h.holds_expect_bind _
      (h.holds_map (h.holds_parenthesized (h.holds_list h.holds_variableName)) _)

theorem holds_bareInstruction (h : Closed P) (hp : P _ p) : P _ (Grammar.bareInstruction p) := by
  refine h.holds_peek fun t _ ↦ ?_
  split
  · exact h.holds_formRule hp _
  · exact h.holds_fail _

end Inner

theorem holds_instruction (h : Closed P) : P _ Grammar.instruction :=
  h.holds_nest (h.holds_fail _) fun hp ↦ h.holds_instructionRule hp (h.holds_bareInstruction hp)

/-- What is closed holds of the reader of programs. -/
theorem holds_program (h : Closed P) : P _ Grammar.program :=
  h.holds_expect_bind _ <| h.holds_expect_bind _ <| h.holds_expect_bind _ <|
    h.holds_expect_bind _ <| h.holds_bind (h.holds_sequenceOf h.holds_instruction) fun _ ↦
      h.holds_expect_bind _ <| h.holds_expect_bind _ (h.holds_pure _)

end Closed

end Rule

end Pseudocode

import Pseudocode.Grammar.Progress

/-!
# The symbols that a reader meets

Whatever a reader does, with or without errors, every symbol that it meets is spelled by one of the
tokens ahead of it, or is the zero that a minus sign subtracts from.

## Main definitions

* `Token.Kind.symbol?`: the symbol that a token spells.
* `Rule.Meets`: a rule that meets symbols of the tokens ahead only.

## Main results

* `Grammar.meets_program`: the reader of programs meets symbols of its tokens only.
-/

namespace Pseudocode

/-- The symbol that a token of this kind spells. -/
def Token.Kind.symbol? : Token.Kind → Option Symbol
  | .var name => some (.var name)
  | .integer digits value => some (.literal digits value)
  | _ => none

/-- The symbol is spelled by one of the tokens, or is the zero of a minus sign. -/
def Symbol.From (tokens : List Token) (x : Symbol) : Prop :=
  x = Grammar.zero ∨ ∃ t ∈ tokens, t.kind.symbol? = some x

theorem Symbol.From.mono {tokens tokens' : List Token} {x : Symbol} (h : x.From tokens)
    (hsuffix : tokens <:+ tokens') : x.From tokens' :=
  h.imp_right fun ⟨t, ht, hx⟩ ↦ ⟨t, hsuffix.mem ht, hx⟩

namespace Rule

variable {α β : Type}

/-- From the stream `s`, the rule drops tokens at the front only, and meets symbols of the tokens
ahead only. -/
structure MeetsAt (r : Rule α) (s : Stream) : Prop where
  /-- What is left is the end of what was ahead. -/
  suffix : (r s).rest.ahead <:+ s.ahead
  /-- The symbols come from the tokens ahead. -/
  symbols : ∀ x, .met x ∈ (r s).events → x.From s.ahead

/-- From every stream, the rule meets symbols of the tokens ahead only. -/
def Meets (r : Rule α) : Prop :=
  ∀ s, MeetsAt r s

theorem MeetsAt.of_silent {r : Rule α} {s : Stream} (hsuffix : (r s).rest.ahead <:+ s.ahead)
    (h : ∀ x, .met x ∉ (r s).events) : MeetsAt r s :=
  ⟨hsuffix, fun x hx ↦ absurd hx (h x)⟩

/-! ### Single steps -/

theorem meets_pure (a : α) : Meets (pure a : Rule α) :=
  fun _ ↦ .of_silent (List.suffix_refl _) fun _ ↦ List.not_mem_nil

theorem meets_peek : Meets peek :=
  fun _ ↦ .of_silent (List.suffix_refl _) fun _ ↦ List.not_mem_nil

theorem meets_advance : Meets advance :=
  fun _ ↦ .of_silent (List.tail_suffix _) fun _ ↦ List.not_mem_nil

theorem meets_stop (e : Failure) : Meets (stop e : Rule α) :=
  fun _ ↦ .of_silent (List.suffix_refl _) fun _ ↦ List.not_mem_nil

theorem meets_atEnd : Meets atEnd :=
  fun _ ↦ .of_silent (List.suffix_refl _) fun _ ↦ List.not_mem_nil

theorem meets_skipUntil (p : Token → Bool) : Meets (skipUntil p) :=
  fun _ ↦ .of_silent (List.dropWhile_suffix _) fun _ ↦ List.not_mem_nil

theorem meets_leave {e : Event} (he : e.symbol? = none) : Meets (leave e) := by
  refine fun s ↦ .of_silent (List.suffix_refl _) fun x hx ↦ ?_
  rw [← List.mem_singleton.1 hx] at he
  cases he

/-- The zero of a minus sign may be met anywhere. -/
theorem meets_zero : Meets (meet Grammar.zero) := by
  refine fun s ↦ ⟨List.suffix_refl _, fun x hx ↦ .inl ?_⟩
  cases List.mem_singleton.1 hx
  rfl

/-- The symbol of the next token is met when the token is taken. -/
theorem meetsAt_symbol {s : Stream} {x : Symbol} (h : s.peek.kind.symbol? = some x)
    (f : Symbol → α) : MeetsAt (do advance; pure (f (← meet x))) s := by
  have hpeek : s.peek ∈ s.ahead := by
    obtain ⟨_ | ⟨t, ts⟩, endStart, endStop⟩ := s
    · cases h
    · exact List.mem_cons_self
  refine ⟨List.tail_suffix _, fun y hy ↦ .inr ⟨s.peek, hpeek, ?_⟩⟩
  rw [advance_bind] at hy
  cases List.mem_singleton.1 hy
  exact h

/-! ### Combinations -/

theorem MeetsAt.bind {r : Rule α} {f : α → Rule β} {s : Stream} (hr : MeetsAt r s)
    (hf : ∀ a, Meets (f a)) : MeetsAt (r >>= f) s := by
  cases hresult : (r s).result with
  | ok a =>
    have hfa := hf a (r s).rest
    refine ⟨?_, fun x hx ↦ ?_⟩
    · rw [bind_of_ok f hresult]
      exact hfa.suffix.trans hr.suffix
    · rw [bind_of_ok f hresult] at hx
      rcases List.mem_append.1 hx with hx | hx
      · exact hr.symbols x hx
      · exact (hfa.symbols x hx).mono hr.suffix
  | error e =>
    refine ⟨?_, fun x hx ↦ ?_⟩
    · rw [bind_of_error f hresult]
      exact hr.suffix
    · rw [bind_of_error f hresult] at hx
      exact hr.symbols x hx

theorem Meets.bind {r : Rule α} {f : α → Rule β} (hr : Meets r) (hf : ∀ a, Meets (f a)) :
    Meets (r >>= f) :=
  fun s ↦ (hr s).bind hf

/-- What follows a look at the next token may depend on that token. -/
theorem meets_peek_bind {f : Token → Rule β} (h : ∀ s, MeetsAt (f s.peek) s) :
    Meets (peek >>= f) := by
  intro s
  have hs := h s
  exact ⟨by rw [peek_bind]; exact hs.suffix, fun x hx ↦ hs.symbols x (by rwa [peek_bind] at hx)⟩

theorem Meets.attempt {r : Rule α} (hr : Meets r) : Meets (attempt r) := by
  intro s
  have hrest : (Rule.attempt r s).rest = (r s).rest ∧
      (Rule.attempt r s).events = (r s).events := by
    unfold Rule.attempt
    dsimp only
    split <;> exact ⟨rfl, rfl⟩
  exact ⟨by rw [hrest.1]; exact (hr s).suffix, fun x hx ↦ (hr s).symbols x (by rwa [hrest.2] at hx)⟩

theorem meets_spanOf (t : Token) : Meets (spanOf t) := by
  unfold spanOf
  split
  · exact meets_pure _
  · exact meets_stop _

theorem meets_fail (wanted : Expectation) : Meets (fail wanted : Rule α) :=
  meets_peek.bind fun t ↦ (meets_spanOf t).bind fun _ ↦ meets_stop _

theorem meets_expect (c : Token.Category) : Meets (expect c) := by
  refine meets_peek.bind fun t ↦ ?_
  split
  · exact meets_advance
  · exact meets_fail _

theorem meets_many {starts : Token.Kind → Option β} {item : β → Rule α}
    (h : ∀ b, Meets (item b)) : Meets (many starts item) := by
  have along (bound : List Token) : Meets (manyAlong starts item bound) := by
    induction bound with
    | nil => exact meets_pure _
    | cons t bound ih =>
      refine meets_peek.bind fun t ↦ ?_
      split
      · exact meets_pure _
      · exact (h _).bind fun _ ↦ ih.bind fun _ ↦ meets_pure _
  exact fun s ↦ ⟨(along s.ahead s).suffix, (along s.ahead s).symbols⟩

theorem meets_list {item : Rule α} (h : Meets item) : Meets (list item) :=
  h.bind fun _ ↦ (meets_many fun _ ↦ (meets_expect _).bind fun _ ↦ h).bind fun _ ↦ meets_pure _

theorem meets_parenthesized {item : Rule α} (h : Meets item) : Meets (parenthesized item) :=
  (meets_expect _).bind fun _ ↦ h.bind fun _ ↦ (meets_expect _).bind fun _ ↦ meets_pure _

theorem meets_nest {base : Rule α} {rule : Rule α → Rule α} (hbase : Meets base)
    (h : ∀ {p}, Meets p → Meets (rule p)) : Meets (nest base rule) := by
  have along (bound : List Token) : Meets (nestAlong base rule bound) := by
    induction bound with
    | nil => exact hbase
    | cons t bound ih => exact h ih
  exact fun s ↦ ⟨(h (along s.ahead) s).suffix, (h (along s.ahead) s).symbols⟩

end Rule

namespace Grammar

open Rule

/-! ### Expressions -/

theorem meets_chain {factor : Rule (Tree Symbol)} (h : Meets factor) : Meets (chain factor) :=
  h.bind fun _ ↦ (meets_many fun _ ↦ meets_peek.bind fun t ↦ (meets_spanOf t).bind fun _ ↦
    meets_advance.bind fun _ ↦ h.bind fun _ ↦ meets_pure _).bind fun _ ↦ meets_pure _

/-- A leaf is the symbol of its token. -/
theorem Factor.symbol?_of_leaf {kind : Token.Kind} {x : Symbol}
    (h : Factor.ofKind? kind = some (.leaf x)) : kind.symbol? = some x := by
  unfold Factor.ofKind? at h
  split at h <;> cases h <;> rfl

theorem meets_factorRule {p : Rule (Tree Symbol)} (hp : Meets p) : Meets (factorRule p) := by
  refine meets_peek_bind fun s ↦ ?_
  split
  · next x hx => exact meetsAt_symbol (Factor.symbol?_of_leaf hx) Tree.cell
  · exact (meets_advance.bind fun _ ↦ meets_zero.bind fun _ ↦ hp.bind fun _ ↦
      (meets_spanOf _).bind fun _ ↦ meets_pure _) s
  · exact (meets_advance.bind fun _ ↦ hp.bind fun _ ↦ (meets_spanOf _).bind fun _ ↦
      meets_pure _) s
  · exact meets_parenthesized (meets_chain hp) s
  · exact meets_fail _ s

theorem meets_expression : Meets expression :=
  meets_chain (meets_nest (meets_fail _) meets_factorRule)

/-! ### Instructions -/

theorem meets_variableName : Meets variableName := by
  refine meets_peek_bind fun s ↦ ?_
  split
  · next name hname =>
    have hsymbol : s.peek.kind.symbol? = some (.var name) := by
      unfold Token.Kind.name? at hname
      split at hname
      · next h =>
        cases hname
        rw [h]
        rfl
      · cases hname
    exact meetsAt_symbol hsymbol id
  · exact meets_fail _ s

theorem meets_assignment : Meets assignment :=
  meets_variableName.bind fun _ ↦ (meets_expect _).bind fun _ ↦ meets_expression.bind fun _ ↦
    meets_pure _

theorem meets_clauseBefore (closing : Punctuator) : Meets (clauseBefore closing) := by
  refine meets_peek.bind fun t ↦ ?_
  split
  · exact meets_pure _
  · exact meets_assignment.bind fun _ ↦ meets_pure _

theorem meets_condition : Meets condition :=
  meets_parenthesized meets_expression

theorem meets_item : Meets item := by
  refine meets_peek.bind fun t ↦ ?_
  split
  · exact meets_advance.bind fun _ ↦ meets_pure _
  · exact meets_expression.bind fun _ ↦ meets_pure _

section Inner

variable {p : Rule (Tree Symbol)}

theorem meets_sequenceOf (hp : Meets p) : Meets (sequenceOf p) :=
  hp.bind fun _ ↦ (meets_many fun _ ↦ hp).bind fun _ ↦ meets_pure _

theorem meets_furtherArms (hp : Meets p) : Meets (furtherArms p) := by
  have hguarded : Meets (guardedArm p) :=
    (meets_expect _).bind fun _ ↦ meets_condition.bind fun _ ↦ (meets_sequenceOf hp).bind fun _ ↦
      meets_pure _
  have hlast : Meets (lastArm p) := by
    refine meets_peek.bind fun t ↦ ?_
    split
    · exact meets_advance.bind fun _ ↦ (meets_sequenceOf hp).bind fun _ ↦ meets_pure _
    · exact meets_pure _
  exact (meets_many fun _ ↦ hguarded).bind fun _ ↦ hlast.bind fun _ ↦ meets_pure _

theorem meets_formRule (hp : Meets p) : ∀ form, Meets (formRule p form)
  | .assignment => meets_assignment.bind fun _ ↦ (meets_expect _).bind fun _ ↦ meets_pure _
  | .ifThen =>
    (meets_expect _).bind fun _ ↦ meets_condition.bind fun _ ↦ (meets_sequenceOf hp).bind fun _ ↦
      (meets_furtherArms hp).bind fun _ ↦ (meets_expect _).bind fun _ ↦ meets_pure _
  | .repeatUntil =>
    (meets_expect _).bind fun _ ↦ (meets_sequenceOf hp).bind fun _ ↦ (meets_expect _).bind fun _ ↦
      meets_condition.bind fun _ ↦ meets_pure _
  | .whileDo =>
    (meets_expect _).bind fun _ ↦ meets_condition.bind fun _ ↦ (meets_sequenceOf hp).bind fun _ ↦
      (meets_expect _).bind fun _ ↦ meets_pure _
  | .forLoop =>
    (meets_expect _).bind fun _ ↦ (meets_expect _).bind fun _ ↦ (meets_clauseBefore _).bind fun _ ↦
      (meets_expect _).bind fun _ ↦ meets_expression.bind fun _ ↦ (meets_expect _).bind fun _ ↦
        (meets_clauseBefore _).bind fun _ ↦ (meets_expect _).bind fun _ ↦
          (meets_sequenceOf hp).bind fun _ ↦ (meets_expect _).bind fun _ ↦ meets_pure _
  | .write =>
    (meets_expect _).bind fun _ ↦ (meets_parenthesized (meets_list meets_item)).bind fun _ ↦
      meets_pure _
  | .read =>
    (meets_expect _).bind fun _ ↦
      (meets_parenthesized (meets_list meets_variableName)).bind fun _ ↦ meets_pure _

theorem meets_instructionRule (hp : Meets p) : Meets (instructionRule p) := by
  have hbare : Meets (bareInstruction p) := by
    refine meets_peek.bind fun t ↦ ?_
    split
    · exact meets_formRule hp _
    · exact meets_fail _
  refine hbare.attempt.bind fun result ↦ ?_
  split
  · exact (meets_leave rfl).bind fun _ ↦ meets_pure _
  · refine (meets_leave rfl).bind fun _ ↦ meets_advance.bind fun _ ↦
      (meets_skipUntil _).bind fun _ ↦ meets_atEnd.bind fun b ↦ ?_
    split
    · exact meets_stop _
    · exact hp

end Inner

theorem meets_program : Meets program :=
  (meets_expect _).bind fun _ ↦ (meets_expect _).bind fun _ ↦ (meets_expect _).bind fun _ ↦
    (meets_expect _).bind fun _ ↦
      (meets_sequenceOf (meets_nest (meets_fail _) meets_instructionRule)).bind fun _ ↦
        (meets_expect _).bind fun _ ↦ (meets_expect _).bind fun _ ↦ meets_pure _

end Grammar

end Pseudocode

import Pseudocode.Proofs.Derivation.Phrase.Composition

/-!
# Keywords, marks, parentheses and lists

The terminals of the grammar and the two shapes that its productions share: something between
parentheses, and a list with commas.

## Main definitions

* `Phrase.enclosed`: a phrase between parentheses.
* `Phrase.listed`: a phrase, and more of it, each behind a comma.

## Main results

* `Phrase.readBy_expect`: keywords and marks.
* `Phrase.ReadBy.parenthesized`, `Phrase.ReadBy.list`: the two shapes.
-/

namespace Pseudocode

open Token (Kind Category)

/-! ### Terminals -/

namespace Derivation

instance (k : Keyword) : Nonempty (Word k) :=
  ⟨⟨⟨.keyword k, {}, {}⟩, (), by simp [Kind.ofClass?, Kind.category], Nat.le_refl _⟩⟩

instance (p : Punctuator) : Nonempty (Mark p) :=
  ⟨⟨⟨.punctuator p, {}, {}⟩, (), by simp [Kind.ofClass?, Kind.category], Nat.le_refl _⟩⟩

instance : Nonempty Variable :=
  ⟨⟨⟨.var "x", {}, {}⟩, "x", rfl, Nat.le_refl _⟩⟩

instance : Nonempty Number :=
  ⟨⟨⟨.integer "0" 0, {}, {}⟩, ("0", 0), rfl, Nat.le_refl _⟩⟩

instance : Nonempty Quotation :=
  ⟨⟨⟨.string "", {}, {}⟩, "", rfl, Nat.le_refl _⟩⟩

instance : Nonempty Infix :=
  ⟨⟨⟨.punctuator .plus, {}, {}⟩, .add, rfl, Nat.le_refl _⟩⟩

theorem Fixed.category_eq {c : Category} (t : Fixed c) : t.token.kind.category = c := by
  have h := t.read_kind
  unfold Kind.ofClass? at h
  split at h
  · assumption
  · cases h

@[simp]
theorem Word.kind_eq {k : Keyword} (t : Word k) : t.token.kind = .keyword k :=
  Kind.category_eq_keyword_iff.1 (Fixed.category_eq t)

@[simp]
theorem Mark.kind_eq {p : Punctuator} (t : Mark p) : t.token.kind = .punctuator p :=
  Kind.category_eq_punctuator_iff.1 (Fixed.category_eq t)

@[simp]
theorem Variable.kind_eq (x : Variable) : x.token.kind = .var x.value := by
  have h := x.read_kind
  unfold Kind.name? at h
  split at h
  · rename_i heq
    rw [heq, Option.some.inj h]
  · cases h

@[simp]
theorem Number.kind_eq (x : Number) : x.token.kind = .integer x.value.1 x.value.2 := by
  have h := x.read_kind
  unfold Kind.number? at h
  split at h
  · rename_i heq
    rw [heq, ← Option.some.inj h]
  · cases h

@[simp]
theorem Quotation.kind_eq (x : Quotation) : x.token.kind = .string x.value := by
  have h := x.read_kind
  unfold Kind.contents? at h
  split at h
  · rename_i heq
    rw [heq, Option.some.inj h]
  · cases h

end Derivation

/-! ### Rules for terminals -/

namespace Rule

variable {α β : Type}

@[simp]
theorem stop_bind (e : Failure) (f : α → Rule β) : (stop e : Rule α) >>= f = stop e := by
  funext s
  rw [bind_of_error f rfl]
  rfl

@[simp]
theorem fail_bind (wanted : Expectation) (f : α → Rule β) :
    (fail wanted : Rule α) >>= f = fail wanted := by
  simp [fail]

theorem expect_eq_take (c : Category) :
    expect c = take (Kind.ofClass? c) (.token c) >>= fun _ ↦ pure () := by
  funext s
  have hexpect : expect c s = (if s.peek.kind.category = c then advance else fail (.token c)) s :=
    peek_bind _ s
  rw [hexpect]
  by_cases hc : s.peek.kind.category = c
  · rw [if_pos hc, take_bind_of_some (a := ()) _ (by rw [Kind.ofClass?, if_pos hc])]
    rfl
  · have hnone : Kind.ofClass? c s.peek.kind = none := by rw [Kind.ofClass?, if_neg hc]
    rw [if_neg hc, bind_congr _ (take_of_none hnone), fail_bind]

/-- A keyword or mark that comes next is taken. -/
theorem expect_of_peek {c : Category} {s : Stream} (h : s.peek.kind.category = c) :
    expect c s = advance s := by
  rw [show expect c s = _ from peek_bind _ s, if_pos h]

theorem expect_of_ne {c : Category} {s : Stream} (h : s.peek.kind.category ≠ c) :
    expect c s = fail (.token c) s := by
  rw [show expect c s = _ from peek_bind _ s, if_neg h]

/-- A failure leaves no trail. -/
theorem events_fail (wanted : Expectation) (s : Stream) :
    ((fail wanted : Rule α) s).events = [] := by
  rw [fail, peek_bind, spanOf]
  split
  · rw [pure_bind]
    rfl
  · rw [stop_bind]
    rfl

/-- Keywords and marks leave no trail. -/
theorem events_expect (c : Category) (s : Stream) : (expect c s).events = [] := by
  by_cases hc : s.peek.kind.category = c
  · rw [expect_of_peek hc]
    rfl
  · rw [expect_of_ne hc, events_fail]

end Rule

namespace Phrase

variable {D E : Type} {α β : Type}

open Pseudocode.Derivation Rule

theorem readBy_expect {c : Category} (hc : c ≠ .endOfInput) [hne : Nonempty (Fixed c)] (n : Nat) :
    (terminal (Kind.ofClass? c)).ReadBy n (expect c) (fun _ ↦ ()) fun _ ↦ [] := by
  rw [expect_eq_take]
  have hend : Kind.ofClass? c .endOfInput = none := if_neg fun h ↦ hc h.symm
  refine (readBy_take _ hend (fun c' hc' ↦ ?_) n).map fun _ ↦ ()
  obtain ⟨t⟩ := hne
  cases hc'
  exact ⟨t, t.category_eq⟩

theorem readBy_keyword (k : Keyword) (n : Nat) :
    (terminal (Kind.ofClass? (.keyword k))).ReadBy n (keyword k) (fun _ ↦ ()) fun _ ↦ [] :=
  readBy_expect (by simp) n

theorem readBy_mark (p : Punctuator) (n : Nat) :
    (terminal (Kind.ofClass? (.punctuator p))).ReadBy n (mark p) (fun _ ↦ ()) fun _ ↦ [] :=
  readBy_expect (by simp) n

/-- A terminal is followed by anything. -/
theorem terminal_before {read : Kind → Option α} (Q : Phrase E) : (terminal read).Before Q :=
  fun _ _ _ _ ↦ trivial

/-- Where a terminal comes first, what follows it does not matter. -/
theorem Before.seq_terminal {P : Phrase D} {read : Kind → Option α}
    (h : P.Before (terminal read)) (Q : Phrase E) : P.Before ((terminal read).seq Q) :=
  fun d x s _ ↦ h d x.1 (s.push (Q.tokens x.2)) (List.cons_ne_nil _ _)

/-- A phrase that stops at a keyword may stand before it. -/
theorem before_keyword {P : Phrase D} {k : Keyword} (h : ∀ d, P.stops d (.keyword k)) :
    P.Before (terminal (Kind.ofClass? (.keyword k))) := by
  intro d t s _
  change P.stops d t.token.kind
  rw [Word.kind_eq]
  exact h d

/-- A phrase that stops at a mark may stand before it. -/
theorem before_mark {P : Phrase D} {p : Punctuator} (h : ∀ d, P.stops d (.punctuator p)) :
    P.Before (terminal (Kind.ofClass? (.punctuator p))) := by
  intro d t s _
  change P.stops d t.token.kind
  rw [Mark.kind_eq]
  exact h d

/-! ### Parentheses -/

/-- A phrase between parentheses. -/
def enclosed (P : Phrase D) : Phrase (Enclosed D) where
  tokens e := e.tokens P.tokens
  ordered e t ht := by
    simp only [Enclosed.tokens, List.mem_cons, List.mem_append, List.not_mem_nil, or_false] at ht
    rcases ht with rfl | ht | rfl
    · exact e.opening.ordered
    · exact P.ordered e.inner t ht
    · exact e.closing.ordered
  stops _ _ := True

theorem ReadBy.parenthesized [Nonempty D] {P : Phrase D} {n : Nat} {item : Rule α}
    {value : D → α} {trail : D → List Event} (h : P.ReadBy n item value trail)
    (hstops : ∀ d, P.stops d (.punctuator .rightParenthesis)) :
    P.enclosed.ReadBy (n + 1) (parenthesized item) (fun e ↦ value e.inner)
      fun e ↦ trail e.inner := by
  have hinner := h.both (readBy_mark .rightParenthesis n) (by simp) (before_mark hstops)
  have hall := ((readBy_mark .leftParenthesis (n + 1)).both hinner (fun _ ↦ Nat.le_refl _)
    (terminal_before _)).map fun x ↦ x.2.1
  refine (hall.congr fun s _ ↦ by simp only [Rule.parenthesized, both_bind]).transport
    (fun x ↦ ⟨x.1, x.2.1, x.2.2⟩) ?_ (fun _ ↦ rfl) ?_ (fun _ ↦ rfl) ?_
  · rintro ⟨opening, inner, closing⟩
    exact ⟨(opening, inner, closing), rfl⟩
  · intro x kind
    simp [enclosed, seq, terminal]
  · intro x
    simp

/-! ### Lists -/

/-- The lookahead of the repetition in a list. -/
def atComma (kind : Kind) : Option Unit :=
  if kind = .punctuator .comma then some () else none

/-- The repetition in a list: a phrase behind a comma, any number of times. -/
def behindCommas (P : Phrase D) : Phrase (List (Mark .comma × D)) :=
  ((terminal (Kind.ofClass? (.punctuator .comma))).seq P).star atComma

/-- A phrase, and more of it, each behind a comma. -/
def listed (P : Phrase D) : Phrase (Listed D) where
  tokens l := l.tokens P.tokens
  ordered l := (P.seq P.behindCommas).ordered (l.first, l.others)
  stops l := (P.seq P.behindCommas).stops (l.first, l.others)

theorem repeats_behindComma {P : Phrase D} (hstops : ∀ d, P.stops d (.punctuator .comma)) :
    ((terminal (Kind.ofClass? (.punctuator .comma))).seq P).Repeats atComma where
  tokens_ne_nil _ := List.cons_ne_nil _ _
  starts_peek x s := by
    refine ⟨(), if_pos ?_⟩
    change x.1.token.kind = _
    simp
  seam x y s := by
    refine ⟨?_, fun _ ↦ trivial⟩
    change P.stops x.2 y.1.token.kind
    rw [Mark.kind_eq]
    exact hstops x.2
  starts_end := rfl

/-- A list stops where all its items do, unless there is a comma. -/
theorem listed_stops {P : Phrase D} {kind : Kind} (h : ∀ d, P.stops d kind)
    (hkind : kind ≠ .punctuator .comma) (l : Listed D) : P.listed.stops l kind :=
  ⟨⟨if_neg hkind, fun x _ ↦ ⟨h x.2, fun _ ↦ trivial⟩⟩, fun _ ↦ h l.first⟩

theorem ReadBy.list [Nonempty D] {P : Phrase D} {n : Nat} {item : Rule α} {value : D → α}
    {trail : D → List Event} (h : P.ReadBy n item value trail)
    (hstops : ∀ d, P.stops d (.punctuator .comma)) :
    P.listed.ReadBy n (list item) (fun l ↦ l.toList.map value)
      fun l ↦ l.toList.flatMap trail := by
  have hother := ((readBy_mark .comma n).both h (by simp) (terminal_before _)).map fun x ↦ x.2
  have hothers := hother.many (repeats_behindComma hstops) (fun _ ↦ do mark .comma; item)
    fun s _ _ _ ↦ by simp only [both_bind, bind_pure]
  have hseam : P.Before P.behindCommas := by
    rintro d (_ | ⟨x, xs⟩) s hne
    · exact absurd rfl hne
    · change P.stops d x.1.token.kind
      rw [Mark.kind_eq]
      exact hstops d
  have hall := (h.both hothers (by simp) hseam).map fun x ↦ x.1 :: x.2
  refine (hall.congr fun s _ ↦ by simp only [Rule.list, both_bind]; rfl).transport
    (fun x ↦ ⟨x.1, x.2⟩) ?_ (fun _ ↦ rfl) (fun _ _ ↦ Iff.rfl) ?_ ?_
  · rintro ⟨first, others⟩
    exact ⟨(first, others), rfl⟩
  · intro x
    simp [Listed.toList]
  · intro x
    simp [Listed.toList, List.flatMap_map]

end Phrase

end Pseudocode

import Pseudocode.Proofs.Derivation.Expression

/-!
# The parts of instructions are read as they are derived

Variables, assignments, the clauses of a counted loop, conditions and the items of an output
instruction. A clause that is absent is known by the mark that closes its place, so a reader of a
clause stops before that mark only.

## Main definitions

* `Phrase.assignment`, `Phrase.clause`, `Phrase.item`: the phrases of the parts.

## Main results

* `Phrase.readBy_assignment`, `Phrase.readBy_clauseBefore`, `Phrase.readBy_condition`,
  `Phrase.readBy_item`: the rules read the phrases.
-/

namespace Pseudocode

open Token (Kind Category)

namespace Derivation

/-! ### The tokens of parts -/

theorem Assignment.ordered (a : Assignment) : ∀ t ∈ a.tokens, t.Ordered := by
  intro t ht
  rw [Assignment.tokens, List.mem_cons, List.mem_cons] at ht
  rcases ht with rfl | rfl | ht
  · exact a.target.ordered
  · exact a.mark.ordered
  · exact a.value.ordered t ht

theorem Assignment.ordered? (a : Option Assignment) : ∀ t ∈ Assignment.tokens? a, t.Ordered := by
  intro t ht
  cases a with
  | none => cases ht
  | some a => exact a.ordered t ht

theorem Item.ordered (d : Item) : ∀ t ∈ d.tokens, t.Ordered := by
  intro t ht
  cases d with
  | text contents =>
    rw [Item.tokens, List.mem_singleton] at ht
    exact ht ▸ contents.ordered
  | value expression => exact expression.ordered t ht

instance : Nonempty Assignment :=
  (inferInstance : Nonempty (Variable × Mark .assign × Expression)).elim
    fun ⟨target, mark, value⟩ ↦ ⟨⟨target, mark, value⟩⟩

instance : Nonempty (Option Assignment) :=
  ⟨none⟩

instance : Nonempty Item :=
  (inferInstance : Nonempty Quotation).elim fun contents ↦ ⟨.text contents⟩

instance {D : Type} [h : Nonempty D] : Nonempty (Listed D) :=
  h.elim fun d ↦ ⟨⟨d, []⟩⟩

instance {D : Type} [h : Nonempty D] : Nonempty (Enclosed D) :=
  (inferInstance : Nonempty (Mark .leftParenthesis × D × Mark .rightParenthesis)).elim
    fun ⟨opening, inner, closing⟩ ↦ ⟨⟨opening, inner, closing⟩⟩

/-- An expression starts where a factor does. -/
theorem Expression.ofKind?_peek (d : Expression) (s : Stream) :
    ∃ form, Grammar.Factor.ofKind? (s.push d.tokens).peek.kind = some form := by
  obtain ⟨first, links⟩ := d
  rw [Expression.tokens, Stream.push_append]
  exact ⟨first.form, first.ofKind?_peek _⟩

end Derivation

namespace Phrase

open Pseudocode.Derivation Rule

/-! ### Phrases of parts -/

/-- Assignments. They end with an expression. -/
def assignment : Phrase Assignment where
  tokens := Assignment.tokens
  ordered := Assignment.ordered
  stops _ kind := Operator.ofKind? kind = none

/-- Assignments that may be absent before a closing mark. -/
def clause (closing : Punctuator) : Phrase (Option Assignment) where
  tokens := Assignment.tokens?
  ordered := Assignment.ordered?
  stops
    | none, kind => kind = .punctuator closing
    | some _, kind => Operator.ofKind? kind = none

/-- Items of output instructions. -/
def item : Phrase Derivation.Item where
  tokens := Derivation.Item.tokens
  ordered := Derivation.Item.ordered
  stops
    | .text _, _ => True
    | .value _, kind => Operator.ofKind? kind = none

/-! ### The rules read the phrases -/

theorem readBy_variableName (n : Nat) :
    (terminal Kind.name?).ReadBy n Grammar.variableName Variable.symbol
      fun x ↦ [.met (Variable.symbol x)] := by
  have hread : (terminal Kind.name?).ReadBy n
      (do
        let x ← take Kind.name? (.token .var)
        meet (.var x.1))
      Variable.symbol fun x ↦ [] ++ [.met (Variable.symbol x)] := by
    refine (readBy_take _ rfl (fun c hc ↦ ?_) n).tail (fun _ _ ↦ rfl) (by simp [Event.error?])
    obtain ⟨x⟩ := (inferInstance : Nonempty Variable)
    cases hc
    exact ⟨x, by rw [Variable.kind_eq]; rfl⟩
  refine hread.congr fun s _ ↦ ?_
  cases hname : s.peek.kind.name? with
  | some name =>
    rw [Grammar.variableName, peek_bind, hname, take_bind_of_some _ hname]
    exact advance_bind _ s
  | none =>
    rw [Grammar.variableName, peek_bind, hname, bind_congr _ (take_of_none hname), fail_bind]

theorem readBy_assignment (n : Nat) :
    assignment.ReadBy n Grammar.assignment (fun a ↦ (a.target.symbol, a.value.tree))
      fun a ↦ .met a.target.symbol :: a.value.tree.trail := by
  have hbehind := (readBy_mark .assign n).both (readBy_expression n) (by simp) (terminal_before _)
  have hall := ((readBy_variableName n).both hbehind (by simp) (terminal_before _)).map
    fun x ↦ (x.1, x.2.2)
  refine (hall.congr fun s _ ↦ by simp only [Grammar.assignment, both_bind]).transport
    (fun x ↦ ⟨x.1, x.2.1, x.2.2⟩) ?_ (fun _ ↦ rfl) ?_ (fun _ ↦ rfl) ?_
  · rintro ⟨target, mark, value⟩
    exact ⟨(target, mark, value), rfl⟩
  · intro x kind
    simp [assignment, seq, terminal, expression]
  · intro x
    simp

/-- Whether a clause is absent is told by the first token. -/
theorem readBy_clauseBefore (closing : Punctuator) (n : Nat) :
    (clause closing).ReadBy n (Grammar.clauseBefore closing) Assignment.clause
      fun a ↦ Tree.trailClause (Assignment.clause a) := by
  refine .of_branches fun k ↦ ?_
  by_cases hk : k = .punctuator closing
  · refine .form empty (fun _ ↦ none) (pure .absent) (readBy_pure _ _) ?_ (fun _ ↦ rfl)
      (fun _ _ _ ↦ trivial) ?_ ?_
    · rintro s - rfl
      rw [Grammar.clauseBefore, peek_bind, if_pos hk]
    · intro _ s hpeek _
      exact hpeek.trans hk
    · rintro (_ | a) s - hpeek
      · exact ⟨(), rfl⟩
      · have hvar : a.target.token.kind = k := hpeek
        rw [Variable.kind_eq, hk] at hvar
        cases hvar
  · have hread := (readBy_assignment n).map fun x ↦ Clause.assign x.1 x.2
    refine .form assignment some _ hread ?_ (fun _ ↦ rfl) (fun _ _ hstops ↦ hstops)
      (fun _ _ _ hstops ↦ hstops) ?_
    · rintro s - rfl
      rw [Grammar.clauseBefore, peek_bind, if_neg hk]
    · rintro (_ | a) s hstops hpeek
      · exact absurd (hpeek.symm.trans hstops) hk
      · exact ⟨a, rfl⟩

theorem readBy_condition (n : Nat) :
    expression.enclosed.ReadBy n Grammar.condition (fun e ↦ e.inner.tree)
      fun e ↦ e.inner.tree.trail :=
  ((readBy_expression n).parenthesized fun _ ↦ rfl).mono (Nat.le_succ n)

theorem readBy_item (n : Nat) :
    item.ReadBy n Grammar.item Derivation.Item.part fun d ↦ Tree.trailItem d.part := by
  refine .of_branches fun k ↦ ?_
  cases hk : k.contents? with
  | some contents =>
    have htoken : (terminal Kind.contents?).ReadBy n (take Kind.contents? .factor)
        (fun t ↦ (t.value, t.token)) fun _ ↦ [] := readBy_take _ rfl (by simp) n
    have hread := htoken.map fun x ↦ (.text x.1 : Pseudocode.Item Symbol)
    refine .form _ .text _ hread ?_ (fun _ ↦ rfl) (fun _ _ _ ↦ trivial) (fun _ _ _ _ ↦ trivial) ?_
    · rintro s - rfl
      rw [Grammar.item, peek_bind, hk, take_bind_of_some _ hk]
      exact advance_bind _ s
    · rintro (contents | expression) s - hpeek
      · exact ⟨contents, rfl⟩
      · obtain ⟨form, hform⟩ := expression.ofKind?_peek s
        rw [show (s.push expression.tokens).peek.kind = k from hpeek] at hform
        cases k <;> cases hk
        cases hform
  | none =>
    have hread := (readBy_expression n).map Pseudocode.Item.value
    refine .form expression .value _ hread ?_ (fun _ ↦ rfl) (fun _ _ hstops ↦ hstops)
      (fun _ _ _ hstops ↦ hstops) ?_
    · rintro s - rfl
      rw [Grammar.item, peek_bind, hk]
    · rintro (contents | expression) s - hpeek
      · have hread := contents.read_kind
        rw [show contents.token.kind = k from hpeek, hk] at hread
        cases hread
      · exact ⟨expression, rfl⟩

end Phrase

end Pseudocode

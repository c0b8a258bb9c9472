import Pseudocode.Proofs.Derivation.Phrase.Punctuation
import Pseudocode.Proofs.Derivation.Trail

/-!
# Expressions are read as they are derived

The rules of expressions read the derivations of expressions. A factor never looks behind itself,
and a chain goes on as long as an infix operator comes next.

## Main definitions

* `Phrase.factor`, `Phrase.link`, `Phrase.expression`: the phrases of expressions.

## Main results

* `Phrase.readBy_factor`, `Phrase.readBy_expression`: the rules read the phrases.
-/

namespace Pseudocode

open Token (Kind Category)

namespace Derivation

/-! ### The tokens of expressions -/

mutual

theorem Factor.ordered : ∀ (d : Factor), ∀ t ∈ d.tokens, t.Ordered
  | .var x => by
    intro t ht
    rw [Factor.tokens, List.mem_singleton] at ht
    exact ht ▸ x.ordered
  | .number x => by
    intro t ht
    rw [Factor.tokens, List.mem_singleton] at ht
    exact ht ▸ x.ordered
  | .negative sign operand => by
    intro t ht
    rw [Factor.tokens, List.mem_cons] at ht
    rcases ht with rfl | ht
    · exact sign.ordered
    · exact operand.ordered t ht
  | .negated word operand => by
    intro t ht
    rw [Factor.tokens, List.mem_cons] at ht
    rcases ht with rfl | ht
    · exact word.ordered
    · exact operand.ordered t ht
  | .group opening inner closing => by
    intro t ht
    rw [Factor.tokens, List.mem_cons, List.mem_append, List.mem_singleton] at ht
    rcases ht with rfl | ht | rfl
    · exact opening.ordered
    · exact inner.ordered t ht
    · exact closing.ordered
termination_by structural d => d

theorem Expression.ordered : ∀ (d : Expression), ∀ t ∈ d.tokens, t.Ordered
  | .chain first links => by
    intro t ht
    rw [Expression.tokens, List.mem_append] at ht
    rcases ht with ht | ht
    · exact first.ordered t ht
    · exact Link.orderedAll links t ht
termination_by structural d => d

theorem Link.ordered : ∀ (d : Link), ∀ t ∈ d.tokens, t.Ordered
  | .mk op operand => by
    intro t ht
    rw [Link.tokens, List.mem_cons] at ht
    rcases ht with rfl | ht
    · exact op.ordered
    · exact operand.ordered t ht
termination_by structural d => d

theorem Link.orderedAll : ∀ (ds : List Link), ∀ t ∈ Link.tokensAll ds, t.Ordered
  | [] => by
    intro t ht
    rw [Link.tokensAll] at ht
    cases ht
  | link :: links => by
    intro t ht
    rw [Link.tokensAll, List.mem_append] at ht
    rcases ht with ht | ht
    · exact link.ordered t ht
    · exact Link.orderedAll links t ht
termination_by structural ds => ds

end

theorem Link.tokensAll_eq_flatMap (links : List Link) :
    Link.tokensAll links = links.flatMap Link.tokens := by
  induction links with
  | nil => rfl
  | cons link links ih => rw [Link.tokensAll, ih, List.flatMap_cons]

instance : Nonempty Factor :=
  (inferInstance : Nonempty Variable).elim fun x ↦ ⟨.var x⟩

instance : Nonempty Expression :=
  (inferInstance : Nonempty Factor).elim fun f ↦ ⟨.chain f []⟩

/-- The form of a factor. -/
def Factor.form : Factor → Grammar.Factor
  | .var x => .leaf x.symbol
  | .number x => .leaf x.symbol
  | .negative _ _ => .negative
  | .negated _ _ => .negated
  | .group _ _ _ => .group

/-- The first token of a factor tells its form. -/
theorem Factor.ofKind?_peek (d : Factor) (s : Stream) :
    Grammar.Factor.ofKind? (s.push d.tokens).peek.kind = some d.form := by
  cases d <;> simp [Factor.tokens, Factor.form, Grammar.Factor.ofKind?, Variable.symbol,
    Number.symbol]

/-! ### The trees of expressions -/

/-- A link as the reader gives it. -/
def Link.value : Link → Grammar.Link
  | .mk op operand => { op := op.value, span := op.span, operand := operand.tree }

/-- The trail of a link. -/
def Link.trail : Link → List Event
  | .mk _ operand => operand.tree.trail

theorem Link.attachAll_eq_foldl (lhs : Tree Symbol) (links : List Link) :
    Link.attachAll lhs links = (links.map Link.value).foldl Grammar.Link.attach lhs := by
  induction links generalizing lhs with
  | nil => rfl
  | cons link links ih =>
    obtain ⟨op, operand⟩ := link
    rw [Link.attachAll, ih]
    rfl

theorem Link.trail_attachAll (lhs : Tree Symbol) (links : List Link) :
    (Link.attachAll lhs links).trail = lhs.trail ++ links.flatMap Link.trail := by
  induction links generalizing lhs with
  | nil => simp [Link.attachAll]
  | cons link links ih =>
    obtain ⟨op, operand⟩ := link
    rw [Link.attachAll, ih]
    simp [Link.attach, Tree.trail, Link.trail]

end Derivation

namespace Phrase

open Pseudocode.Derivation Rule

/-! ### Phrases of expressions -/

/-- Factors. They are complete in themselves. -/
def factor : Phrase Factor where
  tokens := Factor.tokens
  ordered := Factor.ordered
  stops _ _ := True

/-- Infix operators with the operand behind them. -/
def link : Phrase Link where
  tokens := Link.tokens
  ordered := Link.ordered
  stops _ _ := True

/-- Expressions. They go on if an infix operator comes next. -/
def expression : Phrase Expression where
  tokens := Expression.tokens
  ordered := Expression.ordered
  stops _ kind := Operator.ofKind? kind = none

theorem readBy_zero {D α : Type} (P : Phrase D) (r : Rule α) (value : D → α)
    (trail : D → List Event) : P.ReadBy 0 r value trail where
  complete _ _ _ h := absurd h (Nat.not_lt_zero _)
  unique _ _ _ _ h := absurd h (Nat.not_lt_zero _)
  outcome _ _ h := absurd h (Nat.not_lt_zero _)
  quiet _ _ h := absurd h (Nat.not_lt_zero _)

theorem repeats_link : link.Repeats Operator.ofKind? where
  tokens_ne_nil d := by
    obtain ⟨op, operand⟩ := d
    exact List.cons_ne_nil _ _
  starts_peek d s := by
    obtain ⟨op, operand⟩ := d
    exact ⟨op.value, op.read_kind⟩
  seam _ _ _ := trivial
  starts_end := rfl

section Chain

variable {n : Nat} {self : Rule (Tree Symbol)}

/-- A link whose operator is found by the rule itself. -/
def linkRule (self : Rule (Tree Symbol)) : Rule Grammar.Link := do
  let x ← (take Operator.ofKind? .factor).both self
  let span ← spanOf x.1.2
  pure { op := x.1.1, span, operand := x.2 }

theorem readBy_linkRule (h : factor.ReadBy n self Factor.tree fun d ↦ d.tree.trail) :
    link.ReadBy n (linkRule self) Link.value Link.trail := by
  have htoken : (terminal Operator.ofKind?).ReadBy n (take Operator.ofKind? .factor)
      (fun t ↦ (t.value, t.token)) fun _ ↦ [] := readBy_take _ rfl (by simp) n
  have hboth := htoken.both h (by simp) (terminal_before _)
  have hlink : ((terminal Operator.ofKind?).seq factor).ReadBy n (linkRule self)
      (fun x ↦ Link.value (.mk x.1 x.2)) fun x ↦ [] ++ x.2.tree.trail ++ [] :=
    hboth.tail (fun d s ↦ by rw [spanOf_terminal, pure_bind]; rfl) (by simp)
  refine hlink.transport (fun x ↦ .mk x.1 x.2) ?_ ?_ ?_ (fun _ ↦ rfl) ?_
  · rintro ⟨op, operand⟩
    exact ⟨(op, operand), rfl⟩
  · intro x
    rfl
  · intro x kind
    simp [link, seq, factor, terminal]
  · intro x
    simp [Link.trail]

/-- A link whose operator is known does the same. -/
theorem link_apply {s : Stream} {op : Operator} (hs : s.Ordered)
    (hop : Operator.ofKind? s.peek.kind = some op) :
    Grammar.link self op s = linkRule self s := by
  have hspan : spanOf s.peek = pure ⟨s.peek.start, s.peek.stop, hs.peek⟩ :=
    spanOf_terminal ⟨s.peek, op, hop, hs.peek⟩
  rw [Grammar.link, peek_bind, hspan, pure_bind, advance_bind, linkRule, both_bind,
    take_bind_of_some _ hop]
  dsimp only
  rw [hspan]
  simp only [pure_bind]

theorem ReadBy.chain (h : factor.ReadBy n self Factor.tree fun d ↦ d.tree.trail) :
    expression.ReadBy n (Grammar.chain self) Expression.tree fun d ↦ d.tree.trail := by
  have hlinks := (readBy_linkRule h).many repeats_link (Grammar.link self)
    fun s op hs hop ↦ link_apply hs hop
  have : Nonempty (List Link) := ⟨[]⟩
  have hall := (h.both hlinks (by simp) fun _ _ _ _ ↦ trivial).map
    fun x ↦ x.2.foldl Grammar.Link.attach x.1
  refine (hall.congr fun s _ ↦ by simp only [Grammar.chain, both_bind]).transport
    (fun x ↦ .chain x.1 x.2) ?_ ?_ ?_ ?_ ?_
  · rintro ⟨first, links⟩
    exact ⟨(first, links), rfl⟩
  · intro x
    exact congrArg (x.1.tokens ++ ·) (Link.tokensAll_eq_flatMap x.2)
  · intro x kind
    simp [expression, seq, star, factor, link]
  · intro x
    exact Link.attachAll_eq_foldl x.1.tree x.2
  · intro x
    exact Link.trail_attachAll x.1.tree x.2

end Chain

/-! ### The forms of factors -/

section Forms

variable {n : Nat} {self : Rule (Tree Symbol)} {k : Kind}

/-- A form of factors that the first token tells is read if its own rule reads it. -/
theorem branch_of_form {E : Type} {form : Grammar.Factor} {Q : Phrase E} {g : E → Factor}
    {r : Rule (Tree Symbol)} (hk : Grammar.Factor.ofKind? k = some form)
    (reads : Q.ReadBy n r (fun e ↦ (g e).tree) fun e ↦ (g e).tree.trail)
    (rule_eq : ∀ s : Stream, s.Ordered → s.peek.kind = k → Grammar.factorRule self s = r s)
    (tokens_eq : ∀ e, (g e).tokens = Q.tokens e) (stops : ∀ e kind, Q.stops e kind)
    (covers : ∀ d : Factor, d.form = form → ∃ e, g e = d) :
    factor.Branch n (Grammar.factorRule self) Factor.tree (fun d ↦ d.tree.trail) k := by
  refine .form Q g r reads rule_eq tokens_eq (fun e kind _ ↦ stops e kind)
    (fun _ _ _ _ ↦ trivial) fun d s _ hpeek ↦ covers d ?_
  have hform := d.ofKind?_peek s
  rw [show (s.push d.tokens).peek.kind = k from hpeek, hk] at hform
  exact (Option.some.inj hform).symm

theorem branch_var (name : String) :
    factor.Branch n (Grammar.factorRule self) Factor.tree (fun d ↦ d.tree.trail) (.var name) := by
  have hread : (terminal Kind.name?).ReadBy n
      (do
        let x ← take Kind.name? .factor
        pure (.cell (← meet (.var x.1))))
      (fun x ↦ (Factor.var x).tree) fun x ↦ [] ++ [.met (.var x.value)] :=
    (readBy_take _ rfl (by simp) n).tail (fun _ _ ↦ rfl) (by simp [Event.error?])
  refine branch_of_form (g := Factor.var) rfl hread ?_ (fun _ ↦ rfl) (fun _ _ ↦ trivial) ?_
  · intro s _ hpeek
    rw [Grammar.factorRule, peek_bind, hpeek, take_bind_of_some (a := name) _ (by rw [hpeek]; rfl)]
    exact advance_bind _ s
  · intro d hd
    cases d with
    | var x => exact ⟨x, rfl⟩
    | _ => cases hd

theorem branch_number (digits : String) (value : Int64) :
    factor.Branch n (Grammar.factorRule self) Factor.tree (fun d ↦ d.tree.trail)
      (.integer digits value) := by
  have hread : (terminal Kind.number?).ReadBy n
      (do
        let x ← take Kind.number? .factor
        pure (.cell (← meet (.literal x.1.1 x.1.2))))
      (fun x ↦ (Factor.number x).tree) fun x ↦ [] ++ [.met (.literal x.value.1 x.value.2)] :=
    (readBy_take _ rfl (by simp) n).tail (fun _ _ ↦ rfl) (by simp [Event.error?])
  refine branch_of_form (g := Factor.number) rfl hread ?_ (fun _ ↦ rfl) (fun _ _ ↦ trivial) ?_
  · intro s _ hpeek
    rw [Grammar.factorRule, peek_bind, hpeek,
      take_bind_of_some (a := (digits, value)) _ (by rw [hpeek]; rfl)]
    exact advance_bind _ s
  · intro d hd
    cases d with
    | number x => exact ⟨x, rfl⟩
    | _ => cases hd

/-- What comes behind the minus sign `t`. -/
def behindMinus (self : Rule (Tree Symbol)) (t : Token) : Rule (Tree Symbol) := do
  let lhs ← meet Grammar.zero
  let operand ← self
  pure (.binary .subtract (← spanOf t) (.cell lhs) operand)

theorem branch_negative (h : factor.ReadBy n self Factor.tree fun d ↦ d.tree.trail) :
    factor.Branch (n + 1) (Grammar.factorRule self) Factor.tree (fun d ↦ d.tree.trail)
      (.punctuator .minus) := by
  have hbehind (sign : Mark .minus) : factor.ReadBy n (behindMinus self sign.token)
      (fun d ↦ (Factor.negative sign d).tree)
      fun d ↦ [.met Grammar.zero] ++ (d.tree.trail ++ []) :=
    .lead (fun _ ↦ rfl) (by simp [Event.error?])
      (h.tail (fun d s ↦ by rw [spanOf_terminal, pure_bind]; rfl) (by simp))
  have hread := (readBy_take .factor rfl (by simp) (n + 1)).bind
    (f := fun x ↦ behindMinus self x.2) hbehind (fun _ ↦ Nat.le_refl _) (terminal_before _)
  simp only [List.append_nil] at hread
  refine branch_of_form (g := fun x : Mark .minus × Factor ↦ .negative x.1 x.2) rfl hread ?_
    (fun _ ↦ rfl) ?_ ?_
  · intro s _ hpeek
    rw [Grammar.factorRule, peek_bind, hpeek, take_bind_of_some (a := ()) _ (by rw [hpeek]; rfl)]
    exact advance_bind _ s
  · exact fun _ _ ↦ ⟨trivial, fun _ ↦ trivial⟩
  · intro d hd
    cases d with
    | negative sign operand => exact ⟨(sign, operand), rfl⟩
    | _ => cases hd

/-- What comes behind the negation `t`. -/
def behindNon (self : Rule (Tree Symbol)) (t : Token) : Rule (Tree Symbol) := do
  let operand ← self
  pure (.unary .not (← spanOf t) operand)

theorem branch_negated (h : factor.ReadBy n self Factor.tree fun d ↦ d.tree.trail) :
    factor.Branch (n + 1) (Grammar.factorRule self) Factor.tree (fun d ↦ d.tree.trail)
      (.keyword .non) := by
  have hbehind (word : Word .non) : factor.ReadBy n (behindNon self word.token)
      (fun d ↦ (Factor.negated word d).tree) fun d ↦ d.tree.trail ++ [] :=
    h.tail (fun d s ↦ by rw [spanOf_terminal, pure_bind]; rfl) (by simp)
  have hread := (readBy_take .factor rfl (by simp) (n + 1)).bind
    (f := fun x ↦ behindNon self x.2) hbehind (fun _ ↦ Nat.le_refl _) (terminal_before _)
  simp only [List.append_nil] at hread
  refine branch_of_form (g := fun x : Word .non × Factor ↦ .negated x.1 x.2) rfl hread ?_
    (fun _ ↦ rfl) ?_ ?_
  · intro s _ hpeek
    rw [Grammar.factorRule, peek_bind, hpeek, take_bind_of_some (a := ()) _ (by rw [hpeek]; rfl)]
    exact advance_bind _ s
  · exact fun _ _ ↦ ⟨trivial, fun _ ↦ trivial⟩
  · intro d hd
    cases d with
    | negated word operand => exact ⟨(word, operand), rfl⟩
    | _ => cases hd

theorem branch_group (h : factor.ReadBy n self Factor.tree fun d ↦ d.tree.trail) :
    factor.Branch (n + 1) (Grammar.factorRule self) Factor.tree (fun d ↦ d.tree.trail)
      (.punctuator .leftParenthesis) := by
  have hread := h.chain.parenthesized fun _ ↦ rfl
  refine branch_of_form (g := fun e : Condition ↦ .group e.opening e.inner e.closing) rfl hread ?_
    (fun _ ↦ rfl) (fun _ _ ↦ trivial) ?_
  · intro s _ hpeek
    rw [Grammar.factorRule, peek_bind, hpeek]
    rfl
  · intro d hd
    cases d with
    | group opening inner closing => exact ⟨⟨opening, inner, closing⟩, rfl⟩
    | _ => cases hd

/-- Where no factor starts, there is none. -/
theorem branch_none (hk : Grammar.Factor.ofKind? k = none) :
    factor.Branch n (Grammar.factorRule self) Factor.tree (fun d ↦ d.tree.trail) k := by
  refine .dead .factor (by simp) ?_ ?_
  · rintro s - rfl
    rw [Grammar.factorRule, peek_bind, hk]
  · intro d s _ hpeek
    have hform := d.ofKind?_peek s
    rw [show (s.push d.tokens).peek.kind = k from hpeek, hk] at hform
    cases hform

end Forms

/-! ### The rules read the phrases -/

/-- Factors of one more token: all their parts are shorter. -/
theorem readBy_factorRule {n : Nat} {self : Rule (Tree Symbol)}
    (h : factor.ReadBy n self Factor.tree fun d ↦ d.tree.trail) :
    factor.ReadBy (n + 1) (Grammar.factorRule self) Factor.tree fun d ↦ d.tree.trail := by
  refine .of_branches fun k ↦ ?_
  cases hk : Grammar.Factor.ofKind? k with
  | none => exact branch_none hk
  | some form =>
    unfold Grammar.Factor.ofKind? at hk
    split at hk
    · exact branch_var _
    · exact branch_number _ _
    · exact branch_negative h
    · exact branch_negated h
    · exact branch_group h
    · cases hk

theorem readBy_factor (n : Nat) :
    factor.ReadBy n Grammar.factor Factor.tree fun d ↦ d.tree.trail := by
  induction n with
  | zero => exact readBy_zero ..
  | succ n ih =>
    rw [Grammar.factor_eq]
    exact readBy_factorRule ih

theorem readBy_expression (n : Nat) :
    expression.ReadBy n Grammar.expression Expression.tree fun d ↦ d.tree.trail :=
  (readBy_factor n).chain

end Phrase

end Pseudocode

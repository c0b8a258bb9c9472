import Pseudocode.Proofs.Derivation.Expression

/-!
# The names of a derivation

Every variable among the tokens of a program is met when its tree is read, and in the same order.
So no variable of a program goes without a cell.

## Main definitions

* `Token.names`, `Trail.names`: the variables among tokens, and along a trail.

## Main results

* `Derivation.Program.names_trail`: the variables along the trail are those among the tokens.
* `Derivation.Program.met_of_mem_tokens`: each of them is met.
-/

namespace Pseudocode

/-- The variables among tokens, in order. -/
def Token.names (tokens : List Token) : List String :=
  tokens.filterMap (·.kind.name?)

/-- The variable that is met. -/
def Event.name? : Event → Option String
  | met (.var name) => some name
  | _ => none

/-- The variables along a trail, in order. -/
def Trail.names (trail : List Event) : List String :=
  trail.filterMap Event.name?

open Token (Kind names)

@[simp]
theorem Token.names_nil : names [] = [] := rfl

@[simp]
theorem Token.names_append (a b : List Token) : names (a ++ b) = names a ++ names b :=
  List.filterMap_append

@[simp]
theorem Trail.names_append (a b : List Event) :
    Trail.names (a ++ b) = Trail.names a ++ Trail.names b :=
  List.filterMap_append

@[simp]
theorem Trail.names_understood (name : String) (trail : List Event) :
    Trail.names (.understood name :: trail) = Trail.names trail := rfl

namespace Derivation

/-! ### Terminals -/

@[simp]
theorem Variable.names_cons (x : Variable) (ts : List Token) :
    names (x.token :: ts) = x.value :: names ts := by
  rw [names, List.filterMap_cons, x.read_kind]
  rfl

/-- A terminal that is no variable has no name. -/
theorem Terminal.names_cons {α : Type} {read : Kind → Option α}
    (h : ∀ name, read (.var name) = none) (t : Terminal read) (ts : List Token) :
    names (t.token :: ts) = names ts := by
  have hkind : t.token.kind.name? = none := by
    cases hname : t.token.kind with
    | var name =>
      have hread := t.read_kind
      rw [hname, h] at hread
      cases hread
    | _ => rfl
  rw [names, List.filterMap_cons, hkind]
  rfl

@[simp]
theorem Word.names_cons {k : Keyword} (t : Word k) (ts : List Token) :
    names (t.token :: ts) = names ts :=
  Terminal.names_cons (fun _ ↦ rfl) t ts

@[simp]
theorem Mark.names_cons {p : Punctuator} (t : Mark p) (ts : List Token) :
    names (t.token :: ts) = names ts :=
  Terminal.names_cons (fun _ ↦ rfl) t ts

@[simp]
theorem Number.names_cons (t : Number) (ts : List Token) : names (t.token :: ts) = names ts :=
  Terminal.names_cons (fun _ ↦ rfl) t ts

@[simp]
theorem Quotation.names_cons (t : Quotation) (ts : List Token) :
    names (t.token :: ts) = names ts :=
  Terminal.names_cons (fun _ ↦ rfl) t ts

@[simp]
theorem Infix.names_cons (t : Infix) (ts : List Token) : names (t.token :: ts) = names ts :=
  Terminal.names_cons (fun _ ↦ rfl) t ts

/-! ### Expressions -/

mutual

theorem Factor.names_trail : ∀ d : Factor, Trail.names d.tree.trail = names d.tokens
  | .var x => (x.names_cons []).symm
  | .number x => (x.names_cons []).symm
  | .negative sign operand => by
    rw [Factor.tokens, sign.names_cons, ← operand.names_trail]
    rfl
  | .negated word operand => by
    rw [Factor.tokens, word.names_cons, ← operand.names_trail]
    rfl
  | .group opening inner closing => by
    rw [Factor.tokens, opening.names_cons, Token.names_append, closing.names_cons,
      Token.names_nil, List.append_nil, ← inner.names_trail]
    rfl
termination_by structural d => d

theorem Expression.names_trail : ∀ d : Expression, Trail.names d.tree.trail = names d.tokens
  | .chain first links => by
    rw [Expression.tree, Link.trail_attachAll, Trail.names_append, first.names_trail,
      Link.names_trailAll links, Expression.tokens, Token.names_append]
termination_by structural d => d

theorem Link.names_trail : ∀ d : Link, Trail.names d.trail = names d.tokens
  | .mk op operand => by
    rw [Link.tokens, op.names_cons, ← operand.names_trail]
    rfl
termination_by structural d => d

theorem Link.names_trailAll :
    ∀ ds : List Link, Trail.names (ds.flatMap Link.trail) = names (Link.tokensAll ds)
  | [] => rfl
  | d :: ds => by
    rw [List.flatMap_cons, Trail.names_append, d.names_trail, Link.names_trailAll ds,
      Link.tokensAll, Token.names_append]
termination_by structural ds => ds

end

/-! ### Instructions -/

theorem Condition.names_tokens (d : Condition) :
    names d.tokens = Trail.names d.inner.tree.trail := by
  rw [Condition.tokens, Enclosed.tokens, d.opening.names_cons, Token.names_append,
    d.closing.names_cons, Token.names_nil, List.append_nil, d.inner.names_trail]

theorem Assignment.names_tokens (a : Assignment) :
    names a.tokens = a.target.value :: Trail.names a.value.tree.trail := by
  rw [Assignment.tokens, a.target.names_cons, a.mark.names_cons, a.value.names_trail]

theorem Assignment.names_clause (a : Option Assignment) :
    Trail.names (Tree.trailClause (Assignment.clause a)) = names (Assignment.tokens? a) := by
  cases a with
  | none => rfl
  | some a => exact a.names_tokens.symm

theorem Item.names_part (item : Item) :
    Trail.names (Tree.trailItem item.part) = names item.tokens := by
  cases item with
  | text contents => exact (contents.names_cons []).symm
  | value expression => exact expression.names_trail

/-- The names between parentheses and commas are those of the parts. -/
theorem Enclosed.names_listed {D : Type} (part : D → List Token) (e : Enclosed (Listed D)) :
    names (e.tokens (Listed.tokens part)) = e.inner.toList.flatMap fun d ↦ names (part d) := by
  have hothers (others : List (Mark .comma × D)) :
      names (others.flatMap fun other ↦ other.1.token :: part other.2) =
        (others.map (·.2)).flatMap fun d ↦ names (part d) := by
    induction others with
    | nil => rfl
    | cons other others ih =>
      rw [List.flatMap_cons, Token.names_append, other.1.names_cons, ih, List.map_cons,
        List.flatMap_cons]
  rw [Enclosed.tokens, e.opening.names_cons, Token.names_append, e.closing.names_cons,
    Token.names_nil, List.append_nil, Listed.tokens, Token.names_append, hothers,
    Listed.toList, List.flatMap_cons]

theorem Item.names_parts (items : List Item) :
    Trail.names (Tree.trailItems (items.map Item.part)) =
      items.flatMap fun item ↦ names item.tokens := by
  induction items with
  | nil => rfl
  | cons item items ih =>
    rw [List.flatMap_cons, ← ih, ← item.names_part, Tree.trailItems_eq_flatMap, List.map_cons,
      List.flatMap_cons, Trail.names_append, Tree.trailItems_eq_flatMap]

theorem Variable.names_symbols (cells : List Variable) :
    Trail.names ((cells.map Variable.symbol).map .met) = cells.flatMap fun x ↦ names [x.token] := by
  induction cells with
  | nil => rfl
  | cons x cells ih =>
    rw [List.flatMap_cons, x.names_cons, ← ih]
    rfl

mutual

theorem Instruction.names_trail : ∀ d : Instruction, Trail.names d.tree.trail = names d.tokens
  | .assignment a semicolon => by
    rw [Instruction.tokens, Token.names_append, semicolon.names_cons, Token.names_nil,
      List.append_nil, a.names_tokens]
    rfl
  | .ifThen si test body finsi => by
    rw [Instruction.tree, Tree.trail, Trail.names_append, body.names_trail]
    simp [Instruction.tokens, test.names_tokens]
  | .choice si test body tail => by
    rw [Instruction.tree, Tree.trail, Tree.trailArms, Trail.names_append, Trail.names_append,
      body.names_trail, tail.names_trail]
    simp [Instruction.tokens, test.names_tokens]
  | .repeatUntil repeter body jusqua test => by
    rw [Instruction.tree, Tree.trail, Trail.names_append, body.names_trail]
    simp [Instruction.tokens, test.names_tokens]
  | .whileDo tantque test body fintantque => by
    rw [Instruction.tree, Tree.trail, Trail.names_append, body.names_trail]
    simp [Instruction.tokens, test.names_tokens]
  | .forLoop pour opening init semicolon test semicolon' step closing body finpour => by
    simp [Instruction.tree, Tree.trail, Instruction.tokens, body.names_trail, test.names_trail,
      Assignment.names_clause]
  | .write ecrire items => by
    rw [Instruction.tokens, ecrire.names_cons, items.names_listed, ← Item.names_parts]
    rfl
  | .read lire cells => by
    rw [Instruction.tokens, lire.names_cons, cells.names_listed, ← Variable.names_symbols]
    rfl
termination_by structural d => d

theorem Sequence.names_trail : ∀ d : Sequence, Trail.names d.tree.trail = names d.tokens
  | .mk first others => by
    rw [Sequence.tree, Tree.trail, Tree.trailAll, Trail.names_append, first.names_trail,
      Trail.names_understood, Instruction.names_trailAll others, Sequence.tokens,
      Token.names_append]
termination_by structural d => d

theorem Instruction.names_trailAll : ∀ ds : List Instruction,
    Trail.names (Tree.trailAll (Instruction.treeAll ds)) = names (Instruction.tokensAll ds)
  | [] => rfl
  | d :: ds => by
    rw [Instruction.treeAll, Tree.trailAll, Trail.names_append, d.names_trail,
      Trail.names_understood, Instruction.names_trailAll ds, Instruction.tokensAll,
      Token.names_append]
termination_by structural ds => ds

theorem Guarded.names_trail : ∀ (d : Guarded) (arms : List (Arm Symbol)),
    Trail.names (Tree.trailArms (d.arm :: arms)) =
      names d.tokens ++ Trail.names (Tree.trailArms arms)
  | .mk sinonsi test body, arms => by
    rw [Guarded.arm, Tree.trailArms, Trail.names_append, Trail.names_append, body.names_trail]
    simp [Guarded.tokens, test.names_tokens]
termination_by structural d => d

theorem Guarded.names_trailAll : ∀ (ds : List Guarded) (arms : List (Arm Symbol)),
    Trail.names (Tree.trailArms (Guarded.arms ds ++ arms)) =
      names (Guarded.tokensAll ds) ++ Trail.names (Tree.trailArms arms)
  | [], _ => rfl
  | d :: ds, arms => by
    rw [Guarded.arms, List.cons_append, d.names_trail, Guarded.names_trailAll ds arms,
      Guarded.tokensAll, Token.names_append, List.append_assoc]
termination_by structural ds => ds

theorem Otherwise.names_trail : ∀ d : Otherwise,
    Trail.names (Tree.trailArms [d.arm]) = names d.tokens
  | .mk sinon body => by
    rw [Otherwise.arm, Tree.trailArms, Trail.names_append, body.names_trail, Otherwise.tokens,
      sinon.names_cons]
    exact List.append_nil _
termination_by structural d => d

theorem Otherwise.names_trail? : ∀ d : Option Otherwise,
    Trail.names (Tree.trailArms (Otherwise.arms d)) = names (Otherwise.tokens? d)
  | none => rfl
  | some d => d.names_trail
termination_by structural d => d

theorem Tail.names_trail : ∀ d : Tail, Trail.names (Tree.trailArms d.arms) = names d.tokens
  | .guarded first others last finsi => by
    rw [Tail.arms, first.names_trail, Guarded.names_trailAll others, Otherwise.names_trail? last]
    simp [Tail.tokens]
  | .otherwise last finsi => by
    rw [Tail.arms, last.names_trail, Tail.tokens, Token.names_append, finsi.names_cons,
      Token.names_nil, List.append_nil]
termination_by structural d => d

end

/-- The variables along the trail of a program are those among its tokens. -/
theorem Program.names_trail (d : Program) : Trail.names d.tree.trail = names d.tokens := by
  rw [Program.tree, d.body.names_trail]
  simp [Program.tokens]

/-- Every variable among the tokens of a program is met. -/
theorem Program.met_of_mem_tokens (d : Program) {t : Token} {name : String} (ht : t ∈ d.tokens)
    (hkind : t.kind = .var name) : .met (.var name) ∈ d.tree.trail := by
  have hname : name ∈ names d.tokens := List.mem_filterMap.2 ⟨t, ht, by rw [hkind]; rfl⟩
  rw [← d.names_trail] at hname
  obtain ⟨e, he, hvar⟩ := List.mem_filterMap.1 hname
  unfold Event.name? at hvar
  split at hvar <;> cases hvar
  exact he

end Derivation

end Pseudocode

import Pseudocode.Proofs.Division
import Pseudocode.Proofs.Termination

/-!
# Chains of factors

An expression is a chain of factors with operators between them. Reading an expression takes the
longest chain that the tokens begin with, as there is only one place where no operator follows.
Evaluating the chain goes over it from left to right, whatever the operators are: the value so far
is combined with the next factor. Only a factor can hold more than itself, and it holds one factor
behind its sign or `non`, or one chain between its parentheses.

## Main definitions

* `Derivation.Expression.Leads`: a chain at the head of a list of tokens that no operator follows.
* `Derivation.Expression.fold`: the evaluation of a chain from left to right.
* `Derivation.Factor.apply`: the evaluation of a factor by its form.

## Main results

* `Derivation.Expression.Leads.unique`: a list of tokens begins with one such chain at most.
* `Derivation.Expression.eval_map_tree`: the tree of a chain is evaluated from left to right.
* `Reading.expression_folds_longest_chain`: what reading an expression does and what it means.
-/

namespace Pseudocode

open Token (Kind)

/-! ### The head of a list of tokens -/

namespace Stream

variable {tokens : List Token}

/-- A stream is what is behind its first tokens, with these tokens in front. -/
theorem ofTokens_eq_push_behind {k : Nat} (h : k ≤ extent tokens) :
    ofTokens tokens = (behind tokens k).push (tokens.take k) := by
  have hahead : (ofTokens tokens).ahead = tokens.take k ++ (behind tokens k).ahead := by
    rw [← behind_zero, ahead_behind, ahead_behind, List.drop_zero]
    conv_lhs => rw [← List.take_append_drop k (tokens.take (extent tokens))]
    rw [List.take_take, Nat.min_eq_left h]
  rw [push, ← hahead]
  rfl

/-- What is put in front of a stream to make that of a list are the first tokens of the list. -/
theorem eq_take_of_ofTokens_eq_push {w : List Token} {rest : Stream}
    (h : ofTokens tokens = rest.push w) : w.length ≤ extent tokens ∧
      w = tokens.take w.length ∧ rest = behind tokens w.length := by
  have hahead : tokens.take (extent tokens) = w ++ rest.ahead := by
    rw [← List.drop_zero (l := tokens.take _), ← ahead_behind, behind_zero, h]
    rfl
  have hle : w.length ≤ extent tokens := by
    have hlength := congrArg List.length hahead
    rw [List.length_take, List.length_append] at hlength
    omega
  refine ⟨hle, ?_, ?_⟩
  · have htake := congrArg (List.take w.length) hahead
    rwa [List.take_take, Nat.min_eq_left hle, List.take_left', eq_comm] at htake
    rfl
  · have hdrop : (ofTokens tokens).ahead.drop w.length = rest.ahead := by
      rw [h]
      exact List.drop_left
    rw [behind, hdrop, h]
    rfl

end Stream

namespace Derivation

/-! ### The tokens of a chain -/

/-- A terminal of a class that leaves out the end of input is no end of input. -/
theorem Terminal.isEnd_eq_false {α : Type} {read : Kind → Option α} (t : Terminal read)
    (hread : read .endOfInput = none) : t.token.isEnd = false := by
  refine decide_eq_false fun hkind ↦ ?_
  have hvalue := t.read_kind
  rw [show t.token.kind = .endOfInput from hkind, hread] at hvalue
  cases hvalue

mutual

/-- The end of input is in no factor. -/
theorem Factor.isEnd_eq_false : ∀ (d : Factor), ∀ t ∈ d.tokens, t.isEnd = false
  | .var x => List.forall_mem_singleton.2 (x.isEnd_eq_false rfl)
  | .number x => List.forall_mem_singleton.2 (x.isEnd_eq_false rfl)
  | .negative sign operand =>
    List.forall_mem_cons.2 ⟨sign.isEnd_eq_false rfl, operand.isEnd_eq_false⟩
  | .negated word operand =>
    List.forall_mem_cons.2 ⟨word.isEnd_eq_false rfl, operand.isEnd_eq_false⟩
  | .group opening inner closing =>
    List.forall_mem_cons.2 ⟨opening.isEnd_eq_false rfl, List.forall_mem_append.2
      ⟨inner.isEnd_eq_false, List.forall_mem_singleton.2 (closing.isEnd_eq_false rfl)⟩⟩
termination_by structural d => d

theorem Expression.isEnd_eq_false : ∀ (d : Expression), ∀ t ∈ d.tokens, t.isEnd = false
  | .chain first links =>
    List.forall_mem_append.2 ⟨first.isEnd_eq_false, Link.isEnd_eq_false_all links⟩
termination_by structural d => d

theorem Link.isEnd_eq_false : ∀ (d : Link), ∀ t ∈ d.tokens, t.isEnd = false
  | .mk op operand => List.forall_mem_cons.2 ⟨op.isEnd_eq_false rfl, operand.isEnd_eq_false⟩
termination_by structural d => d

theorem Link.isEnd_eq_false_all : ∀ (ds : List Link), ∀ t ∈ Link.tokensAll ds, t.isEnd = false
  | [] => fun _ ht ↦ absurd ht List.not_mem_nil
  | d :: ds => List.forall_mem_append.2 ⟨d.isEnd_eq_false, Link.isEnd_eq_false_all ds⟩
termination_by structural ds => ds

end

namespace Expression

variable {tokens : List Token} {d d' : Expression} {k k' : Nat}

/-- The first `k` tokens are a chain, and what comes behind them, if anything, is no operator. -/
structure Leads (d : Expression) (k : Nat) (tokens : List Token) : Prop where
  /-- There are so many tokens. -/
  length_le : k ≤ tokens.length
  /-- The first ones are the tokens of the chain. -/
  tokens_eq : d.tokens = tokens.take k
  /-- The next one does not go on with it. -/
  stops : ∀ t, tokens[k]? = some t → Operator.ofKind? t.kind = none

/-- A chain ends before the first end of input. -/
theorem Leads.le_extent (h : d.Leads k tokens) : k ≤ Stream.extent tokens := by
  by_contra hlt
  have hextent : Stream.extent tokens < tokens.length := by
    have := h.length_le
    omega
  have hmem : tokens[Stream.extent tokens] ∈ d.tokens := by
    rw [h.tokens_eq, List.mem_take_iff_getElem]
    exact ⟨_, by omega, rfl⟩
  have hend : tokens[Stream.extent tokens].isEnd = true := List.findIdx_getElem
  rw [d.isEnd_eq_false _ hmem] at hend
  cases hend

/-- The stream of the tokens begins with the chain. -/
theorem Leads.begins (h : d.Leads k tokens) :
    Phrase.expression.Begins (Stream.ofTokens tokens) d (Stream.behind tokens k) := by
  refine ⟨?_, ?_⟩
  · rw [Stream.ofTokens_eq_push_behind h.le_extent, ← h.tokens_eq]
    rfl
  · change Operator.ofKind? _ = none
    rw [Stream.peek_behind h.le_extent, Stream.tokenAt, List.getD_eq_getElem?_getD]
    cases hnext : tokens[k]? with
    | none => rfl
    | some t => exact h.stops t hnext

/-- A chain that the stream of the tokens begins with is at the head of the tokens. -/
theorem leads_of_begins {rest : Stream}
    (h : Phrase.expression.Begins (Stream.ofTokens tokens) d rest) :
    d.Leads d.tokens.length tokens := by
  obtain ⟨hpush, hstops⟩ := h
  change Stream.ofTokens tokens = rest.push d.tokens at hpush
  obtain ⟨hle, htake, rfl⟩ := Stream.eq_take_of_ofTokens_eq_push hpush
  refine ⟨hle.trans List.findIdx_le_length, htake, fun t ht ↦ ?_⟩
  have hpeek : (Stream.behind tokens d.tokens.length).peek = t := by
    rw [Stream.peek_behind hle, Stream.tokenAt, List.getD_eq_getElem?_getD, ht]
    rfl
  rw [← hpeek]
  exact hstops

/-- Reading the tokens takes the chain. -/
theorem Leads.expression_eq (h : d.Leads k tokens) (hordered : ∀ t ∈ tokens, t.Ordered) :
    Grammar.expression (Stream.ofTokens tokens) =
      { result := .ok d.tree, rest := Stream.behind tokens k, events := d.tree.trail } :=
  ((Phrase.readBy_expression _).eq_of_begins (Stream.ordered_ofTokens hordered)
    (Nat.lt_succ_self _) h.begins).2.2

/-- A list of tokens begins with one chain at most that no operator follows. -/
theorem Leads.unique (hordered : ∀ t ∈ tokens, t.Ordered) (h : d.Leads k tokens)
    (h' : d'.Leads k' tokens) : k = k' ∧ d = d' := by
  have hs := Stream.ordered_ofTokens hordered
  have hrest : Stream.behind tokens k = Stream.behind tokens k' :=
    congrArg Outcome.rest ((h.expression_eq hordered).symm.trans (h'.expression_eq hordered))
  have hk : k = k' := by
    have hlength := congrArg Stream.length hrest
    have hle := h.le_extent
    have hle' := h'.le_extent
    rw [Stream.length_behind, Stream.length_behind] at hlength
    omega
  subst hk
  refine ⟨rfl, ?_⟩
  have hbehind := (Stream.ordered_push_iff.1 (h.begins.1 ▸ hs)).2
  exact (Phrase.readBy_expression _).unique d d' _ hbehind (Nat.lt_succ_self _) h.begins.2
    h'.begins.2 (h.tokens_eq.trans h'.tokens_eq.symm)

end Expression

/-! ### The meaning of a chain -/

section Meaning

variable (index : Symbol → Nat) (bound : Nat)

/-- The value so far is combined with the factor behind the operator: only a division by zero has
no value, and its operator is blamed. -/
def Link.apply (v : Int64) : Link → Run Int64
  | .mk op operand => do
    let w ← (operand.tree.map index).eval bound
    if op.value = .divide ∧ w = 0 then
      throw (.divisionByZero op.span)
    else
      pure ((op.value.value? v w).getD 0)

/-- The value of the first factor is combined with the others in order. -/
def Expression.fold : Expression → Run Int64
  | .chain first links => do
    let v ← (first.tree.map index).eval bound
    links.foldlM (Link.apply index bound) v

/-- A sign or `non` works on the one factor behind it, and parentheses hold one chain. -/
def Factor.apply : Factor → Run Int64
  | .var x => Run.value (index x.symbol)
  | .number x => Run.value (index x.symbol)
  | .negative _ operand => do
    let zero ← Run.value (index (.literal "0" 0))
    let w ← (operand.tree.map index).eval bound
    pure (zero - w)
  | .negated _ operand => do
    let w ← (operand.tree.map index).eval bound
    pure (ofTruth !truthy w)
  | .group _ inner _ => (inner.tree.map index).eval bound

/-- An operator on two values, with its only failure spelled out. -/
theorem operate_eq_ite (op : Operator) (span : Span) (v w : Int64) :
    Tree.operate op span v w = if op = .divide ∧ w = 0 then throw (.divisionByZero span)
      else pure ((op.value? v w).getD 0) := by
  by_cases h : op = .divide ∧ w = 0
  · rw [if_pos h, Tree.operate, Operator.value?_eq_none_iff.2 h]
  · obtain ⟨u, hu⟩ := Option.ne_none_iff_exists'.1 (mt Operator.value?_eq_none_iff.1 h)
    rw [if_neg h, Tree.operate, hu]
    rfl

/-- A link is evaluated behind what it is attached to. -/
theorem Link.eval_map_attach (lhs : Tree Symbol) (link : Link) :
    ((link.attach lhs).map index).eval bound =
      (lhs.map index).eval bound >>= (link.apply index bound ·) := by
  obtain ⟨op, operand⟩ := link
  rw [Link.attach, Tree.map, Tree.eval]
  refine bind_congr fun v ↦ ?_
  rw [Tree.rightOperand, Operator.isUnary_of_ofKind? op.read_kind]
  refine bind_congr fun w ↦ ?_
  exact operate_eq_ite op.value op.span v w

theorem Link.eval_map_attachAll (lhs : Tree Symbol) (links : List Link) :
    ((Link.attachAll lhs links).map index).eval bound =
      (lhs.map index).eval bound >>= (links.foldlM (Link.apply index bound) ·) := by
  induction links generalizing lhs with
  | nil => exact (bind_pure _).symm
  | cons link links ih =>
    rw [Link.attachAll, ih, Link.eval_map_attach, bind_assoc]
    rfl

/-- The tree of a chain is evaluated from left to right. -/
theorem Expression.eval_map_tree (d : Expression) :
    (d.tree.map index).eval bound = d.fold index bound := by
  obtain ⟨first, links⟩ := d
  exact Link.eval_map_attachAll index bound first.tree links

/-- The tree of a factor is evaluated by its form. -/
theorem Factor.eval_map_tree (d : Factor) :
    (d.tree.map index).eval bound = d.apply index bound := by
  cases d <;> rfl

end Meaning

end Derivation

namespace Reading

open Pseudocode.Derivation

/-- What reading an expression takes and what it means. Reading gives a tree if and only if the
tokens begin with a chain that no operator follows. There is one such chain at most, and reading
takes its tokens and no others. However the symbols are numbered, the tree is evaluated as the chain
from left to right, and so is every chain between parentheses; a sign and `non` work on one factor.
On a table that holds the cells of the chain this ends, without a change. -/
theorem expression_folds_longest_chain (tokens : List Token) (hordered : ∀ t ∈ tokens, t.Ordered) :
    let result := (ofTokens tokens).expression.1
    let after := (ofTokens tokens).expression.2
    ((∃ tree, result = .ok tree) ↔ ∃ k d, Expression.Leads d k tokens) ∧
    (∀ k d k' d', Expression.Leads d k tokens → Expression.Leads d' k' tokens →
      k = k' ∧ d = d') ∧
    (∀ k d, Expression.Leads d k tokens → result = .ok d.tree ∧
      after.stream = Stream.behind tokens k ∧
      k + after.stream.length = (Stream.ofTokens tokens).length ∧
      ∀ (index : Symbol → Nat) (m : Machine),
        (∀ id ∈ (d.tree.map index).leaves, id < m.table.size) →
        ∃ value, ∀ bound, (d.tree.map index).run bound m = some (value, m)) ∧
    ∀ (index : Symbol → Nat) (bound : Nat),
      (∀ d : Expression, (d.tree.map index).run bound = d.fold index bound) ∧
      ∀ d : Factor, (d.tree.map index).run bound = d.apply index bound := by
  intro result after
  refine ⟨⟨?_, ?_⟩, fun k d k' d' h h' ↦ h.unique hordered h', fun k d h ↦ ?_,
    fun index bound ↦ ⟨Expression.eval_map_tree index bound, Factor.eval_map_tree index bound⟩⟩
  · rintro ⟨tree, htree⟩
    rcases Phrase.ReadBy.outcome_all Phrase.readBy_expression
      (Stream.ordered_ofTokens hordered) with ⟨d, rest, hd⟩ | ⟨w, rest, e, -, he, -⟩
    · exact ⟨_, d, Expression.leads_of_begins hd⟩
    · exact nomatch htree.symm.trans he.1
  · rintro ⟨k, d, h⟩
    exact ⟨d.tree, congrArg Outcome.result (h.expression_eq hordered)⟩
  · have hread := h.expression_eq hordered
    have hresult : result = .ok d.tree := congrArg Outcome.result hread
    have hstream : after.stream = Stream.behind tokens k := congrArg Outcome.rest hread
    refine ⟨hresult, hstream, ?_, fun index m hcells ↦ ?_⟩
    · have hle := h.le_extent
      rw [hstream, ← Stream.behind_zero, Stream.length_behind, Stream.length_behind]
      omega
    · have hexpression := (Grammar.gives_expression (Q := fun _ ↦ True)
        (Stream.ofTokens tokens) fun _ _ ↦ trivial).2 d.tree hresult
      obtain ⟨a, hrun, -⟩ := (hexpression.map index).exists_eval hcells
      exact ⟨_, hrun⟩

/-- A chain whose first factor is negative, before a parenthesis that nothing has opened: the
product comes last. -/
theorem expression_folds_longest_chain_negative :
    let tokens : List Token := [.punctuator .minus, .integer "2" 2, .punctuator .plus,
      .integer "3" 3, .punctuator .asterisk, .integer "4" 4, .punctuator .rightParenthesis,
      .punctuator .plus].map fun kind ↦ ⟨kind, {}, {}⟩
    let after := (ofTokens tokens).expression.2
    (∀ t ∈ tokens, t.Ordered) ∧ ∃ d : Expression, d.Leads 6 tokens ∧
      after.stream.ahead = tokens.drop 6 ∧
      ∃ m, d.fold (fun s ↦ after.table.indexOf s.text) 0 { table := after.table } =
        some (.ok 4, m) := by
  intro tokens after
  let span : Span := ⟨{}, {}, Nat.le_refl _⟩
  let tree : Tree Symbol := .binary .multiply span (.binary .add span
    (.binary .subtract span (.cell (.literal "0" 0)) (.cell (.literal "2" 2)))
    (.cell (.literal "3" 3))) (.cell (.literal "4" 4))
  have hordered : ∀ t ∈ tokens, t.Ordered := by decide
  have htree : (ofTokens tokens).expression.1 = .ok tree := by decide +kernel
  have hahead : after.stream.ahead = tokens.drop 6 := by decide +kernel
  obtain ⟨hiff, -, htakes, hmeaning⟩ := expression_folds_longest_chain tokens hordered
  obtain ⟨k, d, hd⟩ := hiff.1 ⟨tree, htree⟩
  obtain ⟨hresult, -, hlength, -⟩ := htakes k d hd
  have hk : k = 6 := by
    have hahead' : (ofTokens tokens).expression.2.stream.length = 2 := by decide +kernel
    have hall : (Stream.ofTokens tokens).length = 8 := by decide +kernel
    omega
  subst hk
  have hd' : d.tree = tree := Except.ok.inj (hresult.symm.trans htree)
  refine ⟨hordered, d, hd, hahead, { table := after.table }, ?_⟩
  rw [← (hmeaning _ 0).1 d, hd']
  decide +kernel

end Reading

end Pseudocode

import Pseudocode.Proofs.Chain
import Pseudocode.Proofs.Refinement

/-!
# Texts that are a single expression

A text may be nothing but an expression: it has no lexical errors, and reading an expression takes
all of its tokens. This is so exactly if its tokens are derived from the expression. With values for
its variables, such a text has a value itself, or divides by zero, and the machine finds this out.

## Main definitions

* `Table.assign`: a table whose variables have the values of an environment.
* `Scan.Expresses`: a text that is a single expression.
* `Scan.Calculates`: what such a text amounts to in an environment.

## Main results

* `Scan.expresses_iff`: a single expression by its derivation.
* `Scan.calculates_of_derivation`: the machine gives an expression its meaning.
-/

namespace Pseudocode

open Reference

/-! ### Values for variables -/

namespace Table

/-- The table in which every variable is given its value in the environment. -/
def assign (env : Env) (t : Table) : Table :=
  { cells := t.cells.map fun c ↦ if c.kind = .var then c.store (env c.name) else c }

theorem get?_assign (env : Env) (t : Table) (id : Nat) : (t.assign env).get? id =
    (t.get? id).map fun c ↦ if c.kind = .var then c.store (env c.name) else c :=
  Array.getElem?_map

end Table

/-- Variables have their values in the environment, and literals keep their own. -/
theorem Layout.agrees_assign (env : Env) {trail : List Event}
    (hspelled : ∀ x, .met x ∈ trail → x.WellSpelled)
    (hvalue : ∀ {digits : String} {v : Int64}, .met (.literal digits v) ∈ trail →
      v = Int64.ofNat (Decimal.value digits.toList)) :
    Agrees (ofTrail trail hspelled hvalue) { table := (Trail.table trail).assign env }
      { env } where
  lines := rfl
  cells x hx := by
    have hcell := Table.get?_assign env (Trail.table trail) ((Trail.table trail).indexOf x.text)
    rw [Trail.get?_table hspelled hx] at hcell
    refine ⟨_, hcell, ?_⟩
    cases x <;> rfl

/-! ### Reading all tokens -/

namespace Reading

open Pseudocode.Derivation

variable {tokens : List Token}

/-- Tokens that are derived from an expression are read as it, all of them. -/
theorem expression_of_tokens_eq (hordered : ∀ t ∈ tokens, t.Ordered) {d : Expression}
    (hd : d.tokens = tokens.takeWhile (!·.isEnd)) : (ofTokens tokens).expression =
      (.ok d.tree, { stream := { Stream.ofTokens tokens with ahead := [] }
                     trail := d.tree.trail }) := by
  have hbegins : Phrase.expression.Begins (Stream.ofTokens tokens) d
      { Stream.ofTokens tokens with ahead := [] } := by
    refine ⟨?_, rfl⟩
    change Stream.ofTokens tokens = { Stream.ofTokens tokens with ahead := d.tokens ++ [] }
    rw [hd, List.append_nil]
    rfl
  have hread := ((Phrase.readBy_expression _).eq_of_begins (Stream.ordered_ofTokens hordered)
    (Nat.lt_succ_self _) hbegins).2.2
  change (_, _) = _
  rw [show (ofTokens tokens).stream = Stream.ofTokens tokens from rfl, hread]
  rfl

/-- Reading an expression takes all tokens exactly if they are derived from it. -/
theorem expression_all_iff (hordered : ∀ t ∈ tokens, t.Ordered) {tree : Tree Symbol} :
    (ofTokens tokens).expression.1 = .ok tree ∧
        (ofTokens tokens).expression.2.stream.atEnd = true ↔
      ∃ d : Expression, d.tokens = tokens.takeWhile (!·.isEnd) ∧ d.tree = tree := by
  constructor
  · rintro ⟨htree, hend⟩
    rcases Phrase.ReadBy.outcome_all Phrase.readBy_expression
      (Stream.ordered_ofTokens hordered) with ⟨d, rest, hd⟩ | ⟨w, rest, e, -, he, -⟩
    · have hread := ((Phrase.readBy_expression _).eq_of_begins (Stream.ordered_ofTokens hordered)
        (Nat.lt_succ_self _) hd).2.2
      have hrest : rest.ahead = [] := by
        rw [expression, run, show (ofTokens tokens).stream = Stream.ofTokens tokens from rfl,
          hread] at hend
        exact List.isEmpty_iff.1 hend
      refine ⟨d, ?_, Except.ok.inj ((congrArg Outcome.result hread).symm.trans htree)⟩
      have hahead : tokens.takeWhile (!·.isEnd) = d.tokens ++ rest.ahead :=
        congrArg Stream.ahead hd.1
      rw [hahead, hrest, List.append_nil]
    · have hfailed := htree.symm.trans he.1
      cases hfailed
  · rintro ⟨d, hd, rfl⟩
    rw [expression_of_tokens_eq hordered hd]
    exact ⟨rfl, rfl⟩

/-- The symbols that are met while an expression is read come from its tokens. -/
theorem from_expression {x : Symbol} (hx : .met x ∈ (ofTokens tokens).expression.2.trail) :
    x.From tokens := by
  have hfrom := (Grammar.meets_expression (Stream.ofTokens tokens)).symbols x hx
  exact hfrom.imp_right fun ⟨t, ht, hsymbol⟩ ↦ ⟨t, (List.takeWhile_sublist _).mem ht, hsymbol⟩

end Reading

/-! ### Texts -/

namespace Scan

open Pseudocode.Derivation

variable {source : String}

/-- The text is nothing but the expression `tree`: it has no lexical errors, and reading an
expression takes all of its tokens. -/
structure Expresses (source : String) (tree : Tree Symbol) : Prop where
  /-- There are no lexical errors. -/
  errors_eq : (ofSource source).errors = []
  /-- Reading gives the tree. -/
  tree_eq : (Reading.ofTokens (ofSource source).tokens).expression.1 = .ok tree
  /-- No token is left. -/
  atEnd : (Reading.ofTokens (ofSource source).tokens).expression.2.stream.atEnd = true

/-- The text is nothing but an expression. Run on its table, in which the variables have their
values in the environment, it has this value, or divides by zero there, and changes nothing. -/
def Calculates (source : String) (env : Env) (answer : Except Span Int64) : Prop :=
  ∃ tree, Expresses source tree ∧
    let after := (Reading.ofTokens (ofSource source).tokens).expression.2
    let m : Machine := { table := after.table.assign env }
    ∀ bound, (after.resolve tree).run bound m = some (answer.mapError .divisionByZero, m)

/-- A text is nothing but an expression exactly if its tokens are derived from it. -/
theorem expresses_iff {tree : Tree Symbol} : Expresses source tree ↔
    (ofSource source).errors = [] ∧ ∃ d : Expression,
      d.tokens = (ofSource source).tokens.takeWhile (!·.isEnd) ∧ d.tree = tree := by
  rw [← Reading.expression_all_iff (ordered_ofSource source)]
  exact ⟨fun h ↦ ⟨h.errors_eq, h.tree_eq, h.atEnd⟩, fun ⟨h, htree, hend⟩ ↦ ⟨h, htree, hend⟩⟩

/-- The machine gives an expression its meaning. -/
theorem calculates_of_derivation (hscan : (ofSource source).errors = []) {d : Expression}
    (hd : d.tokens = (ofSource source).tokens.takeWhile (!·.isEnd)) (env : Env) :
    Calculates source env (d.denote env) := by
  refine ⟨d.tree, expresses_iff.2 ⟨hscan, d, hd, rfl⟩, fun bound ↦ ?_⟩
  have hread := Reading.expression_of_tokens_eq (ordered_ofSource source) hd
  have hfrom {x : Symbol} (hx : .met x ∈ d.tree.trail) : x.From (ofSource source).tokens := by
    refine Reading.from_expression ?_
    rw [hread]
    exact hx
  have hagrees := Layout.agrees_assign env
    (fun x hx ↦ (hfrom hx).wellSpelled (wellSpelled_ofSource source))
    fun hx ↦ (hfrom hx).value_eq hscan
  rw [hread]
  exact Expression.eval_tree hagrees bound d fun _ hx ↦ hx

/-- A single run finds out what a text amounts to. -/
theorem Calculates.eq_of_run {env : Env} {answer answer' : Except Span Int64}
    (h : Calculates source env answer) {tree : Tree Symbol} (htree : Expresses source tree)
    {bound : Nat} (hrun : (((Reading.ofTokens (ofSource source).tokens).expression.2.resolve
      tree).run bound { table :=
        (Reading.ofTokens (ofSource source).tokens).expression.2.table.assign env }).map
      Prod.fst = some (answer'.mapError .divisionByZero)) : answer = answer' := by
  obtain ⟨tree', htree', hcalculates⟩ := h
  obtain rfl : tree = tree' := Except.ok.inj (htree.tree_eq.symm.trans htree'.tree_eq)
  rw [hcalculates bound] at hrun
  have hanswer := Option.some.inj hrun
  cases answer <;> cases answer' <;> cases hanswer <;> rfl

/-- A text has one value at most in an environment, or divides by zero at one place. -/
theorem Calculates.unique {env : Env} {answer answer' : Except Span Int64}
    (h : Calculates source env answer) (h' : Calculates source env answer') :
    answer = answer' := by
  obtain ⟨tree, htree, hcalculates⟩ := h'
  exact h.eq_of_run htree (congrArg (Option.map Prod.fst) (hcalculates 0))

end Scan

end Pseudocode

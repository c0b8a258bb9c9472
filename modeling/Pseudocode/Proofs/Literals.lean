import Pseudocode.Proofs.Frame
import Pseudocode.Proofs.Interning

/-!
# Literals are constant

Variables and literals share one table, and a store does not ask what a cell was made for. Still no
program text can make a machine write the cell of a literal: the two are spelled differently, and
the grammar lets variables stand as targets only.

## Main results

* `Derivation.Program.exists_var_of_mem_targets`: the targets of a program are variables.
* `Scan.literal_cells_constant`: the cells of literals of a text, and what evaluation does to them.
-/

namespace Pseudocode

/-! ### Targets are met -/

namespace Tree

mutual

theorem met_of_mem_targets : ∀ (t : Tree Symbol), ∀ x ∈ t.targets, .met x ∈ t.trail
  | sequence items => met_of_mem_targetsAll items
  | cell _ => fun _ h ↦ nomatch h
  | assignment target expression => fun x h ↦ by
    rcases List.mem_cons.1 h with rfl | h
    · exact List.mem_cons_self
    · exact List.mem_cons_of_mem _ (met_of_mem_targets expression x h)
  | binary _ _ lhs rhs => fun x h ↦
    List.mem_append.2 ((List.mem_append.1 h).imp (met_of_mem_targets lhs x)
      (met_of_mem_targets rhs x))
  | unary _ _ operand => met_of_mem_targets operand
  | ifThen condition body => fun x h ↦
    List.mem_append.2 ((List.mem_append.1 h).imp (met_of_mem_targets condition x)
      (met_of_mem_targets body x))
  | choice arms => met_of_mem_targetsArms arms
  | whileDo condition body => fun x h ↦
    List.mem_append.2 ((List.mem_append.1 h).imp (met_of_mem_targets condition x)
      (met_of_mem_targets body x))
  | repeatUntil body condition => fun x h ↦
    List.mem_append.2 ((List.mem_append.1 h).imp (met_of_mem_targets body x)
      (met_of_mem_targets condition x))
  | forLoop init condition step body => fun x h ↦ by
    simp only [targets, List.mem_append] at h
    simp only [trail, List.mem_append]
    exact h.imp (met_of_mem_targetsClause init x) (Or.imp (met_of_mem_targets condition x)
      (Or.imp (met_of_mem_targetsClause step x) (met_of_mem_targets body x)))
  | read _ => fun _ h ↦ List.mem_map_of_mem h
  | write items => met_of_mem_targetsItems items
termination_by structural t => t

theorem met_of_mem_targetsAll :
    ∀ (ts : List (Tree Symbol)), ∀ x ∈ targetsAll ts, .met x ∈ trailAll ts
  | [] => fun _ h ↦ nomatch h
  | t :: ts => fun x h ↦
    List.mem_append.2 ((List.mem_append.1 h).imp (met_of_mem_targets t x) fun h ↦
      List.mem_cons_of_mem _ (met_of_mem_targetsAll ts x h))
termination_by structural ts => ts

theorem met_of_mem_targetsArms :
    ∀ (arms : List (Arm Symbol)), ∀ x ∈ targetsArms arms, .met x ∈ trailArms arms
  | [] => fun _ h ↦ nomatch h
  | .guarded condition body :: arms => fun x h ↦ by
    simp only [targetsArms, List.mem_append] at h
    simp only [trailArms, List.mem_append]
    exact h.imp (met_of_mem_targets condition x) (Or.imp (met_of_mem_targets body x)
      (met_of_mem_targetsArms arms x))
  | .otherwise body :: arms => fun x h ↦
    List.mem_append.2 ((List.mem_append.1 h).imp (met_of_mem_targets body x)
      (met_of_mem_targetsArms arms x))
termination_by structural arms => arms

theorem met_of_mem_targetsClause :
    ∀ (c : Clause Symbol), ∀ x ∈ targetsClause c, .met x ∈ trailClause c
  | .absent => fun _ h ↦ nomatch h
  | .assign target expression => fun x h ↦ by
    rcases List.mem_cons.1 h with rfl | h
    · exact List.mem_cons_self
    · exact List.mem_cons_of_mem _ (met_of_mem_targets expression x h)
termination_by structural c => c

theorem met_of_mem_targetsItems :
    ∀ (items : List (Item Symbol)), ∀ x ∈ targetsItems items, .met x ∈ trailItems items
  | [] => fun _ h ↦ nomatch h
  | .value expression :: items => fun x h ↦
    List.mem_append.2 ((List.mem_append.1 h).imp (met_of_mem_targets expression x)
      (met_of_mem_targetsItems items x))
  | .text _ :: items => met_of_mem_targetsItems items
termination_by structural items => items

end

end Tree

/-! ### Targets are variables -/

namespace Derivation

open Pseudocode.Tree

mutual

theorem Factor.targets_tree : ∀ d : Factor, d.tree.targets = []
  | .var _ => rfl
  | .number _ => rfl
  | .negative _ operand => operand.targets_tree
  | .negated _ operand => operand.targets_tree
  | .group _ inner _ => inner.targets_tree
termination_by structural d => d

/-- An expression assigns to nothing. -/
theorem Expression.targets_tree : ∀ d : Expression, d.tree.targets = []
  | .chain first links => Link.targets_attachAll links first.tree first.targets_tree
termination_by structural d => d

theorem Link.targets_attach :
    ∀ (d : Link) (lhs : Tree Symbol), lhs.targets = [] → (d.attach lhs).targets = []
  | .mk _ operand, lhs => fun h ↦ by
    rw [Link.attach, targets, h, operand.targets_tree]
    rfl
termination_by structural d => d

theorem Link.targets_attachAll : ∀ (ds : List Link) (lhs : Tree Symbol), lhs.targets = [] →
    (Link.attachAll lhs ds).targets = []
  | [], _ => fun h ↦ h
  | d :: ds, lhs => fun h ↦ Link.targets_attachAll ds (d.attach lhs) (d.targets_attach lhs h)
termination_by structural ds => ds

end

/-- All targets are variables. -/
def VariablesOnly (targets : List Symbol) : Prop :=
  ∀ x ∈ targets, ∃ name, x = .var name

theorem variablesOnly_append {xs ys : List Symbol} (hxs : VariablesOnly xs)
    (hys : VariablesOnly ys) : VariablesOnly (xs ++ ys) :=
  fun x hx ↦ (List.mem_append.1 hx).elim (hxs x) (hys x)

theorem variablesOnly_assignment (a : Assignment) :
    VariablesOnly (a.target.symbol :: a.value.tree.targets) := by
  rw [a.value.targets_tree]
  intro x hx
  exact ⟨a.target.value, List.mem_singleton.1 hx⟩

theorem variablesOnly_nil : VariablesOnly [] :=
  fun _ hx ↦ nomatch hx

theorem variablesOnly_condition (d : Condition) : VariablesOnly d.inner.tree.targets :=
  d.inner.targets_tree ▸ variablesOnly_nil

theorem variablesOnly_clause (a : Option Assignment) :
    VariablesOnly (targetsClause (Assignment.clause a)) := by
  cases a with
  | none => exact variablesOnly_nil
  | some a => exact variablesOnly_assignment a

theorem variablesOnly_items (items : List Item) :
    VariablesOnly (targetsItems (items.map Item.part)) := by
  induction items with
  | nil => exact variablesOnly_nil
  | cons item items ih =>
    cases item with
    | text contents => exact ih
    | value expression =>
      exact variablesOnly_append (expression.targets_tree ▸ variablesOnly_nil) ih

theorem variablesOnly_cells (cells : List Variable) :
    VariablesOnly (cells.map Variable.symbol) := by
  intro x hx
  obtain ⟨cell, -, rfl⟩ := List.mem_map.1 hx
  exact ⟨cell.value, rfl⟩

mutual

theorem Instruction.variablesOnly : ∀ d : Instruction, VariablesOnly d.tree.targets
  | .assignment a _ => variablesOnly_assignment a
  | .ifThen _ test body _ => variablesOnly_append (variablesOnly_condition test) body.variablesOnly
  | .choice _ test body tail =>
    variablesOnly_append (variablesOnly_condition test)
      (variablesOnly_append body.variablesOnly tail.variablesOnly)
  | .repeatUntil _ body _ test =>
    variablesOnly_append body.variablesOnly (variablesOnly_condition test)
  | .whileDo _ test body _ => variablesOnly_append (variablesOnly_condition test) body.variablesOnly
  | .forLoop _ _ init _ test _ step _ body _ =>
    variablesOnly_append (variablesOnly_clause init)
      (variablesOnly_append (test.targets_tree ▸ variablesOnly_nil)
        (variablesOnly_append (variablesOnly_clause step) body.variablesOnly))
  | .write _ items => variablesOnly_items items.inner.toList
  | .read _ cells => variablesOnly_cells cells.inner.toList
termination_by structural d => d

theorem Sequence.variablesOnly : ∀ d : Sequence, VariablesOnly d.tree.targets
  | .mk first others =>
    variablesOnly_append first.variablesOnly (Instruction.variablesOnlyAll others)
termination_by structural d => d

theorem Instruction.variablesOnlyAll :
    ∀ ds : List Instruction, VariablesOnly (targetsAll (Instruction.treeAll ds))
  | [] => variablesOnly_nil
  | d :: ds => variablesOnly_append d.variablesOnly (Instruction.variablesOnlyAll ds)
termination_by structural ds => ds

theorem Guarded.variablesOnly : ∀ (d : Guarded) (arms : List (Arm Symbol)),
    VariablesOnly (targetsArms arms) → VariablesOnly (targetsArms (d.arm :: arms))
  | .mk _ test body, _ => fun h ↦
    variablesOnly_append (variablesOnly_condition test)
      (variablesOnly_append body.variablesOnly h)
termination_by structural d => d

theorem Guarded.variablesOnlyAll : ∀ (ds : List Guarded) (arms : List (Arm Symbol)),
    VariablesOnly (targetsArms arms) → VariablesOnly (targetsArms (Guarded.arms ds ++ arms))
  | [], _ => fun h ↦ h
  | d :: ds, arms => fun h ↦ d.variablesOnly _ (Guarded.variablesOnlyAll ds arms h)
termination_by structural ds => ds

theorem Otherwise.variablesOnly : ∀ d : Otherwise, VariablesOnly (targetsArms [d.arm])
  | .mk _ body => variablesOnly_append body.variablesOnly variablesOnly_nil
termination_by structural d => d

theorem Otherwise.variablesOnly? :
    ∀ d : Option Otherwise, VariablesOnly (targetsArms (Otherwise.arms d))
  | none => variablesOnly_nil
  | some d => d.variablesOnly
termination_by structural d => d

theorem Tail.variablesOnly : ∀ d : Tail, VariablesOnly (targetsArms d.arms)
  | .guarded first others last _ =>
    first.variablesOnly _ (Guarded.variablesOnlyAll others _ (Otherwise.variablesOnly? last))
  | .otherwise last _ => last.variablesOnly
termination_by structural d => d

end

/-- The targets of a program are variables. -/
theorem Program.exists_var_of_mem_targets (d : Program) :
    ∀ x ∈ d.tree.targets, ∃ name, x = .var name :=
  d.body.variablesOnly

end Derivation

/-! ### The cells of a text -/

namespace Scan

variable {source : String}

/-- A cell of the table of a text belongs to a symbol that is well spelled. -/
theorem exists_symbol_of_mem_cells {c : Cell}
    (h : c ∈ (Reading.ofTokens (ofSource source).tokens).program.2.table.cells) :
    ∃ x : Symbol, x.WellSpelled ∧ c = x.cell := by
  obtain ⟨x, hx, rfl⟩ := Trail.mem_cells_table h
  exact ⟨x, Reading.wellSpelled_program source x hx, rfl⟩

/-- A literal that fits in 64 bits has its decimal value, and any other has the value zero. -/
theorem toInt_value_of_wellSpelled {x : Symbol} (h : x.WellSpelled)
    (hkind : x.cell.kind = .integer) : x.cell.value.toInt =
      if Decimal.value x.text.toList ≤ Decimal.largest then (Decimal.value x.text.toList : Int)
      else 0 := by
  cases x with
  | var name => cases hkind
  | literal digits value =>
    rw [show (Symbol.literal digits value).cell.value = value from rfl, h.2.2, Decimal.int64?]
    change _ = if Decimal.value digits.toList ≤ Decimal.largest then _ else _
    by_cases hfits : Decimal.value digits.toList ≤ Decimal.largest
    · rw [if_pos hfits, if_pos hfits]
      exact Int64.toInt_ofNat_of_lt (Nat.lt_succ_of_le hfits)
    · rw [if_neg hfits, if_neg hfits]
      rfl

/-- Every target of a tree that the reader gives is the cell of a variable. -/
theorem var_of_mem_targets {tree : Tree Symbol}
    (htree : (Reading.ofTokens (ofSource source).tokens).program.1 = .ok tree) :
    let after := (Reading.ofTokens (ofSource source).tokens).program.2
    ∀ id ∈ (after.resolve tree).targets, ∃ c, after.table.get? id = some c ∧ c.kind = .var := by
  intro after id hid
  obtain ⟨d, -, rfl, htrail, -⟩ := Reading.exists_derivation_of_ok (ordered_ofSource source) htree
  rw [Reading.resolve, Tree.resolve, Tree.targets_map] at hid
  obtain ⟨x, hx, rfl⟩ := List.mem_map.1 hid
  have hmet : .met x ∈ after.trail := htrail ▸ d.tree.met_of_mem_targets x hx
  obtain ⟨name, rfl⟩ := d.exists_var_of_mem_targets x hx
  exact ⟨_, Trail.get?_table (Reading.wellSpelled_program source) hmet, rfl⟩

/-- No program text can corrupt a literal. Whether the text can be read or not, no name stands for
both a variable and a literal: the names that start with a digit are those of the literals, and
each literal has its decimal value, or zero if that does not fit in 64 bits. If the text can be
read, every target of its tree is the cell of a variable, and no number of evaluations changes the
cell of a literal. -/
theorem literal_cells_constant {source : String} {result : Except Failure (Tree Symbol)}
    {after : Reading}
    (hread : (Reading.ofTokens (ofSource source).tokens).program = (result, after)) :
    (∀ c ∈ after.table.cells, ∀ c' ∈ after.table.cells, c.name = c'.name → c.kind = c'.kind) ∧
    (∀ c ∈ after.table.cells,
      (∃ d ∈ c.name.toList.head?, d.isDigit = true) ↔ c.kind = .integer) ∧
    (∀ c ∈ after.table.cells, c.kind = .integer → c.value.toInt =
      if Decimal.value c.name.toList ≤ Decimal.largest then (Decimal.value c.name.toList : Int)
      else 0) ∧
    ∀ tree, result = .ok tree →
      (∀ id ∈ (after.resolve tree).targets,
        ∃ c, after.table.get? id = some c ∧ c.kind = .var) ∧
      ∀ table, (after.resolve tree).Evaluations after.table table →
        ∀ id c, after.table.get? id = some c → c.kind = .integer → table.get? id = some c := by
  obtain rfl : (Reading.ofTokens (ofSource source).tokens).program.1 = result :=
    congrArg Prod.fst hread
  obtain rfl : (Reading.ofTokens (ofSource source).tokens).program.2 = after :=
    congrArg Prod.snd hread
  refine ⟨?_, ?_, ?_, ?_⟩
  · intro c hc c' hc' hname
    obtain ⟨x, hx, rfl⟩ := exists_symbol_of_mem_cells hc
    obtain ⟨y, hy, rfl⟩ := exists_symbol_of_mem_cells hc'
    rw [Symbol.cell_name, Symbol.cell_name] at hname
    rw [hx.cell_eq hy hname]
  · intro c hc
    obtain ⟨x, hx, rfl⟩ := exists_symbol_of_mem_cells hc
    rw [Symbol.cell_name]
    exact hx.isDigit_iff
  · intro c hc hkind
    obtain ⟨x, hx, rfl⟩ := exists_symbol_of_mem_cells hc
    rw [Symbol.cell_name]
    exact toInt_value_of_wellSpelled hx hkind
  · intro tree htree
    have htargets := var_of_mem_targets htree
    refine ⟨htargets, fun table hevals id c hc hkind ↦ ?_⟩
    rw [hevals.get?_eq ?_, hc]
    intro hid
    obtain ⟨c', hc', hvar⟩ := htargets id hid
    obtain rfl : c = c' := Option.some.inj (hc.symm.trans hc')
    rw [hkind] at hvar
    cases hvar

/-- An assignment changes the cell of its target, and not the one of the literal behind it. -/
theorem literal_cells_constant_assignment :
    let reading :=
      Reading.ofTokens (ofSource "procedure principale () x = 7; finproc").tokens
    let after := reading.program.2
    ∃ (tree : Tree Symbol) (table : Table), reading.program.1 = .ok tree ∧
      (after.resolve tree).Evaluations after.table table ∧
      table.get? 0 = some ((Symbol.var "x").cell.store 7) ∧
      table.get? 1 = some (Symbol.literal "7" 7).cell := by
  have htree : (Reading.ofTokens
      (ofSource "procedure principale () x = 7; finproc").tokens).program.1 =
      .ok (.sequence [.assignment (.var "x") (.cell (.literal "7" 7))]) := by decide +kernel
  have htable : (Reading.ofTokens
      (ofSource "procedure principale () x = 7; finproc").tokens).program.2.table =
      { cells := #[(Symbol.var "x").cell, (Symbol.literal "7" 7).cell] } := by decide +kernel
  obtain ⟨-, -, -, hall⟩ := literal_cells_constant (Prod.eta (Reading.program (.ofTokens
    (ofSource "procedure principale () x = 7; finproc").tokens))).symm
  obtain ⟨-, hconstant⟩ := hall _ htree
  rw [Reading.resolve, htable] at hconstant
  have hrun : (Tree.resolve { cells := #[(Symbol.var "x").cell, (Symbol.literal "7" 7).cell] }
      (.sequence [.assignment (.var "x") (.cell (.literal "7" 7))])).run 0
      { table := { cells := #[(Symbol.var "x").cell, (Symbol.literal "7" 7).cell] } } =
      some (.ok 0, {
        table := { cells := #[(Symbol.var "x").cell.store 7, (Symbol.literal "7" 7).cell] }
        notes := #[.assignment "x"] }) := by decide +kernel
  have hevals := Tree.Evaluations.more (.none _) hrun
  have hseven := hconstant _ hevals 1 _ rfl rfl
  refine ⟨_, _, htree, ?_, ?_, hseven⟩
  · rw [Reading.resolve, htable]
    exact hevals
  · rfl

end Scan

end Pseudocode

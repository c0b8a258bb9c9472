import Pseudocode.Proofs.Derivation.Trail
import Pseudocode.Proofs.Footprint

/-!
# Cells that a program leaves alone

A tree writes the cells that it names as targets and no others: every other cell is the same after
an evaluation, however it ends.

## Main definitions

* `Tree.targets`: the cells that a tree assigns to or shows as variables.
* `Tree.Evaluations`: any number of evaluations of a tree, one after the other, on the same cells.

## Main results

* `Tree.get?_eq_of_run`: evaluation leaves alone every cell that is no target.
* `Tree.Evaluations.get?_eq`: so does any number of evaluations.
-/

namespace Pseudocode

/-! ### Targets -/

namespace Tree

variable {α β : Type}

mutual

/-- The targets of the assignments in a tree, and the variables that it shows. -/
def targets : Tree α → List α
  | sequence items => targetsAll items
  | cell _ => []
  | assignment target expression => target :: expression.targets
  | binary _ _ lhs rhs => lhs.targets ++ rhs.targets
  | unary _ _ operand => operand.targets
  | ifThen condition body => condition.targets ++ body.targets
  | choice arms => targetsArms arms
  | whileDo condition body => condition.targets ++ body.targets
  | repeatUntil body condition => body.targets ++ condition.targets
  | forLoop init condition step body =>
    targetsClause init ++ (condition.targets ++ (targetsClause step ++ body.targets))
  | read cells => cells
  | write items => targetsItems items

/-- `Tree.targets` along a list. -/
def targetsAll : List (Tree α) → List α
  | [] => []
  | t :: ts => t.targets ++ targetsAll ts

/-- `Tree.targets` along the arms of a choice. -/
def targetsArms : List (Arm α) → List α
  | [] => []
  | .guarded condition body :: arms => condition.targets ++ (body.targets ++ targetsArms arms)
  | .otherwise body :: arms => body.targets ++ targetsArms arms

/-- `Tree.targets` inside a clause. -/
def targetsClause : Clause α → List α
  | .absent => []
  | .assign target expression => target :: expression.targets

/-- `Tree.targets` along the items of an output instruction. -/
def targetsItems : List (Item α) → List α
  | [] => []
  | .value expression :: items => expression.targets ++ targetsItems items
  | .text _ :: items => targetsItems items

end

mutual

theorem targets_map (f : α → β) : ∀ t : Tree α, (t.map f).targets = t.targets.map f
  | sequence items => targetsAll_map f items
  | cell _ => rfl
  | assignment _ expression => by rw [map, targets, targets, targets_map f expression]; rfl
  | binary _ _ lhs rhs => by
    rw [map, targets, targets, targets_map f lhs, targets_map f rhs, List.map_append]
  | unary _ _ operand => targets_map f operand
  | ifThen condition body => by
    rw [map, targets, targets, targets_map f condition, targets_map f body, List.map_append]
  | choice arms => targetsArms_map f arms
  | whileDo condition body => by
    rw [map, targets, targets, targets_map f condition, targets_map f body, List.map_append]
  | repeatUntil body condition => by
    rw [map, targets, targets, targets_map f condition, targets_map f body, List.map_append]
  | forLoop init condition step body => by
    rw [map, targets, targets, targetsClause_map f init, targets_map f condition,
      targetsClause_map f step, targets_map f body]
    simp only [List.map_append]
  | read _ => rfl
  | write items => targetsItems_map f items
termination_by structural t => t

theorem targetsAll_map (f : α → β) :
    ∀ ts : List (Tree α), targetsAll (mapList f ts) = (targetsAll ts).map f
  | [] => rfl
  | t :: ts => by
    rw [mapList, targetsAll, targetsAll, targets_map f t, targetsAll_map f ts, List.map_append]
termination_by structural ts => ts

theorem targetsArms_map (f : α → β) :
    ∀ arms : List (Arm α), targetsArms (mapArms f arms) = (targetsArms arms).map f
  | [] => rfl
  | .guarded condition body :: arms => by
    rw [mapArms, targetsArms, targetsArms, targets_map f condition, targets_map f body,
      targetsArms_map f arms]
    simp only [List.map_append]
  | .otherwise body :: arms => by
    rw [mapArms, targetsArms, targetsArms, targets_map f body, targetsArms_map f arms,
      List.map_append]
termination_by structural arms => arms

theorem targetsClause_map (f : α → β) :
    ∀ c : Clause α, targetsClause (mapClause f c) = (targetsClause c).map f
  | .absent => rfl
  | .assign _ expression => by
    rw [mapClause, targetsClause, targetsClause, targets_map f expression]
    rfl
termination_by structural c => c

theorem targetsItems_map (f : α → β) :
    ∀ items : List (Item α), targetsItems (mapItems f items) = (targetsItems items).map f
  | [] => rfl
  | .value expression :: items => by
    rw [mapItems, targetsItems, targetsItems, targets_map f expression, targetsItems_map f items,
      List.map_append]
  | .text _ :: items => targetsItems_map f items
termination_by structural items => items

end

/-! ### Evaluation -/

mutual

/-- What a tree assigns to is among its targets. -/
theorem assigned_sublist_targets : ∀ t : Tree α, t.assigned.Sublist t.targets
  | sequence items => assignedAll_sublist_targets items
  | cell _ => List.Sublist.refl _
  | assignment _ expression => expression.assigned_sublist_targets.cons_cons _
  | binary _ _ lhs rhs =>
    List.Sublist.append lhs.assigned_sublist_targets rhs.assigned_sublist_targets
  | unary _ _ operand => operand.assigned_sublist_targets
  | ifThen condition body =>
    List.Sublist.append condition.assigned_sublist_targets body.assigned_sublist_targets
  | choice arms => assignedArms_sublist_targets arms
  | whileDo condition body =>
    List.Sublist.append condition.assigned_sublist_targets body.assigned_sublist_targets
  | repeatUntil body condition =>
    List.Sublist.append body.assigned_sublist_targets condition.assigned_sublist_targets
  | forLoop init condition step body =>
    List.Sublist.append (assignedClause_sublist_targets init)
      (List.Sublist.append condition.assigned_sublist_targets
        (List.Sublist.append (assignedClause_sublist_targets step)
          body.assigned_sublist_targets))
  | read cells => List.nil_sublist cells
  | write items => assignedItems_sublist_targets items
termination_by structural t => t

theorem assignedAll_sublist_targets :
    ∀ ts : List (Tree α), (assignedAll ts).Sublist (targetsAll ts)
  | [] => List.Sublist.refl _
  | t :: ts => List.Sublist.append t.assigned_sublist_targets (assignedAll_sublist_targets ts)
termination_by structural ts => ts

theorem assignedArms_sublist_targets :
    ∀ arms : List (Arm α), (assignedArms arms).Sublist (targetsArms arms)
  | [] => List.Sublist.refl _
  | .guarded condition body :: arms =>
    List.Sublist.append condition.assigned_sublist_targets
      (List.Sublist.append body.assigned_sublist_targets (assignedArms_sublist_targets arms))
  | .otherwise body :: arms =>
    List.Sublist.append body.assigned_sublist_targets (assignedArms_sublist_targets arms)
termination_by structural arms => arms

theorem assignedClause_sublist_targets :
    ∀ c : Clause α, (assignedClause c).Sublist (targetsClause c)
  | .absent => List.Sublist.refl _
  | .assign _ expression => expression.assigned_sublist_targets.cons_cons _
termination_by structural c => c

theorem assignedItems_sublist_targets :
    ∀ items : List (Item α), (assignedItems items).Sublist (targetsItems items)
  | [] => List.Sublist.refl _
  | .value expression :: items =>
    List.Sublist.append expression.assigned_sublist_targets
      (assignedItems_sublist_targets items)
  | .text _ :: items => assignedItems_sublist_targets items
termination_by structural items => items

end

/-- Evaluation leaves alone every cell that is no target. -/
theorem get?_eq_of_run {t : Tree Nat} {bound id : Nat} {m m' : Machine}
    {result : Except Fault Int64} (h : t.run bound m = some (result, m')) (hid : id ∉ t.targets) :
    m'.table.get? id = m.table.get? id :=
  (kept_of_run h).get?_eq fun hassigned ↦ hid (t.assigned_sublist_targets.mem hassigned)

/-- Any number of evaluations of a tree, each on the cells that the one before left and each ending
with a value or a fault. What was shown and noted before does not matter. -/
inductive Evaluations (tree : Tree Nat) : Table → Table → Prop
  | none (t : Table) : Evaluations tree t t
  | more {t : Table} {m m' : Machine} {bound : Nat} {result : Except Fault Int64}
      (before : Evaluations tree t m.table) (run : tree.run bound m = some (result, m')) :
      Evaluations tree t m'.table

/-- Any number of evaluations leaves alone every cell that is no target. -/
theorem Evaluations.get?_eq {tree : Tree Nat} {t t' : Table} (h : Evaluations tree t t')
    {id : Nat} (hid : id ∉ tree.targets) : t'.get? id = t.get? id := by
  induction h with
  | none => rfl
  | more before run ih => exact (get?_eq_of_run run hid).trans ih

end Tree

end Pseudocode

import Pseudocode.Evaluation.Bound

/-!
# Evaluation at other places

A tree keeps where its operators are written. These places may be moved without changing anything
else: evaluation goes the same way, and only a fault that tells about a place is moved along.

## Main definitions

* `Tree.relocate`: a tree whose operators are written at other places.
* `Run.relocate`: a computation whose faults are told about other places.

## Main results

* `Tree.map_relocate`, `Tree.relocate_relocate`: moving a tree goes along with replacing its leaves
  and with moving it again.
* `Tree.eval_relocate`: a tree is evaluated in the same way at other places.
-/

namespace Pseudocode

/-! ### Trees -/

namespace Tree

variable {α β : Type} (f : Span → Span)

mutual

/-- The tree with its operators written at other places. -/
def relocate : Tree α → Tree α
  | sequence items => sequence (relocateList items)
  | cell id => cell id
  | assignment target expression => assignment target expression.relocate
  | binary op span lhs rhs => binary op (f span) lhs.relocate rhs.relocate
  | unary op span operand => unary op (f span) operand.relocate
  | ifThen condition body => ifThen condition.relocate body.relocate
  | choice arms => choice (relocateArms arms)
  | whileDo condition body => whileDo condition.relocate body.relocate
  | repeatUntil body condition => repeatUntil body.relocate condition.relocate
  | forLoop init condition step body =>
    forLoop (relocateClause init) condition.relocate (relocateClause step) body.relocate
  | read cells => read cells
  | write items => write (relocateItems items)

/-- `Tree.relocate` on every tree of a list. -/
def relocateList : List (Tree α) → List (Tree α)
  | [] => []
  | t :: ts => t.relocate :: relocateList ts

/-- `Tree.relocate` inside every arm of a list. -/
def relocateArms : List (Arm α) → List (Arm α)
  | [] => []
  | .guarded condition body :: arms =>
    .guarded condition.relocate body.relocate :: relocateArms arms
  | .otherwise body :: arms => .otherwise body.relocate :: relocateArms arms

/-- `Tree.relocate` inside a clause. -/
def relocateClause : Clause α → Clause α
  | .absent => .absent
  | .assign target expression => .assign target expression.relocate

/-- `Tree.relocate` inside every item of a list. -/
def relocateItems : List (Item α) → List (Item α)
  | [] => []
  | .value expression :: items => .value expression.relocate :: relocateItems items
  | .text contents :: items => .text contents :: relocateItems items

end

theorem relocateList_eq_map (ts : List (Tree α)) : relocateList f ts = ts.map (relocate f) := by
  induction ts with
  | nil => rfl
  | cons t ts ih => rw [relocateList, ih, List.map_cons]

/-- `Tree.relocate` inside an arm. -/
def relocateArm : Arm α → Arm α
  | .guarded condition body => .guarded (condition.relocate f) (body.relocate f)
  | .otherwise body => .otherwise (body.relocate f)

theorem relocateArms_eq_map (arms : List (Arm α)) :
    relocateArms f arms = arms.map (relocateArm f) := by
  induction arms with
  | nil => rfl
  | cons arm arms ih => cases arm <;> rw [relocateArms, ih, List.map_cons, relocateArm]

@[simp]
theorem length_relocateArms (arms : List (Arm α)) : (relocateArms f arms).length = arms.length := by
  rw [relocateArms_eq_map, List.length_map]

/-- `Tree.relocate` inside an item. -/
def relocateItem : Item α → Item α
  | .value expression => .value (expression.relocate f)
  | .text contents => .text contents

theorem relocateItems_eq_map (items : List (Item α)) :
    relocateItems f items = items.map (relocateItem f) := by
  induction items with
  | nil => rfl
  | cons item items ih => cases item <;> rw [relocateItems, ih, List.map_cons, relocateItem]

@[simp]
theorem length_relocateItems (items : List (Item α)) :
    (relocateItems f items).length = items.length := by
  rw [relocateItems_eq_map, List.length_map]

mutual

/-- Moving a tree and replacing its leaves do not interfere. -/
theorem map_relocate (g : α → β) : ∀ t : Tree α, (t.relocate f).map g = (t.map g).relocate f
  | sequence items => by simp only [relocate, map, mapList_relocate g items]
  | cell _ => rfl
  | assignment _ e => by simp only [relocate, map, map_relocate g e]
  | binary _ _ a b => by simp only [relocate, map, map_relocate g a, map_relocate g b]
  | unary _ _ a => by simp only [relocate, map, map_relocate g a]
  | ifThen c b => by simp only [relocate, map, map_relocate g c, map_relocate g b]
  | choice arms => by simp only [relocate, map, mapArms_relocate g arms]
  | whileDo c b => by simp only [relocate, map, map_relocate g c, map_relocate g b]
  | repeatUntil b c => by simp only [relocate, map, map_relocate g b, map_relocate g c]
  | forLoop i c s b => by
    simp only [relocate, map, mapClause_relocate g i, map_relocate g c, mapClause_relocate g s,
      map_relocate g b]
  | read _ => rfl
  | write items => by simp only [relocate, map, mapItems_relocate g items]
termination_by structural t => t

theorem mapList_relocate (g : α → β) : ∀ ts : List (Tree α),
    mapList g (relocateList f ts) = relocateList f (mapList g ts)
  | [] => rfl
  | t :: ts => by simp only [relocateList, mapList, map_relocate g t, mapList_relocate g ts]
termination_by structural ts => ts

theorem mapArms_relocate (g : α → β) : ∀ arms : List (Arm α),
    mapArms g (relocateArms f arms) = relocateArms f (mapArms g arms)
  | [] => rfl
  | .guarded c b :: arms => by
    simp only [relocateArms, mapArms, map_relocate g c, map_relocate g b, mapArms_relocate g arms]
  | .otherwise b :: arms => by
    simp only [relocateArms, mapArms, map_relocate g b, mapArms_relocate g arms]
termination_by structural arms => arms

theorem mapClause_relocate (g : α → β) : ∀ clause : Clause α,
    mapClause g (relocateClause f clause) = relocateClause f (mapClause g clause)
  | .absent => rfl
  | .assign _ e => by simp only [relocateClause, mapClause, map_relocate g e]
termination_by structural clause => clause

theorem mapItems_relocate (g : α → β) : ∀ items : List (Item α),
    mapItems g (relocateItems f items) = relocateItems f (mapItems g items)
  | [] => rfl
  | .value e :: items => by
    simp only [relocateItems, mapItems, map_relocate g e, mapItems_relocate g items]
  | .text _ :: items => by simp only [relocateItems, mapItems, mapItems_relocate g items]
termination_by structural items => items

end

mutual

/-- Moving a tree twice is moving it once. -/
theorem relocate_relocate (g : Span → Span) : ∀ t : Tree α,
    (t.relocate f).relocate g = t.relocate (g ∘ f)
  | sequence items => by simp only [relocate, relocateList_relocateList g items]
  | cell _ => rfl
  | assignment _ e => by simp only [relocate, relocate_relocate g e]
  | binary _ _ a b => by
    simp only [relocate, relocate_relocate g a, relocate_relocate g b, Function.comp_apply]
  | unary _ _ a => by simp only [relocate, relocate_relocate g a, Function.comp_apply]
  | ifThen c b => by simp only [relocate, relocate_relocate g c, relocate_relocate g b]
  | choice arms => by simp only [relocate, relocateArms_relocateArms g arms]
  | whileDo c b => by simp only [relocate, relocate_relocate g c, relocate_relocate g b]
  | repeatUntil b c => by simp only [relocate, relocate_relocate g b, relocate_relocate g c]
  | forLoop i c s b => by
    simp only [relocate, relocateClause_relocateClause g i, relocate_relocate g c,
      relocateClause_relocateClause g s, relocate_relocate g b]
  | read _ => rfl
  | write items => by simp only [relocate, relocateItems_relocateItems g items]
termination_by structural t => t

theorem relocateList_relocateList (g : Span → Span) : ∀ ts : List (Tree α),
    relocateList g (relocateList f ts) = relocateList (g ∘ f) ts
  | [] => rfl
  | t :: ts => by
    simp only [relocateList, relocate_relocate g t, relocateList_relocateList g ts]
termination_by structural ts => ts

theorem relocateArms_relocateArms (g : Span → Span) : ∀ arms : List (Arm α),
    relocateArms g (relocateArms f arms) = relocateArms (g ∘ f) arms
  | [] => rfl
  | .guarded c b :: arms => by
    simp only [relocateArms, relocate_relocate g c, relocate_relocate g b,
      relocateArms_relocateArms g arms]
  | .otherwise b :: arms => by
    simp only [relocateArms, relocate_relocate g b, relocateArms_relocateArms g arms]
termination_by structural arms => arms

theorem relocateClause_relocateClause (g : Span → Span) : ∀ clause : Clause α,
    relocateClause g (relocateClause f clause) = relocateClause (g ∘ f) clause
  | .absent => rfl
  | .assign _ e => by simp only [relocateClause, relocate_relocate g e]
termination_by structural clause => clause

theorem relocateItems_relocateItems (g : Span → Span) : ∀ items : List (Item α),
    relocateItems g (relocateItems f items) = relocateItems (g ∘ f) items
  | [] => rfl
  | .value e :: items => by
    simp only [relocateItems, relocate_relocate g e, relocateItems_relocateItems g items]
  | .text _ :: items => by simp only [relocateItems, relocateItems_relocateItems g items]
termination_by structural items => items

end

mutual

/-- If neither the leaves nor the places are changed, nothing is. -/
theorem relocate_id_map_id : ∀ t : Tree α, (t.map id).relocate id = t
  | sequence items => by rw [map, relocate, relocateList_id_mapList_id items]
  | cell _ => rfl
  | assignment _ e => by rw [map, relocate, relocate_id_map_id e, id]
  | binary _ _ a b => by rw [map, relocate, relocate_id_map_id a, relocate_id_map_id b, id]
  | unary _ _ a => by rw [map, relocate, relocate_id_map_id a, id]
  | ifThen c b => by rw [map, relocate, relocate_id_map_id c, relocate_id_map_id b]
  | choice arms => by rw [map, relocate, relocateArms_id_mapArms_id arms]
  | whileDo c b => by rw [map, relocate, relocate_id_map_id c, relocate_id_map_id b]
  | repeatUntil b c => by rw [map, relocate, relocate_id_map_id b, relocate_id_map_id c]
  | forLoop i c s b => by
    rw [map, relocate, relocateClause_id_mapClause_id i, relocate_id_map_id c,
      relocateClause_id_mapClause_id s, relocate_id_map_id b]
  | read cells => by rw [map, relocate, List.map_id]
  | write items => by rw [map, relocate, relocateItems_id_mapItems_id items]
termination_by structural t => t

theorem relocateList_id_mapList_id : ∀ ts : List (Tree α), relocateList id (mapList id ts) = ts
  | [] => rfl
  | t :: ts => by rw [mapList, relocateList, relocate_id_map_id t, relocateList_id_mapList_id ts]
termination_by structural ts => ts

theorem relocateArms_id_mapArms_id : ∀ arms : List (Arm α), relocateArms id (mapArms id arms) = arms
  | [] => rfl
  | .guarded c b :: arms => by
    rw [mapArms, relocateArms, relocate_id_map_id c, relocate_id_map_id b,
      relocateArms_id_mapArms_id arms]
  | .otherwise b :: arms => by
    rw [mapArms, relocateArms, relocate_id_map_id b, relocateArms_id_mapArms_id arms]
termination_by structural arms => arms

theorem relocateClause_id_mapClause_id : ∀ clause : Clause α,
    relocateClause id (mapClause id clause) = clause
  | .absent => rfl
  | .assign _ e => by rw [mapClause, relocateClause, relocate_id_map_id e, id]
termination_by structural clause => clause

theorem relocateItems_id_mapItems_id : ∀ items : List (Item α),
    relocateItems id (mapItems id items) = items
  | [] => rfl
  | .value e :: items => by
    rw [mapItems, relocateItems, relocate_id_map_id e, relocateItems_id_mapItems_id items]
  | .text _ :: items => by rw [mapItems, relocateItems, relocateItems_id_mapItems_id items]
termination_by structural items => items

end

theorem relocate_id (t : Tree α) : t.relocate id = t := by
  calc t.relocate id = ((t.map id).relocate id).relocate id := by rw [relocate_id_map_id]
    _ = (t.map id).relocate id := relocate_relocate ..
    _ = t := relocate_id_map_id t

theorem map_id (t : Tree α) : t.map id = t := by
  rw [← relocate_id (t.map id), relocate_id_map_id]

end Tree

/-! ### Evaluation -/

/-- The fault at another place. -/
def Fault.relocate (f : Span → Span) : Fault → Fault
  | .divisionByZero span => .divisionByZero (f span)
  | .noCell id => .noCell id

namespace Run

variable {α β : Type} (f : Span → Span)

/-- The computation with its faults told about other places. -/
def relocate (x : Run α) : Run α := fun m ↦
  (x m).map fun r ↦ (r.1.mapError (Fault.relocate f), r.2)

theorem relocate_pure (a : α) : relocate f (pure a) = pure a := rfl

theorem relocate_bind (x : Run α) (g : α → Run β) :
    relocate f (x >>= g) = relocate f x >>= fun a ↦ relocate f (g a) := by
  funext m
  rw [relocate, bind_apply, bind_apply, relocate]
  rcases x m with _ | ⟨_ | _, _⟩ <;> rfl

theorem relocate_discard (x : Run α) : relocate f (discard x) = discard (relocate f x) := by
  rw [discard_eq, discard_eq, relocate_bind]
  rfl

theorem relocate_note (n : Note) : relocate f (note n) = note n := rfl

theorem relocate_print (line : String) : relocate f (print line) = print line := rfl

theorem relocate_cell (id : Nat) : relocate f (cell id) = cell id := by
  rw [cell, relocate_bind]
  congr 1
  funext m
  cases m.table.get? id <;> rfl

theorem relocate_value (id : Nat) : relocate f (value id) = value id := by
  rw [value, relocate_bind, relocate_cell]
  rfl

theorem relocate_store (id : Nat) (v : Int64) : relocate f (store id v) = store id v := by
  rw [store, relocate_bind, relocate_discard, relocate_cell]
  rfl

theorem relocate_rounds (round : Run Bool) (bound count : Nat) :
    relocate f (rounds round bound count) = rounds (relocate f round) bound count := by
  induction bound generalizing count with
  | zero => rfl
  | succ bound ih =>
    rw [rounds, rounds, relocate_bind]
    congr 1
    funext again
    cases again with
    | true => exact ih _
    | false => rfl

end Run

namespace Tree

open Run

variable (f : Span → Span)

theorem relocate_operate (op : Operator) (span : Span) (a b : Int64) :
    Run.relocate f (operate op span a b) = operate op (f span) a b := by
  unfold operate
  split <;> rfl

theorem relocate_rightOperand (op : Operator) (rhs : Run Int64) :
    Run.relocate f (rightOperand op rhs) = rightOperand op (Run.relocate f rhs) := by
  unfold rightOperand
  split <;> rfl

theorem relocate_roundWhile (test : Run Int64) (body : Run Unit) :
    Run.relocate f (roundWhile test body) =
      roundWhile (Run.relocate f test) (Run.relocate f body) := by
  rw [roundWhile, roundWhile, relocate_bind]
  congr 1
  funext v
  split
  · exact relocate_bind ..
  · rfl

theorem relocate_showCells (ids : List Nat) : Run.relocate f (showCells ids) = showCells ids := by
  induction ids with
  | nil => rfl
  | cons id ids ih => simp only [showCells, relocate_bind, relocate_value, relocate_print, ih]

mutual

/-- A tree is evaluated in the same way at other places. -/
theorem eval_relocate (bound : Nat) : ∀ t : Tree Nat,
    eval bound (t.relocate f) = Run.relocate f (eval bound t)
  | sequence items => by
    simp only [relocate, eval, evalList_relocate bound items, relocate_bind, relocate_pure]
  | cell id => (relocate_value f id).symm
  | assignment target e => by
    simp only [relocate, eval, eval_relocate bound e, relocate_bind, relocate_cell, relocate_note,
      relocate_store, relocate_pure]
  | binary op span a b => by
    simp only [relocate, eval, eval_relocate bound a, eval_relocate bound b, relocate_bind,
      relocate_rightOperand, relocate_operate]
  | unary op span a => by
    simp only [relocate, eval, eval_relocate bound a, relocate_bind, relocate_operate]
  | ifThen c b => by
    simp only [relocate, eval, eval_relocate bound c, eval_relocate bound b, relocate_bind,
      relocate_note, apply_ite (Run.relocate f), relocate_discard, relocate_pure]
  | choice arms => by
    simp only [relocate, eval, evalArms_relocate bound arms, relocate_bind, relocate_note,
      relocate_pure, length_relocateArms]
  | whileDo c b => by
    simp only [relocate, eval, eval_relocate bound c, eval_relocate bound b, relocate_bind,
      relocate_note, relocate_rounds, relocate_roundWhile, relocate_discard, relocate_pure]
  | repeatUntil b c => by
    simp only [relocate, eval, eval_relocate bound b, eval_relocate bound c, relocate_bind,
      relocate_note, relocate_rounds, relocate_discard, relocate_pure]
  | forLoop i c s b => by
    simp only [relocate, eval, evalClause_relocate bound i, eval_relocate bound c,
      evalClause_relocate bound s, eval_relocate bound b, relocate_bind, relocate_note,
      relocate_rounds, relocate_roundWhile, relocate_discard, relocate_pure]
  | read cells => by
    simp only [relocate, eval, relocate_bind, relocate_note, relocate_showCells, relocate_pure]
  | write items => by
    simp only [relocate, eval, evalItems_relocate bound items, relocate_bind, relocate_note,
      relocate_pure, length_relocateItems]
termination_by structural t => t

theorem evalList_relocate (bound : Nat) : ∀ ts : List (Tree Nat),
    evalList bound (relocateList f ts) = Run.relocate f (evalList bound ts)
  | [] => rfl
  | t :: ts => by
    simp only [relocateList, evalList, eval_relocate bound t, evalList_relocate bound ts,
      relocate_bind, relocate_discard]
termination_by structural ts => ts

theorem evalArms_relocate (bound : Nat) : ∀ arms : List (Arm Nat),
    evalArms bound (relocateArms f arms) = Run.relocate f (evalArms bound arms)
  | [] => rfl
  | .guarded c b :: arms => by
    simp only [relocateArms, evalArms, eval_relocate bound c, eval_relocate bound b,
      evalArms_relocate bound arms, relocate_bind, apply_ite (Run.relocate f), relocate_discard]
  | .otherwise b :: _ => by
    simp only [relocateArms, evalArms, eval_relocate bound b, relocate_discard]
termination_by structural arms => arms

theorem evalClause_relocate (bound : Nat) : ∀ clause : Clause Nat,
    evalClause bound (relocateClause f clause) = Run.relocate f (evalClause bound clause)
  | .absent => rfl
  | .assign _ e => by
    simp only [relocateClause, evalClause, eval_relocate bound e, relocate_bind, relocate_store]
termination_by structural clause => clause

theorem evalItems_relocate (bound : Nat) : ∀ items : List (Item Nat),
    evalItems bound (relocateItems f items) = Run.relocate f (evalItems bound items)
  | [] => rfl
  | .value e :: items => by
    simp only [relocateItems, evalItems, eval_relocate bound e, evalItems_relocate bound items,
      relocate_bind, relocate_print]
  | .text _ :: items => by
    simp only [relocateItems, evalItems, evalItems_relocate bound items, relocate_bind,
      relocate_print]
termination_by structural items => items

end

end Tree

end Pseudocode

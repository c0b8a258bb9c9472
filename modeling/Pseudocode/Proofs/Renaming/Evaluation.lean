import Pseudocode.Proofs.Footprint

/-!
# Evaluation under other names

The machine knows a cell by its index. The name of a cell is shown in a note and nowhere else. So
all names may be replaced, even two of them by one: evaluation goes the same way, with the same
result and the same lines, and the names are replaced in the cells and notes that it leaves.

## Main definitions

* `Table.mapNames`, `Machine.mapNames`: cells and machines under other names.
* `Run.Blind`: a computation that does not look at names.

## Main results

* `Tree.eval_blind`: no evaluation looks at names.
* `Tree.result_and_lines_mapNames`: a tree gives the same result and the same lines.
-/

namespace Pseudocode

/-! ### Cells and machines under other names -/

section Names

variable (ρ : String → String)

/-- The cell under another name. -/
def Cell.mapName (c : Cell) : Cell :=
  { c with name := ρ c.name }

/-- The table with all cells under other names. -/
def Table.mapNames (t : Table) : Table where
  cells := t.cells.map (Cell.mapName ρ)

/-- The note about a cell under another name. -/
def Note.mapName : Note → Note
  | assignment name => assignment (ρ name)
  | n => n

/-- The machine with all cells under other names. -/
def Machine.mapNames (m : Machine) : Machine where
  table := m.table.mapNames ρ
  lines := m.lines
  notes := m.notes.map (Note.mapName ρ)

namespace Table

@[simp]
theorem get?_mapNames (t : Table) (id : Nat) :
    (t.mapNames ρ).get? id = (t.get? id).map (Cell.mapName ρ) :=
  Array.getElem?_map

theorem store_mapNames (t : Table) (id : Nat) (v : Int64) :
    (t.mapNames ρ).store id v = (t.store id v).mapNames ρ := by
  have hcells : ((t.mapNames ρ).store id v).cells = ((t.store id v).mapNames ρ).cells := by
    refine Array.ext_getElem? fun i ↦ ?_
    have hget := get?_store (t.mapNames ρ) id i v
    have hget' := get?_mapNames ρ (t.store id v) i
    rw [get?_store] at hget'
    rw [get?_mapNames] at hget
    refine hget.trans (Eq.trans ?_ hget'.symm)
    cases t.get? i with
    | none => rfl
    | some c =>
      simp only [Option.map_some]
      split <;> rfl
  exact congrArg Table.mk hcells

end Table

/-- A machine that has done nothing. -/
theorem Machine.mapNames_start (t : Table) :
    ({ table := t } : Machine).mapNames ρ = { table := t.mapNames ρ } := by
  rw [mapNames, Array.map_empty]

theorem Machine.noted_mapNames (m : Machine) (n : Note) :
    (m.mapNames ρ).noted (n.mapName ρ) = (m.noted n).mapNames ρ := by
  have hnotes : (m.notes.map (Note.mapName ρ)).push (n.mapName ρ) =
      (m.notes.push n).map (Note.mapName ρ) :=
    Array.map_push.symm
  exact congrArg (fun notes ↦ { m.mapNames ρ with notes }) hnotes

end Names

/-! ### Computations that do not look at names -/

namespace Run

variable {α β : Type} {ρ : String → String}

/-- On other names, the computation does the same. -/
def Blind (ρ : String → String) (x : Run α) : Prop :=
  ∀ m : Machine, x (m.mapNames ρ) = (x m).map (Prod.map id (Machine.mapNames ρ))

theorem blind_pure (a : α) : Blind ρ (pure a) := fun _ ↦ rfl

theorem blind_throw (e : Fault) : Blind ρ (throw e : Run α) := fun _ ↦ rfl

theorem Blind.bind {x : Run α} {f : α → Run β} (hx : Blind ρ x) (hf : ∀ a, Blind ρ (f a)) :
    Blind ρ (x >>= f) := by
  intro m
  rw [bind_apply, bind_apply, hx]
  rcases x m with _ | ⟨_ | a, m'⟩
  · rfl
  · rfl
  · exact hf a m'

theorem Blind.discard {x : Run α} (hx : Blind ρ x) : Blind ρ (discard x) := by
  rw [discard_eq]
  exact hx.bind fun _ ↦ blind_pure _

theorem blind_print (line : String) : Blind ρ (print line) := fun _ ↦ rfl

/-- A note that shows no name. -/
theorem blind_note {n : Note} (h : n.mapName ρ = n) : Blind ρ (note n) := by
  intro m
  have hnoted := m.noted_mapNames ρ n
  rw [h] at hnoted
  exact congrArg (fun m' ↦ (some (.ok (), m') : Option (Except Fault Unit × Machine))) hnoted

/-- Whoever looks at a cell may do so if the name makes no difference to what follows. -/
theorem blind_cell_bind {f : Cell → Run α}
    (hf : ∀ c m, f (c.mapName ρ) (m.mapNames ρ) = (f c m).map (Prod.map id (Machine.mapNames ρ)))
    (id : Nat) : Blind ρ (cell id >>= f) := by
  intro m
  have hget : (m.mapNames ρ).table.get? id = (m.table.get? id).map (Cell.mapName ρ) :=
    Table.get?_mapNames ρ m.table id
  rw [bind_apply, bind_apply, cell_apply, cell_apply, hget]
  cases m.table.get? id with
  | none => rfl
  | some c => exact hf c m

theorem blind_value (id : Nat) : Blind ρ (value id) :=
  blind_cell_bind (fun _ _ ↦ rfl) id

theorem blind_store (id : Nat) (v : Int64) : Blind ρ (store id v) := by
  rw [store, discard_eq, bind_assoc]
  refine blind_cell_bind (fun c m ↦ ?_) id
  have htable : (m.mapNames ρ).table.store id v = (m.table.store id v).mapNames ρ :=
    Table.store_mapNames ρ m.table id v
  exact congrArg (fun table ↦ (some (.ok (), { m.mapNames ρ with table }) :
    Option (Except Fault Unit × Machine))) htable

/-- The note of an assignment shows the name of the target, and nothing else does. -/
theorem blind_heading {x : Run α} (hx : Blind ρ x) (id : Nat) :
    Blind ρ (cell id >>= fun c ↦ note (.assignment c.name) >>= fun _ ↦ x) := by
  refine blind_cell_bind (fun c m ↦ ?_) id
  have hnoted := congrArg x (m.noted_mapNames ρ (.assignment c.name))
  exact hnoted.trans (hx (m.noted (.assignment c.name)))

theorem Blind.rounds {x : Run Bool} (hx : Blind ρ x) (bound count : Nat) :
    Blind ρ (rounds x bound count) := by
  induction bound generalizing count with
  | zero => exact fun _ ↦ rfl
  | succ bound ih =>
    refine hx.bind fun again ↦ ?_
    split
    · exact ih _
    · exact blind_pure _

end Run

/-! ### Evaluation -/

namespace Tree

open Run

variable {ρ : String → String}

theorem blind_operate (op : Operator) (span : Span) (a b : Int64) :
    Blind ρ (operate op span a b) := by
  unfold operate
  split
  · exact blind_pure _
  · exact blind_throw _

theorem blind_rightOperand (op : Operator) {rhs : Run Int64} (h : Blind ρ rhs) :
    Blind ρ (rightOperand op rhs) := by
  unfold rightOperand
  split
  · exact blind_pure _
  · exact h

theorem blind_roundWhile {test : Run Int64} {body : Run Unit} (htest : Blind ρ test)
    (hbody : Blind ρ body) : Blind ρ (roundWhile test body) := by
  refine htest.bind fun v ↦ ?_
  split
  · exact hbody.bind fun _ ↦ blind_pure _
  · exact blind_pure _

theorem blind_showCells : ∀ ids : List Nat, Blind ρ (showCells ids)
  | [] => blind_pure _
  | id :: ids => (blind_value id).bind fun _ ↦ (blind_print _).bind fun _ ↦ blind_showCells ids

mutual

/-- No evaluation looks at names. -/
theorem eval_blind (ρ : String → String) (bound : Nat) : ∀ t : Tree Nat, Blind ρ (eval bound t)
  | sequence items => (evalList_blind ρ bound items).bind fun _ ↦ blind_pure _
  | cell id => blind_value id
  | assignment target expression =>
    blind_heading ((eval_blind ρ bound expression).bind fun v ↦
      (blind_store target v).bind fun _ ↦ blind_pure _) target
  | binary op span lhs rhs =>
    (eval_blind ρ bound lhs).bind fun a ↦
      (blind_rightOperand op (eval_blind ρ bound rhs)).bind fun b ↦ blind_operate op span a b
  | unary op span operand =>
    (eval_blind ρ bound operand).bind fun a ↦ blind_operate op span a 0
  | ifThen condition body => by
    refine (blind_note rfl).bind fun _ ↦ (eval_blind ρ bound condition).bind fun v ↦ ?_
    split
    · exact (eval_blind ρ bound body).discard.bind fun _ ↦ blind_pure _
    · exact blind_pure _
  | choice arms =>
    (blind_note rfl).bind fun _ ↦ (evalArms_blind ρ bound arms).bind fun _ ↦ blind_pure _
  | whileDo condition body => by
    have hround := blind_roundWhile (eval_blind ρ bound condition) (eval_blind ρ bound body).discard
    exact (blind_note rfl).bind fun _ ↦ (hround.rounds bound 0).bind fun _ ↦
      (blind_note rfl).bind fun _ ↦ blind_pure _
  | repeatUntil body condition => by
    have hround := (eval_blind ρ bound body).discard.bind fun _ ↦
      (eval_blind ρ bound condition).bind fun v ↦ blind_pure !truthy v
    exact (blind_note rfl).bind fun _ ↦ (hround.rounds bound 0).bind fun _ ↦
      (blind_note rfl).bind fun _ ↦ blind_pure _
  | forLoop init condition step body => by
    have hround := blind_roundWhile (eval_blind ρ bound condition)
      ((eval_blind ρ bound body).discard.bind fun _ ↦ evalClause_blind ρ bound step)
    exact (blind_note rfl).bind fun _ ↦ (evalClause_blind ρ bound init).bind fun _ ↦
      (hround.rounds bound 0).bind fun _ ↦ (blind_note rfl).bind fun _ ↦ blind_pure _
  | read cells =>
    (blind_note rfl).bind fun _ ↦ (blind_showCells cells).bind fun _ ↦ blind_pure _
  | write items =>
    (blind_note rfl).bind fun _ ↦ (evalItems_blind ρ bound items).bind fun _ ↦ blind_pure _
termination_by structural t => t

theorem evalList_blind (ρ : String → String) (bound : Nat) :
    ∀ ts : List (Tree Nat), Blind ρ (evalList bound ts)
  | [] => blind_pure _
  | t :: ts => (eval_blind ρ bound t).discard.bind fun _ ↦ evalList_blind ρ bound ts
termination_by structural ts => ts

theorem evalArms_blind (ρ : String → String) (bound : Nat) :
    ∀ arms : List (Arm Nat), Blind ρ (evalArms bound arms)
  | [] => blind_pure _
  | .guarded condition body :: arms => by
    refine (eval_blind ρ bound condition).bind fun v ↦ ?_
    split
    · exact (eval_blind ρ bound body).discard
    · exact evalArms_blind ρ bound arms
  | .otherwise body :: _ => (eval_blind ρ bound body).discard
termination_by structural arms => arms

theorem evalClause_blind (ρ : String → String) (bound : Nat) :
    ∀ clause : Clause Nat, Blind ρ (evalClause bound clause)
  | .absent => blind_pure _
  | .assign target expression =>
    (eval_blind ρ bound expression).bind fun v ↦ blind_store target v
termination_by structural clause => clause

theorem evalItems_blind (ρ : String → String) (bound : Nat) :
    ∀ items : List (Item Nat), Blind ρ (evalItems bound items)
  | [] => blind_pure _
  | .value expression :: items =>
    (eval_blind ρ bound expression).bind fun _ ↦ (blind_print _).bind fun _ ↦
      evalItems_blind ρ bound items
  | .text contents :: items =>
    (blind_print contents).bind fun _ ↦ evalItems_blind ρ bound items
termination_by structural items => items

end

/-- From cells under other names, a tree gives the same result and the same lines. -/
theorem result_and_lines_mapNames (ρ : String → String) (t : Tree Nat) (bound : Nat) (m : Machine) :
    (t.run bound (m.mapNames ρ)).map (fun (result, m') ↦ (result, m'.lines)) =
      (t.run bound m).map fun (result, m') ↦ (result, m'.lines) := by
  rw [run, run, eval_blind ρ bound t m, Option.map_map]
  rfl

end Tree

end Pseudocode

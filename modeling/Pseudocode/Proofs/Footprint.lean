import Pseudocode.Evaluation.Bound
import Pseudocode.Proofs.History

/-!
# What an evaluation may touch

A tree writes the cells that it assigns to and no others, and it only adds to what was shown. So
between the start of an evaluation and its end, however it ends, each cell is what it was or was
stored to, and a cell that is stored to keeps its name and its kind.

## Main definitions

* `Tree.assigned`: the targets of the assignments in a tree.
* `Machine.noted`: a state with one more note.
* `Machine.Kept`: a later state in which certain cells only were stored to.
* `Run.Keeps`: a computation that stores to certain cells only.

## Main results

* `Tree.eval_keeps`: an evaluation stores to the cells that the tree assigns to.
* `Tree.assignment_eq_error_iff`, `Tree.evalClause_eq_error_iff`: an assignment fails with its
  expression, and then it stores nothing.
* `Tree.evaluation_touches_assigned`: what an evaluation leaves as it was.
-/

namespace Pseudocode

/-! ### Targets of assignments -/

namespace Tree

variable {α : Type}

mutual

/-- The targets of the assignments in a tree, the clauses of counted loops included. -/
def assigned : Tree α → List α
  | sequence items => assignedAll items
  | cell _ => []
  | assignment target expression => target :: expression.assigned
  | binary _ _ lhs rhs => lhs.assigned ++ rhs.assigned
  | unary _ _ operand => operand.assigned
  | ifThen condition body => condition.assigned ++ body.assigned
  | choice arms => assignedArms arms
  | whileDo condition body => condition.assigned ++ body.assigned
  | repeatUntil body condition => body.assigned ++ condition.assigned
  | forLoop init condition step body =>
    assignedClause init ++ (condition.assigned ++ (assignedClause step ++ body.assigned))
  | read _ => []
  | write items => assignedItems items

/-- `Tree.assigned` along a list. -/
def assignedAll : List (Tree α) → List α
  | [] => []
  | t :: ts => t.assigned ++ assignedAll ts

/-- `Tree.assigned` along the arms of a choice. -/
def assignedArms : List (Arm α) → List α
  | [] => []
  | .guarded condition body :: arms => condition.assigned ++ (body.assigned ++ assignedArms arms)
  | .otherwise body :: arms => body.assigned ++ assignedArms arms

/-- `Tree.assigned` inside a clause. -/
def assignedClause : Clause α → List α
  | .absent => []
  | .assign target expression => target :: expression.assigned

/-- `Tree.assigned` along the items of an output instruction. -/
def assignedItems : List (Item α) → List α
  | [] => []
  | .value expression :: items => expression.assigned ++ assignedItems items
  | .text _ :: items => assignedItems items

end

end Tree

/-! ### Later states -/

namespace Cell

/-- Of two stores the second one counts. -/
theorem written_written (c : Cell) (first second : Option Int64) :
    (c.written first).written second = c.written (second.or first) := by
  cases first <;> cases second <;> rfl

end Cell

namespace Machine

/-- The state with one more note. -/
def noted (m : Machine) (n : Note) : Machine :=
  { m with notes := m.notes.push n }

theorem noted_inj {m m' : Machine} {n n' : Note} :
    m.noted n = m'.noted n' ↔ m = m' ∧ n = n' := by
  cases m
  cases m'
  simp only [noted, mk.injEq, Array.push_eq_push]
  tauto

variable {S : Nat → Prop} {m m' m'' : Machine}

/-- In the later state `m'` each cell is what it was in `m`, or `S` holds of its index and it was
stored to. More lines may have been shown. -/
structure Kept (S : Nat → Prop) (m m' : Machine) : Prop where
  /-- What was stored last into each cell. -/
  cells : ∃ stored : Nat → Option Int64, (∀ id, ¬ S id → stored id = none) ∧
    ∀ id, m'.table.get? id = (m.table.get? id).map (·.written (stored id))
  /-- The lines that were shown before come first. -/
  lines : m.lines.toList <+: m'.lines.toList

namespace Kept

/-- A step that touches no cell. -/
theorem of_table_eq (htable : m'.table = m.table) (hlines : m.lines.toList <+: m'.lines.toList) :
    Kept S m m' := by
  refine ⟨⟨fun _ ↦ none, fun _ _ ↦ rfl, fun id ↦ ?_⟩, hlines⟩
  rw [htable]
  exact Option.map_id'.symm

theorem refl (m : Machine) : Kept S m m :=
  of_table_eq rfl List.prefix_rfl

theorem note (m : Machine) (n : Note) : Kept S m (m.noted n) :=
  of_table_eq rfl List.prefix_rfl

theorem print (m : Machine) (line : String) : Kept S m { m with lines := m.lines.push line } := by
  refine of_table_eq rfl ?_
  rw [Array.toList_push]
  exact List.prefix_append _ _

theorem store (m : Machine) {id : Nat} (hid : S id) (v : Int64) :
    Kept S m { m with table := m.table.store id v } := by
  refine ⟨⟨fun id' ↦ if id = id' then some v else none, fun id' hid' ↦ ?_, fun id' ↦ ?_⟩,
    List.prefix_rfl⟩
  · have hne : id ≠ id' := by
      rintro rfl
      exact hid' hid
    exact if_neg hne
  · refine (Table.get?_store m.table id id' v).trans ?_
    congr 1
    funext c
    by_cases heq : id = id' <;> simp [heq, Cell.written]

theorem trans (h : Kept S m m') (h' : Kept S m' m'') : Kept S m m'' := by
  obtain ⟨first, hfirst, hcells⟩ := h.cells
  obtain ⟨second, hsecond, hcells'⟩ := h'.cells
  refine ⟨⟨fun id ↦ (second id).or (first id), fun id hid ↦ ?_, fun id ↦ ?_⟩,
    h.lines.trans h'.lines⟩
  · simp [hsecond id hid, hfirst id hid]
  · rw [hcells', hcells, Option.map_map]
    congr 1
    funext c
    exact c.written_written (first id) (second id)

/-- A cell of which `S` does not hold is the same. -/
theorem get?_eq (h : Kept S m m') {id : Nat} (hid : ¬ S id) :
    m'.table.get? id = m.table.get? id := by
  obtain ⟨stored, hstored, hcells⟩ := h.cells
  rw [hcells, hstored id hid]
  exact Option.map_id'

/-- Names and kinds stay. -/
theorem label_eq (h : Kept S m m') (id : Nat) :
    (m'.table.get? id).map (fun c ↦ (c.name, c.kind)) =
      (m.table.get? id).map fun c ↦ (c.name, c.kind) := by
  obtain ⟨stored, -, hcells⟩ := h.cells
  rw [hcells, Option.map_map]
  simp only [Function.comp_def, Cell.name_written, Cell.kind_written]

/-- A cell that was defined stays so. -/
theorem defined (h : Kept S m m') {id : Nat} {c : Cell} (hc : m.table.get? id = some c)
    (hdefined : c.defined = true) : ∃ c', m'.table.get? id = some c' ∧ c'.defined = true := by
  obtain ⟨stored, -, hcells⟩ := h.cells
  refine ⟨c.written (stored id), ?_, ?_⟩
  · rw [hcells, hc]
    rfl
  · rw [Cell.defined_written, hdefined, Bool.or_true]

theorem names_eq (h : Kept S m m') : m'.table.names = m.table.names := by
  refine List.ext_getElem? fun id ↦ ?_
  have hlabel := congrArg (Option.map Prod.fst) (h.label_eq id)
  simpa only [Option.map_map, Function.comp_def, Table.getElem?_names] using hlabel

theorem size_eq (h : Kept S m m') : m'.table.size = m.table.size := by
  rw [← Table.length_names, h.names_eq, Table.length_names]

/-- Names lead to the same cells. -/
theorem find?_eq (h : Kept S m m') (name : String) :
    m'.table.find? name = m.table.find? name := by
  refine Option.ext fun id ↦ ?_
  rw [Table.find?_eq_some_iff_mem, Table.find?_eq_some_iff_mem, h.names_eq]

end Kept

end Machine

/-! ### Access to cells -/

namespace Run

/-- What two computations in order end with is a fault of the first, or comes from the second. -/
theorem bind_eq_some {α β : Type} {x : Run α} {f : α → Run β} {m m' : Machine}
    {result : Except Fault β} (h : (x >>= f) m = some (result, m')) :
    (∃ fault, x m = some (.error fault, m') ∧ result = .error fault) ∨
      ∃ a m₁, x m = some (.ok a, m₁) ∧ f a m₁ = some (result, m') := by
  rw [bind_apply] at h
  rcases hx : x m with _ | ⟨fault | a, m₁⟩
  · rw [hx] at h
    cases h
  · rw [hx] at h
    cases h
    exact .inl ⟨fault, rfl, rfl⟩
  · rw [hx] at h
    exact .inr ⟨a, m₁, rfl, h⟩

theorem get_apply (m : Machine) : (get : Run Machine) m = some (.ok m, m) := rfl

theorem cell_apply (id : Nat) (m : Machine) : cell id m =
    some ((m.table.get? id).elim (.error (.noCell id)) .ok, m) := by
  rw [cell, bind_apply, get_apply]
  dsimp only
  cases m.table.get? id <;> rfl

/-- A store into a cell of the table. -/
theorem store_apply {id : Nat} {m : Machine} {c : Cell} (hc : m.table.get? id = some c)
    (v : Int64) : store id v m = some (.ok (), { m with table := m.table.store id v }) := by
  rw [store, discard_eq, bind_apply, bind_apply, cell_apply, hc]
  rfl

end Run

/-! ### Computations that store to certain cells only -/

namespace Run

open Machine (Kept)

variable {α β : Type} {S : Nat → Prop}

/-- However the computation ends, it stores only to cells of which `S` holds. -/
def Keeps (S : Nat → Prop) (x : Run α) : Prop :=
  ∀ m result m', x m = some (result, m') → Kept S m m'

theorem keeps_pure (a : α) : Keeps S (pure a : Run α) := by
  intro m result m' h
  cases h
  exact .refl m

theorem keeps_throw (e : Fault) : Keeps S (throw e : Run α) := by
  intro m result m' h
  cases h
  exact .refl m

theorem Keeps.bind {x : Run α} {f : α → Run β} (hx : Keeps S x) (hf : ∀ a, Keeps S (f a)) :
    Keeps S (x >>= f) := by
  intro m result m' h
  rcases bind_eq_some h with ⟨fault, hfault, -⟩ | ⟨a, m₁, ha, hrest⟩
  · exact hx m _ _ hfault
  · exact (hx m _ _ ha).trans (hf a m₁ result m' hrest)

theorem Keeps.discard {x : Run α} (hx : Keeps S x) : Keeps S (discard x) := by
  rw [discard_eq]
  exact hx.bind fun _ ↦ keeps_pure _

theorem keeps_cell (id : Nat) : Keeps S (cell id) := by
  intro m result m' h
  rw [cell_apply] at h
  cases h
  exact .refl m

theorem keeps_value (id : Nat) : Keeps S (value id) :=
  (keeps_cell id).bind fun _ ↦ keeps_pure _

theorem keeps_print (line : String) : Keeps S (print line) := by
  intro m result m' h
  cases h
  exact .print m line

theorem keeps_note (n : Note) : Keeps S (note n) := by
  intro m result m' h
  cases h
  exact .note m n

theorem keeps_store {id : Nat} (hid : S id) (v : Int64) : Keeps S (store id v) := by
  refine (keeps_cell id).discard.bind fun _ ↦ ?_
  intro m result m' h
  cases h
  exact .store m hid v

theorem Keeps.rounds {x : Run Bool} (hx : Keeps S x) (bound count : Nat) :
    Keeps S (rounds x bound count) := by
  induction bound generalizing count with
  | zero =>
    intro m result m' h
    cases h
  | succ bound ih =>
    refine hx.bind fun again ↦ ?_
    split
    · exact ih _
    · exact keeps_pure _

end Run

/-! ### Evaluation -/

namespace Tree

open Run
open Machine (Kept)

section Keeps

variable {S : Nat → Prop}

theorem keeps_operate (op : Operator) (span : Span) (a b : Int64) :
    Keeps S (operate op span a b) := by
  unfold operate
  split
  · exact keeps_pure _
  · exact keeps_throw _

theorem keeps_rightOperand (op : Operator) {rhs : Run Int64} (h : Keeps S rhs) :
    Keeps S (rightOperand op rhs) := by
  unfold rightOperand
  split
  · exact keeps_pure _
  · exact h

theorem keeps_roundWhile {test : Run Int64} {body : Run Unit} (htest : Keeps S test)
    (hbody : Keeps S body) : Keeps S (roundWhile test body) := by
  refine htest.bind fun v ↦ ?_
  split
  · exact hbody.bind fun _ ↦ keeps_pure _
  · exact keeps_pure _

theorem keeps_showCells : ∀ ids : List Nat, Keeps S (showCells ids)
  | [] => keeps_pure _
  | id :: ids => (keeps_value id).bind fun _ ↦ (keeps_print _).bind fun _ ↦ keeps_showCells ids

mutual

/-- An evaluation stores to the cells that the tree assigns to. -/
theorem eval_keeps (bound : Nat) :
    ∀ t : Tree Nat, (∀ id ∈ t.assigned, S id) → Keeps S (eval bound t)
  | sequence items => fun h ↦ (evalList_keeps bound items h).bind fun _ ↦ keeps_pure _
  | cell id => fun _ ↦ keeps_value id
  | assignment target expression => fun h ↦ by
    obtain ⟨htarget, h⟩ := List.forall_mem_cons.1 h
    exact (keeps_cell _).bind fun _ ↦ (keeps_note _).bind fun _ ↦
      (eval_keeps bound expression h).bind fun _ ↦
        (keeps_store htarget _).bind fun _ ↦ keeps_pure _
  | binary op span lhs rhs => fun h ↦ by
    obtain ⟨hlhs, hrhs⟩ := List.forall_mem_append.1 h
    exact (eval_keeps bound lhs hlhs).bind fun _ ↦
      (keeps_rightOperand op (eval_keeps bound rhs hrhs)).bind fun _ ↦ keeps_operate op span _ _
  | unary op span operand => fun h ↦
    (eval_keeps bound operand h).bind fun _ ↦ keeps_operate op span _ _
  | ifThen condition body => fun h ↦ by
    obtain ⟨hcondition, hbody⟩ := List.forall_mem_append.1 h
    refine (keeps_note _).bind fun _ ↦ (eval_keeps bound condition hcondition).bind fun v ↦ ?_
    split
    · exact (eval_keeps bound body hbody).discard.bind fun _ ↦ keeps_pure _
    · exact keeps_pure _
  | choice arms => fun h ↦
    (keeps_note _).bind fun _ ↦ (evalArms_keeps bound arms h).bind fun _ ↦ keeps_pure _
  | whileDo condition body => fun h ↦ by
    obtain ⟨hcondition, hbody⟩ := List.forall_mem_append.1 h
    have hround := keeps_roundWhile (eval_keeps bound condition hcondition)
      (eval_keeps bound body hbody).discard
    exact (keeps_note _).bind fun _ ↦ (hround.rounds bound 0).bind fun _ ↦
      (keeps_note _).bind fun _ ↦ keeps_pure _
  | repeatUntil body condition => fun h ↦ by
    obtain ⟨hbody, hcondition⟩ := List.forall_mem_append.1 h
    have hround := (eval_keeps bound body hbody).discard.bind fun _ ↦
      (eval_keeps bound condition hcondition).bind fun v ↦ keeps_pure (!truthy v)
    exact (keeps_note _).bind fun _ ↦ (hround.rounds bound 0).bind fun _ ↦
      (keeps_note _).bind fun _ ↦ keeps_pure _
  | forLoop init condition step body => fun h ↦ by
    obtain ⟨hinit, h⟩ := List.forall_mem_append.1 h
    obtain ⟨hcondition, h⟩ := List.forall_mem_append.1 h
    obtain ⟨hstep, hbody⟩ := List.forall_mem_append.1 h
    have hround := keeps_roundWhile (eval_keeps bound condition hcondition)
      ((eval_keeps bound body hbody).discard.bind fun _ ↦ evalClause_keeps bound step hstep)
    exact (keeps_note _).bind fun _ ↦ (evalClause_keeps bound init hinit).bind fun _ ↦
      (hround.rounds bound 0).bind fun _ ↦ (keeps_note _).bind fun _ ↦ keeps_pure _
  | read cells => fun _ ↦
    (keeps_note _).bind fun _ ↦ (keeps_showCells cells).bind fun _ ↦ keeps_pure _
  | write items => fun h ↦
    (keeps_note _).bind fun _ ↦ (evalItems_keeps bound items h).bind fun _ ↦ keeps_pure _
termination_by structural t => t

theorem evalList_keeps (bound : Nat) :
    ∀ ts : List (Tree Nat), (∀ id ∈ assignedAll ts, S id) → Keeps S (evalList bound ts)
  | [] => fun _ ↦ keeps_pure _
  | t :: ts => fun h ↦ by
    obtain ⟨ht, hts⟩ := List.forall_mem_append.1 h
    exact (eval_keeps bound t ht).discard.bind fun _ ↦ evalList_keeps bound ts hts
termination_by structural ts => ts

theorem evalArms_keeps (bound : Nat) :
    ∀ arms : List (Arm Nat), (∀ id ∈ assignedArms arms, S id) → Keeps S (evalArms bound arms)
  | [] => fun _ ↦ keeps_pure _
  | .guarded condition body :: arms => fun h ↦ by
    obtain ⟨hcondition, h⟩ := List.forall_mem_append.1 h
    obtain ⟨hbody, harms⟩ := List.forall_mem_append.1 h
    refine (eval_keeps bound condition hcondition).bind fun v ↦ ?_
    split
    · exact (eval_keeps bound body hbody).discard
    · exact evalArms_keeps bound arms harms
  | .otherwise body :: _ => fun h ↦
    (eval_keeps bound body (List.forall_mem_append.1 h).1).discard
termination_by structural arms => arms

theorem evalClause_keeps (bound : Nat) :
    ∀ c : Clause Nat, (∀ id ∈ assignedClause c, S id) → Keeps S (evalClause bound c)
  | .absent => fun _ ↦ keeps_pure _
  | .assign target expression => fun h ↦ by
    obtain ⟨htarget, h⟩ := List.forall_mem_cons.1 h
    exact (eval_keeps bound expression h).bind fun _ ↦ keeps_store htarget _
termination_by structural c => c

theorem evalItems_keeps (bound : Nat) :
    ∀ items : List (Item Nat), (∀ id ∈ assignedItems items, S id) →
      Keeps S (evalItems bound items)
  | [] => fun _ ↦ keeps_pure _
  | .value expression :: items => fun h ↦ by
    obtain ⟨hexpression, hitems⟩ := List.forall_mem_append.1 h
    exact (eval_keeps bound expression hexpression).bind fun _ ↦ (keeps_print _).bind fun _ ↦
      evalItems_keeps bound items hitems
  | .text _ :: items => fun h ↦ (keeps_print _).bind fun _ ↦ evalItems_keeps bound items h
termination_by structural items => items

end

/-- Between the ends of an evaluation only the assigned cells were stored to. -/
theorem kept_of_run {t : Tree Nat} {bound : Nat} {m m' : Machine} {result : Except Fault Int64}
    (h : t.run bound m = some (result, m')) : Kept (· ∈ t.assigned) m m' :=
  eval_keeps bound t (fun _ hid ↦ hid) m result m' h

end Keeps

/-! ### Assignments that fail -/

section Assignment

variable {target : Nat} {expression : Tree Nat} {bound : Nat} {m m' : Machine} {c : Cell}
  {fault : Fault}

/-- The assignment of a clause fails if and only if its expression does, and leaves what the
expression leaves. -/
theorem evalClause_eq_error_iff (hc : m.table.get? target = some c) :
    evalClause bound (.assign target expression) m = some (.error fault, m') ↔
      expression.run bound m = some (.error fault, m') := by
  rw [evalClause, bind_apply, run]
  rcases hrun : eval bound expression m with _ | ⟨e | v, m₁⟩
  · simp
  · simp
  · -- the target is still there behind the expression, so that the store does not fail
    have hlabel := (kept_of_run hrun).label_eq target
    rw [hc] at hlabel
    obtain ⟨c', hc', -⟩ := Option.map_eq_some_iff.1 hlabel
    simp [store_apply hc']

/-- An assignment is noted before it is done, and it is done like that of a clause. -/
theorem run_assignment (hc : m.table.get? target = some c) :
    (assignment target expression).run bound m =
      (evalClause bound (.assign target expression) >>= fun _ ↦ pure 0)
        (m.noted (.assignment c.name)) := by
  rw [run, eval, bind_apply, cell_apply, hc, evalClause, bind_assoc]
  rfl

/-- An assignment is noted, and then it fails if and only if its expression does, and leaves what
the expression leaves. -/
theorem assignment_eq_error_iff (hc : m.table.get? target = some c) :
    (assignment target expression).run bound m = some (.error fault, m') ↔
      expression.run bound (m.noted (.assignment c.name)) =
        some (.error fault, m') := by
  have hnoted : (m.noted (.assignment c.name)).table.get? target = some c := hc
  rw [run_assignment hc, ← evalClause_eq_error_iff hnoted, bind_apply]
  rcases evalClause bound (.assign target expression) (m.noted _) with _ | ⟨e | v, m₁⟩
  · simp
  · simp
  · constructor <;> intro h <;> cases h

end Assignment

/-- What an evaluation leaves as it was, however it ends. There are as many cells as before, with
the same names and kinds, and each name leads to the same cell. A cell that the tree does not assign
to is the same, and a cell that had a value has one. What was shown before stays in front of what is
shown. An assignment, in an instruction or in a clause of a counted loop, fails with its expression,
and then it leaves the state that the expression left. -/
theorem evaluation_touches_assigned :
    (∀ (t : Tree Nat) (bound : Nat) (m m' : Machine) (result : Except Fault Int64),
      t.run bound m = some (result, m') →
      m'.table.size = m.table.size ∧
      (∀ id, (m'.table.get? id).map (fun c ↦ (c.name, c.kind)) =
        (m.table.get? id).map fun c ↦ (c.name, c.kind)) ∧
      (∀ name, m'.table.find? name = m.table.find? name) ∧
      (∀ id, id ∉ t.assigned → m'.table.get? id = m.table.get? id) ∧
      (∀ id c, m.table.get? id = some c → c.defined = true →
        ∃ c', m'.table.get? id = some c' ∧ c'.defined = true) ∧
      m.lines.toList <+: m'.lines.toList) ∧
    ∀ (target : Nat) (expression : Tree Nat) (bound : Nat) (m m' : Machine) (c : Cell)
      (fault : Fault), m.table.get? target = some c →
      ((assignment target expression).run bound m = some (.error fault, m') ↔
        expression.run bound (m.noted (.assignment c.name)) =
          some (.error fault, m')) ∧
      (evalClause bound (.assign target expression) m = some (.error fault, m') ↔
        expression.run bound m = some (.error fault, m')) := by
  refine ⟨fun t bound m m' result hrun ↦ ?_, fun target expression bound m m' c fault hc ↦
    ⟨assignment_eq_error_iff hc, evalClause_eq_error_iff hc⟩⟩
  have hkept := kept_of_run hrun
  exact ⟨hkept.size_eq, hkept.label_eq, hkept.find?_eq, fun _ hid ↦ hkept.get?_eq hid,
    fun _ _ hc hdefined ↦ hkept.defined hc hdefined, hkept.lines⟩

/-- A counted loop whose step divides by zero: the step leaves its target as the opening made it,
and no other cell is touched. -/
theorem evaluation_touches_assigned_step :
    let span : Span := ⟨{}, {}, Nat.le_refl _⟩
    let table : Table := { cells := #[(Symbol.var "i").cell, (Symbol.literal "0" 0).cell,
      (Symbol.literal "1" 1).cell, (Symbol.var "y").cell.store 5] }
    let m : Machine := { table, lines := #["before"] }
    let quotient : Tree Nat := .binary .divide span (.cell 2) (.cell 0)
    let t : Tree Nat := .forLoop (.assign 0 (.cell 1)) (.cell 2) (.assign 0 quotient)
      (.write [.value (.cell 0)])
    ∃ m', t.run 1 m = some (.error (.divisionByZero span), m') ∧
      m'.table.get? 0 = some ((Symbol.var "i").cell.store 0) ∧
      (∀ id, id ≠ 0 → m'.table.get? id = table.get? id) ∧
      ["before"] <+: m'.lines.toList ∧
      evalClause 1 (.assign 0 quotient) m' = some (.error (.divisionByZero span), m') := by
  intro span table m quotient t
  let m' : Machine := { table := table.store 0 0, lines := #["before", "0"], notes :=
    #[.forLoop, .write 1] }
  have hrun : t.run 1 m = some (.error (.divisionByZero span), m') := by decide +kernel
  obtain ⟨-, -, -, hspared, -, hlines⟩ := evaluation_touches_assigned.1 t 1 m m' _ hrun
  have hquotient : quotient.run 1 m' = some (.error (.divisionByZero span), m') := by
    decide +kernel
  refine ⟨m', hrun, rfl, fun id hid ↦ hspared id ?_, hlines, ?_⟩
  · simpa [t, quotient, assigned, assignedClause, assignedItems] using hid
  · exact (evaluation_touches_assigned.2 0 quotient 1 m' m' _ _ rfl).2.2 hquotient

end Tree

end Pseudocode

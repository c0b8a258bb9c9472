import Pseudocode.Proofs.History
import Pseudocode.Proofs.Interning

/-!
# Cells are numbered in source order

The reader interns a symbol where it stands in the program and nowhere else. So a walk through the
tree from left to right, as it was written, comes to the cells in the order of their indices, and it
comes to all of them.

## Main definitions

* `Tree.leaves`: what stands at the leaves of a tree, in the order in which it was written.

## Main results

* `Tree.symbols_trail`: the symbols that are met over a program are the leaves of its tree.
* `Tree.eraseDups_leaves_resolve`: the cells of a tree are numbered along its leaves.
* `Scan.cells_numbered_in_source_order`: the cells of a program text.
-/

namespace Pseudocode

/-! ### Leaves -/

namespace Tree

variable {α β : Type}

mutual

/-- The leaves of a tree and the targets of its assignments, in the order in which they were
written: a target comes before its expression, the body of a loop that tests last before the
condition, and the opening, the condition and the step of a counted loop before the body. -/
def leaves : Tree α → List α
  | sequence items => leavesAll items
  | cell id => [id]
  | assignment target expression => target :: expression.leaves
  | binary _ _ lhs rhs => lhs.leaves ++ rhs.leaves
  | unary _ _ operand => operand.leaves
  | ifThen condition body => condition.leaves ++ body.leaves
  | choice arms => leavesArms arms
  | whileDo condition body => condition.leaves ++ body.leaves
  | repeatUntil body condition => body.leaves ++ condition.leaves
  | forLoop init condition step body =>
    leavesClause init ++ (condition.leaves ++ (leavesClause step ++ body.leaves))
  | read cells => cells
  | write items => leavesItems items

/-- `Tree.leaves` along a list. -/
def leavesAll : List (Tree α) → List α
  | [] => []
  | t :: ts => t.leaves ++ leavesAll ts

/-- `Tree.leaves` along the arms of a choice. -/
def leavesArms : List (Arm α) → List α
  | [] => []
  | .guarded condition body :: arms => condition.leaves ++ (body.leaves ++ leavesArms arms)
  | .otherwise body :: arms => body.leaves ++ leavesArms arms

/-- `Tree.leaves` inside a clause. -/
def leavesClause : Clause α → List α
  | .absent => []
  | .assign target expression => target :: expression.leaves

/-- `Tree.leaves` along the items of an output instruction. -/
def leavesItems : List (Item α) → List α
  | [] => []
  | .value expression :: items => expression.leaves ++ leavesItems items
  | .text _ :: items => leavesItems items

end

mutual

theorem leaves_map (f : α → β) : ∀ t : Tree α, (t.map f).leaves = t.leaves.map f
  | sequence items => leavesAll_map f items
  | cell _ => rfl
  | assignment _ expression => by rw [map, leaves, leaves, leaves_map f expression]; rfl
  | binary _ _ lhs rhs => by
    rw [map, leaves, leaves, leaves_map f lhs, leaves_map f rhs, List.map_append]
  | unary _ _ operand => leaves_map f operand
  | ifThen condition body => by
    rw [map, leaves, leaves, leaves_map f condition, leaves_map f body, List.map_append]
  | choice arms => leavesArms_map f arms
  | whileDo condition body => by
    rw [map, leaves, leaves, leaves_map f condition, leaves_map f body, List.map_append]
  | repeatUntil body condition => by
    rw [map, leaves, leaves, leaves_map f condition, leaves_map f body, List.map_append]
  | forLoop init condition step body => by
    rw [map, leaves, leaves, leavesClause_map f init, leaves_map f condition,
      leavesClause_map f step, leaves_map f body]
    simp only [List.map_append]
  | read _ => rfl
  | write items => leavesItems_map f items
termination_by structural t => t

theorem leavesAll_map (f : α → β) :
    ∀ ts : List (Tree α), leavesAll (mapList f ts) = (leavesAll ts).map f
  | [] => rfl
  | t :: ts => by
    rw [mapList, leavesAll, leavesAll, leaves_map f t, leavesAll_map f ts, List.map_append]
termination_by structural ts => ts

theorem leavesArms_map (f : α → β) :
    ∀ arms : List (Arm α), leavesArms (mapArms f arms) = (leavesArms arms).map f
  | [] => rfl
  | .guarded condition body :: arms => by
    rw [mapArms, leavesArms, leavesArms, leaves_map f condition, leaves_map f body,
      leavesArms_map f arms]
    simp only [List.map_append]
  | .otherwise body :: arms => by
    rw [mapArms, leavesArms, leavesArms, leaves_map f body, leavesArms_map f arms, List.map_append]
termination_by structural arms => arms

theorem leavesClause_map (f : α → β) :
    ∀ c : Clause α, leavesClause (mapClause f c) = (leavesClause c).map f
  | .absent => rfl
  | .assign _ expression => by
    rw [mapClause, leavesClause, leavesClause, leaves_map f expression]
    rfl
termination_by structural c => c

theorem leavesItems_map (f : α → β) :
    ∀ items : List (Item α), leavesItems (mapItems f items) = (leavesItems items).map f
  | [] => rfl
  | .value expression :: items => by
    rw [mapItems, leavesItems, leavesItems, leaves_map f expression, leavesItems_map f items,
      List.map_append]
  | .text _ :: items => leavesItems_map f items
termination_by structural items => items

end

/-! ### The symbols of a trail -/

theorem symbols_met_cons (x : Symbol) (trail : List Event) :
    Trail.symbols (.met x :: trail) = x :: Trail.symbols trail := rfl

theorem symbols_understood_cons (name : String) (trail : List Event) :
    Trail.symbols (.understood name :: trail) = Trail.symbols trail := rfl

theorem symbols_map_met (xs : List Symbol) : Trail.symbols (xs.map .met) = xs := by
  induction xs with
  | nil => rfl
  | cons x xs ih => rw [List.map_cons, symbols_met_cons, ih]

mutual

/-- The symbols that are met along the trail of a tree are its leaves. -/
theorem symbols_trail : ∀ t : Tree Symbol, Trail.symbols t.trail = t.leaves
  | sequence items => symbols_trailAll items
  | cell _ => rfl
  | assignment _ expression => by rw [trail, symbols_met_cons, symbols_trail expression, leaves]
  | binary _ _ lhs rhs => by
    rw [trail, Trail.symbols_append, symbols_trail lhs, symbols_trail rhs, leaves]
  | unary _ _ operand => symbols_trail operand
  | ifThen condition body => by
    rw [trail, Trail.symbols_append, symbols_trail condition, symbols_trail body, leaves]
  | choice arms => symbols_trailArms arms
  | whileDo condition body => by
    rw [trail, Trail.symbols_append, symbols_trail condition, symbols_trail body, leaves]
  | repeatUntil body condition => by
    rw [trail, Trail.symbols_append, symbols_trail body, symbols_trail condition, leaves]
  | forLoop init condition step body => by
    rw [trail, leaves]
    simp only [Trail.symbols_append]
    rw [symbols_trailClause init, symbols_trail condition, symbols_trailClause step,
      symbols_trail body]
  | read cells => symbols_map_met cells
  | write items => symbols_trailItems items
termination_by structural t => t

theorem symbols_trailAll :
    ∀ ts : List (Tree Symbol), Trail.symbols (trailAll ts) = leavesAll ts
  | [] => rfl
  | t :: ts => by
    rw [trailAll, Trail.symbols_append, symbols_understood_cons, symbols_trail t,
      symbols_trailAll ts, leavesAll]
termination_by structural ts => ts

theorem symbols_trailArms :
    ∀ arms : List (Arm Symbol), Trail.symbols (trailArms arms) = leavesArms arms
  | [] => rfl
  | .guarded condition body :: arms => by
    rw [trailArms, Trail.symbols_append, Trail.symbols_append, symbols_trail condition,
      symbols_trail body, symbols_trailArms arms, leavesArms]
  | .otherwise body :: arms => by
    rw [trailArms, Trail.symbols_append, symbols_trail body, symbols_trailArms arms, leavesArms]
termination_by structural arms => arms

theorem symbols_trailClause :
    ∀ c : Clause Symbol, Trail.symbols (trailClause c) = leavesClause c
  | .absent => rfl
  | .assign _ expression => by
    rw [trailClause, symbols_met_cons, symbols_trail expression, leavesClause]
termination_by structural c => c

theorem symbols_trailItems :
    ∀ items : List (Item Symbol), Trail.symbols (trailItems items) = leavesItems items
  | [] => rfl
  | .value expression :: items => by
    rw [trailItems, Trail.symbols_append, symbols_trail expression, symbols_trailItems items,
      leavesItems]
  | .text _ :: items => symbols_trailItems items
termination_by structural items => items

end

end Tree

/-! ### Numbering -/

namespace Table

/-- Interning symbols from left to right is a history without stores. -/
theorem internAll_eq_after (xs : List Symbol) : internAll {} xs = after (xs.map .intern) := by
  rw [after, List.foldl_map]
  rfl

theorem lawful_map_intern (xs : List Symbol) : Lawful (xs.map .intern) := by
  intro before id v later h
  have hmem : .store id v ∈ xs.map Operation.intern :=
    h ▸ List.mem_append_right _ List.mem_cons_self
  obtain ⟨x, -, hx⟩ := List.mem_map.1 hmem
  cases hx

theorem symbols_answersFrom (t : Table) (xs : List Symbol) :
    (answersFrom t (xs.map .intern)).map (·.1) = xs := by
  induction xs generalizing t with
  | nil => rfl
  | cons x xs ih => exact congrArg (x :: ·) (ih _)

/-- Each symbol is handed out the index that the table tells at the end. -/
theorem indices_answers (xs : List Symbol) :
    (answers (xs.map .intern)).map (·.2) = xs.map fun x ↦ (internAll {} xs).indexOf x.text := by
  have hremembers := remembers_after (lawful_map_intern xs)
  have hindex : ∀ p ∈ answers (xs.map .intern), p.2 = (internAll {} xs).indexOf p.1.text := by
    intro p hp
    rw [internAll_eq_after]
    exact (find?_eq_some_iff.1 (hremembers.found p.1 p.2 hp)).2.symm
  have hsymbols : (answers (xs.map .intern)).map (·.1) = xs := symbols_answersFrom {} xs
  calc (answers (xs.map .intern)).map (·.2)
      = (answers (xs.map .intern)).map fun p ↦ (internAll {} xs).indexOf p.1.text :=
        List.map_congr_left hindex
    _ = ((answers (xs.map .intern)).map (·.1)).map fun x ↦ (internAll {} xs).indexOf x.text := by
        rw [List.map_map]
        rfl
    _ = xs.map fun x ↦ (internAll {} xs).indexOf x.text := by rw [hsymbols]

/-- Along the symbols, the indices come in order, without a gap. -/
theorem eraseDups_indices (xs : List Symbol) :
    (xs.map fun x ↦ (internAll {} xs).indexOf x.text).eraseDups =
      List.range (internAll {} xs).size := by
  have hids := eraseDups_answers (lawful_map_intern xs)
  rwa [indices_answers, ← internAll_eq_after] at hids

end Table

namespace Tree

open Table

/-- Along its leaves, the cells of a tree come in the order of their indices, without a gap. -/
theorem eraseDups_leaves_resolve (tree : Tree Symbol) :
    (tree.resolve (internAll {} tree.leaves)).leaves.eraseDups =
      List.range (internAll {} tree.leaves).size := by
  rw [resolve, leaves_map]
  exact eraseDups_indices tree.leaves

end Tree

/-! ### The cells of a text -/

theorem Decimal.toInt_of_int64? {digits : List Char} {v : Int64} (h : int64? digits = some v) :
    v.toInt = value digits := by
  unfold int64? at h
  split at h
  · next hfits =>
    obtain rfl := Option.some.inj h
    exact Int64.toInt_ofNat_of_lt (Nat.lt_succ_of_le hfits)
  · cases h

/-- In a text without errors, every literal that is met stands for the number that its digits
denote. -/
theorem Reading.toInt_of_met {source : String} (h : (Scan.ofSource source).errors = [])
    {digits : String} {v : Int64}
    (hx : .met (.literal digits v) ∈ (ofTokens (Scan.ofSource source).tokens).program.2.trail) :
    v.toInt = Decimal.value digits.toList := by
  rcases from_program hx with hzero | ⟨t, ht, hsymbol⟩
  · cases hzero
    rfl
  · obtain ⟨kind, start, stop⟩ := t
    cases kind <;> cases hsymbol
    exact Decimal.toInt_of_int64? (Scan.int64?_of_errors_eq_nil h ht rfl)

namespace Scan

/-- If a text can be read, a walk through its tree, in the order in which it was written, comes to
the cells for the first time in the order of their indices and misses none. Every cell is as it was
made: a variable is zero and undefined, and a literal has its value. -/
theorem cells_numbered_in_source_order {source : String} {tree : Tree Symbol}
    (hscan : (ofSource source).errors = [])
    (htree : (Reading.ofTokens (ofSource source).tokens).program.1 = .ok tree) :
    let after := (Reading.ofTokens (ofSource source).tokens).program.2
    (after.resolve tree).leaves.eraseDups = List.range after.table.size ∧
      ∀ id c, after.table.get? id = some c → id ∈ (after.resolve tree).leaves ∧
        (c.kind = .var ∧ c.value = 0 ∧ c.defined = false ∨
          c.kind = .integer ∧ c.value.toInt = Decimal.value c.name.toList ∧ c.defined = true) := by
  intro after
  obtain ⟨d, -, rfl, htrail, -⟩ := Reading.exists_derivation_of_ok (ordered_ofSource source) htree
  have htable : after.table = Table.internAll {} d.tree.leaves := by
    rw [Reading.table, htrail, Trail.table, Trail.intern, Tree.symbols_trail]
  have hleaves : (after.resolve d.tree).leaves.eraseDups = List.range after.table.size := by
    rw [Reading.resolve, htable]
    exact d.tree.eraseDups_leaves_resolve
  refine ⟨hleaves, fun id c hc ↦ ⟨?_, ?_⟩⟩
  · rw [← List.mem_eraseDups, hleaves, List.mem_range]
    exact (Array.getElem?_eq_some_iff.1 hc).1
  · obtain ⟨x, hx, rfl⟩ := Trail.mem_cells_table (Array.mem_of_getElem? hc)
    cases x with
    | var name => exact .inl ⟨rfl, rfl, rfl⟩
    | literal digits v => exact .inr ⟨rfl, Reading.toInt_of_met hscan hx, rfl⟩

/-- A loop that tests last: the body comes first, and the zero of the minus sign comes before its
operand. -/
theorem cells_numbered_in_source_order_loop :
    let source := "procedure principale () repeter x = y - -1; jusqua (x == 0) finproc"
    let reading := Reading.ofTokens (ofSource source).tokens
    ∃ tree : Tree Symbol, (ofSource source).errors = [] ∧ reading.program.1 = .ok tree ∧
      (reading.program.2.resolve tree).leaves = [0, 1, 2, 3, 0, 2] ∧
      (reading.program.2.resolve tree).leaves.eraseDups =
        List.range reading.program.2.table.size := by
  intro source reading
  have hscan : (ofSource source).errors = [] := by decide +kernel
  have hleaves : reading.program.1.map (fun tree ↦ (reading.program.2.resolve tree).leaves) =
      .ok [0, 1, 2, 3, 0, 2] := by decide +kernel
  cases htree : reading.program.1 with
  | error failure =>
    rw [htree] at hleaves
    cases hleaves
  | ok tree =>
    rw [htree] at hleaves
    exact ⟨tree, hscan, rfl, Except.ok.inj hleaves, (cells_numbered_in_source_order hscan htree).1⟩

end Scan

end Pseudocode

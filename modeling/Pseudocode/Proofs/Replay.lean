import Mathlib.Data.List.Forall2
import Pseudocode.Proofs.Numbering

/-!
# The log replays the tree

While it reads a program, the reader logs each cell that it makes and each instruction that it
understands. The log can be told from the tree and its table alone: on a walk through the tree from
left to right, as it was written, each cell is logged where it is mentioned first and each
instruction right behind everything inside it.

## Main definitions

* `Tree.walk`: the walk through a tree, with its leaves and its instructions.
* `Record.interned`, `Record.parsed`: the records of a cell and of an instruction.

## Main results

* `Tree.follows`: the trail of a tree and the walk through it go along with each other.
* `Trail.news_append_recordsFrom`: the records of cells are those of the cells that are added.
* `Scan.log_replays_tree`: the log of a reading that succeeds.
-/

namespace Pseudocode

/-! ### Walks through a tree -/

namespace Tree

variable {α : Type}

/-- A step of a walk through a tree. -/
inductive Step (α : Type) where
  /-- A leaf, or the target of an assignment, is mentioned. -/
  | mention (id : α)
  /-- An instruction is complete. -/
  | complete (instruction : Tree α)

namespace Step

/-- What is mentioned. -/
def mention? : Step α → Option α
  | mention id => some id
  | complete _ => none

/-- The instruction that is complete. -/
def complete? : Step α → Option (Tree α)
  | mention _ => none
  | complete instruction => some instruction

end Step

mutual

/-- The walk through a tree, in the order in which it was written. The instructions are what stands
in sequences, at any depth, and each is complete behind everything inside it. -/
def walk : Tree α → List (Step α)
  | sequence items => walkAll items
  | cell id => [.mention id]
  | assignment target expression => .mention target :: expression.walk
  | binary _ _ lhs rhs => lhs.walk ++ rhs.walk
  | unary _ _ operand => operand.walk
  | ifThen condition body => condition.walk ++ body.walk
  | choice arms => walkArms arms
  | whileDo condition body => condition.walk ++ body.walk
  | repeatUntil body condition => body.walk ++ condition.walk
  | forLoop init condition step body =>
    walkClause init ++ (condition.walk ++ (walkClause step ++ body.walk))
  | read cells => cells.map .mention
  | write items => walkItems items

/-- `Tree.walk` along the instructions of a sequence. -/
def walkAll : List (Tree α) → List (Step α)
  | [] => []
  | t :: ts => t.walk ++ .complete t :: walkAll ts

/-- `Tree.walk` along the arms of a choice. -/
def walkArms : List (Arm α) → List (Step α)
  | [] => []
  | .guarded condition body :: arms => condition.walk ++ (body.walk ++ walkArms arms)
  | .otherwise body :: arms => body.walk ++ walkArms arms

/-- `Tree.walk` inside a clause. -/
def walkClause : Clause α → List (Step α)
  | .absent => []
  | .assign target expression => .mention target :: expression.walk

/-- `Tree.walk` along the items of an output instruction. -/
def walkItems : List (Item α) → List (Step α)
  | [] => []
  | .value expression :: items => expression.walk ++ walkItems items
  | .text _ :: items => walkItems items

end

theorem name_map (f : Symbol → α) (t : Tree Symbol) : (t.map f).name = t.name := by
  cases t <;> rfl

/-! ### The trail goes along with the walk -/

/-- What the reader leaves at a step of the walk, when `f` tells what stands for a symbol. -/
inductive Step.Left (f : Symbol → α) : Event → Step α → Prop
  | met (s : Symbol) : Left f (.met s) (.mention (f s))
  | understood (t : Tree α) : Left f (.understood t.name) (.complete t)

/-- The trail and the walk go through the same steps, and each instruction is complete right behind
the walk through it. -/
structure Follows (f : Symbol → α) (trail : List Event) (walk : List (Step α)) : Prop where
  /-- Step by step, the trail is what the reader leaves. -/
  steps : List.Forall₂ (Step.Left f) trail walk
  /-- Before an instruction is complete, there is the walk through it. -/
  inside : ∀ front t back, walk = front ++ .complete t :: back → t.walk <:+ front

namespace Follows

variable {f : Symbol → α} {trail trail' : List Event} {walk walk' : List (Step α)}

theorem nil : Follows f [] [] where
  steps := .nil
  inside _ _ _ h := by simp at h

theorem append (h : Follows f trail walk) (h' : Follows f trail' walk') :
    Follows f (trail ++ trail') (walk ++ walk') where
  steps := List.rel_append h.steps h'.steps
  inside front t back hsplit := by
    rcases List.append_eq_append_iff.1 hsplit with ⟨middle, rfl, hbehind⟩ | ⟨middle, rfl, hbehind⟩
    · exact (h'.inside middle t back hbehind).trans (List.suffix_append _ _)
    · cases middle with
      | nil =>
        have hnil := List.suffix_nil.1 (h'.inside [] t back hbehind.symm)
        exact hnil ▸ List.nil_suffix
      | cons step middle =>
        obtain ⟨rfl, -⟩ := List.cons.inj hbehind
        exact h.inside front t middle rfl

theorem met_cons (s : Symbol) (h : Follows f trail walk) :
    Follows f (.met s :: trail) (.mention (f s) :: walk) := by
  have hmention : Follows f [.met s] [.mention (f s)] := by
    refine ⟨.cons (.met s) .nil, fun front t back hsplit ↦ ?_⟩
    cases front <;> simp at hsplit
  exact hmention.append h

theorem map_met (cells : List Symbol) :
    Follows f (cells.map .met) ((cells.map f).map .mention) := by
  induction cells with
  | nil => exact nil
  | cons s cells ih => exact met_cons s ih

/-- Behind the walk through an instruction, it is complete. -/
theorem complete {t : Tree Symbol} (h : Follows f t.trail (t.map f).walk) :
    Follows f (t.trail ++ [.understood t.name])
      ((t.map f).walk ++ [.complete (t.map f)]) where
  steps := List.rel_append h.steps (.cons (name_map f t ▸ .understood _) .nil)
  inside front u back hsplit := by
    rcases List.append_eq_append_iff.1 hsplit with ⟨middle, hfront, hlast⟩ | ⟨middle, hwalk, hlast⟩
    · obtain ⟨rfl, hu⟩ := List.append_eq_singleton_iff.1 hlast.symm |>.resolve_right (by simp)
      obtain rfl := Step.complete.inj (List.cons.inj hu).1
      rw [hfront, List.append_nil]
    · cases middle with
      | nil =>
        obtain rfl := Step.complete.inj (List.cons.inj hlast).1
        rw [hwalk, List.append_nil]
      | cons step middle =>
        obtain ⟨rfl, -⟩ := List.cons.inj hlast
        exact h.inside front u middle hwalk

end Follows

mutual

/-- The trail of a tree and the walk through it go along with each other. -/
theorem follows (f : Symbol → α) : ∀ t : Tree Symbol, Follows f t.trail (t.map f).walk
  | sequence items => followsAll f items
  | cell s => .met_cons s .nil
  | assignment target expression => .met_cons target (follows f expression)
  | binary _ _ lhs rhs => (follows f lhs).append (follows f rhs)
  | unary _ _ operand => follows f operand
  | ifThen condition body => (follows f condition).append (follows f body)
  | choice arms => followsArms f arms
  | whileDo condition body => (follows f condition).append (follows f body)
  | repeatUntil body condition => (follows f body).append (follows f condition)
  | forLoop init condition step body =>
    (followsClause f init).append <| (follows f condition).append <|
      (followsClause f step).append (follows f body)
  | read cells => .map_met cells
  | write items => followsItems f items
termination_by structural t => t

theorem followsAll (f : Symbol → α) :
    ∀ ts : List (Tree Symbol), Follows f (trailAll ts) (walkAll (mapList f ts))
  | [] => .nil
  | t :: ts => by
    have h := (follows f t).complete.append (followsAll f ts)
    rwa [List.append_assoc, List.append_assoc] at h
termination_by structural ts => ts

theorem followsArms (f : Symbol → α) :
    ∀ arms : List (Arm Symbol), Follows f (trailArms arms) (walkArms (mapArms f arms))
  | [] => .nil
  | .guarded condition body :: arms =>
    (follows f condition).append ((follows f body).append (followsArms f arms))
  | .otherwise body :: arms => (follows f body).append (followsArms f arms)
termination_by structural arms => arms

theorem followsClause (f : Symbol → α) :
    ∀ c : Clause Symbol, Follows f (trailClause c) (walkClause (mapClause f c))
  | .absent => .nil
  | .assign target expression => .met_cons target (follows f expression)
termination_by structural c => c

theorem followsItems (f : Symbol → α) :
    ∀ items : List (Item Symbol), Follows f (trailItems items) (walkItems (mapItems f items))
  | [] => .nil
  | .value expression :: items => (follows f expression).append (followsItems f items)
  | .text _ :: items => followsItems f items
termination_by structural items => items

end

end Tree

/-! ### The records along a trail -/

namespace Record

/-- The record of a new cell. -/
def interned (id : Nat) (c : Cell) : Record where
  level := .trace
  source := .table
  message := "Interned " ++ c.kind.text ++ " `" ++ c.name ++ "` as cell " ++ Decimal.ofNat id

/-- The record of an instruction whose root has this name. -/
def parsed (name : String) : Record where
  level := .trace
  source := .reader
  message := "Parsed instruction " ++ name

end Record

/-- The records of all cells of a table, in the order of their indices. -/
def Table.news (t : Table) : List Record :=
  t.cells.toList.mapIdx Record.interned

theorem Table.length_news (t : Table) : t.news.length = t.size :=
  List.length_mapIdx

/-- Interning more symbols moves no cell. -/
theorem Table.indexOf_internAll {t : Table} {name : String} (symbols : List Symbol)
    (h : t.contains name = true) : (t.internAll symbols).indexOf name = t.indexOf name := by
  induction symbols generalizing t with
  | nil => rfl
  | cons s symbols ih =>
    exact (ih (contains_intern_of_contains s h)).trans (indexOf_intern_of_mem s h)

namespace Trail

/-- A symbol that has a cell is not logged, and any other is logged as its new cell. -/
theorem record?_met (t : Table) (s : Symbol) : record? t (.met s) =
    if t.contains s.text then none else some (.interned t.size s.cell) := by
  rw [record?, Record.interned, Symbol.cell_name]

/-- The cells that are logged along a trail are those that are added to the table. -/
theorem news_append_recordsFrom (t : Table) (trail : List Event) :
    t.news ++ (recordsFrom t trail).filter (·.source = .table) = (intern t trail).news := by
  induction trail generalizing t with
  | nil => exact List.append_nil _
  | cons x trail ih =>
    have htrail : intern t (x :: trail) = intern (intern t [x]) trail := intern_append t [x] trail
    rw [htrail, ← ih, recordsFrom, List.filter_append, ← List.append_assoc]
    refine congrArg (· ++ _) ?_
    cases x with
    | met s =>
      change t.news ++ _ = (t.intern s).news
      rw [record?_met, Table.intern]
      split
      · exact List.append_nil _
      · simp [Table.news, Table.size, Record.interned, List.mapIdx_append]
    | understood name => exact List.append_nil _
    | discarded e => exact List.append_nil _
    | rejected e => exact List.append_nil _

theorem filter_table_records (trail : List Event) :
    (records trail).filter (·.source = .table) = (table trail).news :=
  news_append_recordsFrom {} trail

variable {α : Type} {f : Symbol → α} {trail : List Event} {walk : List (Tree.Step α)}

/-- The instructions that are logged along a trail are those of the walk. -/
theorem filter_reader_recordsFrom (h : List.Forall₂ (Tree.Step.Left f) trail walk) (t : Table) :
    (recordsFrom t trail).filter (·.source = .reader) =
      (walk.filterMap (·.complete?)).map fun i ↦ .parsed i.name := by
  induction h generalizing t with
  | nil => rfl
  | cons hstep _ ih =>
    rw [recordsFrom, List.filter_append, ih]
    cases hstep with
    | met s =>
      rw [record?_met]
      split <;> rfl
    | understood i => rfl

/-- The symbols along a trail stand for what is mentioned on the walk. -/
theorem map_symbols (h : List.Forall₂ (Tree.Step.Left f) trail walk) :
    (symbols trail).map f = walk.filterMap (·.mention?) := by
  induction h with
  | nil => rfl
  | cons hstep _ ih =>
    cases hstep with
    | met s => exact congrArg (f s :: ·) ih
    | understood i => exact ih

/-- Where an instruction is complete on the walk, it is understood on the trail. -/
theorem exists_understood {front back : List (Tree.Step α)} {i : Tree α}
    (h : List.Forall₂ (Tree.Step.Left f) trail (front ++ .complete i :: back)) :
    ∃ before behind, trail = before ++ .understood i.name :: behind ∧
      List.Forall₂ (Tree.Step.Left f) before front ∧
      List.Forall₂ (Tree.Step.Left f) behind back := by
  have hbefore := List.forall₂_take_append trail front _ h
  have hbehind := List.forall₂_drop_append trail front _ h
  obtain ⟨x, behind, hstep, hback, hdrop⟩ := List.forall₂_cons_right_iff.1 hbehind
  cases hstep
  exact ⟨_, behind, by rw [← hdrop, List.take_append_drop], hbefore, hback⟩

/-- The symbols that are met keep their indices, and these are the first ones in order. -/
theorem eraseDups_indices (trail later : List Event) :
    ((symbols trail).map fun s ↦ (table (trail ++ later)).indexOf s.text).eraseDups =
      List.range (table trail).size := by
  have hindex : ∀ s ∈ symbols trail,
      (table (trail ++ later)).indexOf s.text = (table trail).indexOf s.text := by
    intro s hs
    rw [table, intern_append]
    exact Table.indexOf_internAll _ (Table.contains_internAll {} (.inr ⟨s, hs, rfl⟩))
  rw [List.map_congr_left hindex]
  exact Table.eraseDups_indices (symbols trail)

end Trail

/-! ### The log of a text -/

namespace Scan

open Pseudocode.Tree (Step)

/-- The log of a reading that succeeds replays the tree. The records of cells are those of all cells
of the table, in the order of their indices, and the records of instructions are those of all
instructions of the tree, in post order. When an instruction is logged, what the walk through the
tree has mentioned so far, the inside of the instruction included, are the first cells of the table;
these have been logged and the others are logged behind it. -/
theorem log_replays_tree {source : String} {tree : Tree Symbol}
    (htree : (Reading.ofTokens (ofSource source).tokens).program.1 = .ok tree) :
    let after := (Reading.ofTokens (ofSource source).tokens).program.2
    let walk := (after.resolve tree).walk
    let records := Trail.records after.trail
    let cells := after.table.cells.toList.mapIdx Record.interned
    let instructions (steps : List (Step Nat)) :=
      (steps.filterMap (·.complete?)).map fun i ↦ Record.parsed i.name
    (∀ r ∈ records, r.source = .table ∨ r.source = .reader) ∧
      records.filter (·.source = .table) = cells ∧
      records.filter (·.source = .reader) = instructions walk ∧
      ∀ front i back, walk = front ++ .complete i :: back → i.walk <:+ front ∧
        ∃ (k : Nat) (first last : List Record), records = first ++ .parsed i.name :: last ∧
          (front.filterMap (·.mention?)).eraseDups = List.range k ∧
          first.filter (·.source = .table) = cells.take k ∧
          last.filter (·.source = .table) = cells.drop k ∧
          first.filter (·.source = .reader) = instructions front ∧
          last.filter (·.source = .reader) = instructions back := by
  intro after walk records cells instructions
  obtain ⟨d, -, rfl, htrail, -⟩ := Reading.exists_derivation_of_ok (ordered_ofSource source) htree
  have hfollows : Tree.Follows (fun s ↦ after.table.indexOf s.text) after.trail walk :=
    htrail ▸ d.tree.follows _
  have hcells : records.filter (·.source = .table) = cells :=
    Trail.filter_table_records after.trail
  refine ⟨Trail.source_of_mem_recordsFrom {} after.trail, hcells,
    Trail.filter_reader_recordsFrom hfollows.steps {}, fun front i back hsplit ↦
      ⟨hfollows.inside front i back hsplit, ?_⟩⟩
  -- the trail splits where the walk does
  obtain ⟨before, behind, hbefore, hfront, hback⟩ :=
    Trail.exists_understood (hsplit ▸ hfollows.steps)
  have hrecords : records = Trail.records before ++ .parsed i.name ::
      Trail.recordsFrom (Trail.table before) behind := by
    change Trail.records after.trail = _
    rw [hbefore, Trail.records, Trail.recordsFrom_append]
    rfl
  have hfirst := Trail.filter_table_records before
  rw [hrecords, List.filter_append, hfirst] at hcells
  have hlength := (Trail.table before).length_news
  refine ⟨(Trail.table before).size, _, _, hrecords, ?_, ?_, ?_,
    Trail.filter_reader_recordsFrom hfront {}, Trail.filter_reader_recordsFrom hback _⟩
  · rw [← Trail.map_symbols hfront, Reading.table, hbefore]
    exact Trail.eraseDups_indices before _
  · rw [hfirst, ← hcells, ← hlength, List.take_left]
  · rw [← hcells, ← hlength, List.drop_left]
    rfl

/-- A loop inside a choice. When the choice is logged, three of four cells have been. -/
theorem log_replays_tree_nested :
    let source :=
      "procedure principale() si (x) tantque (x < y) x = x + 1; fintantque finsi z = y; finproc"
    let reading := Reading.ofTokens (ofSource source).tokens
    let records := Trail.records reading.program.2.trail
    reading.program.1.isOk ∧ (records.filter (·.source = .table)).length = 4 ∧
      ∃ first last, records = first ++ .parsed "If" :: last ∧
        first.filter (·.source = .reader) = [.parsed "Assignment", .parsed "While"] ∧
        first.filter (·.source = .table) = [.interned 0 (Symbol.var "x").cell,
          .interned 1 (Symbol.var "y").cell, .interned 2 (Symbol.literal "1" 1).cell] := by
  intro source reading records
  let increment : Tree Nat :=
    .assignment 0 (.binary .add ⟨⟨52, 0, 52⟩, ⟨53, 0, 53⟩, by decide⟩ (.cell 0) (.cell 2))
  let loop : Tree Nat :=
    .whileDo (.binary .less ⟨⟨41, 0, 41⟩, ⟨42, 0, 42⟩, by decide⟩ (.cell 0) (.cell 1))
      (.sequence [increment])
  let choice : Tree Nat := .ifThen (.cell 0) (.sequence [loop])
  let last : Tree Nat := .assignment 3 (.cell 1)
  have hresolved : reading.program.1.map reading.program.2.resolve =
      .ok (.sequence [choice, last]) := by decide +kernel
  cases htree : reading.program.1 with
  | error failure =>
    rw [htree] at hresolved
    cases hresolved
  | ok tree =>
    rw [htree] at hresolved
    obtain ⟨-, hcells, -, hcomplete⟩ := log_replays_tree htree
    rw [Except.ok.inj hresolved] at hcomplete
    have hnews : reading.program.2.table.cells.toList = [(Symbol.var "x").cell,
        (Symbol.var "y").cell, (Symbol.literal "1" 1).cell, (Symbol.var "z").cell] := by
      decide +kernel
    obtain ⟨-, k, first, behind, hrecords, hmentions, hfirst, -, hreader, -⟩ := hcomplete
      [.mention 0, .mention 0, .mention 1, .mention 0, .mention 0, .mention 2, .complete increment,
        .complete loop] choice [.mention 3, .mention 1, .complete last] rfl
    obtain rfl : k = 3 := by
      have hlength := congrArg List.length hmentions
      rw [List.length_range] at hlength
      exact hlength.symm
    refine ⟨rfl, ?_, first, behind, hrecords, hreader, ?_⟩
    · rw [hcells, hnews]
      rfl
    · rw [hfirst, hnews]
      rfl

end Scan

end Pseudocode

import Mathlib.Data.Finset.Card
import Pseudocode.Table

/-!
# What a table remembers

A table is asked to intern symbols and to store values, in any order. Whatever it was asked for, a
text has one cell, an index means the same cell for ever, and a cell holds what was stored in it
last. The cells alone say so. A directory of the names that is kept beside the cells always says
the same as a search through them.

## Main definitions

* `Table.Operation`: what a table is asked for.
* `Table.after`, `Table.answers`: the table behind a list of operations, and the indices that it
  handed out.
* `Table.Lawful`: operations that store at indices that were handed out before.
* `Table.Remembers`: how the cells of a table go back to operations.
* `Table.Directory`: a table with a directory of its names.

## Main results

* `Table.Remembers.intern_of_mem`, `Table.Remembers.intern_of_notMem`, `Table.Remembers.store`: a
  table that remembers what it was asked for also remembers one more operation.
* `Table.remembers_after`: so it does behind any lawful list of operations.
* `Table.eraseDups_answers`: indices are handed out in order.
* `Table.Directory.Agrees.run`: the directory answers as the table alone does.
* `Table.history_remembered`: what this means for names, indices and values.
-/

namespace Pseudocode

/-- The cell behind a store, if there was one. -/
def Cell.written (c : Cell) : Option Int64 → Cell
  | none => c
  | some v => c.store v

namespace Cell

@[simp]
theorem name_written (c : Cell) (stored : Option Int64) : (c.written stored).name = c.name := by
  cases stored <;> rfl

@[simp]
theorem kind_written (c : Cell) (stored : Option Int64) : (c.written stored).kind = c.kind := by
  cases stored <;> rfl

@[simp]
theorem value_written (c : Cell) (stored : Option Int64) :
    (c.written stored).value = stored.getD c.value := by
  cases stored <;> rfl

@[simp]
theorem defined_written (c : Cell) (stored : Option Int64) :
    (c.written stored).defined = (stored.isSome || c.defined) := by
  cases stored <;> rfl

@[simp]
theorem store_written (c : Cell) (stored : Option Int64) (v : Int64) :
    (c.written stored).store v = c.written (some v) := by
  cases stored <;> rfl

end Cell

/-- Only a variable is undefined at first. -/
theorem Symbol.cell_of_undefined {s : Symbol} (h : s.cell.defined = false) :
    s.cell.kind = .var ∧ s.cell.value = 0 := by
  cases s with
  | var name => exact ⟨rfl, rfl⟩
  | literal digits value => cases h

namespace Table

/-! ### The names of a table -/

/-- The names of the cells, in order. -/
def names (t : Table) : List String :=
  t.cells.toList.map Cell.name

theorem length_names (t : Table) : t.names.length = t.size := by
  simp [names, size]

theorem getElem?_names (t : Table) (id : Nat) : t.names[id]? = (t.get? id).map Cell.name := by
  simp [names, get?]

theorem contains_iff_mem_names {t : Table} {name : String} :
    t.contains name = true ↔ name ∈ t.names := by
  simp [contains_eq_true_iff, names]

theorem indexOf_eq_idxOf (t : Table) (name : String) : t.indexOf name = t.names.idxOf name := by
  obtain ⟨⟨cells⟩⟩ := t
  simp only [indexOf, names, List.findIdx_toArray, List.idxOf, List.findIdx_map]
  rfl

theorem indexOf_of_notMem {t : Table} {name : String} (h : name ∉ t.names) :
    t.indexOf name = t.size := by
  rw [indexOf_eq_idxOf, List.idxOf_eq_length h, length_names]

theorem find?_eq_some_iff_mem {t : Table} {name : String} {id : Nat} :
    t.find? name = some id ↔ name ∈ t.names ∧ t.names.idxOf name = id := by
  rw [find?_eq_some_iff, ← indexOf_eq_idxOf, ← contains_iff_mem_names, ← indexOf_lt_size_iff]
  exact and_congr_left fun h ↦ by rw [h]

/-- A cell is found by its name. -/
theorem find?_eq_some_iff_get? {t : Table} (h : t.names.Nodup) {name : String} {id : Nat} :
    t.find? name = some id ↔ id < t.size ∧ ∃ c, t.get? id = some c ∧ c.name = name := by
  have hname : (∃ c, t.get? id = some c ∧ c.name = name) ↔ t.names[id]? = some name := by
    rw [getElem?_names, Option.map_eq_some_iff]
  rw [hname, find?_eq_some_iff_mem, ← length_names]
  constructor
  · rintro ⟨hmem, rfl⟩
    exact ⟨List.idxOf_lt_length_iff.2 hmem, List.getElem?_idxOf hmem⟩
  · rintro ⟨hlt, hid⟩
    obtain ⟨_, rfl⟩ := List.getElem?_eq_some_iff.1 hid
    exact ⟨List.getElem_mem _, h.idxOf_getElem id hlt⟩

@[simp]
theorem names_store (t : Table) (id : Nat) (v : Int64) : (t.store id v).names = t.names := by
  refine List.ext_getElem? fun i ↦ ?_
  rw [getElem?_names, getElem?_names, get?_store, Option.map_map]
  congr 1
  funext c
  simp only [Function.comp]
  split <;> rfl

theorem intern_of_mem {t : Table} {s : Symbol} (h : s.text ∈ t.names) : t.intern s = t :=
  if_pos (contains_iff_mem_names.2 h)

theorem intern_of_notMem {t : Table} {s : Symbol} (h : s.text ∉ t.names) :
    t.intern s = { cells := t.cells.push s.cell } :=
  if_neg (mt contains_iff_mem_names.1 h)

theorem names_intern_of_notMem {t : Table} {s : Symbol} (h : s.text ∉ t.names) :
    (t.intern s).names = t.names ++ [s.text] := by
  simp [intern_of_notMem h, names]

/-! ### Operations -/

/-- What a table is asked for. -/
inductive Operation where
  /-- To give a symbol its cell. -/
  | intern (s : Symbol)
  /-- To give the cell at an index a value. -/
  | store (id : Nat) (v : Int64)
deriving DecidableEq

/-- The value that an operation stores at an index. -/
def Operation.stored? (id : Nat) : Operation → Option Int64
  | intern _ => none
  | store id' v => if id' = id then some v else none

/-- The table behind an operation. -/
def perform (t : Table) : Operation → Table
  | .intern s => t.intern s
  | .store id v => t.store id v

/-- The symbols that a table interns, each with the index that is handed out for it. -/
def answersFrom (t : Table) : List Operation → List (Symbol × Nat)
  | [] => []
  | .intern s :: ops => (s, t.indexOf s.text) :: answersFrom (t.intern s) ops
  | .store id v :: ops => answersFrom (t.store id v) ops

/-- The table behind operations on the empty table. -/
def after (ops : List Operation) : Table :=
  ops.foldl perform {}

/-- The symbols that the empty table interns, each with the index that is handed out for it. -/
def answers (ops : List Operation) : List (Symbol × Nat) :=
  answersFrom {} ops

/-- The last value that operations store at an index. -/
def lastStored (id : Nat) (ops : List Operation) : Option Int64 :=
  (ops.filterMap (Operation.stored? id)).getLast?

/-- Every store goes to an index that was handed out before. -/
def Lawful (ops : List Operation) : Prop :=
  ∀ before id v later, ops = before ++ .store id v :: later → ∃ s, (s, id) ∈ answers before

theorem answersFrom_append (t : Table) (a b : List Operation) :
    answersFrom t (a ++ b) = answersFrom t a ++ answersFrom (a.foldl perform t) b := by
  induction a generalizing t with
  | nil => rfl
  | cons op a ih =>
    cases op with
    | intern s => exact congrArg _ (ih _)
    | store id v => exact ih _

theorem answers_concat_intern (ops : List Operation) (s : Symbol) :
    answers (ops ++ [.intern s]) = answers ops ++ [(s, (after ops).indexOf s.text)] :=
  answersFrom_append ..

theorem answers_concat_store (ops : List Operation) (id : Nat) (v : Int64) :
    answers (ops ++ [.store id v]) = answers ops := by
  rw [answers, answersFrom_append]
  exact List.append_nil _

theorem after_concat (ops : List Operation) (op : Operation) :
    after (ops ++ [op]) = (after ops).perform op :=
  List.foldl_concat ..

theorem lastStored_concat (id : Nat) (ops : List Operation) (op : Operation) :
    lastStored id (ops ++ [op]) = (op.stored? id).or (lastStored id ops) := by
  cases h : op.stored? id with
  | none => simp [lastStored, h]
  | some v => simp [lastStored, h]

theorem Lawful.of_append {a b : List Operation} (h : Lawful (a ++ b)) : Lawful a := by
  intro before id v later ha
  refine h before id v (later ++ b) ?_
  rw [ha, List.append_assoc]
  rfl

theorem lawful_nil : Lawful [] :=
  fun _ _ _ _ h ↦ nomatch (List.append_eq_nil_iff.1 h.symm).2

theorem Lawful.concat {ops : List Operation} (h : Lawful ops) {op : Operation}
    (hop : ∀ id v, op = .store id v → ∃ s, (s, id) ∈ answers ops) : Lawful (ops ++ [op]) := by
  intro before id v later heq
  rcases List.eq_nil_or_concat' later with rfl | ⟨later, last, rfl⟩
  · obtain ⟨rfl, hlast⟩ := List.append_inj' heq rfl
    exact hop id v (List.singleton_inj.1 hlast)
  · rw [← List.cons_append, ← List.append_assoc] at heq
    exact h before id v later (List.append_inj' heq rfl).1

theorem Lawful.intern {ops : List Operation} (h : Lawful ops) (s : Symbol) :
    Lawful (ops ++ [.intern s]) :=
  h.concat fun _ _ hop ↦ nomatch hop

theorem Lawful.store {ops : List Operation} (h : Lawful ops) {id : Nat}
    (hid : ∃ s, (s, id) ∈ answers ops) (v : Int64) : Lawful (ops ++ [.store id v]) := by
  refine h.concat fun id' v' hop ↦ ?_
  cases hop
  exact hid

/-! ### What a table remembers -/

/-- The table remembers what it was asked for. -/
structure Remembers (t : Table) (ops : List Operation) : Prop where
  /-- No two cells share a name. -/
  nodup : t.names.Nodup
  /-- What was handed out for a symbol is where its text is found. -/
  found : ∀ x id, (x, id) ∈ answers ops → t.find? x.text = some id
  /-- A cell was made for the first symbol that got its index, and it holds the last value that was
  stored there. -/
  cell : ∀ id c, t.get? id = some c → ∃ x, (answers ops).find? (·.2 == id) = some (x, id) ∧
    c = x.cell.written (lastStored id ops)

theorem remembers_nil : (after []).Remembers [] where
  nodup := List.nodup_nil
  found _ _ h := nomatch h
  cell id c h := by simp [after, get?] at h

/-- Whatever was handed out is the index of a cell. -/
theorem Remembers.lt_size {t : Table} {ops : List Operation} (h : t.Remembers ops) {x : Symbol}
    {id : Nat} (hx : (x, id) ∈ answers ops) : id < t.size :=
  (find?_eq_some_iff.1 (h.found x id hx)).1

/-- Nothing was stored where there is no cell. -/
theorem Remembers.lastStored_eq_none {t : Table} {ops : List Operation} (h : t.Remembers ops)
    (hlawful : Lawful ops) {id : Nat} (hid : t.size ≤ id) : lastStored id ops = none := by
  refine List.getLast?_eq_none_iff.2 (List.filterMap_eq_nil_iff.2 fun op hop ↦ ?_)
  cases op with
  | intern s => rfl
  | store id' v =>
    obtain ⟨before, later, rfl⟩ := List.append_of_mem hop
    obtain ⟨s, hs⟩ := hlawful before id' v later rfl
    have hanswer : (s, id') ∈ answers (before ++ .store id' v :: later) := by
      rw [answers, answersFrom_append]
      exact List.mem_append_left _ hs
    have hlt := h.lt_size hanswer
    exact if_neg (by omega)

/-- A symbol whose text has a cell is given that cell. -/
theorem Remembers.intern_of_mem {ops : List Operation} (h : (after ops).Remembers ops) {s : Symbol}
    (hs : s.text ∈ (after ops).names) :
    (after (ops ++ [.intern s])).Remembers (ops ++ [.intern s]) := by
  have hafter : after (ops ++ [.intern s]) = after ops :=
    (after_concat ..).trans (Table.intern_of_mem hs)
  rw [hafter]
  refine ⟨h.nodup, fun x id hx ↦ ?_, fun id c hc ↦ ?_⟩
  · rw [answers_concat_intern] at hx
    rcases List.mem_append.1 hx with hx | hx
    · exact h.found x id hx
    · obtain ⟨rfl, rfl⟩ := Prod.mk.inj (List.mem_singleton.1 hx)
      exact find?_eq_some_iff_mem.2 ⟨hs, (indexOf_eq_idxOf ..).symm⟩
  · obtain ⟨x, hx, rfl⟩ := h.cell id c hc
    refine ⟨x, ?_, by rw [lastStored_concat]; rfl⟩
    rw [answers_concat_intern, List.find?_append, hx]
    rfl

/-- A symbol whose text is new is given a cell of its own. -/
theorem Remembers.intern_of_notMem {ops : List Operation} (h : (after ops).Remembers ops)
    (hlawful : Lawful ops) {s : Symbol} (hs : s.text ∉ (after ops).names) :
    (after (ops ++ [.intern s])).Remembers (ops ++ [.intern s]) := by
  have hnames := names_intern_of_notMem hs
  have hindex := indexOf_of_notMem hs
  rw [after_concat]
  change ((after ops).intern s).Remembers _
  refine ⟨?_, fun x id hx ↦ ?_, fun id c hc ↦ ?_⟩
  · rw [hnames]
    exact List.nodup_append.2 ⟨h.nodup, List.nodup_singleton _, fun a ha b hb hab ↦
      hs (List.mem_singleton.1 hb ▸ hab ▸ ha)⟩
  · rw [answers_concat_intern] at hx
    rw [find?_eq_some_iff_mem, hnames]
    rcases List.mem_append.1 hx with hx | hx
    · obtain ⟨hmem, hid⟩ := find?_eq_some_iff_mem.1 (h.found x id hx)
      exact ⟨List.mem_append_left _ hmem, (List.idxOf_append_of_mem hmem).trans hid⟩
    · obtain ⟨rfl, rfl⟩ := Prod.mk.inj (List.mem_singleton.1 hx)
      refine ⟨List.mem_append_right _ List.mem_cons_self, ?_⟩
      rw [List.idxOf_append_of_notMem hs, List.idxOf_cons_self, hindex, length_names]
      rfl
  · rw [lastStored_concat]
    rw [Table.intern_of_notMem hs, get?, Array.getElem?_push] at hc
    split at hc
    · next hsize =>
      -- the cell is the new one, and its index was not handed out before
      obtain rfl := Option.some.inj hc
      have hnone : (answers ops).find? (·.2 == id) = none := by
        refine List.find?_eq_none.2 fun p hp hid ↦ ?_
        have hlt := h.lt_size hp
        have heq : p.2 = id := beq_iff_eq.1 hid
        simp only [size] at hlt
        omega
      refine ⟨s, ?_, ?_⟩
      · rw [answers_concat_intern, List.find?_append, hnone, hindex]
        simp [size, hsize]
      · rw [h.lastStored_eq_none hlawful (Nat.le_of_eq hsize.symm)]
        rfl
    · obtain ⟨x, hx, rfl⟩ := h.cell id c hc
      refine ⟨x, ?_, rfl⟩
      rw [answers_concat_intern, List.find?_append, hx]
      rfl

/-- A store changes nothing but the last value at its index. -/
theorem Remembers.store {ops : List Operation} (h : (after ops).Remembers ops) (id : Nat)
    (v : Int64) : (after (ops ++ [.store id v])).Remembers (ops ++ [.store id v]) := by
  rw [after_concat]
  change ((after ops).store id v).Remembers _
  refine ⟨?_, fun x id' hx ↦ ?_, fun id' c hc ↦ ?_⟩
  · rw [names_store]
    exact h.nodup
  · rw [answers_concat_store] at hx
    rw [find?_eq_some_iff_mem, names_store, ← find?_eq_some_iff_mem]
    exact h.found x id' hx
  · rw [get?_store] at hc
    obtain ⟨c₀, hc₀, rfl⟩ := Option.map_eq_some_iff.1 hc
    obtain ⟨x, hx, rfl⟩ := h.cell id' c₀ hc₀
    refine ⟨x, by rw [answers_concat_store, hx], ?_⟩
    rw [lastStored_concat, Operation.stored?]
    split
    · exact Cell.store_written ..
    · rfl

/-- Behind any lawful list of operations, the table remembers them. -/
theorem remembers_after {ops : List Operation} (h : Lawful ops) : (after ops).Remembers ops := by
  induction ops using List.reverseRecOn with
  | nil => exact remembers_nil
  | append_singleton ops op ih =>
    have hops := ih h.of_append
    cases op with
    | store id v => exact hops.store id v
    | intern s =>
      by_cases hs : s.text ∈ (after ops).names
      · exact hops.intern_of_mem hs
      · exact hops.intern_of_notMem h.of_append hs

/-- An index that was handed out is the one of a cell with the text of its symbol. -/
theorem Remembers.exists_cell {t : Table} {ops : List Operation} (h : t.Remembers ops) {x : Symbol}
    {id : Nat} (hx : (x, id) ∈ answers ops) : ∃ c, t.get? id = some c ∧ c.name = x.text :=
  ((find?_eq_some_iff_get? h.nodup).1 (h.found x id hx)).2

/-- Two symbols are given the same index if and only if they have the same text. -/
theorem Remembers.index_eq_iff {t : Table} {ops : List Operation} (h : t.Remembers ops)
    {x y : Symbol} {id id' : Nat} (hx : (x, id) ∈ answers ops) (hy : (y, id') ∈ answers ops) :
    id = id' ↔ x.text = y.text := by
  constructor
  · rintro rfl
    obtain ⟨c, hc, hname⟩ := h.exists_cell hx
    obtain ⟨c', hc', hname'⟩ := h.exists_cell hy
    obtain rfl : c = c' := Option.some.inj (hc.symm.trans hc')
    exact hname.symm.trans hname'
  · intro htext
    have hid := h.found x id hx
    rw [htext, h.found y id' hy] at hid
    exact (Option.some.inj hid).symm

/-- There are as many cells as texts that were interned. -/
theorem Remembers.size_eq_card {t : Table} {ops : List Operation} (h : t.Remembers ops) :
    t.size = ((answers ops).map (·.1.text)).toFinset.card := by
  have hmem (name : String) : name ∈ t.names ↔ name ∈ (answers ops).map (·.1.text) := by
    constructor
    · intro hname
      obtain ⟨id, hid, rfl⟩ := List.getElem_of_mem hname
      have hsome := getElem?_names t id
      rw [List.getElem?_eq_getElem hid] at hsome
      obtain ⟨c, hc, hcname⟩ := Option.map_eq_some_iff.1 hsome.symm
      obtain ⟨x, hx, rfl⟩ := h.cell id c hc
      refine List.mem_map.2 ⟨_, List.mem_of_find?_eq_some hx, ?_⟩
      rw [← hcname, Cell.name_written, Symbol.cell_name]
    · intro hname
      obtain ⟨p, hp, rfl⟩ := List.mem_map.1 hname
      exact (find?_eq_some_iff_mem.1 (h.found p.1 p.2 hp)).1
  have hset : t.names.toFinset = ((answers ops).map (·.1.text)).toFinset := by
    ext name
    rw [List.mem_toFinset, List.mem_toFinset, hmem]
  rw [← hset, List.toFinset_card_of_nodup h.nodup, length_names]

/-- The cell at an index that was handed out stays there, with its name and its kind. -/
theorem Remembers.exists_cell_of_append {before later : List Operation}
    (h : (after before).Remembers before)
    (h' : (after (before ++ later)).Remembers (before ++ later))
    {x : Symbol} {id : Nat} (hx : (x, id) ∈ answers before) :
    ∃ c c', (after before).get? id = some c ∧ (after (before ++ later)).get? id = some c' ∧
      c.name = x.text ∧ c'.name = c.name ∧ c'.kind = c.kind := by
  have happend : answers (before ++ later) = answers before ++ answersFrom (after before) later :=
    answersFrom_append ..
  obtain ⟨c, hc, hname⟩ := h.exists_cell hx
  obtain ⟨c', hc', hname'⟩ := h'.exists_cell (happend ▸ List.mem_append_left _ hx)
  obtain ⟨y, hy, rfl⟩ := h.cell id c hc
  obtain ⟨y', hy', rfl⟩ := h'.cell id c' hc'
  -- both cells were made for the first symbol that got the index
  rw [happend, List.find?_append, hy, Option.some_or] at hy'
  obtain rfl : y = y' := congrArg Prod.fst (Option.some.inj hy')
  refine ⟨_, _, hc, hc', hname, hname'.trans hname.symm, ?_⟩
  rw [Cell.kind_written, Cell.kind_written]

/-! ### Indices in order -/

theorem eraseDups_concat_of_mem {l : List Nat} {n : Nat} (h : n ∈ l) :
    (l ++ [n]).eraseDups = l.eraseDups := by
  have hnil : [n].removeAll l = [] := by simp [List.removeAll, h]
  rw [List.eraseDups_append, hnil, List.eraseDups_nil, List.append_nil]

theorem eraseDups_concat_of_notMem {l : List Nat} {n : Nat} (h : n ∉ l) :
    (l ++ [n]).eraseDups = l.eraseDups ++ [n] := by
  have hone : [n].removeAll l = [n] := by simp [List.removeAll, h]
  rw [List.eraseDups_append, hone]
  rfl

/-- New indices are handed out in order, without a gap. -/
theorem eraseDups_answers {ops : List Operation} (h : Lawful ops) :
    ((answers ops).map (·.2)).eraseDups = List.range (after ops).size := by
  induction ops using List.reverseRecOn with
  | nil => rfl
  | append_singleton ops op ih =>
    have hops := remembers_after h.of_append
    rw [after_concat]
    cases op with
    | store id v =>
      rw [answers_concat_store, ih h.of_append]
      exact congrArg List.range (size_store ..).symm
    | intern s =>
      rw [answers_concat_intern, List.map_append, List.map_singleton]
      by_cases hs : s.text ∈ (after ops).names
      · have hold : (after ops).indexOf s.text ∈ (answers ops).map (·.2) := by
          obtain ⟨c, hc, -⟩ := ((find?_eq_some_iff_get? hops.nodup).1
            (find?_eq_some_iff_mem.2 ⟨hs, rfl⟩)).2
          rw [← indexOf_eq_idxOf] at hc
          obtain ⟨x, hx, -⟩ := hops.cell _ c hc
          exact List.mem_map.2 ⟨_, List.mem_of_find?_eq_some hx, rfl⟩
        rw [eraseDups_concat_of_mem hold, ih h.of_append]
        exact congrArg (List.range ·.size) (intern_of_mem hs).symm
      · have hfresh : (after ops).size ∉ (answers ops).map (·.2) := by
          intro hmem
          obtain ⟨p, hp, hid⟩ := List.mem_map.1 hmem
          exact absurd (hops.lt_size hp) (by omega)
        have hsize : ((after ops).perform (.intern s)).size = (after ops).size + 1 := by
          rw [← length_names, ← length_names, perform, names_intern_of_notMem hs]
          exact List.length_append
        rw [indexOf_of_notMem hs, eraseDups_concat_of_notMem hfresh, ih h.of_append, hsize,
          List.range_succ]

/-! ### A directory of the names -/

/-- A table with a directory that tells where each name is found. -/
structure Directory where
  /-- The cells. -/
  table : Table := {}
  /-- The index of the cell with a name. -/
  numbers : Std.HashMap String Nat := {}

namespace Directory

/-- Looks the text of a symbol up. If it is new, its cell is made at the end of the table, and the
index of the cell is entered under the text. -/
def intern (d : Directory) (s : Symbol) : Nat × Directory :=
  match d.numbers[s.text]? with
  | some id => (id, d)
  | none => (d.table.size, {
      table := { cells := d.table.cells.push s.cell }
      numbers := d.numbers.insert s.text d.table.size })

/-- The symbols that are interned, each with the index that is handed out for it, and the directory
behind the operations. -/
def run (d : Directory) : List Operation → List (Symbol × Nat) × Directory
  | [] => ([], d)
  | .intern s :: ops =>
    let (id, next) := d.intern s
    let (answers, last) := next.run ops
    ((s, id) :: answers, last)
  | .store id v :: ops => { d with table := d.table.store id v }.run ops

/-- The directory tells what a search through the cells tells. -/
def Agrees (d : Directory) : Prop :=
  ∀ name, d.numbers[name]? = d.table.find? name

theorem agrees_empty : Agrees {} := by
  intro name
  simp [find?]

theorem Agrees.store {d : Directory} (h : d.Agrees) (id : Nat) (v : Int64) :
    Agrees { d with table := d.table.store id v } := by
  intro name
  refine (h name).trans (Option.ext fun id' ↦ ?_)
  rw [find?_eq_some_iff_mem, find?_eq_some_iff_mem, names_store]

/-- Looking a text up does what a search does, and the directory stays in agreement. -/
theorem Agrees.intern {d : Directory} (h : d.Agrees) (s : Symbol) :
    (d.intern s).1 = d.table.indexOf s.text ∧ (d.intern s).2.table = d.table.intern s ∧
      (d.intern s).2.Agrees := by
  unfold Directory.intern
  cases hs : d.numbers[s.text]? with
  | some id =>
    rw [h, find?_eq_some_iff_mem] at hs
    refine ⟨?_, (intern_of_mem hs.1).symm, h⟩
    rw [indexOf_eq_idxOf, hs.2]
  | none =>
    have hnew : s.text ∉ d.table.names := by
      intro hmem
      rw [h, find?_eq_some_iff_mem.2 ⟨hmem, rfl⟩] at hs
      cases hs
    refine ⟨(indexOf_of_notMem hnew).symm, (intern_of_notMem hnew).symm, fun name ↦ ?_⟩
    have hnames := names_intern_of_notMem hnew
    rw [intern_of_notMem hnew] at hnames
    refine Option.ext fun id ↦ ?_
    rw [Std.HashMap.getElem?_insert, find?_eq_some_iff_mem, hnames]
    by_cases hname : s.text = name
    · subst hname
      rw [if_pos (beq_self_eq_true _), List.idxOf_append_of_notMem hnew, List.idxOf_cons_self,
        length_names]
      simp
    · rw [if_neg (by simpa using hname), h, find?_eq_some_iff_mem]
      by_cases hmem : name ∈ d.table.names
      · simp [hmem, List.idxOf_append_of_mem hmem]
      · simp [hmem, Ne.symm hname]

/-- Whatever a directory is asked for, it answers as the table alone does. -/
theorem Agrees.run {d : Directory} (h : d.Agrees) (ops : List Operation) :
    (d.run ops).1 = d.table.answersFrom ops ∧ (d.run ops).2.table = ops.foldl perform d.table ∧
      (d.run ops).2.Agrees := by
  induction ops generalizing d with
  | nil => exact ⟨rfl, rfl, h⟩
  | cons op ops ih =>
    cases op with
    | store id v => exact ih (h.store id v)
    | intern s =>
      obtain ⟨hid, htable, hnext⟩ := h.intern s
      obtain ⟨hanswers, hlast, hagrees⟩ := ih hnext
      rw [htable] at hanswers hlast
      refine ⟨?_, hlast, hagrees⟩
      change (s, (d.intern s).1) :: ((d.intern s).2.run ops).1 = _
      rw [hid, hanswers]
      rfl

end Directory

/-! ### Every history -/

/-- Whatever a table was asked for, with stores at indices that it handed out: no two cells share a
name, and a name is found exactly where its cell is. Two symbols are given the same index if and
only if they have the same text. An index that was handed out keeps its name and its kind, and its
value is the last one that was stored there, or else the one of the symbol that the cell was made
for. A cell that nothing defined is a variable with the value zero. There are as many cells as
texts. A directory that is kept beside the cells hands out the same indices and finds the same
names. -/
theorem history_remembered {ops : List Operation} (hops : Lawful ops) :
    let t := after ops
    t.names.Nodup ∧
    (∀ name id, t.find? name = some id ↔ id < t.size ∧ ∃ c, t.get? id = some c ∧ c.name = name) ∧
    (∀ p ∈ answers ops, ∀ q ∈ answers ops, p.2 = q.2 ↔ p.1.text = q.1.text) ∧
    (∀ before later, ops = before ++ later → ∀ p ∈ answers before, ∃ c c',
      (after before).get? p.2 = some c ∧ t.get? p.2 = some c' ∧
        c.name = p.1.text ∧ c'.name = c.name ∧ c'.kind = c.kind) ∧
    (∀ id c, t.get? id = some c → ∃ x, (answers ops).find? (·.2 == id) = some (x, id) ∧
      c.value = (lastStored id ops).getD x.cell.value) ∧
    (∀ c ∈ t.cells, c.defined = false → c.kind = .var ∧ c.value = 0) ∧
    t.size = ((answers ops).map (·.1.text)).toFinset.card ∧
    (Directory.run {} ops).1 = answers ops ∧ (Directory.run {} ops).2.table = t ∧
      ∀ name, (Directory.run {} ops).2.numbers[name]? = t.find? name := by
  intro t
  have h : t.Remembers ops := remembers_after hops
  obtain ⟨hanswers, htable, hagrees⟩ := Directory.agrees_empty.run ops
  refine ⟨h.nodup, fun name id ↦ find?_eq_some_iff_get? h.nodup, ?_, ?_, ?_, ?_, h.size_eq_card,
    hanswers, htable, fun name ↦ (hagrees name).trans (congrArg (find? · name) htable)⟩
  · exact fun p hp q hq ↦ h.index_eq_iff hp hq
  · rintro before later rfl p hp
    exact (remembers_after hops.of_append).exists_cell_of_append h hp
  · intro id c hc
    obtain ⟨x, hx, rfl⟩ := h.cell id c hc
    exact ⟨x, hx, Cell.value_written ..⟩
  · intro c hc hdefined
    obtain ⟨id, hid⟩ := Array.mem_iff_getElem?.1 hc
    obtain ⟨x, -, rfl⟩ := h.cell id c hid
    rw [Cell.defined_written, Bool.or_eq_false_iff, Option.isSome_eq_false_iff,
      Option.isNone_iff_eq_none] at hdefined
    rw [hdefined.1]
    exact Symbol.cell_of_undefined hdefined.2

/-- A text that was interned as a literal is still one when it is asked for as a variable, with the
value that was stored in the meantime. -/
theorem history_remembered_other_kind :
    let ops : List Operation := [.intern (.literal "7" 7), .store 0 9, .intern (.var "7")]
    Lawful ops ∧ answers ops = [(.literal "7" 7, 0), (.var "7", 0)] ∧
      ∃ c c', (after ops).get? 0 = some c ∧ c.value = 9 ∧ (after (ops.take 1)).get? 0 = some c' ∧
        c.kind = c'.kind ∧ c'.kind = .integer := by
  intro ops
  have hfirst : (.literal "7" 7, 0) ∈ answers (ops.take 1) := by decide +kernel
  have hops : Lawful ops :=
    ((lawful_nil.intern (.literal "7" 7)).store ⟨_, hfirst⟩ 9).intern (.var "7")
  have hanswers : answers ops = [(.literal "7" 7, 0), (.var "7", 0)] := by decide +kernel
  obtain ⟨-, -, -, hkept, hvalue, -⟩ := history_remembered hops
  obtain ⟨c', c, hc', hc, -, -, hkind⟩ := hkept (ops.take 1) (ops.drop 1) rfl _ hfirst
  obtain ⟨x, -, hnine⟩ := hvalue 0 c hc
  have hmade : (after (ops.take 1)).get? 0 = some (Symbol.literal "7" 7).cell := by decide +kernel
  obtain rfl : (Symbol.literal "7" 7).cell = c' := Option.some.inj (hmade.symm.trans hc')
  exact ⟨hops, hanswers, c, _, hc, hnine, hc', hkind, rfl⟩

end Table

end Pseudocode

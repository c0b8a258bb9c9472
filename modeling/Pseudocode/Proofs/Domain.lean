import Pseudocode.Proofs.Diagnostics
import Pseudocode.Proofs.Frame
import Pseudocode.Proofs.Tokenization

/-!
# Partial operations stay in their domain

Four operations are partial: a text has a slice only between two offsets that stand between code
points, two locations bound a span only if they are in order, a table has a cell only below its
size, and a quotient needs a divisor other than zero. Reading and running a program never asks for
what is not there. For spans and cells a failure or a fault would tell. The quotient has no such
answer, so the evaluation is repeated with primitives that may do anything outside their domain, and
it does not notice.

## Main definitions

* `Token.Kind.cut?`: the piece of text that is cut out for a token.
* `Primitives`: the partial operations of a machine, with `Primitives.Sound` for those that do the
  right thing inside their domain.
* `Tree.evalWith`: the evaluation of a tree with given primitives.
* `Run.Within`: computations that do the same on tables of a given size.

## Main results

* `Tree.evalWith_within`: outside their domain, the primitives are not used.
* `Scan.partial_operations_in_domain`: reading and running a text stays in the domain.
-/

namespace Pseudocode

/-! ### Slices -/

/-- How many bytes behind the start of a token the piece of text starts that is cut out for it, and
the piece. Marks and characters that are no token are told without cutting. -/
def Token.Kind.cut? : Token.Kind → Option (Nat × String)
  | .keyword k => some (0, k.text)
  | .var name => some (0, name)
  | .integer digits _ => some (0, digits)
  | .string contents => some (1, contents)
  | .punctuator _ | .illegal _ | .endOfInput => none

/-- What is cut out for a token is a part of its slice. -/
theorem Lexeme.Spells.exists_cut {text : List Char} {kind : Token.Kind} {skip : Nat}
    {piece : String} (h : Spells text kind) (hcut : kind.cut? = some (skip, piece)) :
    ∃ before rest : String, before.utf8ByteSize = skip ∧
      String.ofList text = before ++ piece ++ rest := by
  cases h with
  | keyword | var | integer =>
    cases hcut
    exact ⟨"", "", rfl, by simp⟩
  | closed =>
    cases hcut
    exact ⟨"\"", "\"", rfl, String.toList_inj.1 (by simp)⟩
  | unclosed =>
    cases hcut
    exact ⟨"\"", "", rfl, String.toList_inj.1 (by simp)⟩
  | punctuator | illegal => cases hcut

/-- The piece that is cut out for a token lies inside the token. -/
theorem Token.CutFrom.slice?_cut {source text rest piece : String} {t : Token} {skip : Nat}
    (h : t.CutFrom source text rest) (hcut : t.kind.cut? = some (skip, piece)) :
    Text.slice? source (t.start.offset + skip) (t.start.offset + skip + piece.utf8ByteSize) =
        some piece ∧
      t.start.offset + skip + piece.utf8ByteSize ≤ t.stop.offset := by
  obtain ⟨before, behind, rfl, htext⟩ := ((h.spells _).2 rfl).exists_cut hcut
  rw [String.ofList_toList] at htext
  have hslice := h.slice
  rw [htext] at hslice
  exact Text.slice?_part hslice

/-! ### Primitives -/

/-- The partial operations of a machine. -/
structure Primitives where
  /-- The cell at an index. -/
  cell : Nat → Run Cell
  /-- Gives the cell at an index a value. -/
  store : Nat → Int64 → Run Unit
  /-- The quotient of two integers. -/
  quotient : Int64 → Int64 → Run Int64

/-- Inside their domain the primitives do what they should; outside they may do anything. -/
structure Primitives.Sound (p : Primitives) : Prop where
  /-- Reading a cell of the table. -/
  cell : ∀ {id : Nat} {m : Machine}, id < m.table.size → p.cell id m = Run.cell id m
  /-- Writing a cell of the table. -/
  store : ∀ {id : Nat} {m : Machine} (v : Int64), id < m.table.size →
    p.store id v m = Run.store id v m
  /-- Dividing by anything but zero. -/
  quotient : ∀ (a : Int64) {b : Int64}, b ≠ 0 → p.quotient a b = pure (a / b)

/-- The primitives that do not end outside their domain. -/
def Primitives.strict : Primitives where
  cell id m := if id < m.table.size then Run.cell id m else none
  store id v m := if id < m.table.size then Run.store id v m else none
  quotient a b := if b = 0 then Run.unfinished else pure (a / b)

theorem Primitives.strict_sound : strict.Sound where
  cell h := if_pos h
  store _ h := if_pos h
  quotient _ _ h := if_neg h

/-- `Run.value` with given primitives. -/
def Primitives.value (p : Primitives) (id : Nat) : Run Int64 := do
  pure (← p.cell id).value

namespace Tree

open Run

variable (p : Primitives)

/-- `Tree.operate` with given primitives. -/
def operateWith (op : Operator) (span : Span) (a b : Int64) : Run Int64 :=
  match op with
  | .divide => if b = 0 then throw (.divisionByZero span) else p.quotient a b
  | op => operate op span a b

/-- `Tree.showCells` with given primitives. -/
def showCellsWith : List Nat → Run Unit
  | [] => pure ()
  | id :: ids => do
    print (Decimal.ofInt64 (← p.value id))
    showCellsWith ids

mutual

/-- `Tree.eval` with given primitives. -/
def evalWith (bound : Nat) : Tree Nat → Run Int64
  | sequence items => do
    evalListWith bound items
    pure 0
  | cell id => p.value id
  | assignment target expression => do
    note (.assignment (← p.cell target).name)
    p.store target (← expression.evalWith bound)
    pure 0
  | binary op span lhs rhs => do
    let a ← lhs.evalWith bound
    let b ← rightOperand op (rhs.evalWith bound)
    operateWith p op span a b
  | unary op span operand => do
    operateWith p op span (← operand.evalWith bound) 0
  | ifThen condition body => do
    note .ifThen
    if truthy (← condition.evalWith bound) then
      discard (body.evalWith bound)
    pure 0
  | choice arms => do
    note (.choice arms.length)
    evalArmsWith bound arms
    pure 0
  | whileDo condition body => do
    note .whileDo
    let count ← rounds
      (roundWhile (condition.evalWith bound) (discard (body.evalWith bound))) bound 0
    note (.finished .tantque count)
    pure 0
  | repeatUntil body condition => do
    note .repeatUntil
    let again ← rounds (do
      discard (body.evalWith bound)
      pure !truthy (← condition.evalWith bound)) bound 0
    note (.finished .repeter (again + 1))
    pure 0
  | forLoop init condition step body => do
    note .forLoop
    evalClauseWith bound init
    let count ← rounds (roundWhile (condition.evalWith bound) (do
      discard (body.evalWith bound)
      evalClauseWith bound step)) bound 0
    note (.finished .pour count)
    pure 0
  | read cells => do
    note (.read cells.length)
    showCellsWith p cells
    pure 0
  | write items => do
    note (.write items.length)
    evalItemsWith bound items
    pure 0

/-- `Tree.evalList` with given primitives. -/
def evalListWith (bound : Nat) : List (Tree Nat) → Run Unit
  | [] => pure ()
  | t :: ts => do
    discard (t.evalWith bound)
    evalListWith bound ts

/-- `Tree.evalArms` with given primitives. -/
def evalArmsWith (bound : Nat) : List (Arm Nat) → Run Unit
  | [] => pure ()
  | .guarded condition body :: arms => do
    if truthy (← condition.evalWith bound) then
      discard (body.evalWith bound)
    else
      evalArmsWith bound arms
  | .otherwise body :: _ => discard (body.evalWith bound)

/-- `Tree.evalClause` with given primitives. -/
def evalClauseWith (bound : Nat) : Clause Nat → Run Unit
  | .absent => pure ()
  | .assign target expression => do
    p.store target (← expression.evalWith bound)

/-- `Tree.evalItems` with given primitives. -/
def evalItemsWith (bound : Nat) : List (Item Nat) → Run Unit
  | [] => pure ()
  | .value expression :: items => do
    print (Decimal.ofInt64 (← expression.evalWith bound))
    evalItemsWith bound items
  | .text contents :: items => do
    print contents
    evalItemsWith bound items

end

end Tree

/-! ### Computations on tables of a given size -/

theorem Table.exists_get? (t : Table) {id : Nat} (h : id < t.size) : ∃ c, t.get? id = some c :=
  ⟨_, Array.getElem?_eq_getElem h⟩

namespace Run

variable {α β : Type} {n : Nat} {p : Primitives}

/-- On a table of `n` cells the two computations do the same. They leave a table of `n` cells, and
they do not miss a cell. -/
def Within (n : Nat) (x y : Run α) : Prop :=
  ∀ m, m.table.size = n → x m = y m ∧ ∀ result m', y m = some (result, m') →
    m'.table.size = n ∧ ∀ id, result ≠ .error (.noCell id)

/-- A step that leaves the cells alone. -/
theorem within_of_ok {x : Run α} (h : ∀ m, ∃ a m', x m = some (.ok a, m') ∧ m'.table = m.table) :
    Within n x x := by
  refine fun m hm ↦ ⟨rfl, fun result m' hx ↦ ?_⟩
  obtain ⟨a, m₁, ha, htable⟩ := h m
  cases ha.symm.trans hx
  exact ⟨htable ▸ hm, fun _ hresult ↦ nomatch hresult⟩

theorem within_pure (a : α) : Within n (pure a) (pure a) :=
  within_of_ok fun m ↦ ⟨a, m, rfl, rfl⟩

theorem within_throw {fault : Fault} (h : ∀ id, fault ≠ .noCell id) :
    Within n (throw fault : Run α) (throw fault) := by
  refine fun m hm ↦ ⟨rfl, fun result m' hx ↦ ?_⟩
  cases hx
  exact ⟨hm, fun id hid ↦ h id (Except.error.inj hid)⟩

theorem within_print (line : String) : Within n (print line) (print line) :=
  within_of_ok fun _ ↦ ⟨(), _, rfl, rfl⟩

theorem within_note (k : Note) : Within n (note k) (note k) :=
  within_of_ok fun _ ↦ ⟨(), _, rfl, rfl⟩

theorem Within.bind {x y : Run α} {f g : α → Run β} (hxy : Within n x y)
    (hfg : ∀ a, Within n (f a) (g a)) : Within n (x >>= f) (y >>= g) := by
  intro m hm
  obtain ⟨heq, hends⟩ := hxy m hm
  refine ⟨?_, fun result m' h ↦ ?_⟩
  · rw [bind_apply, bind_apply, heq]
    rcases hy : y m with _ | ⟨fault | a, m₁⟩
    · rfl
    · rfl
    · exact (hfg a m₁ (hends _ _ hy).1).1
  · rcases bind_eq_some h with ⟨fault, hfault, rfl⟩ | ⟨a, m₁, ha, hrest⟩
    · obtain ⟨hsize, hcell⟩ := hends _ _ hfault
      exact ⟨hsize, fun id hid ↦ hcell id (congrArg Except.error (Except.error.inj hid))⟩
    · exact (hfg a m₁ (hends _ _ ha).1).2 result m' hrest

theorem Within.discard {x y : Run α} (h : Within n x y) :
    Within n (discard x) (discard y) := by
  rw [discard_eq, discard_eq]
  exact h.bind fun _ ↦ within_pure _

/-- A cell of the table is read. -/
theorem within_cell (hp : p.Sound) {id : Nat} (hid : id < n) :
    Within n (p.cell id) (cell id) := by
  refine fun m hm ↦ ⟨hp.cell (hm ▸ hid), fun result m' h ↦ ?_⟩
  obtain ⟨c, hc⟩ := m.table.exists_get? (hm ▸ hid)
  rw [cell_apply, hc] at h
  cases h
  exact ⟨hm, fun _ hresult ↦ nomatch hresult⟩

theorem within_value (hp : p.Sound) {id : Nat} (hid : id < n) :
    Within n (p.value id) (value id) :=
  (within_cell hp hid).bind fun _ ↦ within_pure _

/-- A cell of the table is written. -/
theorem within_store (hp : p.Sound) {id : Nat} (hid : id < n) (v : Int64) :
    Within n (p.store id v) (store id v) := by
  refine fun m hm ↦ ⟨hp.store v (hm ▸ hid), fun result m' h ↦ ?_⟩
  obtain ⟨c, hc⟩ := m.table.exists_get? (hm ▸ hid)
  rw [store_apply hc] at h
  cases h
  refine ⟨(m.table.size_store id v).trans hm, ?_⟩
  rintro _ ⟨⟩

theorem Within.rounds {x y : Run Bool} (h : Within n x y) (bound count : Nat) :
    Within n (rounds x bound count) (rounds y bound count) := by
  induction bound generalizing count with
  | zero => exact fun m _ ↦ ⟨rfl, fun result m' h ↦ nomatch h⟩
  | succ bound ih =>
    refine h.bind fun again ↦ ?_
    split
    · exact ih _
    · exact within_pure _

end Run

/-! ### Evaluation -/

/-- All symbols along the trail have their cells in the table. -/
def Trail.Interned (t : Table) (trail : List Event) : Prop :=
  ∀ s, .met s ∈ trail → t.contains s.text = true

namespace Trail.Interned

variable {t : Table} {a b : List Event}

theorem left (h : Interned t (a ++ b)) : Interned t a :=
  fun s hs ↦ h s (List.mem_append_left _ hs)

theorem right (h : Interned t (a ++ b)) : Interned t b :=
  fun s hs ↦ h s (List.mem_append_right _ hs)

theorem tail {e : Event} (h : Interned t (e :: a)) : Interned t a :=
  fun s hs ↦ h s (List.mem_cons_of_mem _ hs)

theorem head {s : Symbol} (h : Interned t (.met s :: a)) : t.indexOf s.text < t.size :=
  Table.indexOf_lt_size_iff.2 (h s List.mem_cons_self)

end Trail.Interned

namespace Tree

open Run
open Trail (Interned)

variable {p : Primitives} {n : Nat} {t : Table}

theorem operateWith_within (hp : p.Sound) (op : Operator) (span : Span) (a b : Int64) :
    Within n (operateWith p op span a b) (operate op span a b) := by
  have heq : operateWith p op span a b = operate op span a b := by
    cases op with
    | divide =>
      by_cases hb : b = 0
      · simp [hb, operateWith, operate, Operator.value?]
      · simp [hb, operateWith, operate, Operator.value?, hp.quotient a hb]
    | _ => rfl
  rw [heq]
  unfold operate
  split
  · exact within_pure _
  · exact within_throw fun id hid ↦ by cases hid

theorem roundWhile_within {test test' : Run Int64} {body body' : Run Unit}
    (htest : Within n test test') (hbody : Within n body body') :
    Within n (roundWhile test body) (roundWhile test' body') := by
  refine htest.bind fun v ↦ ?_
  split
  · exact hbody.bind fun _ ↦ within_pure _
  · exact within_pure _

theorem rightOperand_within {rhs rhs' : Run Int64} (op : Operator) (h : Within n rhs rhs') :
    Within n (rightOperand op rhs) (rightOperand op rhs') := by
  unfold rightOperand
  split
  · exact within_pure _
  · exact h

theorem showCellsWith_within (hp : p.Sound) : ∀ symbols : List Symbol,
    Interned t (symbols.map .met) →
    Within t.size (showCellsWith p (symbols.map fun s ↦ t.indexOf s.text))
      (showCells (symbols.map fun s ↦ t.indexOf s.text))
  | [] => fun _ ↦ within_pure _
  | _ :: symbols => fun h ↦
    (within_value hp h.head).bind fun _ ↦ (within_print _).bind fun _ ↦
      showCellsWith_within hp symbols h.tail

mutual

/-- With sound primitives, a tree whose symbols have their cells is evaluated as the machine does
it. -/
theorem evalWith_within (hp : p.Sound) (bound : Nat) : ∀ tree : Tree Symbol,
    Interned t tree.trail →
    Within t.size (evalWith p bound (tree.resolve t)) (eval bound (tree.resolve t))
  | sequence items => fun h ↦
    (evalListWith_within hp bound items h).bind fun _ ↦ within_pure _
  | cell _ => fun h ↦ within_value hp h.head
  | assignment _ expression => fun h ↦
    (within_cell hp h.head).bind fun _ ↦ (within_note _).bind fun _ ↦
      (evalWith_within hp bound expression h.tail).bind fun _ ↦
        (within_store hp h.head _).bind fun _ ↦ within_pure _
  | binary op span lhs rhs => fun h ↦
    (evalWith_within hp bound lhs h.left).bind fun _ ↦
      (rightOperand_within op (evalWith_within hp bound rhs h.right)).bind fun _ ↦
        operateWith_within hp op span _ _
  | unary op span operand => fun h ↦
    (evalWith_within hp bound operand h).bind fun _ ↦ operateWith_within hp op span _ _
  | ifThen condition body => fun h ↦ by
    refine (within_note _).bind fun _ ↦ (evalWith_within hp bound condition h.left).bind fun v ↦ ?_
    split
    · exact (evalWith_within hp bound body h.right).discard.bind fun _ ↦ within_pure _
    · exact within_pure _
  | choice arms => fun h ↦
    (within_note _).bind fun _ ↦ (evalArmsWith_within hp bound arms h).bind fun _ ↦
      within_pure _
  | whileDo condition body => fun h ↦
    (within_note _).bind fun _ ↦ ((roundWhile_within (evalWith_within hp bound condition h.left)
      (evalWith_within hp bound body h.right).discard).rounds bound 0).bind fun _ ↦
        (within_note _).bind fun _ ↦ within_pure _
  | repeatUntil body condition => fun h ↦
    (within_note _).bind fun _ ↦ (((evalWith_within hp bound body h.left).discard.bind fun _ ↦
      (evalWith_within hp bound condition h.right).bind fun _ ↦ within_pure _).rounds bound 0).bind
        fun _ ↦ (within_note _).bind fun _ ↦ within_pure _
  | forLoop init condition step body => fun h ↦ by
    have hround := (evalWith_within hp bound body h.right.right.right).discard.bind fun _ ↦
      evalClauseWith_within hp bound step h.right.right.left
    exact (within_note _).bind fun _ ↦ (evalClauseWith_within hp bound init h.left).bind fun _ ↦
      ((roundWhile_within (evalWith_within hp bound condition h.right.left) hround).rounds bound
        0).bind fun _ ↦ (within_note _).bind fun _ ↦ within_pure _
  | read cells => fun h ↦
    (within_note _).bind fun _ ↦ (showCellsWith_within hp cells h).bind fun _ ↦ within_pure _
  | write items => fun h ↦
    (within_note _).bind fun _ ↦ (evalItemsWith_within hp bound items h).bind fun _ ↦
      within_pure _
termination_by structural tree => tree

theorem evalListWith_within (hp : p.Sound) (bound : Nat) : ∀ trees : List (Tree Symbol),
    Interned t (trailAll trees) →
    Within t.size (evalListWith p bound (mapList (fun s ↦ t.indexOf s.text) trees))
      (evalList bound (mapList (fun s ↦ t.indexOf s.text) trees))
  | [] => fun _ ↦ within_pure _
  | tree :: trees => fun h ↦
    (evalWith_within hp bound tree h.left).discard.bind fun _ ↦
      evalListWith_within hp bound trees h.right.tail
termination_by structural trees => trees

theorem evalArmsWith_within (hp : p.Sound) (bound : Nat) : ∀ arms : List (Arm Symbol),
    Interned t (trailArms arms) →
    Within t.size (evalArmsWith p bound (mapArms (fun s ↦ t.indexOf s.text) arms))
      (evalArms bound (mapArms (fun s ↦ t.indexOf s.text) arms))
  | [] => fun _ ↦ within_pure _
  | .guarded condition body :: arms => fun h ↦ by
    refine (evalWith_within hp bound condition h.left).bind fun v ↦ ?_
    split
    · exact (evalWith_within hp bound body h.right.left).discard
    · exact evalArmsWith_within hp bound arms h.right.right
  | .otherwise body :: _ => fun h ↦ (evalWith_within hp bound body h.left).discard
termination_by structural arms => arms

theorem evalClauseWith_within (hp : p.Sound) (bound : Nat) : ∀ clause : Clause Symbol,
    Interned t (trailClause clause) →
    Within t.size (evalClauseWith p bound (mapClause (fun s ↦ t.indexOf s.text) clause))
      (evalClause bound (mapClause (fun s ↦ t.indexOf s.text) clause))
  | .absent => fun _ ↦ within_pure _
  | .assign _ expression => fun h ↦
    (evalWith_within hp bound expression h.tail).bind fun _ ↦ within_store hp h.head _
termination_by structural clause => clause

theorem evalItemsWith_within (hp : p.Sound) (bound : Nat) : ∀ items : List (Item Symbol),
    Interned t (trailItems items) →
    Within t.size (evalItemsWith p bound (mapItems (fun s ↦ t.indexOf s.text) items))
      (evalItems bound (mapItems (fun s ↦ t.indexOf s.text) items))
  | [] => fun _ ↦ within_pure _
  | .value expression :: items => fun h ↦
    (evalWith_within hp bound expression h.left).bind fun _ ↦ (within_print _).bind fun _ ↦
      evalItemsWith_within hp bound items h.right
  | .text _ :: items => fun h ↦
    (within_print _).bind fun _ ↦ evalItemsWith_within hp bound items h
termination_by structural items => items

end

/-- Any number of evaluations keeps the number of cells. -/
theorem Evaluations.size_eq {tree : Tree Symbol} {t' : Table} (htree : Interned t tree.trail)
    (h : Evaluations (tree.resolve t) t t') : t'.size = t.size := by
  induction h with
  | none => rfl
  | more before run ih =>
    exact ((evalWith_within Primitives.strict_sound _ tree htree _ ih).2 _ _ run).1

end Tree

/-! ### Reading and running a text -/

namespace Scan

/-- Reading and running a text stays in the domain of all partial operations. What is cut out of
the text for a token is a slice of it; every token has a span, every lexical error has an empty
one, and reading the tokens never fails for want of a span. If the text can be read, then however
often its tree was evaluated before, evaluating it once more does not miss a cell, and it does not
depend on what reading or writing beyond the table or dividing by zero would do. -/
theorem partial_operations_in_domain (source : String) :
    let tokens := (ofSource source).tokens
    let result := (Reading.ofTokens tokens).program.1
    let after := (Reading.ofTokens tokens).program.2
    (∀ t ∈ tokens, ∀ skip piece, t.kind.cut? = some (skip, piece) →
      Text.slice? source (t.start.offset + skip) (t.start.offset + skip + piece.utf8ByteSize) =
          some piece ∧
        t.start.offset + skip + piece.utf8ByteSize ≤ t.stop.offset) ∧
      (∀ t ∈ tokens, ∃ span, t.span? = some span) ∧
      (∀ e ∈ (ofSource source).errors,
        Span.between? e.location e.location = some e.location.point) ∧
      (∀ t, result ≠ .error (.unordered t)) ∧
      ∀ tree, result = .ok tree → ∀ bound m,
        (after.resolve tree).Evaluations after.table m.table →
        (∀ id m', (after.resolve tree).run bound m ≠ some (.error (.noCell id), m')) ∧
        ∀ p : Primitives, p.Sound →
          Tree.evalWith p bound (after.resolve tree) m = (after.resolve tree).run bound m := by
  intro tokens result after
  refine ⟨fun t ht skip piece hcut ↦ ?_, fun t ht ↦ ?_, fun e _ ↦ ?_, fun t ht ↦ ?_, ?_⟩
  · rcases mem_tokens_ofSource.1 ht with ⟨x, hx, rfl⟩ | rfl
    · obtain ⟨text, rest, h⟩ :=
        (Cursor.drains_drain _).cutFrom (Cursor.walks_ofSource source) x hx
      exact h.slice?_cut hcut
    · cases hcut
  · exact ⟨⟨t.start, t.stop, ordered_ofSource source t ht⟩,
      Span.between?_eq_some_iff.2 ⟨rfl, rfl⟩⟩
  · exact Span.between?_eq_some_iff.2 ⟨rfl, rfl⟩
  · rcases Reading.program_tree_or_first (inOrder_ofSource source) (all_ofTokens source) with
      ⟨-, tree, htree⟩ | ⟨first, others, -, hfirst⟩
    · exact nomatch htree.symm.trans ht
    · exact nomatch hfirst.symm.trans ht
  · intro tree htree bound m hevals
    obtain ⟨d, -, rfl, htrail, -⟩ :=
      Reading.exists_derivation_of_ok (ordered_ofSource source) htree
    have hinterned : Trail.Interned after.table d.tree.trail :=
      fun s hs ↦ Trail.contains_table (htrail ▸ hs)
    have hsize := hevals.size_eq hinterned
    refine ⟨fun id m' hrun ↦ ?_, fun p hp ↦ ?_⟩
    · exact ((Tree.evalWith_within Primitives.strict_sound bound d.tree hinterned m hsize).2 _ _
        hrun).2 id rfl
    · exact (Tree.evalWith_within hp bound d.tree hinterned m hsize).1

/-- A division that is done twice, with primitives that do not end outside their domain. -/
theorem partial_operations_in_domain_division :
    let reading := Reading.ofTokens (ofSource "procedure principale () x = 7 / 2; finproc").tokens
    ∃ (tree : Tree Symbol) (m m' : Machine), reading.program.1 = .ok tree ∧
      (reading.program.2.resolve tree).Evaluations reading.program.2.table m.table ∧
      m.table.get? 0 = some ((Symbol.var "x").cell.store 3) ∧
      Tree.evalWith .strict 0 (reading.program.2.resolve tree) m = some (.ok 0, m') := by
  intro reading
  let tree : Tree Symbol := .sequence [.assignment (.var "x") (.binary .divide
    ⟨⟨30, 0, 30⟩, ⟨31, 0, 31⟩, by decide⟩ (.cell (.literal "7" 7)) (.cell (.literal "2" 2)))]
  let before : Table :=
    { cells := #[(Symbol.var "x").cell, (Symbol.literal "7" 7).cell, (Symbol.literal "2" 2).cell] }
  let m : Machine := { table := before.store 0 3, notes := #[.assignment "x"] }
  have htree : reading.program.1 = .ok tree := by decide +kernel
  have htable : reading.program.2.table = before := by decide +kernel
  have hfirst : (tree.resolve before).run 0 { table := before } = some (.ok 0, m) := by
    decide +kernel
  have hsecond : (tree.resolve before).run 0 m =
      some (.ok 0, { m with notes := m.notes.push (.assignment "x") }) := by decide +kernel
  have hevals : (reading.program.2.resolve tree).Evaluations reading.program.2.table m.table := by
    rw [Reading.resolve, htable]
    exact .more (.none _) hfirst
  obtain ⟨-, -, -, -, hall⟩ :=
    partial_operations_in_domain "procedure principale () x = 7 / 2; finproc"
  have hstrict := (hall tree htree 0 m hevals).2 .strict Primitives.strict_sound
  refine ⟨tree, m, { m with notes := m.notes.push (.assignment "x") }, htree, hevals, rfl, ?_⟩
  rw [← hsecond, ← htable]
  exact hstrict

end Scan

end Pseudocode

import Pseudocode.Proofs.CorrectPrefix
import Pseudocode.Proofs.Domain
import Pseudocode.Proofs.Nodes
import Pseudocode.Proofs.Numbering

/-!
# Division by zero and its blame

An expression changes nothing. It fails only by a division whose divisor is zero, and as both
operands of every operator are evaluated, such a division makes it fail wherever it stands. The
first one on the walk over the expression is blamed, at the place of its own slash.

## Main definitions

* `Tree.divisions`: the divisions in a tree, in the order in which they are done.
* `Tree.Division.IsFirst`: the first division by zero among some divisions.
* `Run.Blames`: a computation that blames certain places only for a division by zero.

## Main results

* `Tree.IsExpression.exists_eval`: an expression is decided by its first division by zero.
* `Tree.eval_blames`: whatever is evaluated, the blame for a division by zero is on a slash.
* `Scan.zero_division_blamed`: division by zero in whatever is read.
-/

namespace Pseudocode

namespace Tree

variable {α : Type}

/-! ### Divisions -/

/-- A division in a tree. -/
structure Division (α : Type) where
  /-- Where the operator is written. -/
  span : Span
  /-- What is divided by. -/
  divisor : Tree α

/-- The division at the root. -/
def division? : Tree α → Option (Division α)
  | binary .divide span _ divisor => some { span, divisor }
  | _ => none

/-- The divisions in a tree, those in the left operand of an operator before those in the right one
and both before the operator itself. -/
def divisions (t : Tree α) : List (Division α) :=
  t.nodes.filterMap division?

theorem divisions_binary (op : Operator) (span : Span) (lhs rhs : Tree α) :
    (binary op span lhs rhs).divisions =
      lhs.divisions ++ (rhs.divisions ++ (binary op span lhs rhs).division?.toList) := by
  rw [divisions, nodes, List.filterMap_append, List.filterMap_append, List.filterMap_cons,
    List.filterMap_nil]
  cases (binary op span lhs rhs).division? <;> rfl

theorem divisions_unary (op : Operator) (span : Span) (operand : Tree α) :
    (unary op span operand).divisions = operand.divisions := by
  rw [divisions, nodes, List.filterMap_append]
  exact List.append_nil _

namespace Division

variable {m : Machine} {ds ds' : List (Division Nat)}

/-- The divisor is zero on the given cells. -/
def Vanishes (m : Machine) (d : Division Nat) : Prop :=
  ∀ bound, d.divisor.run bound m = some (.ok 0, m)

/-- The division is the first one by zero. -/
def IsFirst (m : Machine) (ds : List (Division Nat)) (d : Division Nat) : Prop :=
  ∃ before behind, ds = before ++ d :: behind ∧ (∀ d' ∈ before, ¬ d'.Vanishes m) ∧ d.Vanishes m

/-- There is a value if no division is one by zero, and otherwise the first one is blamed. -/
def Decides (m : Machine) (ds : List (Division Nat)) : Except Span Int64 → Prop
  | .ok _ => ∀ d ∈ ds, ¬ d.Vanishes m
  | .error span => ∃ d, IsFirst m ds d ∧ d.span = span

/-- Whoever is blamed already stays blamed. -/
theorem Decides.append_of_error {span : Span} (h : Decides m ds (.error span)) :
    Decides m (ds ++ ds') (.error span) := by
  obtain ⟨d, ⟨before, behind, rfl, hbefore, hd⟩, hspan⟩ := h
  refine ⟨d, ⟨before, behind ++ ds', ?_, hbefore, hd⟩, hspan⟩
  rw [List.append_assoc, List.cons_append]

/-- As long as nobody is blamed, what follows decides. -/
theorem Decides.append_of_ok {v : Int64} {a : Except Span Int64} (h : Decides m ds (.ok v))
    (h' : Decides m ds' a) : Decides m (ds ++ ds') a := by
  cases a with
  | ok w => exact List.forall_mem_append.2 ⟨h, h'⟩
  | error span =>
    obtain ⟨d, ⟨before, behind, rfl, hbefore, hd⟩, hspan⟩ := h'
    exact ⟨d, ⟨ds ++ before, behind, (List.append_assoc ..).symm,
      List.forall_mem_append.2 ⟨h, hbefore⟩, hd⟩, hspan⟩

theorem decides_nil (v : Int64) : Decides m [] (.ok v) :=
  fun _ hd ↦ absurd hd List.not_mem_nil

/-- An operator with values on both sides fails if it divides by zero and only then. -/
theorem decides_division? (op : Operator) (span : Span) (lhs : Tree Nat) {rhs : Tree Nat}
    (v : Int64) {w : Int64} (hrhs : ∀ bound, rhs.eval bound m = some (.ok w, m)) :
    Decides m (binary op span lhs rhs).division?.toList (op.result span v w) := by
  have hvanishes : Vanishes m { span, divisor := rhs } ↔ w = 0 := by
    constructor
    · intro h
      have hrun := (hrhs 0).symm.trans (h 0)
      cases hrun
      rfl
    · rintro rfl
      exact hrhs
  by_cases hop : op = .divide
  · subst hop
    by_cases hw : w = 0
    · subst hw
      exact ⟨_, ⟨[], [], rfl, fun _ hd ↦ absurd hd List.not_mem_nil, hvanishes.2 rfl⟩, rfl⟩
    · have hresult : Operator.divide.result span v w = .ok (v / w) := by
        simp [Operator.result, Operator.value?, hw]
      rw [hresult]
      exact List.forall_mem_singleton.2 (mt hvanishes.1 hw)
  · have hdivision : (binary op span lhs rhs).division? = none := by
      cases op <;> first | rfl | exact absurd rfl hop
    obtain ⟨u, hu⟩ := Option.ne_none_iff_exists'.1
      (mt Operator.value?_eq_none_iff.1 (fun h ↦ hop h.1) : op.value? v w ≠ none)
    rw [hdivision, Operator.result, hu]
    exact decides_nil u

/-- What is decided fails if and only if there is a division by zero. -/
theorem Decides.exists_error_iff {a : Except Span Int64} (h : Decides m ds a) :
    (∃ span, a = .error span) ↔ ∃ d ∈ ds, d.Vanishes m := by
  cases a with
  | ok v =>
    refine ⟨fun ⟨span, hspan⟩ ↦ (nomatch hspan), fun ⟨d, hd, hvanishes⟩ ↦ ?_⟩
    exact absurd hvanishes (h d hd)
  | error span =>
    refine ⟨fun _ ↦ ?_, fun _ ↦ ⟨span, rfl⟩⟩
    obtain ⟨d, ⟨before, behind, rfl, -, hd⟩, -⟩ := h
    exact ⟨d, List.mem_append_right _ List.mem_cons_self, hd⟩

end Division

/-! ### Expressions -/

open Division

/-- An expression whose cells are in the table ends without a change, in the way that its first
division by zero decides. -/
theorem IsExpression.exists_eval {R : Operator → Span → Prop} {e : Tree Nat}
    (he : e.IsExpression R) {m : Machine} (hcells : ∀ id ∈ e.leaves, id < m.table.size) :
    ∃ a : Except Span Int64,
      (∀ bound, e.eval bound m = some (a.mapError Fault.divisionByZero, m)) ∧
        Decides m e.divisions a := by
  induction he with
  | cell id =>
    obtain ⟨c, hc⟩ := m.table.exists_get? (hcells id (List.mem_singleton_self id))
    refine ⟨.ok c.value, fun bound ↦ ?_, decides_nil _⟩
    rw [eval, Run.value, Run.bind_apply, Run.cell_apply, hc]
    rfl
  | @binary op span lhs rhs hop _ _ _ ihl ihr =>
    obtain ⟨hleft, hright⟩ := List.forall_mem_append.1 hcells
    obtain ⟨a, ha, hlhs⟩ := ihl hleft
    obtain ⟨b, hb, hrhs⟩ := ihr hright
    refine ⟨_, fun bound ↦ eval_binary hop (ha bound) (hb bound), ?_⟩
    rw [divisions_binary]
    -- the operands come before the operator, and the first one that fails decides
    cases a with
    | error span' => exact hlhs.append_of_error
    | ok v =>
      refine hlhs.append_of_ok ?_
      cases b with
      | error span' => exact hrhs.append_of_error
      | ok w => exact hrhs.append_of_ok (decides_division? op span lhs v hb)
  | @unary op span operand hop _ _ ih =>
    obtain ⟨a, ha, hoperand⟩ := ih hcells
    obtain rfl : op = .not := of_decide_eq_true hop
    refine ⟨_, fun bound ↦ eval_unary (ha bound), ?_⟩
    rw [divisions_unary]
    cases a with
    | error span' => exact hoperand
    | ok v => exact hoperand

end Tree

/-! ### Whom a run blames -/

namespace Run

variable {α β : Type} {S : Span → Prop}

/-- If the computation ends with a division by zero, the place that it blames satisfies `S`. -/
def Blames (S : Span → Prop) (x : Run α) : Prop :=
  ∀ m span m', x m = some (.error (.divisionByZero span), m') → S span

theorem blames_pure (a : α) : Blames S (pure a : Run α) :=
  fun _ _ _ h ↦ nomatch h

theorem Blames.bind {x : Run α} {f : α → Run β} (hx : Blames S x) (hf : ∀ a, Blames S (f a)) :
    Blames S (x >>= f) := by
  intro m span m' h
  rcases bind_eq_some h with ⟨fault, hfault, hspan⟩ | ⟨a, m₁, -, hrest⟩
  · cases hspan
    exact hx m span m' hfault
  · exact hf a m₁ span m' hrest

theorem Blames.discard {x : Run α} (hx : Blames S x) : Blames S (discard x) := by
  rw [discard_eq]
  exact hx.bind fun _ ↦ blames_pure _

theorem blames_cell (id : Nat) : Blames S (cell id) := by
  intro m span m' h
  rw [cell_apply] at h
  cases hc : m.table.get? id with
  | none => rw [hc] at h; cases h
  | some c => rw [hc] at h; cases h

theorem blames_value (id : Nat) : Blames S (value id) :=
  (blames_cell id).bind fun _ ↦ blames_pure _

theorem blames_print (line : String) : Blames S (print line) :=
  fun _ _ _ h ↦ nomatch h

theorem blames_note (n : Note) : Blames S (note n) :=
  fun _ _ _ h ↦ nomatch h

theorem blames_store (id : Nat) (v : Int64) : Blames S (store id v) :=
  (blames_cell id).discard.bind fun _ _ _ _ h ↦ nomatch h

theorem Blames.rounds {x : Run Bool} (hx : Blames S x) (bound count : Nat) :
    Blames S (rounds x bound count) := by
  induction bound generalizing count with
  | zero => exact fun _ _ _ h ↦ nomatch h
  | succ bound ih =>
    refine hx.bind fun again ↦ ?_
    split
    · exact ih _
    · exact blames_pure _

end Run

namespace Tree

open Run

variable {α : Type} {S : Span → Prop}

/-- The places of all slashes among the nodes satisfy `S`. -/
def Slashes (S : Span → Prop) (nodes : List (Tree α)) : Prop :=
  ∀ n ∈ nodes, ∀ span, n.operator? = some (.divide, span) → S span

theorem slashes_append {ns ns' : List (Tree α)} :
    Slashes S (ns ++ ns') ↔ Slashes S ns ∧ Slashes S ns' :=
  List.forall_mem_append

/-- An operator blames itself, and only for a division. -/
theorem blames_operate {op : Operator} {span : Span} (h : op = .divide → S span) (a b : Int64) :
    Blames S (operate op span a b) := by
  rw [operate]
  cases hvalue : op.value? a b with
  | some v => exact blames_pure v
  | none =>
    intro m span' m' hrun
    cases hrun
    exact h (Operator.value?_eq_none_iff.1 hvalue).1

theorem blames_rightOperand (op : Operator) {rhs : Run Int64} (h : Blames S rhs) :
    Blames S (rightOperand op rhs) := by
  unfold rightOperand
  split
  · exact blames_pure _
  · exact h

theorem blames_roundWhile {test : Run Int64} {body : Run Unit} (htest : Blames S test)
    (hbody : Blames S body) : Blames S (roundWhile test body) := by
  refine htest.bind fun v ↦ ?_
  split
  · exact hbody.bind fun _ ↦ blames_pure _
  · exact blames_pure _

theorem blames_showCells : ∀ ids : List Nat, Blames S (showCells ids)
  | [] => blames_pure _
  | id :: ids =>
    (blames_value id).bind fun _ ↦ (blames_print _).bind fun _ ↦ blames_showCells ids

mutual

/-- Whatever the leaves stand for, the blame for a division by zero is on a slash of the tree. -/
theorem eval_blames (f : α → Nat) (bound : Nat) :
    ∀ t : Tree α, Slashes S t.nodes → Blames S (eval bound (t.map f))
  | sequence items => fun h ↦
    (evalList_blames f bound items (slashes_append.1 h).1).bind fun _ ↦ blames_pure _
  | cell _ => fun _ ↦ blames_value _
  | assignment _ expression => fun h ↦
    (blames_cell _).bind fun _ ↦ (blames_note _).bind fun _ ↦
      (eval_blames f bound expression (slashes_append.1 h).1).bind fun _ ↦
        (blames_store _ _).bind fun _ ↦ blames_pure _
  | binary op span lhs rhs => fun h ↦ by
    obtain ⟨hlhs, h⟩ := slashes_append.1 h
    obtain ⟨hrhs, h⟩ := slashes_append.1 h
    refine (eval_blames f bound lhs hlhs).bind fun _ ↦
      (blames_rightOperand op (eval_blames f bound rhs hrhs)).bind fun _ ↦ blames_operate ?_ _ _
    rintro rfl
    exact h _ (List.mem_singleton_self _) span rfl
  | unary op span operand => fun h ↦ by
    obtain ⟨hoperand, h⟩ := slashes_append.1 h
    refine (eval_blames f bound operand hoperand).bind fun _ ↦ blames_operate ?_ _ _
    rintro rfl
    exact h _ (List.mem_singleton_self _) span rfl
  | ifThen condition body => fun h ↦ by
    obtain ⟨hcondition, h⟩ := slashes_append.1 h
    refine (blames_note _).bind fun _ ↦ (eval_blames f bound condition hcondition).bind fun v ↦ ?_
    split
    · exact (eval_blames f bound body (slashes_append.1 h).1).discard.bind fun _ ↦ blames_pure _
    · exact blames_pure _
  | choice arms => fun h ↦
    (blames_note _).bind fun _ ↦
      (evalArms_blames f bound arms (slashes_append.1 h).1).bind fun _ ↦ blames_pure _
  | whileDo condition body => fun h ↦ by
    obtain ⟨hcondition, h⟩ := slashes_append.1 h
    have hround := blames_roundWhile (eval_blames f bound condition hcondition)
      (eval_blames f bound body (slashes_append.1 h).1).discard
    exact (blames_note _).bind fun _ ↦ (hround.rounds bound 0).bind fun _ ↦
      (blames_note _).bind fun _ ↦ blames_pure _
  | repeatUntil body condition => fun h ↦ by
    obtain ⟨hbody, h⟩ := slashes_append.1 h
    have htest := eval_blames f bound condition (slashes_append.1 h).1
    have hround := (eval_blames f bound body hbody).discard.bind fun _ ↦
      htest.bind fun v ↦ blames_pure (!truthy v)
    exact (blames_note _).bind fun _ ↦ (hround.rounds bound 0).bind fun _ ↦
      (blames_note _).bind fun _ ↦ blames_pure _
  | forLoop init condition step body => fun h ↦ by
    obtain ⟨hinit, h⟩ := slashes_append.1 h
    obtain ⟨hcondition, h⟩ := slashes_append.1 h
    obtain ⟨hstep, h⟩ := slashes_append.1 h
    have hround := blames_roundWhile (eval_blames f bound condition hcondition)
      ((eval_blames f bound body (slashes_append.1 h).1).discard.bind fun _ ↦
        evalClause_blames f bound step hstep)
    exact (blames_note _).bind fun _ ↦ (evalClause_blames f bound init hinit).bind fun _ ↦
      (hround.rounds bound 0).bind fun _ ↦ (blames_note _).bind fun _ ↦ blames_pure _
  | read _ => fun _ ↦
    (blames_note _).bind fun _ ↦ (blames_showCells _).bind fun _ ↦ blames_pure _
  | write items => fun h ↦
    (blames_note _).bind fun _ ↦
      (evalItems_blames f bound items (slashes_append.1 h).1).bind fun _ ↦ blames_pure _
termination_by structural t => t

theorem evalList_blames (f : α → Nat) (bound : Nat) :
    ∀ ts : List (Tree α), Slashes S (nodesAll ts) → Blames S (evalList bound (mapList f ts))
  | [] => fun _ ↦ blames_pure _
  | t :: ts => fun h ↦ by
    obtain ⟨ht, hts⟩ := slashes_append.1 h
    exact (eval_blames f bound t ht).discard.bind fun _ ↦ evalList_blames f bound ts hts
termination_by structural ts => ts

theorem evalArms_blames (f : α → Nat) (bound : Nat) :
    ∀ arms : List (Arm α), Slashes S (nodesArms arms) → Blames S (evalArms bound (mapArms f arms))
  | [] => fun _ ↦ blames_pure _
  | .guarded condition body :: arms => fun h ↦ by
    obtain ⟨harm, harms⟩ := slashes_append.1 h
    obtain ⟨hcondition, hbody⟩ := slashes_append.1 harm
    refine (eval_blames f bound condition hcondition).bind fun v ↦ ?_
    split
    · exact (eval_blames f bound body hbody).discard
    · exact evalArms_blames f bound arms harms
  | .otherwise body :: _ => fun h ↦
    (eval_blames f bound body (slashes_append.1 h).1).discard
termination_by structural arms => arms

theorem evalClause_blames (f : α → Nat) (bound : Nat) :
    ∀ c : Clause α, Slashes S (nodesClause c) → Blames S (evalClause bound (mapClause f c))
  | .absent => fun _ ↦ blames_pure _
  | .assign _ expression => fun h ↦
    (eval_blames f bound expression h).bind fun _ ↦ blames_store _ _
termination_by structural c => c

theorem evalItems_blames (f : α → Nat) (bound : Nat) :
    ∀ items : List (Item α), Slashes S (nodesItems items) →
      Blames S (evalItems bound (mapItems f items))
  | [] => fun _ ↦ blames_pure _
  | .value expression :: items => fun h ↦ by
    obtain ⟨hexpression, hitems⟩ := slashes_append.1 h
    exact (eval_blames f bound expression hexpression).bind fun _ ↦ (blames_print _).bind fun _ ↦
      evalItems_blames f bound items hitems
  | .text _ :: items => fun h ↦
    (blames_print _).bind fun _ ↦ evalItems_blames f bound items h
termination_by structural items => items

end

end Tree

/-! ### What is read from a text -/

/-- The spelling of an operator does not end with a quote. -/
theorem Operator.text_ne_append_quote (op : Operator) (text : String) : op.text ≠ text ++ "\"" := by
  intro h
  have hlast := congrArg (fun s : String ↦ s.toList.getLast?) h
  simp only [String.toList_append] at hlast
  cases op <;> simp [Operator.text] at hlast

/-- No operator is spelled like the end of input. -/
theorem Operator.text_ne_endOfInput (op : Operator) : op.text ≠ Token.Kind.endOfInput.text := by
  cases op <;> decide

namespace Scan

/-- A token that is spelled like an operator has the operator as its slice. -/
theorem slice?_of_text_eq {source : String} {t : Token} (ht : t ∈ (ofSource source).tokens)
    {op : Operator} (htext : t.kind.text = op.text) :
    Text.slice? source t.start.offset t.stop.offset = some op.text := by
  rcases mem_tokens_ofSource.1 ht with ⟨x, hx, rfl⟩ | rfl
  · obtain ⟨text, rest, hcut⟩ :=
      (Cursor.drains_drain _).cutFrom (Cursor.walks_ofSource source) x hx
    rcases hcut.display with hdisplay | ⟨-, hdisplay⟩
    · rw [← htext, hdisplay]
      exact hcut.slice
    · exact absurd (htext.symm.trans hdisplay) (op.text_ne_append_quote text)
  · exact absurd htext.symm op.text_ne_endOfInput

/-- The place of every operator in what is read is that of its own spelling. -/
theorem slice?_of_spelledAt {source : String} {op : Operator} {span : Span}
    (h : op.SpelledAt (· ∈ (ofSource source).tokens) span) :
    Text.slice? source span.start.offset span.stop.offset = some op.text := by
  obtain ⟨t, ht, htext, hstart, hstop⟩ := h
  rw [hstart, hstop]
  exact slice?_of_text_eq ht htext

end Scan

namespace Reading

open Operator (SpelledAt)

/-- Whether it is an expression or a program, what is read has sound nodes. -/
theorem sound_of_ok {r : Reading} {tree : Tree Symbol} {Q : Token → Prop}
    (hQ : ∀ t ∈ r.stream.all, Q t) (h : r.expression.1 = .ok tree ∨ r.program.1 = .ok tree) :
    Tree.Sound (SpelledAt Q) tree.nodes := by
  rcases h with h | h
  · exact ((Grammar.gives_expression r.stream hQ).2 tree h).sound
  · refine (Grammar.gives_program r.stream hQ).2 tree ?_
    have hdiagnostics : r.program.2.diagnostics = [] := by
      cases hd : r.program.2.diagnostics with
      | nil => rfl
      | cons e es => exact absurd h (program_fst_ne_ok (e := e) (by rw [hd]; rfl) tree)
    exact (program_fst_eq hdiagnostics).symm.trans h

end Reading

namespace Scan

open Pseudocode.Tree (Division)

/-- Division by zero in whatever is read. Every value in an expression or a program that is read
changes nothing when it is evaluated on a table that holds its cells, whatever its bound, and it
fails if and only if one of the divisions in it divides by zero; the first of these is blamed. If a
text was read, the place of each operator is that of its own spelling in the text, so that a run
that ends with a division by zero, from whatever state, blames a slash. -/
theorem zero_division_blamed :
    (∀ (r : Reading) (tree : Tree Symbol), r.expression.1 = .ok tree ∨ r.program.1 = .ok tree →
      ∀ e ∈ tree.nodes, e.isValue = true → ∀ (index : Symbol → Nat) (m : Machine),
        (∀ id ∈ (e.map index).leaves, id < m.table.size) →
        ∃ result, (∀ bound, (e.map index).run bound m = some (result, m)) ∧
          ((∃ fault, result = .error fault) ↔ ∃ d ∈ (e.map index).divisions, d.Vanishes m) ∧
          ∀ fault, result = .error fault →
            ∃ d, Division.IsFirst m (e.map index).divisions d ∧ fault = .divisionByZero d.span) ∧
    ∀ (source : String) (tree : Tree Symbol) (after : Reading),
      (Reading.ofTokens (ofSource source).tokens).expression = (.ok tree, after) ∨
        (Reading.ofTokens (ofSource source).tokens).program = (.ok tree, after) →
      (∀ n ∈ tree.nodes, ∀ op span, n.operator? = some (op, span) →
        Text.slice? source span.start.offset span.stop.offset = some op.text) ∧
      ∀ bound m span m',
        (after.resolve tree).run bound m = some (.error (.divisionByZero span), m') →
        Text.slice? source span.start.offset span.stop.offset = some "/" := by
  refine ⟨fun r tree hread e he hvalue index m hcells ↦ ?_, fun source tree after hread ↦ ?_⟩
  · have hsound := Reading.sound_of_ok (Q := fun _ ↦ True) (fun _ _ ↦ trivial) hread
    obtain ⟨a, hrun, hdecides⟩ := ((hsound e he hvalue).map index).exists_eval hcells
    refine ⟨_, hrun, ?_, ?_⟩
    · rw [← hdecides.exists_error_iff]
      cases a <;> simp [Except.mapError]
    · cases a with
      | ok v => exact fun fault hfault ↦ nomatch hfault
      | error span =>
        obtain ⟨d, hfirst, rfl⟩ := hdecides
        rintro fault hfault
        cases hfault
        exact ⟨d, hfirst, rfl⟩
  · have htokens : ∀ t ∈ (Reading.ofTokens (ofSource source).tokens).stream.all,
        t ∈ (ofSource source).tokens := fun t ht ↦ all_ofTokens source ▸ ht
    have hsound := Reading.sound_of_ok htokens
      (hread.imp (congrArg Prod.fst) (congrArg Prod.fst))
    have hslash : Tree.Slashes (fun span ↦
        Text.slice? source span.start.offset span.stop.offset = some "/") tree.nodes :=
      fun n hn span hop ↦ slice?_of_spelledAt (hsound.of_operator? hn hop)
    exact ⟨fun n hn op span hop ↦ slice?_of_spelledAt (hsound.of_operator? hn hop),
      fun bound m span m' hrun ↦ Tree.eval_blames _ bound tree hslash m span m' hrun⟩

/-- Two divisions by zero: the first one is blamed, although it is on the side of `et` that does not
matter. -/
theorem zero_division_blamed_unneeded :
    let source := "x et (6 / x) + 1 / 0"
    let reading := Reading.ofTokens (ofSource source).tokens
    ∃ (tree : Tree Symbol) (d : Division Nat), reading.expression.1 = .ok tree ∧
      Division.IsFirst { table := reading.expression.2.table }
        (reading.expression.2.resolve tree).divisions d ∧
      d.span.start.offset = 8 ∧
      Text.slice? source d.span.start.offset d.span.stop.offset = some "/" := by
  intro source reading
  let tree : Tree Symbol :=
    .binary .divide ⟨⟨17, 0, 17⟩, ⟨18, 0, 18⟩, by decide⟩
      (.binary .add ⟨⟨13, 0, 13⟩, ⟨14, 0, 14⟩, by decide⟩
        (.binary .and ⟨⟨2, 0, 2⟩, ⟨4, 0, 4⟩, by decide⟩ (.cell (.var "x"))
          (.binary .divide ⟨⟨8, 0, 8⟩, ⟨9, 0, 9⟩, by decide⟩ (.cell (.literal "6" 6))
            (.cell (.var "x"))))
        (.cell (.literal "1" 1)))
      (.cell (.literal "0" 0))
  let m : Machine := { table := reading.expression.2.table }
  have htree : reading.expression.1 = .ok tree := by decide +kernel
  have hcells : ∀ id ∈ (reading.expression.2.resolve tree).leaves, id < m.table.size := by
    decide +kernel
  have hrun : (reading.expression.2.resolve tree).run 0 m =
      some (.error (.divisionByZero ⟨⟨8, 0, 8⟩, ⟨9, 0, 9⟩, by decide⟩), m) := by decide +kernel
  obtain ⟨result, hresult, -, hblame⟩ := zero_division_blamed.1 reading tree (.inl htree) tree
    (by simp [tree, Tree.nodes]) rfl _ m hcells
  have heq := (hresult 0).symm.trans hrun
  cases heq
  obtain ⟨d, hfirst, hd⟩ := hblame _ rfl
  have hspan := Fault.divisionByZero.inj hd
  refine ⟨tree, d, htree, hfirst, hspan ▸ rfl, ?_⟩
  rw [← hspan]
  exact (zero_division_blamed.2 source tree _ (.inl (Prod.ext htree rfl))).2 0 m _ m hrun

end Scan

end Pseudocode

import Pseudocode.Proofs.Derivation.Names
import Pseudocode.Proofs.Literals
import Pseudocode.Proofs.Simulation

/-!
# Machines give programs their meaning

The tree of a program, run on the table of the program, does what the program means. It ends
exactly if the meaning says so, shows the same lines, stops at the same division by zero if at any,
and leaves the same values in its variables.

## Main results

* `Derivation.Expression.computes`: an expression is evaluated to its value.
* `Derivation.Instruction.performs`: an instruction has its effect.
* `Scan.evaluation_refines_reference`: what becomes of a program text.
-/

namespace Pseudocode

open Reference

/-! ### Expressions -/

/-- An infix operator looks at both of its operands. -/
theorem Operator.isUnary_of_ofKind? {kind : Token.Kind} {op : Operator}
    (h : ofKind? kind = some op) : op.isUnary = false := by
  unfold ofKind? at h
  split at h <;> cases h <;> rfl

/-- The value of an operator written at `span`, or the place where it divides by zero. -/
def Operator.result (op : Operator) (span : Span) (a b : Int64) : Except Span Int64 :=
  match op.value? a b with
  | some v => .ok v
  | none => .error span

namespace Tree

open Run

variable {bound : Nat} {m : Machine} {a b : Except Span Int64}

/-- An operator whose operands change nothing changes nothing either. -/
theorem eval_binary {op : Operator} {span : Span} {lhs rhs : Tree Nat} (hop : op.isUnary = false)
    (hlhs : lhs.eval bound m = some (a.mapError .divisionByZero, m))
    (hrhs : rhs.eval bound m = some (b.mapError .divisionByZero, m)) :
    (binary op span lhs rhs).eval bound m =
      some ((a.bind fun v ↦ b.bind fun w ↦ op.result span v w).mapError .divisionByZero, m) := by
  rw [eval, bind_apply, hlhs]
  cases a with
  | error span' => rfl
  | ok v =>
    have hright : rightOperand op (rhs.eval bound) = rhs.eval bound := by
      rw [rightOperand, hop]
      rfl
    change (rightOperand op (rhs.eval bound) >>= fun w ↦ operate op span v w) m = _
    rw [hright, bind_apply, hrhs]
    cases b with
    | error span' => rfl
    | ok w =>
      change operate op span v w m = some ((op.result span v w).mapError .divisionByZero, m)
      rw [operate, Operator.result]
      cases op.value? v w <;> rfl

/-- A unary operator whose operand changes nothing changes nothing either. -/
theorem eval_unary {op : Operator} {span : Span} {operand : Tree Nat}
    (h : operand.eval bound m = some (a.mapError .divisionByZero, m)) :
    (unary op span operand).eval bound m =
      some ((a.bind fun v ↦ op.result span v 0).mapError .divisionByZero, m) := by
  rw [eval, bind_apply, h]
  cases a with
  | error span' => rfl
  | ok v =>
    change operate op span v 0 m = some ((op.result span v 0).mapError .divisionByZero, m)
    rw [operate, Operator.result]
    cases op.value? v 0 <;> rfl

end Tree

namespace Derivation

variable {L : Layout}

/-- All symbols along the trail have their cells. -/
def Placed (L : Layout) (trail : List Event) : Prop :=
  ∀ x, .met x ∈ trail → L.met x

theorem Placed.left {a b : List Event} (h : Placed L (a ++ b)) : Placed L a :=
  fun x hx ↦ h x (List.mem_append_left _ hx)

theorem Placed.right {a b : List Event} (h : Placed L (a ++ b)) : Placed L b :=
  fun x hx ↦ h x (List.mem_append_right _ hx)

theorem Placed.head {x : Symbol} {trail : List Event} (h : Placed L (.met x :: trail)) : L.met x :=
  h x List.mem_cons_self

theorem Placed.tail {e : Event} {trail : List Event} (h : Placed L (e :: trail)) :
    Placed L trail :=
  fun x hx ↦ h x (List.mem_cons_of_mem _ hx)

theorem Placed.behind {arm : Arm Symbol} {arms : List (Arm Symbol)}
    (h : Placed L (Tree.trailArms (arm :: arms))) : Placed L (Tree.trailArms arms) := by
  cases arm with
  | guarded condition body => exact h.right.right
  | otherwise body => exact h.right

section Evaluation

variable {m : Machine} {s : State}

mutual

theorem Factor.eval_tree (hm : Agrees L m s) (bound : Nat) : ∀ d : Factor, Placed L d.tree.trail →
    (d.tree.map L.index).eval bound m =
      some ((d.denote s.env).mapError Fault.divisionByZero, m)
  | .var x => fun h ↦ by
    rw [Factor.tree, Tree.map, Tree.eval, hm.value_apply h.head]
    rfl
  | .number x => fun h ↦ by
    have hx : L.met (.literal x.value.1 x.value.2) := h.head
    rw [Factor.tree, Tree.map, Tree.eval, hm.value_apply h.head, Factor.denote, ← L.value_eq hx]
    rfl
  | .negative sign operand => fun h ↦ by
    have hzero : (Tree.cell (L.index (.literal "0" 0))).eval bound m =
        some ((.ok 0 : Except Span Int64).mapError Fault.divisionByZero, m) :=
      hm.value_apply h.head
    rw [Factor.tree, Tree.map, Tree.map,
      Tree.eval_binary rfl hzero (Factor.eval_tree hm bound operand h.tail), Factor.denote]
    cases operand.denote s.env with
    | error span => rfl
    | ok v =>
      change some (Except.ok (0 - v), m) = some (Except.ok (-v), m)
      rw [Int64.zero_sub]
  | .negated word operand => fun h ↦ by
    rw [Factor.tree, Tree.map, Tree.eval_unary (Factor.eval_tree hm bound operand h), Factor.denote]
    cases operand.denote s.env <;> rfl
  | .group _ inner _ => fun h ↦ Expression.eval_tree hm bound inner h
termination_by structural d => d

theorem Expression.eval_tree (hm : Agrees L m s) (bound : Nat) :
    ∀ d : Expression, Placed L d.tree.trail →
    (d.tree.map L.index).eval bound m =
      some ((d.denote s.env).mapError Fault.divisionByZero, m)
  | .chain first links => fun h ↦ by
    rw [Expression.tree, Link.trail_attachAll] at h
    have hfirst := Factor.eval_tree hm bound first h.left
    rw [Expression.tree, Link.eval_attachAll hm bound links _ hfirst h.right, Expression.denote]
    cases first.denote s.env <;> rfl
termination_by structural d => d

theorem Link.eval_attach (hm : Agrees L m s) (bound : Nat) :
    ∀ (d : Link) (lhs : Tree Symbol) {a : Except Span Int64},
    (lhs.map L.index).eval bound m = some (a.mapError Fault.divisionByZero, m) →
    Placed L d.trail → ((d.attach lhs).map L.index).eval bound m =
      some ((a.bind fun v ↦ d.denote s.env v).mapError Fault.divisionByZero, m)
  | .mk op operand, lhs, a => fun hlhs h ↦ by
    rw [Link.attach, Tree.map, Tree.eval_binary (Operator.isUnary_of_ofKind? op.read_kind) hlhs
      (Factor.eval_tree hm bound operand h)]
    cases a with
    | error span => rfl
    | ok v =>
      change some ((Except.bind _ _).mapError _, m) = some ((Link.denote _ _ _).mapError _, m)
      rw [Link.denote]
      cases operand.denote s.env <;> rfl
termination_by structural d => d

theorem Link.eval_attachAll (hm : Agrees L m s) (bound : Nat) :
    ∀ (ds : List Link) (lhs : Tree Symbol) {a : Except Span Int64},
    (lhs.map L.index).eval bound m = some (a.mapError Fault.divisionByZero, m) →
    Placed L (ds.flatMap Link.trail) → ((Link.attachAll lhs ds).map L.index).eval bound m =
      some ((a.bind fun v ↦ Link.denoteAll s.env v ds).mapError Fault.divisionByZero, m)
  | [], lhs, a => fun hlhs _ ↦ by
    rw [Link.attachAll, hlhs]
    cases a <;> rfl
  | d :: ds, lhs, a => fun hlhs h ↦ by
    rw [List.flatMap_cons] at h
    have hfirst := Link.eval_attach hm bound d lhs hlhs h.left
    rw [Link.attachAll, Link.eval_attachAll hm bound ds _ hfirst h.right]
    cases a with
    | error span => rfl
    | ok v =>
      change some ((Except.bind (d.denote s.env v) _).mapError _, m) =
        some ((Link.denoteAll _ _ _).mapError _, m)
      rw [Link.denoteAll]
      cases d.denote s.env v <;> rfl
termination_by structural ds => ds

end

end Evaluation

/-- An expression is evaluated to its value. -/
theorem Expression.computes (d : Expression) (h : Placed L d.tree.trail) :
    Computes L (fun b ↦ (d.tree.map L.index).eval b) (d.denote ·) where
  mono hle := Tree.eval_refines hle _
  apply b _ _ hm := Expression.eval_tree hm b d h

/-! ### Instructions -/

open Performs

theorem Assignment.performs (a : Assignment)
    (h : Placed L (.met a.target.symbol :: a.value.tree.trail)) :
    Performs L (fun b ↦ do
      let v ← (a.value.tree.map L.index).eval b
      Run.store (L.index a.target.symbol) v) a.effect :=
  withValue (a.value.computes h.tail) fun v ↦ assign h.head v

theorem Assignment.performs? (a : Option Assignment)
    (h : Placed L (Tree.trailClause (Assignment.clause a))) :
    Performs L (fun b ↦ Tree.evalClause b (Tree.mapClause L.index (Assignment.clause a)))
      (Assignment.effect? a) := by
  cases a with
  | none => exact skip ()
  | some a => exact a.performs h

theorem Item.performsAll (items : List Item)
    (h : Placed L (Tree.trailItems (items.map Item.part))) :
    Performs L (fun b ↦ Tree.evalItems b (Tree.mapItems L.index (items.map Item.part)))
      (Item.effectAll items) := by
  induction items with
  | nil => exact skip ()
  | cons item items ih =>
    cases item with
    | text contents => exact (print contents.value).andThen (ih h)
    | value expression =>
      have hfirst := withValue (expression.computes h.left) fun v ↦
        print (L := L) (Decimal.ofInt64 v)
      have hall := hfirst.andThen (ih h.right)
      simp only [bind_assoc] at hall
      exact hall

theorem Variable.performsAll (cells : List Variable)
    (h : Placed L (cells.map fun x ↦ .met x.symbol)) :
    Performs L (fun _ ↦ Tree.showCells (cells.map fun x ↦ L.index x.symbol))
      (Variable.effectAll cells) := by
  induction cells with
  | nil => exact skip ()
  | cons x cells ih =>
    have hx : Computes L (fun _ ↦ Run.value (L.index x.symbol)) fun env ↦ .ok (env x.value) :=
      { mono := fun _ ↦ .refl _
        apply := fun _ _ _ hm ↦ hm.value_apply h.head }
    have hfirst := withValue hx fun v ↦ print (L := L) (Decimal.ofInt64 v)
    have hall := hfirst.andThen (ih h.tail)
    simp only [bind_assoc] at hall
    exact hall

/-- A test with two branches. -/
theorem performs_test {α : Type} {condition : Expression} {yes no : Nat → Run α} {e e' : Effect}
    (hcondition : Placed L condition.tree.trail) (hyes : Performs L yes e)
    (hno : Performs L no e') :
    Performs L (fun b ↦ do
        let v ← (condition.tree.map L.index).eval b
        if truthy v then yes b else no b)
      (Effect.test (condition.denote ·) e e') := by
  refine withValue (condition.computes hcondition) fun v ↦ ?_
  cases hv : truthy v with
  | true => exact hyes
  | false => exact hno

/-- The end of a loop is noted. -/
theorem performs_finished {r : Nat → Run Nat} {e : Effect} (h : Performs L r e) (n : Nat → Note) :
    Performs L (fun b ↦ do
        let count ← r b
        Run.note (n count)
        pure (0 : Int64)) e :=
  h.tail fun count _ _ hm ↦ ⟨0, _, rfl, hm.note (n count)⟩

theorem performs_assignment (a : Assignment)
    (h : Placed L (.met a.target.symbol :: a.value.tree.trail)) :
    Performs L (fun b ↦
        (Tree.assignment (L.index a.target.symbol) (a.value.tree.map L.index)).eval b)
      a.effect := by
  have hassign := (a.performs h).answer (0 : Int64)
  simp only [bind_assoc] at hassign
  refine hassign.lead (fun hle ↦ Tree.eval_refines hle _) fun {m s} hm ↦ ?_
  obtain ⟨c, hc, -⟩ := hm.cells _ h.head
  refine ⟨_, hm.note (.assignment c.name), fun b ↦ ?_⟩
  rw [Tree.eval, Run.bind_apply, Run.cell_apply, hc]
  rfl

mutual

/-- An instruction has its effect. -/
theorem Instruction.performs : ∀ d : Instruction, Placed L d.tree.trail →
    Performs L (fun b ↦ (d.tree.map L.index).eval b) d.effect
  | .assignment a _ => fun h ↦ performs_assignment a h
  | .ifThen _ condition body _ => fun h ↦
    (performs_test h.left ((body.performs h.right).discard.answer 0) (skip 0)).note _
  | .choice _ condition body tail => fun h ↦
    ((performs_test h.left (body.performs h.right.left).discard
      (tail.performs h.right.right)).answer 0).note _
  | .repeatUntil _ body _ condition => fun h ↦
    (performs_finished (repeatUntil (condition.inner.computes h.right)
      (body.performs h.left).discard) fun again ↦ .finished .repeter (again + 1)).note _
  | .whileDo _ condition body _ => fun h ↦
    (performs_finished (whileDo (condition.inner.computes h.left)
      (body.performs h.right).discard) (.finished .tantque)).note _
  | .forLoop _ _ init _ condition _ step _ body _ => fun h ↦
    ((Assignment.performs? init h.left).andThen
      (performs_finished (whileDo (condition.computes h.right.left)
        ((body.performs h.right.right.right).discard.andThen
          (Assignment.performs? step h.right.right.left))) (.finished .pour))).note _
  | .write _ items => fun h ↦ ((Item.performsAll items.inner.toList h).answer 0).note _
  | .read _ cells => fun h ↦ by
    have hcells := (Variable.performsAll cells.inner.toList (by
      rw [Instruction.tree, Tree.trail, List.map_map] at h
      exact h)).answer (0 : Int64)
    rw [Instruction.tree, Tree.map, List.map_map]
    exact hcells.note _
termination_by structural d => d

theorem Sequence.performs : ∀ d : Sequence, Placed L d.tree.trail →
    Performs L (fun b ↦ (d.tree.map L.index).eval b) d.effect
  | .mk first others => fun h ↦
    ((first.performs h.left).discard.andThen (Instruction.performsAll others h.right.tail)).answer 0
termination_by structural d => d

theorem Instruction.performsAll : ∀ ds : List Instruction,
    Placed L (Tree.trailAll (Instruction.treeAll ds)) →
    Performs L (fun b ↦ Tree.evalList b (Tree.mapList L.index (Instruction.treeAll ds)))
      (Instruction.effectAll ds)
  | [] => fun _ ↦ skip ()
  | d :: ds => fun h ↦
    (d.performs h.left).discard.andThen (Instruction.performsAll ds h.right.tail)
termination_by structural ds => ds

theorem Guarded.performs : ∀ (d : Guarded) (arms : List (Arm Symbol)) {behind : Effect},
    Placed L (Tree.trailArms (d.arm :: arms)) →
    Performs L (fun b ↦ Tree.evalArms b (Tree.mapArms L.index arms)) behind →
    Performs L (fun b ↦ Tree.evalArms b (Tree.mapArms L.index (d.arm :: arms))) (d.effect behind)
  | .mk _ _ body, _, _ => fun h hbehind ↦
    performs_test h.left (body.performs h.right.left).discard hbehind
termination_by structural d => d

theorem Guarded.performsAll : ∀ (ds : List Guarded) (arms : List (Arm Symbol)) {behind : Effect},
    Placed L (Tree.trailArms (Guarded.arms ds ++ arms)) →
    (Placed L (Tree.trailArms arms) →
      Performs L (fun b ↦ Tree.evalArms b (Tree.mapArms L.index arms)) behind) →
    Performs L (fun b ↦ Tree.evalArms b (Tree.mapArms L.index (Guarded.arms ds ++ arms)))
      (Guarded.effectAll behind ds)
  | [], _, _ => fun h hbehind ↦ hbehind h
  | d :: ds, arms, _ => fun h hbehind ↦
    d.performs _ h (Guarded.performsAll ds arms h.behind hbehind)
termination_by structural ds => ds

theorem Otherwise.performs : ∀ d : Otherwise, Placed L (Tree.trailArms [d.arm]) →
    Performs L (fun b ↦ Tree.evalArms b (Tree.mapArms L.index [d.arm])) d.effect
  | .mk _ body => fun h ↦ (body.performs h.left).discard
termination_by structural d => d

theorem Otherwise.performs? : ∀ d : Option Otherwise,
    Placed L (Tree.trailArms (Otherwise.arms d)) →
    Performs L (fun b ↦ Tree.evalArms b (Tree.mapArms L.index (Otherwise.arms d)))
      (Otherwise.effect? d)
  | none => fun _ ↦ skip ()
  | some d => d.performs
termination_by structural d => d

theorem Tail.performs : ∀ d : Tail, Placed L (Tree.trailArms d.arms) →
    Performs L (fun b ↦ Tree.evalArms b (Tree.mapArms L.index d.arms)) d.effect
  | .guarded first others last _ => fun h ↦
    first.performs _ h (Guarded.performsAll others _ h.behind (Otherwise.performs? last))
  | .otherwise last _ => last.performs
termination_by structural d => d

end

/-- A program has its effect. -/
theorem Program.performs (d : Program) (h : Placed L d.tree.trail) :
    Performs L (fun b ↦ (d.tree.map L.index).run b) d.effect :=
  d.body.performs h

end Derivation

/-! ### Program texts -/

/-- The cells of the symbols along a trail. -/
def Layout.ofTrail (trail : List Event) (hspelled : ∀ x, .met x ∈ trail → x.WellSpelled)
    (hvalue : ∀ {digits : String} {v : Int64}, .met (.literal digits v) ∈ trail →
      v = Int64.ofNat (Decimal.value digits.toList)) : Layout where
  met x := .met x ∈ trail
  index x := (Trail.table trail).indexOf x.text
  text_eq {x y} hx hy hindex := by
    have hcell := Trail.get?_table hspelled hx
    rw [hindex, Trail.get?_table hspelled hy] at hcell
    rw [← x.cell_name, ← y.cell_name, Option.some.inj hcell]
  text_ne {digits name v} hdigits hname htext := by
    have hcell := (hspelled _ hdigits).cell_eq (hspelled _ hname) htext
    cases hcell
  value_eq := hvalue

/-- At first every variable is zero and every literal has its value. -/
theorem Layout.agrees_ofTrail {trail : List Event} (hspelled : ∀ x, .met x ∈ trail → x.WellSpelled)
    (hvalue : ∀ {digits : String} {v : Int64}, .met (.literal digits v) ∈ trail →
      v = Int64.ofNat (Decimal.value digits.toList)) :
    Agrees (ofTrail trail hspelled hvalue) { table := Trail.table trail } {} where
  lines := rfl
  cells x hx := ⟨x.cell, Trail.get?_table hspelled hx, by cases x <;> rfl⟩

/-- A machine on the table of a program ends if and only if the program does, and in the same way.
-/
theorem Derivation.Program.run_refines (d : Program)
    (hspelled : ∀ x, .met x ∈ d.tree.trail → x.WellSpelled)
    (hvalue : ∀ {digits : String} {v : Int64}, .met (.literal digits v) ∈ d.tree.trail →
      v = Int64.ofNat (Decimal.value digits.toList)) {table : Table}
    (htable : table = Trail.table d.tree.trail) :
    ((∃ bound outcome, (d.tree.resolve table).run bound { table } = some outcome) ↔
      ∃ ending s, d.effect {} ending s) ∧
    ∀ bound result m ending s, (d.tree.resolve table).run bound { table } = some (result, m) →
      d.effect {} ending s → m.lines.toList = s.lines ∧ EndsAs result ending ∧
      ∀ x, (∃ t ∈ d.tokens, t.kind = .var x) →
        ∃ id c, table.find? x = some id ∧ m.table.get? id = some c ∧ c.value = s.env x := by
  subst htable
  have hm := Layout.agrees_ofTrail hspelled hvalue
  have hperforms := d.performs (L := .ofTrail d.tree.trail hspelled hvalue) fun _ hx ↦ hx
  refine ⟨⟨?_, ?_⟩, ?_⟩
  · rintro ⟨bound, ⟨result, m⟩, hrun⟩
    obtain ⟨ending, s, heffect, -⟩ := hperforms.forth hm hrun
    exact ⟨ending, s, heffect⟩
  · rintro ⟨ending, s, heffect⟩
    obtain ⟨bound, result, m, hrun, -⟩ := hperforms.back hm heffect
    exact ⟨bound, _, hrun⟩
  · intro bound result m ending s hrun heffect
    obtain ⟨hends, hm'⟩ := hperforms.agree hm hrun heffect
    refine ⟨hm'.lines, hends, ?_⟩
    rintro x ⟨t, ht, hkind⟩
    have hmet := d.met_of_mem_tokens ht hkind
    obtain ⟨c, hc, hx⟩ := hm'.cells (.var x) hmet
    exact ⟨_, c, Table.find?_of_contains (Trail.contains_table hmet), hc, hx⟩

namespace Scan

open Pseudocode.Derivation

/-- Machines give programs their meaning. If a text has no lexical errors and can be read, then the
machine of its tree ends if and only if the program does. Both show the same lines in the same
order, both are done or divide by zero at the same operator, and each variable of the program has
the same value in the end. -/
theorem evaluation_refines_reference (source : String) (hlexical : (ofSource source).errors = [])
    (tree : Tree Symbol)
    (htree : (Reading.ofTokens (ofSource source).tokens).program.1 = .ok tree) :
    let tokens := (ofSource source).tokens
    let after := (Reading.ofTokens tokens).program.2
    let run := fun bound ↦ (after.resolve tree).run bound { table := after.table }
    ∃ d : Program, d.tokens = tokens.takeWhile (!·.isEnd) ∧
      ((∃ bound outcome, run bound = some outcome) ↔ ∃ ending s, d.effect {} ending s) ∧
      ∀ bound result m ending s, run bound = some (result, m) → d.effect {} ending s →
        m.lines.toList = s.lines ∧ EndsAs result ending ∧
        ∀ x, (∃ t ∈ d.tokens, t.kind = .var x) →
          ∃ id c, after.table.find? x = some id ∧ m.table.get? id = some c ∧ c.value = s.env x := by
  intro tokens after run
  obtain ⟨d, htokens, rfl, htrail, -⟩ :=
    Reading.exists_derivation_of_ok (ordered_ofSource source) htree
  refine ⟨d, htokens, d.run_refines ?_ ?_ (congrArg Trail.table htrail)⟩
  · rw [← htrail]
    exact Reading.wellSpelled_program source
  · rw [← htrail]
    exact Reading.value_of_met hlexical

/-- A program that shows what it assigns: the machine has shown it, so the program does. -/
theorem evaluation_refines_reference_assignment :
    ∃ d : Program, d.tokens = (ofSource
        "procedure principale () x = 7; ecrire(x) finproc").tokens.takeWhile (!·.isEnd) ∧
      ∃ s, d.effect {} .done s ∧ s.lines = ["7"] ∧ s.env "x" = 7 := by
  have hlexical : (ofSource "procedure principale () x = 7; ecrire(x) finproc").errors = [] := by
    decide +kernel
  have htree : (Reading.ofTokens
      (ofSource "procedure principale () x = 7; ecrire(x) finproc").tokens).program.1 =
      .ok (.sequence [.assignment (.var "x") (.cell (.literal "7" 7)),
        .write [.value (.cell (.var "x"))]]) := by decide +kernel
  have htable : (Reading.ofTokens
      (ofSource "procedure principale () x = 7; ecrire(x) finproc").tokens).program.2.table =
      { cells := #[(Symbol.var "x").cell, (Symbol.literal "7" 7).cell] } := by decide +kernel
  obtain ⟨d, hd, hends, hagree⟩ := evaluation_refines_reference _ hlexical _ htree
  rw [Reading.resolve, htable] at hends hagree
  have hrun : (Tree.resolve { cells := #[(Symbol.var "x").cell, (Symbol.literal "7" 7).cell] }
      (.sequence [.assignment (.var "x") (.cell (.literal "7" 7)),
        .write [.value (.cell (.var "x"))]])).run 0
      { table := { cells := #[(Symbol.var "x").cell, (Symbol.literal "7" 7).cell] } } =
      some (.ok 0, {
        table := { cells := #[(Symbol.var "x").cell.store 7, (Symbol.literal "7" 7).cell] }
        lines := #["7"]
        notes := #[.assignment "x", .write 1] }) := by decide +kernel
  obtain ⟨ending, s, heffect⟩ := hends.1 ⟨0, _, hrun⟩
  obtain ⟨hlines, hending, hcells⟩ := hagree 0 _ _ ending s hrun heffect
  cases endsAs_ok hending
  have hmem : (⟨.var "x", ⟨24, 0, 24⟩, ⟨25, 0, 25⟩⟩ : Token) ∈ d.tokens := by
    rw [hd]
    decide +kernel
  obtain ⟨id, c, hid, hc, hx⟩ := hcells "x" ⟨_, hmem, rfl⟩
  have hid' : id = 0 := Option.some.inj (hid.symm.trans (by decide +kernel))
  subst hid'
  cases hc
  exact ⟨d, hd, s, heffect, hlines.symm, hx.symm⟩

end Scan

end Pseudocode

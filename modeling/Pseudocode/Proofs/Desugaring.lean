import Pseudocode.Proofs.Endings

/-!
# Programs with fewer instructions

Conditions, choices and loops can be written with less: one kind of loop and choices of two arms are
enough. A tree that is rewritten so takes other notes, and its loops may need other bounds, but it
ends where the tree did, in the same way, and it leaves the same cells and lines.

## Main definitions

* `Machine.Alike`: states that differ in their notes only.
* `Run.Equivalent`: computations that end in the same way in states that are alike.
* `Tree.desugar`: a tree without conditions of one arm and without loops other than the one that
  tests first.

## Main results

* `Tree.ends_until_iff_ends_while_not`: a loop that tests last runs its body once, and then it is a
  loop that tests first.
* `Tree.eval_desugar`: the evaluation of a tree and of the rewritten one.
* `Tree.desugar_sound`: a tree and the rewritten one do the same.
-/

namespace Pseudocode

/-! ### States that are alike -/

namespace Machine

/-- The states have the same table, with `n` cells, and show the same lines. -/
structure Alike (n : Nat) (m m' : Machine) : Prop where
  /-- The tables are the same. -/
  table : m.table = m'.table
  /-- The lines are the same. -/
  lines : m.lines = m'.lines
  /-- There are `n` cells. -/
  size : m.table.size = n

variable {n : Nat} {m m' : Machine}

theorem Alike.symm (h : Alike n m m') : Alike n m' m :=
  ⟨h.table.symm, h.lines.symm, h.table ▸ h.size⟩

/-- A note makes no difference. -/
theorem Alike.noted (h : Alike n m m') (k : Note) : Alike n (m.noted k) m' :=
  ⟨h.table, h.lines, h.size⟩

end Machine

/-! ### Computations that are equivalent -/

namespace Run

open Machine (Alike)

variable {α β : Type} {n : Nat} {x y : Nat → Run α}

/-- From states that are alike, `y` ends wherever `x` does, with the same result, and leaves a state
that is alike. -/
def Mimics (n : Nat) (x y : Nat → Run α) : Prop :=
  ∀ ⦃m m' result m₁⦄, Alike n m m' → Ends x m result m₁ →
    ∃ m₁', Ends y m' result m₁' ∧ Alike n m₁ m₁'

/-- From states that are alike, both computations do not end, or they end with the same result and
leave states that are alike. -/
structure Equivalent (n : Nat) (x y : Nat → Run α) : Prop where
  /-- The first one does not depend on a large bound. -/
  left : Steady x
  /-- The second one does not depend on a large bound. -/
  right : Steady y
  /-- The second one ends where the first one does. -/
  forth : Mimics n x y
  /-- The first one ends where the second one does. -/
  back : Mimics n y x

theorem Mimics.bind {f g : α → Nat → Run β} (hx : Steady x) (hf : ∀ a, Steady (f a))
    (hy : Steady y) (hg : ∀ a, Steady (g a)) (hxy : Mimics n x y)
    (hfg : ∀ a, Mimics n (f a) (g a)) :
    Mimics n (fun b ↦ x b >>= fun a ↦ f a b) fun b ↦ y b >>= fun a ↦ g a b := by
  intro m m' result m₁ halike hend
  rcases (ends_bind_iff hx hf).1 hend with ⟨fault, hfault, rfl⟩ | ⟨a, m₂, ha, hrest⟩
  · obtain ⟨m₁', hfault', halike'⟩ := hxy halike hfault
    exact ⟨m₁', (ends_bind_iff hy hg).2 (.inl ⟨fault, hfault', rfl⟩), halike'⟩
  · obtain ⟨m₂', ha', halike'⟩ := hxy halike ha
    obtain ⟨m₁', hrest', halike''⟩ := hfg a halike' hrest
    exact ⟨m₁', (ends_bind_iff hy hg).2 (.inr ⟨a, m₂', ha', hrest'⟩), halike''⟩

/-- The same number of rounds leads to states that are alike. -/
theorem Mimics.exists_rounds {x y : Nat → Run Bool} (hxy : Mimics n x y) {k : Nat}
    {m m₁ m' : Machine} (hrounds : Rounds x k m m₁) (halike : Alike n m m') :
    ∃ m₁', Rounds y k m' m₁' ∧ Alike n m₁ m₁' := by
  induction hrounds generalizing m' with
  | none m => exact ⟨m', .none m', halike⟩
  | more first _ ih =>
    obtain ⟨m₂', first', halike'⟩ := hxy halike first
    obtain ⟨m₁', others', halike''⟩ := ih halike'
    exact ⟨m₁', .more first' others', halike''⟩

theorem Mimics.rounds {x y : Nat → Run Bool} (hx : Steady x) (hy : Steady y)
    (hxy : Mimics n x y) (count : Nat) :
    Mimics n (fun b ↦ rounds (x b) b count) fun b ↦ rounds (y b) b count := by
  intro m m' result m₁ halike hend
  obtain ⟨k, m₂, hrounds, hlast⟩ := (ends_rounds_iff hx).1 hend
  obtain ⟨m₂', hrounds', halike'⟩ := hxy.exists_rounds hrounds halike
  rcases hlast with ⟨hstop, rfl⟩ | ⟨fault, hfault, rfl⟩
  · obtain ⟨m₁', hstop', halike''⟩ := hxy halike' hstop
    exact ⟨m₁', (ends_rounds_iff hy).2 ⟨k, m₂', hrounds', .inl ⟨hstop', rfl⟩⟩, halike''⟩
  · obtain ⟨m₁', hfault', halike''⟩ := hxy halike' hfault
    exact ⟨m₁', (ends_rounds_iff hy).2 ⟨k, m₂', hrounds', .inr ⟨fault, hfault', rfl⟩⟩, halike''⟩

namespace Equivalent

theorem symm (h : Equivalent n x y) : Equivalent n y x :=
  ⟨h.right, h.left, h.back, h.forth⟩

theorem bind {f g : α → Nat → Run β} (hxy : Equivalent n x y)
    (hfg : ∀ a, Equivalent n (f a) (g a)) :
    Equivalent n (fun b ↦ x b >>= fun a ↦ f a b) fun b ↦ y b >>= fun a ↦ g a b where
  left := hxy.left.bind fun a ↦ (hfg a).left
  right := hxy.right.bind fun a ↦ (hfg a).right
  forth := hxy.forth.bind hxy.left (fun a ↦ (hfg a).left) hxy.right (fun a ↦ (hfg a).right)
    fun a ↦ (hfg a).forth
  back := hxy.back.bind hxy.right (fun a ↦ (hfg a).right) hxy.left (fun a ↦ (hfg a).left)
    fun a ↦ (hfg a).back

theorem rounds {x y : Nat → Run Bool} (hxy : Equivalent n x y) (count : Nat) :
    Equivalent n (fun b ↦ rounds (x b) b count) fun b ↦ rounds (y b) b count where
  left := hxy.left.rounds count
  right := hxy.right.rounds count
  forth := hxy.forth.rounds hxy.left hxy.right count
  back := hxy.back.rounds hxy.right hxy.left count

/-- What ends in the same way from the same states may be put in the place of the first one. -/
theorem of_ends_iff {z : Nat → Run α} (hz : Steady z)
    (hiff : ∀ m result m', Ends z m result m' ↔ Ends x m result m') (hxy : Equivalent n x y) :
    Equivalent n z y where
  left := hz
  right := hxy.right
  forth _ _ _ _ halike hend := hxy.forth halike ((hiff _ _ _).1 hend)
  back _ _ _ _ halike hend := by
    obtain ⟨m₁', hend', halike'⟩ := hxy.back halike hend
    exact ⟨m₁', (hiff _ _ _).2 hend', halike'⟩

end Equivalent

/-- Computations without loops, one step at a time. -/
theorem equivalent_of_apply {x y : Run α}
    (h : ∀ m m', Alike n m m' → ∃ result m₁ m₁', x m = some (result, m₁) ∧
      y m' = some (result, m₁') ∧ Alike n m₁ m₁') :
    Equivalent n (fun _ ↦ x) fun _ ↦ y where
  left := steady_const x
  right := steady_const y
  forth m m' result m₂ halike hend := by
    obtain ⟨r, m₁, m₁', hx, hy, halike'⟩ := h m m' halike
    obtain ⟨rfl, rfl⟩ : r = result ∧ m₁ = m₂ := by simpa [hx] using ends_const_iff.1 hend
    exact ⟨m₁', ends_const_iff.2 hy, halike'⟩
  back m m' result m₂ halike hend := by
    obtain ⟨r, m₁, m₁', hx, hy, halike'⟩ := h m' m halike.symm
    obtain ⟨rfl, rfl⟩ : r = result ∧ m₁' = m₂ := by simpa [hy] using ends_const_iff.1 hend
    exact ⟨m₁, ends_const_iff.2 hx, halike'.symm⟩

theorem equivalent_pure (a : α) : Equivalent n (fun _ ↦ pure a) fun _ ↦ pure a :=
  equivalent_of_apply fun m m' halike ↦ ⟨.ok a, m, m', rfl, rfl, halike⟩

theorem equivalent_throw (e : Fault) :
    Equivalent n (fun _ ↦ (throw e : Run α)) fun _ ↦ throw e :=
  equivalent_of_apply fun m m' halike ↦ ⟨.error e, m, m', rfl, rfl, halike⟩

theorem equivalent_cell (id : Nat) : Equivalent n (fun _ ↦ cell id) fun _ ↦ cell id := by
  refine equivalent_of_apply fun m m' halike ↦ ⟨_, m, m', cell_apply id m, ?_, halike⟩
  rw [cell_apply, halike.table]

theorem equivalent_value (id : Nat) : Equivalent n (fun _ ↦ value id) fun _ ↦ value id :=
  (equivalent_cell id).bind fun _ ↦ equivalent_pure _

theorem equivalent_print (line : String) :
    Equivalent n (fun _ ↦ print line) fun _ ↦ print line :=
  equivalent_of_apply fun _ _ halike ↦ ⟨.ok (), _, _, rfl, rfl, halike.table,
    congrArg (·.push line) halike.lines, halike.size⟩

/-- What is noted about an assignment, if its target is there. -/
theorem equivalent_heading {id : Nat} (hid : id < n) :
    Equivalent n (fun _ ↦ cell id >>= fun c ↦ note (.assignment c.name)) fun _ ↦ pure () := by
  refine equivalent_of_apply fun m m' halike ↦ ?_
  obtain ⟨c, hc⟩ : ∃ c, m.table.get? id = some c :=
    ⟨_, Array.getElem?_eq_getElem (halike.size ▸ hid : id < m.table.size)⟩
  refine ⟨.ok (), m.noted (.assignment c.name), m', ?_, rfl, halike.noted _⟩
  rw [bind_apply, cell_apply, hc]
  rfl

namespace Equivalent

theorem discard (h : Equivalent n x y) :
    Equivalent n (fun b ↦ discard (x b)) fun b ↦ discard (y b) := by
  simp only [discard_eq]
  exact h.bind fun _ ↦ equivalent_pure ()

/-- A note in front of the first one makes no difference. -/
theorem note_left (k : Note) (h : Equivalent n x y) :
    Equivalent n (fun b ↦ note k >>= fun _ ↦ x b) y := by
  have hnote : Equivalent n (fun _ ↦ note k) fun _ ↦ pure () :=
    equivalent_of_apply fun m m' halike ↦ ⟨.ok (), m.noted k, m', rfl, rfl, halike.noted k⟩
  simpa only [pure_bind] using hnote.bind fun _ ↦ h

theorem note_right (k : Note) (h : Equivalent n x y) :
    Equivalent n x fun b ↦ note k >>= fun _ ↦ y b :=
  (h.symm.note_left k).symm

end Equivalent

theorem equivalent_store (id : Nat) (v : Int64) :
    Equivalent n (fun _ ↦ store id v) fun _ ↦ store id v :=
  (equivalent_cell id).discard.bind fun _ ↦ equivalent_of_apply fun m _ halike ↦
    ⟨.ok (), _, _, rfl, rfl, congrArg (·.store id v) halike.table, halike.lines,
      (m.table.size_store id v).trans halike.size⟩

end Run

/-! ### Rewriting trees -/

/-- The assignment of a clause as an instruction. -/
def Clause.instructions {α : Type} : Clause α → List (Tree α)
  | .absent => []
  | .assign target expression => [.assignment target expression]

namespace Tree

variable {α : Type} (deep : Bool) (span : Span)

/-- Arms as two arms, of which the second one is taken whenever the first one is not, and makes the
choice among the others. If `deep` is set, the others are rewritten in the same way. -/
def nest : List (Arm α) → List (Arm α)
  | .guarded condition body :: arm :: arms =>
    [.guarded condition body,
      .otherwise (choice (if deep then nest (arm :: arms) else arm :: arms))]
  | arms => arms

mutual

/-- Rewrites a tree and everything below it. A condition of one arm becomes a choice, and a choice
among several arms a choice between the first one and the others. A loop that tests last becomes its
body and a loop that tests first, with the negation written at `span`. A counted loop becomes its
opening and a loop that tests first, with the step behind the body. -/
def desugar : Tree α → Tree α
  | sequence items => sequence (desugarList items)
  | cell id => cell id
  | assignment target expression => assignment target expression.desugar
  | binary op span lhs rhs => binary op span lhs.desugar rhs.desugar
  | unary op span operand => unary op span operand.desugar
  | ifThen condition body => choice [.guarded condition.desugar body.desugar]
  | choice arms => choice (nest deep (desugarArms arms))
  | whileDo condition body => whileDo condition.desugar body.desugar
  | repeatUntil body condition =>
    sequence [body.desugar, whileDo (unary .not span condition.desugar) body.desugar]
  | forLoop init condition step body =>
    sequence ((desugarClause init).instructions ++ [whileDo condition.desugar
      (sequence (body.desugar :: (desugarClause step).instructions))])
  | read cells => read cells
  | write items => write (desugarItems items)

/-- `Tree.desugar` on every tree of a list. -/
def desugarList : List (Tree α) → List (Tree α)
  | [] => []
  | t :: ts => t.desugar :: desugarList ts

/-- `Tree.desugar` inside every arm of a list. -/
def desugarArms : List (Arm α) → List (Arm α)
  | [] => []
  | .guarded condition body :: arms => .guarded condition.desugar body.desugar :: desugarArms arms
  | .otherwise body :: arms => .otherwise body.desugar :: desugarArms arms

/-- `Tree.desugar` inside a clause. -/
def desugarClause : Clause α → Clause α
  | .absent => .absent
  | .assign target expression => .assign target expression.desugar

/-- `Tree.desugar` inside every item of a list. -/
def desugarItems : List (Item α) → List (Item α)
  | [] => []
  | .value expression :: items => .value expression.desugar :: desugarItems items
  | .text contents :: items => .text contents :: desugarItems items

end

end Tree

/-! ### A loop that tests last -/

namespace Tree

open Run

section Rotation

variable (work : Run Unit) (test : Run Int64) (span : Span)

/-- A round that tests the negation goes on where the test does not hold. -/
theorem roundWhile_not :
    roundWhile (test >>= fun v ↦ operate .not span v 0) work =
      test >>= fun v ↦ if truthy v then pure false else work >>= fun _ ↦ pure true := by
  unfold roundWhile
  rw [bind_assoc]
  congr 1
  funext v
  have hnot : truthy (ofTruth !truthy v) = !truthy v := by cases truthy v <;> rfl
  simp only [operate, Operator.value?, pure_bind, hnot]
  cases truthy v <;> rfl

theorem rounds_until_succ (k count : Nat) :
    rounds (work >>= fun _ ↦ test >>= fun v ↦ pure !truthy v) (k + 1) count =
      work >>= fun _ ↦ test >>= fun v ↦ if truthy v then pure count else
        rounds (work >>= fun _ ↦ test >>= fun v ↦ pure !truthy v) k (count + 1) := by
  rw [rounds]
  simp only [bind_assoc, pure_bind]
  congr 1
  funext _
  congr 1
  funext v
  cases truthy v <;> simp

theorem rounds_while_not_succ (k count : Nat) :
    rounds (roundWhile (test >>= fun v ↦ operate .not span v 0) work) (k + 1) count =
      test >>= fun v ↦ if truthy v then pure count else work >>= fun _ ↦
        rounds (roundWhile (test >>= fun v ↦ operate .not span v 0) work) k (count + 1) := by
  rw [rounds]
  nth_rewrite 1 [roundWhile_not]
  rw [bind_assoc]
  congr 1
  funext v
  cases truthy v <;> simp

theorem rounds_until_refines (k count : Nat) :
    Refines (rounds (work >>= fun _ ↦ test >>= fun v ↦ pure !truthy v) k count)
      (work >>= fun _ ↦ rounds (roundWhile (test >>= fun v ↦ operate .not span v 0) work) k
        count) := by
  induction k generalizing count with
  | zero => exact fun _ _ h ↦ nomatch h
  | succ k ih =>
    rw [rounds_until_succ, rounds_while_not_succ]
    refine (Refines.refl work).bind fun _ ↦ (Refines.refl test).bind fun v ↦ ?_
    split
    · exact .refl _
    · exact ih (count + 1)

/-- The other way round the loop that tests last may need one more round. -/
theorem rounds_while_not_refines (k count : Nat) :
    Refines (work >>= fun _ ↦ rounds (roundWhile (test >>= fun v ↦ operate .not span v 0) work) k
      count) (rounds (work >>= fun _ ↦ test >>= fun v ↦ pure !truthy v) (k + 1) count) := by
  induction k generalizing count with
  | zero =>
    -- without a round that is left, only a fault of the work in front can be the end
    rw [rounds_until_succ]
    exact (Refines.refl work).bind fun _ _ _ h ↦ nomatch h
  | succ k ih =>
    rw [rounds_until_succ, rounds_while_not_succ]
    refine (Refines.refl work).bind fun _ ↦ (Refines.refl test).bind fun v ↦ ?_
    split
    · exact .refl _
    · exact ih (count + 1)

end Rotation

/-- A loop that tests last runs its body once, and goes on like a loop that tests first. -/
theorem ends_until_iff_ends_while_not {work : Nat → Run Unit} {test : Nat → Run Int64}
    (hwork : Steady work) (htest : Steady test) (span : Span) {m m' : Machine} {count : Nat}
    {result : Except Fault Nat} :
    Ends (fun b ↦ rounds (work b >>= fun _ ↦ test b >>= fun v ↦ pure !truthy v) b count)
        m result m' ↔
      Ends (fun b ↦ work b >>= fun _ ↦
        rounds (roundWhile (test b >>= fun v ↦ operate .not span v 0) (work b)) b count)
        m result m' := by
  have hround : Steady fun b ↦ work b >>= fun _ ↦ test b >>= fun v ↦ (pure !truthy v : Run Bool) :=
    hwork.bind fun _ ↦ htest.bind fun _ ↦ steady_const _
  constructor
  · rintro ⟨b, hb⟩
    exact ⟨b, rounds_until_refines _ _ span b count m _ hb⟩
  · rintro ⟨b, hb⟩
    exact ⟨b + 1, (hround b.le_succ).rounds le_rfl count m _
      (rounds_while_not_refines _ _ span b count m _ hb)⟩

/-! ### Evaluation -/

section Equivalent

variable {n : Nat} {test test' : Nat → Run Int64} {work work' : Nat → Run Unit}

theorem equivalent_operate (op : Operator) (span : Span) (a b : Int64) :
    Equivalent n (fun _ ↦ operate op span a b) fun _ ↦ operate op span a b := by
  unfold operate
  split
  · exact equivalent_pure _
  · exact equivalent_throw _

theorem equivalent_branch (htest : Equivalent n test test') (hwork : Equivalent n work work')
    {other other' : Nat → Run Unit} (hother : Equivalent n other other') :
    Equivalent n (fun b ↦ test b >>= fun v ↦ if truthy v then work b else other b)
      fun b ↦ test' b >>= fun v ↦ if truthy v then work' b else other' b := by
  refine htest.bind fun v ↦ ?_
  cases truthy v
  · exact hother
  · exact hwork

theorem equivalent_roundWhile (htest : Equivalent n test test') (hwork : Equivalent n work work') :
    Equivalent n (fun b ↦ roundWhile (test b) (work b)) fun b ↦ roundWhile (test' b) (work' b) := by
  refine htest.bind fun v ↦ ?_
  cases truthy v
  · exact equivalent_pure _
  · exact hwork.bind fun _ ↦ equivalent_pure _

theorem equivalent_showCells : ∀ ids : List Nat,
    Equivalent n (fun _ ↦ showCells ids) fun _ ↦ showCells ids
  | [] => equivalent_pure _
  | id :: ids => (equivalent_value id).bind fun _ ↦ (equivalent_print _).bind fun _ ↦
      equivalent_showCells ids

/-- A clause and an assignment: the assignment is noted, and does what the clause does. -/
theorem equivalent_assignment {target : Nat} {expression : Tree Nat} (htarget : target < n)
    (h : Equivalent n work fun b ↦ evalClause b (.assign target expression)) :
    Equivalent n (fun b ↦ work b >>= fun _ ↦ pure 0)
      fun b ↦ eval b (assignment target expression) := by
  have heval (b : Nat) : eval b (assignment target expression) =
      (Run.cell target >>= fun c ↦ note (.assignment c.name)) >>= fun _ ↦
        evalClause b (.assign target expression) >>= fun _ ↦ pure 0 := by
    simp only [eval, evalClause, bind_assoc]
  simp only [heval]
  have hend := (equivalent_heading htarget).symm.bind fun _ ↦ h.bind fun _ ↦
    equivalent_pure (0 : Int64)
  simpa only [pure_bind] using hend

theorem eval_sequence_cons (bound : Nat) (t : Tree Nat) (ts : List (Tree Nat)) :
    eval bound (sequence (t :: ts)) =
      discard (eval bound t) >>= fun _ ↦ eval bound (sequence ts) := by
  simp only [eval, evalList, bind_assoc]

/-- A clause and the instructions for it, with something behind them. -/
theorem equivalent_instructions {deep : Bool} {span : Span} {clause : Clause Nat}
    {ts : List (Tree Nat)} {rest : Nat → Run Int64}
    (hassigned : ∀ id ∈ assignedClause clause, id < n)
    (h : Equivalent n (fun b ↦ evalClause b clause)
      fun b ↦ evalClause b (desugarClause deep span clause))
    (hrest : Equivalent n rest fun b ↦ eval b (sequence ts)) :
    Equivalent n (fun b ↦ evalClause b clause >>= fun _ ↦ rest b)
      fun b ↦ eval b (sequence ((desugarClause deep span clause).instructions ++ ts)) := by
  cases clause with
  | absent =>
    simpa only [evalClause, desugarClause, pure_bind, Clause.instructions, List.nil_append]
      using hrest
  | assign target expression =>
    have hassignment := equivalent_assignment (hassigned target List.mem_cons_self) h
    have hend := hassignment.discard.bind fun _ ↦ hrest
    simpa only [discard_eq, bind_assoc, pure_bind, desugarClause, Clause.instructions,
      List.cons_append, List.nil_append, eval_sequence_cons] using hend

theorem discard_bind_pure (x : Run Unit) (v : Int64) : discard (x >>= fun _ ↦ pure v) = x := by
  simp only [discard_eq, bind_assoc, pure_bind, bind_pure_unit]

/-- A loop that tests first, whatever it is called in the end. -/
theorem equivalent_whileDo {condition body : Tree Nat} (keyword : Keyword)
    (htest : Equivalent n test fun b ↦ eval b condition)
    (hwork : Equivalent n work fun b ↦ discard (eval b body)) :
    Equivalent n
      (fun b ↦ rounds (roundWhile (test b) (work b)) b 0 >>= fun count ↦
        note (.finished keyword count) >>= fun _ ↦ pure 0)
      fun b ↦ eval b (whileDo condition body) :=
  (((equivalent_roundWhile htest hwork).rounds 0).bind fun _ ↦
    ((equivalent_pure 0).note_left _).note_right _).note_right _

/-- An instruction at the end of a sequence. -/
theorem equivalent_singleton {rest : Nat → Run Int64} {t : Tree Nat}
    (h : Equivalent n rest fun b ↦ eval b t) :
    Equivalent n (fun b ↦ rest b >>= fun _ ↦ pure 0) fun b ↦ eval b (sequence [t]) := by
  have hend := h.bind fun _ ↦ equivalent_pure (0 : Int64)
  simpa only [eval, evalList, discard_eq, bind_assoc, pure_bind] using hend

theorem equivalent_choice {arms : List (Arm Nat)} (h : Equivalent n work fun b ↦ evalArms b arms) :
    Equivalent n (fun b ↦ work b >>= fun _ ↦ pure 0) fun b ↦ eval b (choice arms) :=
  (h.bind fun _ ↦ equivalent_pure 0).note_right _

/-- A condition and a choice of one arm. -/
theorem equivalent_ifThen {condition condition' body body' : Tree Nat}
    (hcondition : Equivalent n (fun b ↦ eval b condition) fun b ↦ eval b condition')
    (hbody : Equivalent n (fun b ↦ eval b body) fun b ↦ eval b body') :
    Equivalent n (fun b ↦ eval b (ifThen condition body))
      fun b ↦ eval b (choice [.guarded condition' body']) := by
  have hbranch := equivalent_branch hcondition hbody.discard (equivalent_pure ())
  have heval (b : Nat) : eval b (ifThen condition body) = note .ifThen >>= fun _ ↦
      (condition.eval b >>= fun v ↦ if truthy v then discard (body.eval b) else pure ()) >>=
        fun _ ↦ pure 0 := by
    simp only [eval, bind_assoc]
    congr 1
    funext _
    congr 1
    funext v
    cases truthy v <;> simp
  simp only [heval]
  exact (equivalent_choice hbranch).note_left _

/-- The first arm of a choice, and the others inside of an arm of their own. -/
theorem equivalent_nest {deep : Bool} {condition body : Tree Nat} {arms : List (Arm Nat)}
    {others : Nat → Run Unit} (htest : Equivalent n test fun b ↦ eval b condition)
    (hwork : Equivalent n work fun b ↦ discard (eval b body))
    (harms : Equivalent n others fun b ↦ evalArms b arms)
    (hnest : Equivalent n others fun b ↦ evalArms b (nest deep arms)) :
    Equivalent n (fun b ↦ test b >>= fun v ↦ if truthy v then work b else others b)
      fun b ↦ evalArms b (nest deep (.guarded condition body :: arms)) := by
  cases arms with
  | nil => exact equivalent_branch htest hwork harms
  | cons arm arms =>
    have hinner : Equivalent n others
        fun b ↦ evalArms b (if deep then nest deep (arm :: arms) else arm :: arms) := by
      cases deep
      · exact harms
      · exact hnest
    have hchoice := (equivalent_choice hinner).discard
    simp only [discard_bind_pure] at hchoice
    exact equivalent_branch htest hwork hchoice

/-- A loop that tests last. -/
theorem equivalent_repeatUntil {body body' condition condition' : Tree Nat} (span : Span)
    (hbody : Equivalent n (fun b ↦ eval b body) fun b ↦ eval b body')
    (hcondition : Equivalent n (fun b ↦ eval b condition) fun b ↦ eval b condition') :
    Equivalent n (fun b ↦ eval b (repeatUntil body condition))
      fun b ↦ eval b (sequence [body', whileDo (unary .not span condition') body']) := by
  -- the loop is turned into one that tests first while its parts are still the old ones
  have hnot := hcondition.bind fun v ↦ equivalent_operate .not span v 0
  have hround := equivalent_roundWhile hnot hbody.discard
  have hsteady : Steady fun b ↦ rounds (discard (eval b body) >>= fun _ ↦
      eval b condition >>= fun v ↦ pure !truthy v) b 0 :=
    (hbody.discard.left.bind fun _ ↦ hcondition.left.bind fun _ ↦ steady_const _).rounds 0
  have hloop := (hbody.discard.bind fun _ ↦ (hround.rounds 0).note_right .whileDo).of_ends_iff
    hsteady fun _ _ _ ↦ ends_until_iff_ends_while_not hbody.discard.left hcondition.left span
  have hend := (hloop.bind fun again ↦
    ((equivalent_pure (0 : Int64)).note_left (.finished .repeter (again + 1))).note_right
      (.finished .tantque again)).note_left .repeatUntil
  simpa only [eval, evalList, discard_eq, bind_assoc, pure_bind] using hend

/-- A counted loop. -/
theorem equivalent_forLoop {deep : Bool} {span : Span} {init step : Clause Nat}
    {condition condition' body body' : Tree Nat}
    (hassigned : ∀ id ∈ assignedClause init ++ assignedClause step, id < n)
    (hinit : Equivalent n (fun b ↦ evalClause b init)
      fun b ↦ evalClause b (desugarClause deep span init))
    (hcondition : Equivalent n (fun b ↦ eval b condition) fun b ↦ eval b condition')
    (hstep : Equivalent n (fun b ↦ evalClause b step)
      fun b ↦ evalClause b (desugarClause deep span step))
    (hbody : Equivalent n (fun b ↦ eval b body) fun b ↦ eval b body') :
    Equivalent n (fun b ↦ eval b (forLoop init condition step body))
      fun b ↦ eval b (sequence ((desugarClause deep span init).instructions ++ [whileDo condition'
        (sequence (body' :: (desugarClause deep span step).instructions))])) := by
  obtain ⟨hinits, hsteps⟩ := List.forall_mem_append.1 hassigned
  have hwork : Equivalent n (fun b ↦ discard (eval b body) >>= fun _ ↦ evalClause b step)
      fun b ↦ discard
        (eval b (sequence (body' :: (desugarClause deep span step).instructions))) := by
    -- behind the step nothing is left of the new body
    have hempty : Equivalent n (fun _ ↦ pure 0) fun b ↦ eval b (sequence []) := equivalent_pure 0
    have hend := (hbody.discard.bind fun _ ↦ equivalent_instructions hsteps hstep hempty).discard
    simpa only [List.append_nil, ← eval_sequence_cons, ← bind_assoc, discard_bind_pure] using hend
  have hloop := equivalent_singleton (equivalent_whileDo .pour hcondition hwork)
  have hend := (equivalent_instructions hinits hinit hloop).note_left .forLoop
  simpa only [eval, bind_assoc, pure_bind] using hend

end Equivalent

section Desugar

variable {n : Nat} (deep : Bool) (span : Span)

mutual

/-- The evaluation of a tree and that of the rewritten one. -/
theorem eval_desugar : ∀ t : Tree Nat, (∀ id ∈ t.assigned, id < n) →
    Equivalent n (fun b ↦ eval b t) fun b ↦ eval b (t.desugar deep span)
  | sequence items => fun h ↦ (evalList_desugar items h).bind fun _ ↦ equivalent_pure _
  | cell id => fun _ ↦ equivalent_value id
  | assignment target expression => fun h ↦ by
    have hexpression := eval_desugar expression (List.forall_mem_cons.1 h).2
    have hstore := hexpression.bind fun v ↦ (equivalent_store target v).bind fun _ ↦
      equivalent_pure (0 : Int64)
    exact (equivalent_cell target).bind fun _ ↦ (hstore.note_left _).note_right _
  | binary op span' lhs rhs => fun h ↦ by
    obtain ⟨hlhs, hrhs⟩ := List.forall_mem_append.1 h
    refine (eval_desugar lhs hlhs).bind fun a ↦ Run.Equivalent.bind ?_ fun b ↦
      equivalent_operate op span' a b
    unfold rightOperand
    split
    · exact equivalent_pure _
    · exact eval_desugar rhs hrhs
  | unary op span' operand => fun h ↦
    (eval_desugar operand h).bind fun a ↦ equivalent_operate op span' a 0
  | ifThen condition body => fun h ↦ by
    obtain ⟨hcondition, hbody⟩ := List.forall_mem_append.1 h
    exact equivalent_ifThen (eval_desugar condition hcondition) (eval_desugar body hbody)
  | choice arms => fun h ↦
    (((evalArms_desugar arms h).2.bind fun _ ↦ equivalent_pure 0).note_left _).note_right _
  | whileDo condition body => fun h ↦ by
    obtain ⟨hcondition, hbody⟩ := List.forall_mem_append.1 h
    exact (equivalent_whileDo .tantque (eval_desugar condition hcondition)
      (eval_desugar body hbody).discard).note_left _
  | repeatUntil body condition => fun h ↦ by
    obtain ⟨hbody, hcondition⟩ := List.forall_mem_append.1 h
    exact equivalent_repeatUntil span (eval_desugar body hbody) (eval_desugar condition hcondition)
  | forLoop init condition step body => fun h ↦ by
    obtain ⟨hinit, h⟩ := List.forall_mem_append.1 h
    obtain ⟨hcondition, h⟩ := List.forall_mem_append.1 h
    obtain ⟨hstep, hbody⟩ := List.forall_mem_append.1 h
    exact equivalent_forLoop (List.forall_mem_append.2 ⟨hinit, hstep⟩)
      (evalClause_desugar init hinit) (eval_desugar condition hcondition)
      (evalClause_desugar step hstep) (eval_desugar body hbody)
  | read cells => fun _ ↦
    (((equivalent_showCells cells).bind fun _ ↦ equivalent_pure 0).note_left _).note_right _
  | write items => fun h ↦
    (((evalItems_desugar items h).bind fun _ ↦ equivalent_pure 0).note_left _).note_right _
termination_by structural t => t

theorem evalList_desugar : ∀ ts : List (Tree Nat), (∀ id ∈ assignedAll ts, id < n) →
    Equivalent n (fun b ↦ evalList b ts) fun b ↦ evalList b (desugarList deep span ts)
  | [] => fun _ ↦ equivalent_pure ()
  | t :: ts => fun h ↦ by
    obtain ⟨ht, hts⟩ := List.forall_mem_append.1 h
    exact (eval_desugar t ht).discard.bind fun _ ↦ evalList_desugar ts hts
termination_by structural ts => ts

/-- Arms that are rewritten one by one, and all together. -/
theorem evalArms_desugar : ∀ arms : List (Arm Nat), (∀ id ∈ assignedArms arms, id < n) →
    Equivalent n (fun b ↦ evalArms b arms) (fun b ↦ evalArms b (desugarArms deep span arms)) ∧
      Equivalent n (fun b ↦ evalArms b arms)
        fun b ↦ evalArms b (nest deep (desugarArms deep span arms))
  | [] => fun _ ↦ ⟨equivalent_pure (), equivalent_pure ()⟩
  | .guarded condition body :: arms => fun h ↦ by
    obtain ⟨hcondition, h⟩ := List.forall_mem_append.1 h
    obtain ⟨hbody, harms⟩ := List.forall_mem_append.1 h
    have htest := eval_desugar condition hcondition
    have hwork := (eval_desugar body hbody).discard
    obtain ⟨hplain, hnested⟩ := evalArms_desugar arms harms
    exact ⟨equivalent_branch htest hwork hplain, equivalent_nest htest hwork hplain hnested⟩
  | .otherwise body :: arms => fun h ↦ by
    have hbody := eval_desugar body (List.forall_mem_append.1 h).1
    exact ⟨hbody.discard, hbody.discard⟩
termination_by structural arms => arms

theorem evalClause_desugar : ∀ clause : Clause Nat, (∀ id ∈ assignedClause clause, id < n) →
    Equivalent n (fun b ↦ evalClause b clause)
      fun b ↦ evalClause b (desugarClause deep span clause)
  | .absent => fun _ ↦ equivalent_pure ()
  | .assign target expression => fun h ↦
    (eval_desugar expression (List.forall_mem_cons.1 h).2).bind fun v ↦ equivalent_store target v
termination_by structural clause => clause

theorem evalItems_desugar : ∀ items : List (Item Nat), (∀ id ∈ assignedItems items, id < n) →
    Equivalent n (fun b ↦ evalItems b items) fun b ↦ evalItems b (desugarItems deep span items)
  | [] => fun _ ↦ equivalent_pure ()
  | .value expression :: items => fun h ↦ by
    obtain ⟨hexpression, hitems⟩ := List.forall_mem_append.1 h
    exact (eval_desugar expression hexpression).bind fun _ ↦ (equivalent_print _).bind fun _ ↦
      evalItems_desugar items hitems
  | .text contents :: items => fun h ↦
    (equivalent_print contents).bind fun _ ↦ evalItems_desugar items h
termination_by structural items => items

end

/-- A tree whose targets are all in the table and the rewritten tree both run for ever, or both end,
with the same result, the same table and the same lines. -/
theorem desugar_sound (t : Tree Nat) (m : Machine)
    (hassigned : ∀ id ∈ t.assigned, id < m.table.size) :
    (∀ bound, t.run bound m = none ∧ (t.desugar deep span).run bound m = none) ∨
      ∃ result m₁ m₂, t.Finishes m result m₁ ∧ (t.desugar deep span).Finishes m result m₂ ∧
        m₁.table = m₂.table ∧ m₁.lines = m₂.lines := by
  have hequivalent := eval_desugar deep span t hassigned
  have halike : m.Alike m.table.size m := ⟨rfl, rfl, rfl⟩
  by_cases hends : ∃ result m₁, t.Finishes m result m₁
  · obtain ⟨result, m₁, hend⟩ := hends
    obtain ⟨m₂, hend', halike'⟩ := hequivalent.forth halike hend
    exact .inr ⟨result, m₁, m₂, hend, hend', halike'.table, halike'.lines⟩
  · refine .inl fun bound ↦ ⟨Option.eq_none_iff_forall_not_mem.2 ?_,
      Option.eq_none_iff_forall_not_mem.2 ?_⟩
    · exact fun r hr ↦ hends ⟨r.1, r.2, bound, hr⟩
    · intro r hr
      obtain ⟨m₁, hend, -⟩ := hequivalent.back halike ⟨bound, hr⟩
      exact hends ⟨r.1, m₁, hend⟩

/-- A counted loop around a loop that tests last and a choice among three arms. Its step divides by
zero, and so does that of the rewritten loop. -/
theorem desugar_sound_division :
    let span : Span := ⟨{}, {}, Nat.le_refl _⟩
    let table : Table := { cells := #[(Symbol.var "i").cell, (Symbol.literal "0" 0).cell,
      (Symbol.literal "1" 1).cell] }
    let t : Tree Nat := .forLoop (.assign 0 (.cell 2)) (.cell 0)
      (.assign 0 (.binary .divide span (.cell 2) (.cell 1)))
      (.repeatUntil (.choice [.guarded (.cell 1) (.read [1]), .guarded (.cell 0) (.read [0]),
        .otherwise (.write [.text "none"])]) (.cell 2))
    ∃ m', (t.desugar true span).Finishes { table } (.error (.divisionByZero span)) m' ∧
      m'.table = table.store 0 1 ∧ m'.lines = #["1"] := by
  intro span table t
  let m₁ : Machine := { table := table.store 0 1, lines := #["1"], notes :=
    #[.forLoop, .repeatUntil, .choice 3, .read 1, .finished .repeter 1] }
  have hrun : t.run 2 { table } = some (.error (.divisionByZero span), m₁) := by decide +kernel
  have hassigned : ∀ id ∈ t.assigned, id < table.size := by decide +kernel
  rcases desugar_sound true span t { table } hassigned with
    hnone | ⟨_, _, m₂, h, h', htable, hlines⟩
  · cases (hnone 2).1.symm.trans hrun
  · obtain ⟨rfl, rfl⟩ := h.unique ⟨2, hrun⟩
    exact ⟨m₂, h', htable.symm, hlines.symm⟩

end Desugar

end Tree

end Pseudocode

import Pseudocode.Evaluation

/-!
# Larger bounds

The bound on the rounds of loops only matters to runs that do not end within it: a run that ends
does so in the same way under every larger bound.

## Main definitions

* `Run.Refines`: one computation ends wherever another one does, in the same way.

## Main results

* `Tree.eval_refines`: evaluation under a larger bound refines evaluation under a smaller one.
* `Tree.run_eq_of_le`: a result stays the same under every larger bound.
-/

namespace Pseudocode

namespace Run

variable {α β : Type}

/-- `y` ends wherever `x` does, with the same result and the same state. -/
def Refines (x y : Run α) : Prop :=
  ∀ m r, x m = some r → y m = some r

/-- One computation after the other: a fault of the first ends both. -/
theorem bind_apply (x : Run α) (f : α → Run β) (m : Machine) :
    (x >>= f) m =
      match x m with
      | none => none
      | some (.ok a, m) => f a m
      | some (.error e, m) => some (.error e, m) := by
  change (ExceptT.bind x f) m = _
  simp only [ExceptT.bind, ExceptT.mk, StateT.bind, bind]
  cases x m with
  | none => rfl
  | some r =>
    rcases r with ⟨a | e, m⟩ <;> rfl

theorem discard_eq (x : Run α) : discard x = x >>= fun _ ↦ pure () := by
  funext m
  rw [bind_apply]
  simp only [discard, Functor.discard, Functor.mapConst, Function.comp, ExceptT.map]
  simp only [ExceptT.mk, StateT.bind, bind]
  cases x m with
  | none => rfl
  | some r =>
    rcases r with ⟨a | e, m⟩ <;> rfl

theorem Refines.refl (x : Run α) : Refines x x := fun _ _ h ↦ h

theorem Refines.bind {x y : Run α} {f g : α → Run β} (hxy : Refines x y)
    (hfg : ∀ a, Refines (f a) (g a)) : Refines (x >>= f) (y >>= g) := by
  intro m r h
  rw [bind_apply] at h ⊢
  cases hx : x m with
  | none => simp [hx] at h
  | some s =>
    rw [hx] at h
    rw [hxy m s hx]
    rcases s with ⟨a | e, m⟩
    · exact h
    · exact hfg _ _ _ h

theorem Refines.discard {x y : Run α} (h : Refines x y) : Refines (discard x) (discard y) := by
  rw [discard_eq, discard_eq]
  exact h.bind fun _ ↦ .refl _

theorem Refines.rounds {x y : Run Bool} (h : Refines x y) {bound bound' : Nat}
    (hle : bound ≤ bound') (count : Nat) :
    Refines (rounds x bound count) (rounds y bound' count) := by
  induction bound generalizing bound' count with
  | zero =>
    intro m r hr
    cases hr
  | succ bound ih =>
    obtain ⟨bound', rfl⟩ : ∃ n, bound' = n + 1 := ⟨bound' - 1, by omega⟩
    refine h.bind fun again ↦ ?_
    split
    · exact ih (by omega) _
    · exact .refl _

end Run

namespace Tree

open Run

theorem roundWhile_refines {test test' : Run Int64} {body body' : Run Unit}
    (htest : Refines test test') (hbody : Refines body body') :
    Refines (roundWhile test body) (roundWhile test' body') := by
  refine htest.bind fun v ↦ ?_
  split
  · exact hbody.bind fun _ ↦ .refl _
  · exact .refl _

mutual

theorem eval_refines {bound bound' : Nat} (h : bound ≤ bound') :
    ∀ t, Refines (eval bound t) (eval bound' t)
  | sequence items => (evalList_refines h items).bind fun _ ↦ .refl _
  | cell _ => .refl _
  | assignment _ expression =>
    (Refines.refl _).bind fun _ ↦ (Refines.refl _).bind fun _ ↦
      (eval_refines h expression).bind fun _ ↦ .refl _
  | binary op _ lhs rhs => by
    refine (eval_refines h lhs).bind fun _ ↦ Refines.bind ?_ fun _ ↦ .refl _
    unfold rightOperand
    split
    · exact .refl _
    · exact eval_refines h rhs
  | unary _ _ operand => (eval_refines h operand).bind fun _ ↦ .refl _
  | ifThen condition body => by
    refine (Refines.refl _).bind fun _ ↦ (eval_refines h condition).bind fun v ↦ ?_
    split
    · exact (eval_refines h body).discard.bind fun _ ↦ .refl _
    · exact .refl _
  | choice arms => (Refines.refl _).bind fun _ ↦ (evalArms_refines h arms).bind fun _ ↦ .refl _
  | whileDo condition body =>
    (Refines.refl _).bind fun _ ↦
      ((roundWhile_refines (eval_refines h condition) (eval_refines h body).discard).rounds h
        0).bind fun _ ↦ .refl _
  | repeatUntil body condition =>
    (Refines.refl _).bind fun _ ↦
      (Refines.rounds ((eval_refines h body).discard.bind fun _ ↦
        (eval_refines h condition).bind fun _ ↦ .refl _) h 0).bind fun _ ↦ .refl _
  | forLoop init condition step body =>
    (Refines.refl _).bind fun _ ↦ (evalClause_refines h init).bind fun _ ↦
      ((roundWhile_refines (eval_refines h condition)
        ((eval_refines h body).discard.bind fun _ ↦ evalClause_refines h step)).rounds h 0).bind
          fun _ ↦ .refl _
  | read _ => .refl _
  | write items => (Refines.refl _).bind fun _ ↦ (evalItems_refines h items).bind fun _ ↦ .refl _
termination_by structural t => t

theorem evalList_refines {bound bound' : Nat} (h : bound ≤ bound') :
    ∀ ts, Refines (evalList bound ts) (evalList bound' ts)
  | [] => .refl _
  | t :: ts => (eval_refines h t).discard.bind fun _ ↦ evalList_refines h ts
termination_by structural ts => ts

theorem evalArms_refines {bound bound' : Nat} (h : bound ≤ bound') :
    ∀ arms, Refines (evalArms bound arms) (evalArms bound' arms)
  | [] => .refl _
  | .guarded condition body :: arms => by
    refine (eval_refines h condition).bind fun v ↦ ?_
    split
    · exact (eval_refines h body).discard
    · exact evalArms_refines h arms
  | .otherwise body :: _ => (eval_refines h body).discard
termination_by structural arms => arms

theorem evalClause_refines {bound bound' : Nat} (h : bound ≤ bound') :
    ∀ c, Refines (evalClause bound c) (evalClause bound' c)
  | .absent => .refl _
  | .assign _ expression => (eval_refines h expression).bind fun _ ↦ .refl _
termination_by structural c => c

theorem evalItems_refines {bound bound' : Nat} (h : bound ≤ bound') :
    ∀ items, Refines (evalItems bound items) (evalItems bound' items)
  | [] => .refl _
  | .value expression :: items =>
    (eval_refines h expression).bind fun _ ↦ (Refines.refl _).bind fun _ ↦ evalItems_refines h items
  | .text _ :: items => (Refines.refl _).bind fun _ ↦ evalItems_refines h items
termination_by structural items => items

end

/-- A result stays the same under every larger bound. -/
theorem run_eq_of_le {tree : Tree Nat} {bound bound' : Nat} {m : Machine}
    {r : Except Fault Int64 × Machine} (h : bound ≤ bound') (hr : tree.run bound m = some r) :
    tree.run bound' m = some r :=
  eval_refines h tree m r hr

end Tree

end Pseudocode

import Pseudocode.Proofs.Footprint

/-!
# How computations end

A machine bounds the rounds of its loops, but a bound only matters to a computation that does not
end within it. So a computation, given for each bound, ends in one way at most. This file tells how
computations end in terms of how their parts end: one after the other, and again and again.

## Main definitions

* `Run.Steady`: computations that do not depend on a bound that is large enough.
* `Run.Ends`: how a computation ends under some bound.
* `Run.Rounds`: rounds of a loop that lead from one state to another.
* `Tree.Finishes`, `Tree.ClauseFinishes`: how the evaluation of a tree or a clause ends.

## Main results

* `Run.Ends.unique`: a computation ends in one way at most.
* `Run.ends_bind_iff`: how two computations in order end.
* `Run.ends_rounds_iff`: how a loop ends.
-/

namespace Pseudocode

namespace Run

variable {α β : Type} {x : Nat → Run α} {m m' m₁ m₂ : Machine}

/-- A larger bound changes no result. -/
def Steady (x : Nat → Run α) : Prop :=
  ∀ ⦃b b' : Nat⦄, b ≤ b' → Refines (x b) (x b')

/-- Under some bound the computation ends with `result` and leaves the state `m'`. -/
def Ends (x : Nat → Run α) (m : Machine) (result : Except Fault α) (m' : Machine) : Prop :=
  ∃ bound, x bound m = some (result, m')

theorem steady_const (y : Run α) : Steady fun _ ↦ y :=
  fun _ _ _ ↦ .refl y

theorem Steady.bind {f : α → Nat → Run β} (hx : Steady x) (hf : ∀ a, Steady (f a)) :
    Steady fun b ↦ x b >>= fun a ↦ f a b :=
  fun _ _ hle ↦ (hx hle).bind fun a ↦ hf a hle

theorem Steady.discard (hx : Steady x) : Steady fun b ↦ discard (x b) :=
  fun _ _ hle ↦ (hx hle).discard

theorem Steady.rounds {x : Nat → Run Bool} (hx : Steady x) (count : Nat) :
    Steady fun b ↦ rounds (x b) b count :=
  fun _ _ hle ↦ (hx hle).rounds hle count

/-- A computation ends in one way at most. Two ends are compared under a bound that is large enough
for both. -/
theorem Ends.unique {result result' : Except Fault α} (hx : Steady x) (h : Ends x m result m₁)
    (h' : Ends x m result' m₂) : result = result' ∧ m₁ = m₂ := by
  obtain ⟨b, hb⟩ := h
  obtain ⟨b', hb'⟩ := h'
  have hlarge := hx (Nat.le_max_left b b') m _ hb
  have hlarge' := hx (Nat.le_max_right b b') m _ hb'
  simpa using hlarge.symm.trans hlarge'

theorem ends_const_iff {y : Run α} {result : Except Fault α} :
    Ends (fun _ ↦ y) m result m' ↔ y m = some (result, m') :=
  ⟨fun ⟨_, h⟩ ↦ h, fun h ↦ ⟨0, h⟩⟩

theorem ends_pure_iff {a : α} {result : Except Fault α} :
    Ends (fun _ ↦ pure a) m result m' ↔ result = .ok a ∧ m' = m := by
  rw [ends_const_iff, show (pure a : Run α) m = some (.ok a, m) from rfl]
  simp [eq_comm]

/-! ### One after the other -/

/-- Two computations in order end with a fault of the first, or as the second does behind the
first. -/
theorem ends_bind_iff {f : α → Nat → Run β} (hx : Steady x) (hf : ∀ a, Steady (f a))
    {result : Except Fault β} :
    Ends (fun b ↦ x b >>= fun a ↦ f a b) m result m' ↔
      (∃ fault, Ends x m (.error fault) m' ∧ result = .error fault) ∨
        ∃ a m₁, Ends x m (.ok a) m₁ ∧ Ends (f a) m₁ result m' := by
  constructor
  · rintro ⟨b, hb⟩
    rcases bind_eq_some hb with ⟨fault, hfault, hresult⟩ | ⟨a, m₁, ha, hrest⟩
    · exact .inl ⟨fault, ⟨b, hfault⟩, hresult⟩
    · exact .inr ⟨a, m₁, ⟨b, ha⟩, b, hrest⟩
  · rintro (⟨fault, ⟨b, hb⟩, rfl⟩ | ⟨a, m₁, ⟨b, hb⟩, b', hb'⟩)
    · refine ⟨b, ?_⟩
      beta_reduce
      rw [bind_apply, hb]
    · refine ⟨max b b', ?_⟩
      beta_reduce
      rw [bind_apply, hx (Nat.le_max_left b b') m _ hb]
      exact hf a (Nat.le_max_right b b') m₁ _ hb'

/-- A note in front is taken, whatever follows. -/
theorem ends_note_bind_iff {n : Note} {f : Unit → Nat → Run β} {result : Except Fault β} :
    Ends (fun b ↦ note n >>= fun a ↦ f a b) m result m' ↔ Ends (f ()) (m.noted n) result m' :=
  Iff.rfl

/-- A result that is only looked at. -/
theorem ends_bind_pure_iff {g : α → β} {result : Except Fault β} :
    Ends (fun b ↦ x b >>= fun a ↦ pure (g a)) m result m' ↔
      ∃ r, Ends x m r m' ∧ result = r.map g := by
  constructor
  · rintro ⟨b, hb⟩
    rcases bind_eq_some hb with ⟨fault, hfault, rfl⟩ | ⟨a, m₁, ha, hrest⟩
    · exact ⟨_, ⟨b, hfault⟩, rfl⟩
    · cases hrest
      exact ⟨_, ⟨b, ha⟩, rfl⟩
  · rintro ⟨r, ⟨b, hb⟩, rfl⟩
    refine ⟨b, ?_⟩
    beta_reduce
    rw [bind_apply, hb]
    cases r <;> rfl

theorem ends_discard_iff {result : Except Fault Unit} :
    Ends (fun b ↦ discard (x b)) m result m' ↔
      ∃ r, Ends x m r m' ∧ result = r.map fun _ ↦ () := by
  simp only [discard_eq]
  exact ends_bind_pure_iff

/-! ### Again and again -/

/-- So many rounds, each of which asks for another one, lead from one state to the other. -/
inductive Rounds (x : Nat → Run Bool) : Nat → Machine → Machine → Prop
  | none (m : Machine) : Rounds x 0 m m
  | more {n : Nat} {m m₁ m' : Machine} (first : Ends x m (.ok true) m₁)
      (others : Rounds x n m₁ m') : Rounds x (n + 1) m m'

/-- A loop ends with the round that does not ask for another one, and tells how many rounds came
before, or it ends with the round that fails. -/
theorem ends_rounds_iff {x : Nat → Run Bool} (hx : Steady x) {count : Nat}
    {result : Except Fault Nat} :
    Ends (fun b ↦ rounds (x b) b count) m result m' ↔ ∃ n m₁, Rounds x n m m₁ ∧
      (Ends x m₁ (.ok false) m' ∧ result = .ok (count + n) ∨
        ∃ fault, Ends x m₁ (.error fault) m' ∧ result = .error fault) := by
  constructor
  · rintro ⟨b, hb⟩
    -- the induction is on the rounds that are left, while the bound of a single round stays
    suffices along : ∀ k count m, rounds (x b) k count m = some (result, m') →
        ∃ n m₁, Rounds x n m m₁ ∧ (Ends x m₁ (.ok false) m' ∧ result = .ok (count + n) ∨
          ∃ fault, Ends x m₁ (.error fault) m' ∧ result = .error fault) from along b count m hb
    intro k
    induction k with
    | zero => exact fun _ _ h ↦ nomatch h
    | succ k ih =>
      intro count m h
      rcases bind_eq_some h with ⟨fault, hfault, rfl⟩ | ⟨again, m₁, hround, hrest⟩
      · exact ⟨0, m, .none m, .inr ⟨fault, ⟨b, hfault⟩, rfl⟩⟩
      cases again with
      | false =>
        cases hrest
        exact ⟨0, m, .none m, .inl ⟨⟨b, hround⟩, rfl⟩⟩
      | true =>
        obtain ⟨n, m₂, hrounds, hend⟩ := ih (count + 1) m₁ hrest
        refine ⟨n + 1, m₂, .more ⟨b, hround⟩ hrounds, ?_⟩
        rwa [Nat.add_assoc, Nat.add_comm 1 n] at hend
  · rintro ⟨n, m₁, hrounds, hend⟩
    induction hrounds generalizing count with
    | none m =>
      rcases hend with ⟨⟨b, hb⟩, rfl⟩ | ⟨fault, ⟨b, hb⟩, rfl⟩
      · refine ⟨b + 1, ?_⟩
        beta_reduce
        rw [rounds, bind_apply, hx (Nat.le_succ b) m _ hb]
        rfl
      · refine ⟨b + 1, ?_⟩
        beta_reduce
        rw [rounds, bind_apply, hx (Nat.le_succ b) m _ hb]
    | @more n m m₂ m₁ first _ ih =>
      obtain ⟨b, hb⟩ := first
      obtain ⟨b', hb'⟩ := @ih (count + 1) (by rwa [Nat.add_assoc, Nat.add_comm 1 n])
      refine ⟨max b b' + 1, ?_⟩
      beta_reduce
      rw [rounds, bind_apply, hx (show b ≤ max b b' + 1 by omega) m _ hb]
      exact (hx (show b' ≤ max b b' + 1 by omega)).rounds (Nat.le_max_right b b') _ _ _ hb'

/-- The states between the rounds. -/
theorem rounds_iff_states {x : Nat → Run Bool} {n : Nat} :
    Rounds x n m m' ↔ ∃ s : Nat → Machine, s 0 = m ∧ s n = m' ∧
      ∀ i < n, Ends x (s i) (.ok true) (s (i + 1)) := by
  constructor
  · intro h
    induction h with
    | none m => exact ⟨fun _ ↦ m, rfl, rfl, fun i hi ↦ absurd hi (Nat.not_lt_zero i)⟩
    | @more n m m₁ m' first _ ih =>
      obtain ⟨s, hstart, hstop, hsteps⟩ := ih
      refine ⟨fun i ↦ i.casesOn m s, rfl, hstop, fun i hi ↦ ?_⟩
      cases i with
      | zero =>
        change Ends x m (.ok true) (s 0)
        rwa [hstart]
      | succ i => exact hsteps i (Nat.lt_of_succ_lt_succ hi)
  · rintro ⟨s, rfl, rfl, hsteps⟩
    induction n generalizing s with
    | zero => exact .none _
    | succ n ih =>
      exact .more (hsteps 0 (Nat.zero_lt_succ n)) (ih (fun i ↦ s (i + 1)) fun i hi ↦
        hsteps (i + 1) (Nat.succ_lt_succ hi))

/-- The states between the rounds, the one that does not ask for another one included. -/
theorem rounds_stop_iff_states {x : Nat → Run Bool} {n : Nat} :
    (∃ m₁, Rounds x n m m₁ ∧ Ends x m₁ (.ok false) m') ↔
      ∃ s : Nat → Machine, s 0 = m ∧ s (n + 1) = m' ∧
        ∀ i < n + 1, Ends x (s i) (.ok (decide (i + 1 < n + 1))) (s (i + 1)) := by
  simp only [rounds_iff_states]
  constructor
  · rintro ⟨_, ⟨s, hstart, rfl, hsteps⟩, hstop⟩
    refine ⟨fun i ↦ if i ≤ n then s i else m', by simpa using hstart, by simp, fun i hi ↦ ?_⟩
    rcases Nat.lt_succ_iff_lt_or_eq.1 hi with hlt | rfl
    · simpa [Nat.le_of_lt hlt, Nat.succ_le_of_lt hlt, hlt] using hsteps i hlt
    · simpa [Nat.not_succ_le_self] using hstop
  · rintro ⟨s, hstart, hend, hsteps⟩
    refine ⟨s n, ⟨s, hstart, rfl, fun i hi ↦ ?_⟩, ?_⟩
    · simpa [hi] using hsteps i (Nat.lt_succ_of_lt hi)
    · simpa [hend] using hsteps n (Nat.lt_succ_self n)

end Run

/-! ### Evaluation -/

namespace Tree

open Run

/-- The evaluation of a tree ends with `result` and leaves the state `m'`, if its loops may go round
often enough. -/
def Finishes (t : Tree Nat) (m : Machine) (result : Except Fault Int64) (m' : Machine) : Prop :=
  ∃ bound, t.run bound m = some (result, m')

/-- The same for a clause. -/
def ClauseFinishes (c : Clause Nat) (m : Machine) (result : Except Fault Unit) (m' : Machine) :
    Prop :=
  ∃ bound, evalClause bound c m = some (result, m')

theorem steady_eval (t : Tree Nat) : Steady fun b ↦ eval b t :=
  fun _ _ hle ↦ eval_refines hle t

theorem steady_evalClause (c : Clause Nat) : Steady fun b ↦ evalClause b c :=
  fun _ _ hle ↦ evalClause_refines hle c

/-- The evaluation of a tree ends in one way at most. -/
theorem Finishes.unique {t : Tree Nat} {m m₁ m₂ : Machine} {result result' : Except Fault Int64}
    (h : t.Finishes m result m₁) (h' : t.Finishes m result' m₂) : result = result' ∧ m₁ = m₂ :=
  Ends.unique (steady_eval t) h h'

end Tree

end Pseudocode

import Pseudocode.Proofs.Endings

/-!
# The rounds of a loop

A loop goes round some number of times, and says at its end how many times that was. This file tells
when a loop ends, after how many rounds and in which state, in terms of how its condition, its body
and its clauses end.

## Main definitions

* `Tree.RoundWhile`, `Tree.RoundUntil`: how one round of a loop ends.
* `Loop`: the three loops.
* `Loop.Counts`: a loop goes round so many times.
* `Loop.Fails`: a loop stops with a fault.

## Main results

* `Loop.ends_count_ok_iff`, `Loop.ends_count_error_iff`: what leads a loop to its end.
* `Loop.finishes_iff_counts`: a loop ends exactly behind the rounds that it reports.
-/

namespace Pseudocode

/-! ### One round -/

namespace Tree

open Run

/-- How a round ends that tests first, and then runs the body and the step. It answers whether the
test held. -/
inductive RoundWhile (condition body : Tree Nat) (step : Clause Nat) :
    Except Fault Bool → Machine → Machine → Prop
  /-- The test fails. -/
  | testFails {fault : Fault} {m m' : Machine} (test : condition.Finishes m (.error fault) m') :
    RoundWhile condition body step (.error fault) m m'
  /-- The test does not hold. -/
  | stop {v : Int64} {m m' : Machine} (test : condition.Finishes m (.ok v) m')
      (falsy : truthy v = false) : RoundWhile condition body step (.ok false) m m'
  /-- The test holds, and the body fails. -/
  | bodyFails {v : Int64} {fault : Fault} {m m₁ m' : Machine}
      (test : condition.Finishes m (.ok v) m₁) (holds : truthy v = true)
      (work : body.Finishes m₁ (.error fault) m') :
    RoundWhile condition body step (.error fault) m m'
  /-- The test holds, and the step behind the body fails. -/
  | stepFails {v w : Int64} {fault : Fault} {m m₁ m₂ m' : Machine}
      (test : condition.Finishes m (.ok v) m₁) (holds : truthy v = true)
      (work : body.Finishes m₁ (.ok w) m₂) (advance : ClauseFinishes step m₂ (.error fault) m') :
    RoundWhile condition body step (.error fault) m m'
  /-- The test holds, and the body and the step run to their ends. -/
  | again {v w : Int64} {m m₁ m₂ m' : Machine}
      (test : condition.Finishes m (.ok v) m₁) (holds : truthy v = true)
      (work : body.Finishes m₁ (.ok w) m₂) (advance : ClauseFinishes step m₂ (.ok ()) m') :
    RoundWhile condition body step (.ok true) m m'

/-- How a round ends that runs the body first, and then tests. It answers whether the test did not
hold, so that another round follows. -/
inductive RoundUntil (body condition : Tree Nat) :
    Except Fault Bool → Machine → Machine → Prop
  /-- The body fails. -/
  | bodyFails {fault : Fault} {m m' : Machine} (work : body.Finishes m (.error fault) m') :
    RoundUntil body condition (.error fault) m m'
  /-- The test behind the body fails. -/
  | testFails {w : Int64} {fault : Fault} {m m₁ m' : Machine} (work : body.Finishes m (.ok w) m₁)
      (test : condition.Finishes m₁ (.error fault) m') :
    RoundUntil body condition (.error fault) m m'
  /-- The body and the test run to their ends. -/
  | tested {w v : Int64} {m m₁ m' : Machine} (work : body.Finishes m (.ok w) m₁)
      (test : condition.Finishes m₁ (.ok v) m') :
    RoundUntil body condition (.ok !truthy v) m m'

variable {condition body : Tree Nat} {step : Clause Nat} {m m' : Machine}

theorem steady_work (body : Tree Nat) (step : Clause Nat) :
    Steady fun b ↦ discard (body.eval b) >>= fun _ ↦ evalClause b step :=
  (steady_eval body).discard.bind fun _ ↦ steady_evalClause step

theorem steady_roundWhile (condition body : Tree Nat) (step : Clause Nat) :
    Steady fun b ↦ roundWhile (condition.eval b)
      (discard (body.eval b) >>= fun _ ↦ evalClause b step) :=
  fun _ _ hle ↦ roundWhile_refines (steady_eval condition hle) (steady_work body step hle)

theorem steady_roundUntil (body condition : Tree Nat) :
    Steady fun b ↦ discard (body.eval b) >>= fun _ ↦ condition.eval b >>= fun v ↦
      (pure !truthy v : Run Bool) :=
  (steady_eval body).discard.bind fun _ ↦ (steady_eval condition).bind fun _ ↦ steady_const _

/-- A body and then a step. -/
theorem ends_work_iff {result : Except Fault Unit} :
    Ends (fun b ↦ discard (body.eval b) >>= fun _ ↦ evalClause b step) m result m' ↔
      (∃ fault, body.Finishes m (.error fault) m' ∧ result = .error fault) ∨
        ∃ w m₁, body.Finishes m (.ok w) m₁ ∧ ClauseFinishes step m₁ result m' := by
  rw [ends_bind_iff (steady_eval body).discard fun _ ↦ steady_evalClause step]
  simp only [ends_discard_iff]
  constructor
  · rintro (⟨fault, ⟨r, hbody, hr⟩, rfl⟩ | ⟨_, m₁, ⟨r, hbody, hr⟩, hstep⟩) <;> cases r <;> cases hr
    · exact .inl ⟨fault, hbody, rfl⟩
    · exact .inr ⟨_, m₁, hbody, hstep⟩
  · rintro (⟨fault, hbody, rfl⟩ | ⟨w, m₁, hbody, hstep⟩)
    · exact .inl ⟨fault, ⟨.error fault, hbody, rfl⟩, rfl⟩
    · exact .inr ⟨(), m₁, ⟨.ok w, hbody, rfl⟩, hstep⟩

/-- What follows a test that held. -/
theorem ends_work_true_iff {result : Except Fault Bool} :
    Ends (fun b ↦ (discard (body.eval b) >>= fun _ ↦ evalClause b step) >>= fun _ ↦ pure true)
        m result m' ↔
      (∃ fault, body.Finishes m (.error fault) m' ∧ result = .error fault) ∨
        ∃ w m₁ r, body.Finishes m (.ok w) m₁ ∧ ClauseFinishes step m₁ r m' ∧
          result = r.map fun _ ↦ true := by
  rw [ends_bind_pure_iff]
  simp only [ends_work_iff]
  constructor
  · rintro ⟨r, ⟨fault, hbody, rfl⟩ | ⟨w, m₁, hbody, hstep⟩, rfl⟩
    · exact .inl ⟨fault, hbody, rfl⟩
    · exact .inr ⟨w, m₁, r, hbody, hstep, rfl⟩
  · rintro (⟨fault, hbody, rfl⟩ | ⟨w, m₁, r, hbody, hstep, rfl⟩)
    · exact ⟨.error fault, .inl ⟨fault, hbody, rfl⟩, rfl⟩
    · exact ⟨r, .inr ⟨w, m₁, hbody, hstep⟩, rfl⟩

theorem ends_roundWhile_iff {result : Except Fault Bool} :
    Ends (fun b ↦ roundWhile (condition.eval b)
        (discard (body.eval b) >>= fun _ ↦ evalClause b step)) m result m' ↔
      RoundWhile condition body step result m m' := by
  have hrest (v : Int64) : Steady fun b ↦ if truthy v = true then
      (discard (body.eval b) >>= fun _ ↦ evalClause b step) >>= fun _ ↦ pure true
      else (pure false : Run Bool) := by
    intro b b' hle
    beta_reduce
    split
    · exact (steady_work body step hle).bind fun _ ↦ .refl _
    · exact .refl _
  unfold roundWhile
  rw [ends_bind_iff (steady_eval condition) hrest]
  constructor
  · rintro (⟨fault, htest, rfl⟩ | ⟨v, m₁, htest, hend⟩)
    · exact .testFails htest
    cases hv : truthy v with
    | false =>
      simp only [hv, Bool.false_eq_true, if_false, ends_pure_iff] at hend
      obtain ⟨rfl, rfl⟩ := hend
      exact .stop htest hv
    | true =>
      simp only [hv, if_true, ends_work_true_iff] at hend
      rcases hend with ⟨fault, hbody, rfl⟩ | ⟨w, m₂, r, hbody, hstep, rfl⟩
      · exact .bodyFails htest hv hbody
      · cases r with
        | error fault => exact .stepFails htest hv hbody hstep
        | ok _ => exact .again htest hv hbody hstep
  · rintro (htest | ⟨htest, hv⟩ | ⟨htest, hv, hbody⟩ | ⟨htest, hv, hbody, hstep⟩ |
      ⟨htest, hv, hbody, hstep⟩)
    · exact .inl ⟨_, htest, rfl⟩
    · refine .inr ⟨_, _, htest, ?_⟩
      simp [hv, ends_pure_iff]
    all_goals
      refine .inr ⟨_, _, htest, ?_⟩
      simp only [hv, if_true, ends_work_true_iff]
    · exact .inl ⟨_, hbody, rfl⟩
    · exact .inr ⟨_, _, _, hbody, hstep, rfl⟩
    · exact .inr ⟨_, _, _, hbody, hstep, rfl⟩

theorem ends_roundUntil_iff {result : Except Fault Bool} :
    Ends (fun b ↦ discard (body.eval b) >>= fun _ ↦ condition.eval b >>= fun v ↦
        (pure !truthy v : Run Bool)) m result m' ↔
      RoundUntil body condition result m m' := by
  have htested : Steady fun b ↦ condition.eval b >>= fun v ↦ (pure !truthy v : Run Bool) :=
    (steady_eval condition).bind fun _ ↦ steady_const _
  rw [ends_bind_iff (steady_eval body).discard fun _ ↦ htested]
  simp only [ends_discard_iff, ends_bind_pure_iff]
  constructor
  · rintro (⟨fault, ⟨r, hbody, hr⟩, rfl⟩ | ⟨_, m₁, ⟨r, hbody, hr⟩, r', htest, rfl⟩) <;> cases r <;>
      cases hr
    · exact .bodyFails hbody
    · cases r' with
      | error fault => exact .testFails hbody htest
      | ok v => exact .tested hbody htest
  · rintro (hbody | ⟨hbody, htest⟩ | ⟨hbody, htest⟩)
    · exact .inl ⟨_, ⟨_, hbody, rfl⟩, rfl⟩
    · exact .inr ⟨(), _, ⟨_, hbody, rfl⟩, _, htest, rfl⟩
    · exact .inr ⟨(), _, ⟨_, hbody, rfl⟩, _, htest, rfl⟩

end Tree

/-! ### Loops -/

/-- A loop. -/
inductive Loop where
  /-- Runs the body as long as the condition holds. -/
  | whileDo (condition body : Tree Nat)
  /-- Runs the body until the condition holds, at least once. -/
  | repeatUntil (body condition : Tree Nat)
  /-- Runs the body and then the step as long as the condition holds, after an opening clause. -/
  | forLoop (init : Clause Nat) (condition : Tree Nat) (step : Clause Nat) (body : Tree Nat)

namespace Loop

open Run Pseudocode.Tree

/-- The loop as a tree. -/
def tree : Loop → Tree Nat
  | whileDo condition body => .whileDo condition body
  | repeatUntil body condition => .repeatUntil body condition
  | forLoop init condition step body => .forLoop init condition step body

/-- The keyword that opens the loop. -/
def keyword : Loop → Keyword
  | whileDo _ _ => .tantque
  | repeatUntil _ _ => .repeter
  | forLoop _ _ _ _ => .pour

/-- The note at the start of the loop. -/
def opening : Loop → Note
  | whileDo _ _ => .whileDo
  | repeatUntil _ _ => .repeatUntil
  | forLoop _ _ _ _ => .forLoop

/-- The clause that comes before the first round. -/
def init : Loop → Clause Nat
  | whileDo _ _ => .absent
  | repeatUntil _ _ => .absent
  | forLoop init _ _ _ => init

/-- How a round of the loop ends, and whether another one follows. -/
def Round : Loop → Except Fault Bool → Machine → Machine → Prop
  | whileDo condition body => RoundWhile condition body .absent
  | repeatUntil body condition => RoundUntil body condition
  | forLoop _ condition step body => RoundWhile condition body step

/-- The loop goes round `n` times, through states of which `s 0` is the first one, and `last` is the
state behind its last test. That test belongs to the last round if the body comes first, and comes
after the last round otherwise. -/
def Counts (l : Loop) (m : Machine) (n : Nat) (last : Machine) : Prop :=
  ∃ s : Nat → Machine, ClauseFinishes l.init (m.noted l.opening) (.ok ()) (s 0) ∧
    match l with
    | repeatUntil _ _ => 1 ≤ n ∧ s n = last ∧
        ∀ i < n, l.Round (.ok (decide (i + 1 < n))) (s i) (s (i + 1))
    | _ => (∀ i < n, l.Round (.ok true) (s i) (s (i + 1))) ∧ l.Round (.ok false) (s n) last

/-- The opening clause fails and leaves the state `m'`, or some round behind other ones does. -/
def Fails (l : Loop) (m : Machine) (fault : Fault) (m' : Machine) : Prop :=
  ClauseFinishes l.init (m.noted l.opening) (.error fault) m' ∨
    ∃ (n : Nat) (s : Nat → Machine),
      ClauseFinishes l.init (m.noted l.opening) (.ok ()) (s 0) ∧
      (∀ i < n, l.Round (.ok true) (s i) (s (i + 1))) ∧ l.Round (.error fault) (s n) m'

variable {l : Loop} {m m' last : Machine} {n : Nat} {fault : Fault}

/-- The computation of one round. -/
def round (l : Loop) (bound : Nat) : Run Bool :=
  match l with
  | whileDo condition body => roundWhile (condition.eval bound)
      (discard (body.eval bound) >>= fun _ ↦ evalClause bound .absent)
  | repeatUntil body condition => discard (body.eval bound) >>= fun _ ↦
      condition.eval bound >>= fun v ↦ pure !truthy v
  | forLoop _ condition step body => roundWhile (condition.eval bound)
      (discard (body.eval bound) >>= fun _ ↦ evalClause bound step)

/-- How many rounds the loop counts for the one that ends it. -/
def extra : Loop → Nat
  | repeatUntil _ _ => 1
  | _ => 0

/-- The loop up to its end, with the number of its rounds. -/
def count (l : Loop) (bound : Nat) : Run Nat := do
  note l.opening
  evalClause bound l.init
  let again ← rounds (l.round bound) bound 0
  pure (again + l.extra)

theorem eval_tree (l : Loop) (bound : Nat) : l.tree.eval bound =
    l.count bound >>= fun n ↦ note (.finished l.keyword n) >>= fun _ ↦ pure 0 := by
  cases l <;> simp [tree, Tree.eval, count, opening, keyword, init, extra, round, evalClause]

theorem steady_round : ∀ l : Loop, Steady l.round
  | whileDo condition body => steady_roundWhile condition body .absent
  | repeatUntil body condition => steady_roundUntil body condition
  | forLoop _ condition step body => steady_roundWhile condition body step

theorem ends_round_iff {result : Except Fault Bool} :
    Ends l.round m result m' ↔ l.Round result m m' := by
  cases l with
  | whileDo condition body => exact ends_roundWhile_iff
  | repeatUntil body condition => exact ends_roundUntil_iff
  | forLoop init condition step body => exact ends_roundWhile_iff

theorem steady_count (l : Loop) : Steady l.count :=
  (steady_const _).bind fun _ ↦ (steady_evalClause l.init).bind fun _ ↦
    ((steady_round l).rounds 0).bind fun _ ↦ steady_const _

/-- A loop ends with its opening clause, or as its rounds do. -/
theorem ends_count_iff {result : Except Fault Nat} :
    Ends l.count m result m' ↔
      (∃ fault, ClauseFinishes l.init (m.noted l.opening) (.error fault) m' ∧
        result = .error fault) ∨
      ∃ m₀ n m₁, ClauseFinishes l.init (m.noted l.opening) (.ok ()) m₀ ∧
        Rounds l.round n m₀ m₁ ∧
        (l.Round (.ok false) m₁ m' ∧ result = .ok (n + l.extra) ∨
          ∃ fault, l.Round (.error fault) m₁ m' ∧ result = .error fault) := by
  have hrounds : Steady fun b ↦ rounds (l.round b) b 0 >>= fun again ↦ pure (again + l.extra) :=
    ((steady_round l).rounds 0).bind fun _ ↦ steady_const _
  unfold count
  rw [ends_note_bind_iff, ends_bind_iff (steady_evalClause l.init) fun _ ↦ hrounds]
  simp only [ends_bind_pure_iff, ends_rounds_iff (steady_round l), ends_round_iff, Nat.zero_add]
  refine or_congr Iff.rfl ?_
  constructor
  · rintro ⟨_, m₀, hinit, r, ⟨n, m₁, hrounds, ⟨hstop, rfl⟩ | ⟨fault, hfault, rfl⟩⟩, rfl⟩
    · exact ⟨m₀, n, m₁, hinit, hrounds, .inl ⟨hstop, rfl⟩⟩
    · exact ⟨m₀, n, m₁, hinit, hrounds, .inr ⟨fault, hfault, rfl⟩⟩
  · rintro ⟨m₀, n, m₁, hinit, hrounds, ⟨hstop, rfl⟩ | ⟨fault, hfault, rfl⟩⟩
    · exact ⟨(), m₀, hinit, .ok n, ⟨n, m₁, hrounds, .inl ⟨hstop, rfl⟩⟩, rfl⟩
    · exact ⟨(), m₀, hinit, .error fault, ⟨n, m₁, hrounds, .inr ⟨fault, hfault, rfl⟩⟩, rfl⟩

theorem ends_count_error_iff : Ends l.count m (.error fault) m' ↔ l.Fails m fault m' := by
  rw [ends_count_iff]
  constructor
  · rintro (⟨_, hinit, heq⟩ | ⟨m₀, n, m₁, hinit, hrounds, ⟨-, heq⟩ | ⟨_, hfault, heq⟩⟩) <;>
      cases heq
    · exact .inl hinit
    · obtain ⟨s, rfl, rfl, hsteps⟩ := rounds_iff_states.1 hrounds
      exact .inr ⟨n, s, hinit, fun i hi ↦ ends_round_iff.1 (hsteps i hi), hfault⟩
  · rintro (hinit | ⟨n, s, hinit, hsteps, hfault⟩)
    · exact .inl ⟨fault, hinit, rfl⟩
    · refine .inr ⟨s 0, n, s n, hinit, rounds_iff_states.2 ⟨s, rfl, rfl, fun i hi ↦ ?_⟩,
        .inr ⟨fault, hfault, rfl⟩⟩
      exact ends_round_iff.2 (hsteps i hi)

/-- The rounds of a loop that ends by itself. -/
theorem ends_count_ok_iff_rounds : Ends l.count m (.ok n) last ↔
    ∃ m₀ k m₁, ClauseFinishes l.init (m.noted l.opening) (.ok ()) m₀ ∧ n = k + l.extra ∧
      Rounds l.round k m₀ m₁ ∧ Ends l.round m₁ (.ok false) last := by
  rw [ends_count_iff]
  constructor
  · rintro (⟨_, -, heq⟩ | ⟨m₀, k, m₁, hinit, hrounds, ⟨hstop, heq⟩ | ⟨_, -, heq⟩⟩) <;> cases heq
    exact ⟨m₀, k, m₁, hinit, rfl, hrounds, ends_round_iff.2 hstop⟩
  · rintro ⟨m₀, k, m₁, hinit, rfl, hrounds, hstop⟩
    exact .inr ⟨m₀, k, m₁, hinit, hrounds, .inl ⟨ends_round_iff.1 hstop, rfl⟩⟩

/-- A loop that tests first: no round counts beyond those that ask for another one. -/
theorem exists_rounds_iff_states (hextra : l.extra = 0) :
    (∃ m₀ k m₁, ClauseFinishes l.init (m.noted l.opening) (.ok ()) m₀ ∧ n = k + l.extra ∧
      Rounds l.round k m₀ m₁ ∧ Ends l.round m₁ (.ok false) last) ↔
    ∃ s : Nat → Machine, ClauseFinishes l.init (m.noted l.opening) (.ok ()) (s 0) ∧
      (∀ i < n, l.Round (.ok true) (s i) (s (i + 1))) ∧ l.Round (.ok false) (s n) last := by
  simp only [hextra, Nat.add_zero, rounds_iff_states, ends_round_iff]
  constructor
  · rintro ⟨_, _, _, hinit, rfl, ⟨s, rfl, rfl, hsteps⟩, hstop⟩
    exact ⟨s, hinit, hsteps, hstop⟩
  · rintro ⟨s, hinit, hsteps, hstop⟩
    exact ⟨s 0, n, s n, hinit, rfl, ⟨s, rfl, rfl, hsteps⟩, hstop⟩

theorem ends_count_ok_iff : Ends l.count m (.ok n) last ↔ l.Counts m n last := by
  rw [ends_count_ok_iff_rounds]
  cases l with
  | whileDo condition body => exact exists_rounds_iff_states rfl
  | forLoop init condition step body => exact exists_rounds_iff_states rfl
  | repeatUntil body condition =>
    -- the round that ends the loop counts as well, so that there is one more state
    constructor
    · rintro ⟨m₀, k, m₁, hinit, rfl, hrounds, hstop⟩
      obtain ⟨s, rfl, rfl, hsteps⟩ := rounds_stop_iff_states.1 ⟨m₁, hrounds, hstop⟩
      exact ⟨s, hinit, Nat.le_add_left 1 k, rfl, fun i hi ↦ ends_round_iff.1 (hsteps i hi)⟩
    · rintro ⟨s, hinit, hpos, rfl, hsteps⟩
      obtain ⟨k, rfl⟩ := Nat.exists_eq_add_of_le' hpos
      obtain ⟨m₁, hrounds, hstop⟩ := rounds_stop_iff_states.2
        ⟨s, rfl, rfl, fun i hi ↦ ends_round_iff.2 (hsteps i hi)⟩
      exact ⟨s 0, k, m₁, hinit, rfl, hrounds, hstop⟩

/-- A loop goes round one number of times at most. -/
theorem Counts.unique {n' : Nat} {last' : Machine} (h : l.Counts m n last)
    (h' : l.Counts m n' last') : n = n' ∧ last = last' := by
  have heq := Ends.unique (steady_count l) (ends_count_ok_iff.2 h) (ends_count_ok_iff.2 h')
  simpa using heq

/-- A loop ends as the count of its rounds does, and takes a note of that count. -/
theorem finishes_iff {result : Except Fault Int64} : l.tree.Finishes m result m' ↔
    (∃ fault, l.Fails m fault m' ∧ result = .error fault) ∨
      ∃ n last, l.Counts m n last ∧ result = .ok 0 ∧ m' = last.noted (.finished l.keyword n) := by
  change Ends (fun b ↦ l.tree.eval b) m result m' ↔ _
  simp only [eval_tree]
  rw [ends_bind_iff (steady_count l) fun _ ↦ steady_const _]
  simp only [ends_count_error_iff, ends_count_ok_iff, ends_note_bind_iff, ends_pure_iff]

/-- The word that opens the loop. -/
def word : Loop → String
  | whileDo _ _ => "tantque"
  | repeatUntil _ _ => "repeter"
  | forLoop _ _ _ _ => "pour"

/-- The record that a loop leaves behind `n` rounds. -/
def report (l : Loop) (n : Nat) : Record where
  level := .debug
  source := .machine
  message := l.word ++ " finished after " ++ Decimal.ofNat n ++ " iterations"

/-- A loop ends by itself if and only if it goes round some number of times. Then it leaves the
cells and the lines as its last test did, and a record with that number, which is the only one. A
loop stops with a fault if and only if its opening clause or one of its rounds does, and then it
leaves what that clause or that round left, and no record of its own. -/
theorem finishes_iff_counts :
    (∀ (l : Loop) (m m' : Machine) (v : Int64), l.tree.Finishes m (.ok v) m' ↔ v = 0 ∧
      ∃ n last, l.Counts m n last ∧ m' = last.noted (.finished l.keyword n)) ∧
    (∀ (l : Loop) (last : Machine) (n : Nat),
      let m' := last.noted (.finished l.keyword n)
      m'.table = last.table ∧ m'.lines = last.lines ∧ m'.records = last.records ++ [l.report n]) ∧
    (∀ (l : Loop) (m last last' : Machine) (n n' : Nat),
      l.Counts m n last → l.Counts m n' last' → n = n' ∧ last = last') ∧
    ∀ (l : Loop) (m m' : Machine) (fault : Fault),
      l.tree.Finishes m (.error fault) m' ↔ l.Fails m fault m' := by
  refine ⟨fun l m m' v ↦ ?_, fun l last n ↦ ⟨rfl, rfl, ?_⟩, fun _ _ _ _ _ _ h h' ↦ h.unique h',
    fun l m m' fault ↦ ?_⟩
  · simp only [finishes_iff, Except.ok.injEq, reduceCtorEq, and_false, exists_false, false_or]
    simp only [exists_and_left, and_left_comm]
  · have hrecord : (Note.finished l.keyword n).record = l.report n := by cases l <;> rfl
    simp [Machine.records, Machine.noted, hrecord]
  · simp [finishes_iff]

/-- A loop that counts its variable down from 2 and shows it goes round twice. -/
theorem finishes_iff_counts_twice :
    let span : Span := ⟨{}, {}, Nat.le_refl _⟩
    let table : Table := { cells := #[(Symbol.var "i").cell.store 2, (Symbol.literal "1" 1).cell] }
    let l : Loop := .whileDo (.cell 0) (.sequence [.write [.value (.cell 0)],
      .assignment 0 (.binary .subtract span (.cell 0) (.cell 1))])
    ∃ last, l.Counts { table } 2 last ∧ last.lines = #["2", "1"] ∧
      ∀ n last', l.Counts { table } n last' → n = 2 ∧ last' = last := by
  intro span table l
  obtain ⟨hok, -, hunique, -⟩ := finishes_iff_counts
  let last : Machine := { table := table.store 0 0, lines := #["2", "1"], notes :=
    #[.whileDo, .write 1, .assignment "i", .write 1, .assignment "i"] }
  have hrun : l.tree.run 3 { table } = some (.ok 0, last.noted (.finished .tantque 2)) := by
    decide +kernel
  obtain ⟨-, n, last', hcounts, heq⟩ := (hok l _ _ _).1 ⟨3, hrun⟩
  obtain ⟨rfl, hnote⟩ := Machine.noted_inj.1 heq
  cases hnote
  exact ⟨last, hcounts, rfl, fun n last' h ↦ hunique l _ _ _ _ _ h hcounts⟩

end Loop

end Pseudocode

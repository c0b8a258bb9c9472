import Pseudocode.Proofs.Frame
import Pseudocode.Proofs.Reference

/-!
# Machines that follow the meaning of programs

A machine keeps values in cells where the meaning of programs has an environment. It follows an
effect if it ends wherever the effect does, in the same way, and in a state that still agrees. Since
a machine bounds the rounds of its loops, this is said of a computation for each bound: a run that
ends has its effect, and an effect is had under some bound.

The ways to put effects together are followed by the ways to put computations together. So what is
left to do for a program is to go down its derivation.

## Main definitions

* `Layout`: which symbols have cells, and where.
* `Agrees`: a machine whose cells hold the values of an environment.
* `Computes`, `Performs`: computations that have the value of an expression, or an effect.

## Main results

* `Performs.agree`: a computation ends in the way of its effect.
* `Performs.andThen`, `Performs.withValue`, `Performs.whileDo`, `Performs.repeatUntil`: effects one
  after the other, behind a value, and in loops.
-/

namespace Pseudocode

open Reference

/-! ### Cells and environments -/

/-- The symbols of a program and the indices of their cells. Symbols with different texts have
different cells, and literals are told from variables and have the values of their digits. -/
structure Layout where
  /-- The symbols that have a cell. -/
  met : Symbol → Prop
  /-- The index of the cell of a symbol. -/
  index : Symbol → Nat
  /-- A cell belongs to one text. -/
  text_eq : ∀ {x y : Symbol}, met x → met y → index x = index y → x.text = y.text
  /-- No literal goes by the name of a variable. -/
  text_ne : ∀ {digits name : String} {v : Int64}, met (.literal digits v) → met (.var name) →
    digits ≠ name
  /-- A literal has the value of its digits. -/
  value_eq : ∀ {digits : String} {v : Int64}, met (.literal digits v) →
    v = Int64.ofNat (Decimal.value digits.toList)

/-- The value of a symbol in an environment. -/
def Symbol.valueIn (env : Env) : Symbol → Int64
  | var name => env name
  | literal _ v => v

/-- The machine has shown the lines of the state, and its cells hold the values of the symbols. -/
structure Agrees (L : Layout) (m : Machine) (s : State) : Prop where
  /-- The lines are the same. -/
  lines : m.lines.toList = s.lines
  /-- Each symbol has its value in its cell. -/
  cells : ∀ x, L.met x → ∃ c, m.table.get? (L.index x) = some c ∧ c.value = x.valueIn s.env

namespace Agrees

variable {L : Layout} {m : Machine} {s : State}

/-- Notes do not matter. -/
theorem note (h : Agrees L m s) (n : Note) : Agrees L { m with notes := m.notes.push n } s :=
  ⟨h.lines, h.cells⟩

theorem print (h : Agrees L m s) (line : String) :
    Agrees L { m with lines := m.lines.push line } { s with lines := s.lines ++ [line] } :=
  ⟨by rw [Array.toList_push, h.lines], h.cells⟩

/-- A store gives the variable its value, and every other symbol keeps its own: no other symbol has
the same cell. -/
theorem store (h : Agrees L m s) {name : String} (hname : L.met (.var name)) (v : Int64) :
    Agrees L { m with table := m.table.store (L.index (.var name)) v }
      { s with env := fun x ↦ if x = name then v else s.env x } := by
  refine ⟨h.lines, fun x hx ↦ ?_⟩
  obtain ⟨c, hc, hvalue⟩ := h.cells x hx
  dsimp only
  rw [Table.get?_store, hc]
  refine ⟨_, rfl, ?_⟩
  dsimp only
  by_cases hindex : L.index (.var name) = L.index x
  · have htext := L.text_eq hname hx hindex
    rw [if_pos hindex]
    cases x with
    | var name' =>
      obtain rfl : name = name' := htext
      change v = if name = name then v else _
      rw [if_pos rfl]
    | literal digits v' => exact absurd htext.symm (L.text_ne hx hname)
  · rw [if_neg hindex, hvalue]
    cases x with
    | var name' =>
      have hne : name' ≠ name := by
        rintro rfl
        exact hindex rfl
      change s.env name' = if name' = name then v else s.env name'
      rw [if_neg hne]
    | literal digits v' => rfl

theorem value_apply (h : Agrees L m s) {x : Symbol} (hx : L.met x) :
    Run.value (L.index x) m = some (.ok (x.valueIn s.env), m) := by
  obtain ⟨c, hc, hvalue⟩ := h.cells x hx
  rw [Run.value, Run.bind_apply, Run.cell_apply, hc, ← hvalue]
  rfl

theorem store_apply (h : Agrees L m s) {x : Symbol} (hx : L.met x) (v : Int64) :
    Run.store (L.index x) v m =
      some (.ok (), { m with table := m.table.store (L.index x) v }) := by
  obtain ⟨c, hc, -⟩ := h.cells x hx
  rw [Run.store, Run.bind_apply, Run.discard_eq, Run.bind_apply, Run.cell_apply, hc]
  rfl

end Agrees

/-! ### Computations that follow an effect -/

/-- The computations have the value of an expression and change nothing. -/
structure Computes (L : Layout) (r : Nat → Run Int64) (value : Value) : Prop where
  /-- A larger bound changes no result. -/
  mono : ∀ {b b' : Nat}, b ≤ b' → Run.Refines (r b) (r b')
  /-- The result is the value. -/
  apply : ∀ (b : Nat) {m : Machine} {s : State}, Agrees L m s →
    r b m = some ((value s.env).mapError Fault.divisionByZero, m)

/-- A result that stands for an ending. -/
def EndsAs {α : Type} (result : Except Fault α) : Ending → Prop
  | .done => ∃ a, result = .ok a
  | .divisionByZero span => result = .error (.divisionByZero span)

/-- The computations have the effect `e`. -/
structure Performs (L : Layout) {α : Type} (r : Nat → Run α) (e : Effect) : Prop where
  /-- A larger bound changes no result. -/
  mono : ∀ {b b' : Nat}, b ≤ b' → Run.Refines (r b) (r b')
  /-- What ends has the effect. -/
  forth : ∀ {b : Nat} {m m' : Machine} {s : State} {result : Except Fault α}, Agrees L m s →
    r b m = some (result, m') →
      ∃ ending s', e s ending s' ∧ EndsAs result ending ∧ Agrees L m' s'
  /-- An effect is had under some bound. -/
  back : ∀ {m : Machine} {s s' : State} {ending : Ending}, Agrees L m s → e s ending s' →
    ∃ b result m', r b m = some (result, m') ∧ EndsAs result ending ∧ Agrees L m' s'

theorem endsAs_ok {α : Type} {a : α} {ending : Ending} (h : EndsAs (.ok a) ending) :
    ending = .done := by
  cases ending with
  | done => rfl
  | divisionByZero span => cases h

theorem endsAs_error {α : Type} {fault : Fault} {ending : Ending}
    (h : EndsAs (.error fault : Except Fault α) ending) :
    ∃ span, fault = .divisionByZero span ∧ ending = .divisionByZero span := by
  cases ending with
  | done =>
    obtain ⟨a, ha⟩ := h
    cases ha
  | divisionByZero span =>
    cases h
    exact ⟨span, rfl, rfl⟩

/-- How something ends does not depend on its value. -/
theorem EndsAs.cast {α β : Type} {fault : Fault} {ending : Ending}
    (h : EndsAs (.error fault : Except Fault α) ending) :
    EndsAs (.error fault : Except Fault β) ending := by
  obtain ⟨span, rfl, rfl⟩ := endsAs_error h
  rfl

namespace Performs

open Run

variable {L : Layout} {α β : Type} {r : Nat → Run α} {q : Nat → Run β} {e e' : Effect}

/-- Whatever bound a computation ends under, it ends in the way of every effect from its state. The
two ends are compared under a bound that is large enough for both. -/
theorem agree (h : Performs L r e) {b : Nat} {m m' : Machine} {s s' : State}
    {result : Except Fault α} {ending : Ending} (hm : Agrees L m s)
    (hresult : r b m = some (result, m')) (he : e s ending s') :
    EndsAs result ending ∧ Agrees L m' s' := by
  obtain ⟨b', result', m'', hresult', hends, hm''⟩ := h.back hm he
  have hlarge := h.mono (Nat.le_max_left b b') m _ hresult
  have hlarge' := h.mono (Nat.le_max_right b b') m _ hresult'
  cases hlarge.symm.trans hlarge'
  exact ⟨hends, hm''⟩

/-- A step in front that does nothing but take notes does not matter. -/
theorem lead {r' : Nat → Run α} (h : Performs L r e)
    (hmono : ∀ {b b' : Nat}, b ≤ b' → Refines (r' b) (r' b'))
    (hr : ∀ {m : Machine} {s : State}, Agrees L m s → ∃ m', Agrees L m' s ∧ ∀ b, r' b m = r b m') :
    Performs L r' e where
  mono := hmono
  forth hm hresult := by
    obtain ⟨m₁, hm₁, heq⟩ := hr hm
    exact h.forth hm₁ (heq _ ▸ hresult)
  back hm he := by
    obtain ⟨m₁, hm₁, heq⟩ := hr hm
    obtain ⟨b, result, m', hresult, hends, hm'⟩ := h.back hm₁ he
    exact ⟨b, result, m', (heq b).trans hresult, hends, hm'⟩

theorem note (h : Performs L r e) (n : Note) : Performs L (fun b ↦ Run.note n >>= fun _ ↦ r b) e :=
  h.lead (fun hle ↦ (Refines.refl _).bind fun _ ↦ h.mono hle) fun hm ↦
    ⟨_, hm.note n, fun _ ↦ bind_apply _ _ _⟩

/-- A step behind that does nothing but take notes does not matter. -/
theorem tail {f : α → Run β} (h : Performs L r e)
    (hf : ∀ (a : α) {m : Machine} {s : State}, Agrees L m s →
      ∃ v m', f a m = some (.ok v, m') ∧ Agrees L m' s) : Performs L (fun b ↦ r b >>= f) e where
  mono hle := (h.mono hle).bind fun _ ↦ .refl _
  forth hm hresult := by
    rcases bind_eq_some hresult with ⟨fault, hr, rfl⟩ | ⟨a, m₁, hr, hrest⟩
    · obtain ⟨ending, s', he, hends, hm'⟩ := h.forth hm hr
      exact ⟨ending, s', he, hends.cast, hm'⟩
    · obtain ⟨ending, s', he, hends, hm₁⟩ := h.forth hm hr
      obtain ⟨v, m₂, hv, hm₂⟩ := hf a hm₁
      cases hv.symm.trans hrest
      cases endsAs_ok hends
      exact ⟨.done, s', he, ⟨v, rfl⟩, hm₂⟩
  back {m s s' ending} hm he := by
    obtain ⟨b, result, m₁, hresult, hends, hm₁⟩ := h.back hm he
    cases result with
    | error fault =>
      refine ⟨b, .error fault, m₁, ?_, hends.cast, hm₁⟩
      rw [bind_apply, hresult]
    | ok a =>
      obtain ⟨v, m₂, hv, hm₂⟩ := hf a hm₁
      cases endsAs_ok hends
      refine ⟨b, .ok v, m₂, ?_, ⟨v, rfl⟩, hm₂⟩
      rw [bind_apply, hresult]
      exact hv

/-- The value of an instruction does not matter. -/
theorem answer (h : Performs L r e) (v : β) : Performs L (fun b ↦ r b >>= fun _ ↦ pure v) e :=
  h.tail fun _ _ _ hm ↦ ⟨v, _, rfl, hm⟩

theorem discard (h : Performs L r e) : Performs L (fun b ↦ Functor.discard (r b)) e := by
  simp only [discard_eq]
  exact h.answer ()

theorem skip (a : α) : Performs L (fun _ ↦ (pure a : Run α)) Effect.Skip where
  mono _ := .refl _
  forth hm hresult := by
    cases hresult
    exact ⟨.done, _, .mk _, ⟨a, rfl⟩, hm⟩
  back hm he := by
    cases he
    exact ⟨0, .ok a, _, rfl, ⟨a, rfl⟩, hm⟩

theorem print (line : String) : Performs L (fun _ ↦ Run.print line) (Effect.Show line) where
  mono _ := .refl _
  forth hm hresult := by
    cases hresult
    exact ⟨.done, _, .mk _, ⟨(), rfl⟩, hm.print line⟩
  back hm he := by
    cases he
    exact ⟨0, .ok (), _, rfl, ⟨(), rfl⟩, hm.print line⟩

theorem assign {name : String} (hname : L.met (.var name)) (v : Int64) :
    Performs L (fun _ ↦ Run.store (L.index (.var name)) v) (Effect.Assign name v) where
  mono _ := .refl _
  forth hm hresult := by
    rw [hm.store_apply hname] at hresult
    cases hresult
    exact ⟨.done, _, .mk _, ⟨(), rfl⟩, hm.store hname v⟩
  back hm he := by
    cases he
    exact ⟨0, .ok (), _, hm.store_apply hname v, ⟨(), rfl⟩, hm.store hname v⟩

/-- One computation after the other. -/
theorem andThen (h : Performs L r e) (h' : Performs L q e') :
    Performs L (fun b ↦ r b >>= fun _ ↦ q b) (Effect.Then e e') where
  mono hle := (h.mono hle).bind fun _ ↦ h'.mono hle
  forth hm hresult := by
    rcases bind_eq_some hresult with ⟨fault, hr, rfl⟩ | ⟨a, m₁, hr, hrest⟩
    · obtain ⟨ending, s', he, hends, hm'⟩ := h.forth hm hr
      obtain ⟨span, rfl, rfl⟩ := endsAs_error hends
      exact ⟨_, s', .stop he, rfl, hm'⟩
    · obtain ⟨ending, s₁, he, hends, hm₁⟩ := h.forth hm hr
      cases endsAs_ok hends
      obtain ⟨ending, s', he', hends', hm'⟩ := h'.forth hm₁ hrest
      exact ⟨ending, s', .next he he', hends', hm'⟩
  back {m s s' ending} hm he := by
    cases he with
    | stop he =>
      obtain ⟨b, result, m', hresult, hends, hm'⟩ := h.back hm he
      obtain rfl : result = _ := hends
      refine ⟨b, _, m', ?_, rfl, hm'⟩
      rw [bind_apply, hresult]
    | next he he' =>
      obtain ⟨b₁, result₁, m₁, hresult₁, ⟨a, rfl⟩, hm₁⟩ := h.back hm he
      obtain ⟨b₂, result, m', hresult, hends, hm'⟩ := h'.back hm₁ he'
      refine ⟨max b₁ b₂, result, m', ?_, hends, hm'⟩
      rw [bind_apply, h.mono (Nat.le_max_left _ _) _ _ hresult₁]
      exact h'.mono (Nat.le_max_right _ _) _ _ hresult

/-- A computation behind the value of an expression. -/
theorem withValue {test : Nat → Run Int64} {value : Value} {q : Int64 → Nat → Run β}
    {next : Int64 → Effect} (htest : Computes L test value) (h : ∀ v, Performs L (q v) (next v)) :
    Performs L (fun b ↦ test b >>= fun v ↦ q v b) (Effect.With value next) where
  mono hle := (htest.mono hle).bind fun v ↦ (h v).mono hle
  forth {b m m' s result} hm hresult := by
    rw [bind_apply, htest.apply b hm] at hresult
    cases hvalue : value s.env with
    | error span =>
      rw [hvalue] at hresult
      cases hresult
      exact ⟨_, s, .stop hvalue, rfl, hm⟩
    | ok v =>
      rw [hvalue] at hresult
      obtain ⟨ending, s', he, hends, hm'⟩ := (h v).forth hm hresult
      exact ⟨ending, s', .next hvalue he, hends, hm'⟩
  back {m s s' ending} hm he := by
    cases he with
    | stop hvalue =>
      refine ⟨0, _, m, ?_, rfl, hm⟩
      rw [bind_apply, htest.apply 0 hm, hvalue]
      rfl
    | next hvalue he =>
      obtain ⟨b, result, m', hresult, hends, hm'⟩ := (h _).back hm he
      refine ⟨b, result, m', ?_, hends, hm'⟩
      rw [bind_apply, htest.apply b hm, hvalue]
      exact hresult

/-! ### Loops -/

section While

variable {test : Nat → Run Int64} {value : Value} {body : Nat → Run Unit} {b : Nat} {m : Machine}
  {s : State}

/-- A round whose test divides by zero. -/
theorem roundWhile_of_error (htest : Computes L test value) (hm : Agrees L m s) {span : Span}
    (hvalue : value s.env = .error span) :
    Tree.roundWhile (test b) (body b) m = some (.error (.divisionByZero span), m) := by
  rw [Tree.roundWhile, bind_apply, htest.apply b hm, hvalue]
  rfl

/-- A round whose test fails. -/
theorem roundWhile_of_false (htest : Computes L test value) (hm : Agrees L m s) {v : Int64}
    (hvalue : value s.env = .ok v) (hv : truthy v = false) :
    Tree.roundWhile (test b) (body b) m = some (.ok false, m) := by
  rw [Tree.roundWhile, bind_apply, htest.apply b hm, hvalue]
  change (if truthy v = true then _ else _ : Run Bool) m = _
  rw [hv]
  rfl

/-- A round whose test holds does the body. -/
theorem roundWhile_of_true (htest : Computes L test value) (hm : Agrees L m s) {v : Int64}
    (hvalue : value s.env = .ok v) (hv : truthy v = true) :
    Tree.roundWhile (test b) (body b) m = (body b >>= fun _ ↦ pure true) m := by
  rw [Tree.roundWhile, bind_apply, htest.apply b hm, hvalue]
  change (if truthy v = true then _ else _ : Run Bool) m = _
  rw [if_pos hv]

/-- What a loop does that ends within its rounds. The induction is on the rounds that are left. -/
theorem rounds_while_forth (htest : Computes L test value) (hbody : Performs L body e)
    {k count : Nat} {result : Except Fault Nat} {m' : Machine} (hm : Agrees L m s)
    (hresult : rounds (Tree.roundWhile (test b) (body b)) k count m = some (result, m')) :
    ∃ ending s', Effect.While value e s ending s' ∧ EndsAs result ending ∧ Agrees L m' s' := by
  induction k generalizing m s count with
  | zero => cases hresult
  | succ k ih =>
    rw [rounds, bind_apply] at hresult
    cases hvalue : value s.env with
    | error span =>
      rw [roundWhile_of_error htest hm hvalue] at hresult
      cases hresult
      exact ⟨_, s, .fault hvalue, rfl, hm⟩
    | ok v =>
      cases hv : truthy v with
      | false =>
        rw [roundWhile_of_false htest hm hvalue hv] at hresult
        cases hresult
        exact ⟨.done, s, .finish hvalue hv, ⟨_, rfl⟩, hm⟩
      | true =>
        rw [roundWhile_of_true htest hm hvalue hv, bind_apply] at hresult
        rcases hb : body b m with _ | ⟨fault | a, m₁⟩
        · rw [hb] at hresult
          cases hresult
        · rw [hb] at hresult
          cases hresult
          obtain ⟨ending, s', he, hends, hm'⟩ := hbody.forth hm hb
          obtain ⟨span, rfl, rfl⟩ := endsAs_error hends
          exact ⟨_, s', .stop hvalue hv he, rfl, hm'⟩
        · rw [hb] at hresult
          obtain ⟨ending, s₁, he, hends, hm₁⟩ := hbody.forth hm hb
          cases endsAs_ok hends
          obtain ⟨ending, s', hwhile, hends', hm'⟩ := ih hm₁ hresult
          exact ⟨ending, s', .again hvalue hv he hwhile, hends', hm'⟩

/-- A loop ends if its effect does. The induction is on the rounds of the effect, and each of them
may need a larger bound. -/
theorem rounds_while_back (htest : Computes L test value) (hbody : Performs L body e)
    {ending : Ending} {s' : State} (h : Effect.While value e s ending s') :
    ∀ {m : Machine} (count : Nat), Agrees L m s → ∃ b result m',
      rounds (Tree.roundWhile (test b) (body b)) b count m = some (result, m') ∧
        EndsAs result ending ∧ Agrees L m' s' := by
  induction h with
  | fault hvalue =>
    intro m count hm
    refine ⟨1, _, m, ?_, rfl, hm⟩
    rw [rounds, bind_apply, roundWhile_of_error htest hm hvalue]
  | finish hvalue hv =>
    intro m count hm
    refine ⟨1, .ok count, m, ?_, ⟨count, rfl⟩, hm⟩
    rw [rounds, bind_apply, roundWhile_of_false htest hm hvalue hv]
    rfl
  | stop hvalue hv he =>
    intro m count hm
    obtain ⟨b, result, m', hresult, hends, hm'⟩ := hbody.back hm he
    obtain rfl : result = _ := hends
    refine ⟨b + 1, _, m', ?_, rfl, hm'⟩
    have hb := hbody.mono (Nat.le_succ b) _ _ hresult
    rw [rounds, bind_apply, roundWhile_of_true htest hm hvalue hv, bind_apply, hb]
  | again hvalue hv he _ ih =>
    intro m count hm
    obtain ⟨b₁, result₁, m₁, hresult₁, ⟨a, rfl⟩, hm₁⟩ := hbody.back hm he
    obtain ⟨b₂, result, m', hresult, hends, hm'⟩ := ih (count + 1) hm₁
    refine ⟨max b₁ b₂ + 1, result, m', ?_, hends, hm'⟩
    have hb := hbody.mono (show b₁ ≤ max b₁ b₂ + 1 by omega) _ _ hresult₁
    have hround : Refines (Tree.roundWhile (test b₂) (body b₂))
        (Tree.roundWhile (test (max b₁ b₂ + 1)) (body (max b₁ b₂ + 1))) :=
      Tree.roundWhile_refines (htest.mono (by omega)) (hbody.mono (by omega))
    rw [rounds, bind_apply, roundWhile_of_true htest hm hvalue hv, bind_apply, hb]
    exact hround.rounds (Nat.le_max_right b₁ b₂) _ _ _ hresult

/-- A loop that tests first. -/
theorem whileDo (htest : Computes L test value) (hbody : Performs L body e) :
    Performs L (fun b ↦ rounds (Tree.roundWhile (test b) (body b)) b 0)
      (Effect.While value e) where
  mono hle := (Tree.roundWhile_refines (htest.mono hle) (hbody.mono hle)).rounds hle 0
  forth hm hresult := rounds_while_forth htest hbody hm hresult
  back hm he := rounds_while_back htest hbody he 0 hm

end While

section Until

variable {test : Nat → Run Int64} {value : Value} {body : Nat → Run Unit}

/-- One round of a loop that tests last: the body, and whether to go on. -/
def roundUntil (test : Run Int64) (body : Run Unit) : Run Bool := do
  body
  pure !truthy (← test)

theorem roundUntil_refines {test test' : Run Int64} {body body' : Run Unit}
    (htest : Refines test test') (hbody : Refines body body') :
    Refines (roundUntil test body) (roundUntil test' body') :=
  hbody.bind fun _ ↦ htest.bind fun _ ↦ .refl _

/-- Behind a body that is done, a round looks at the test. -/
theorem roundUntil_of_ok (htest : Computes L test value) {b : Nat} {m m₁ : Machine} {s₁ : State}
    {a : Unit} (hbody : body b m = some (.ok a, m₁)) (hm₁ : Agrees L m₁ s₁) :
    roundUntil (test b) (body b) m =
      some (((value s₁.env).mapError Fault.divisionByZero).map fun v ↦ !truthy v, m₁) := by
  rw [roundUntil, bind_apply, hbody]
  dsimp only
  rw [bind_apply, htest.apply b hm₁]
  cases value s₁.env <;> rfl

theorem roundUntil_of_error {b : Nat} {m m₁ : Machine} {fault : Fault}
    (hbody : body b m = some (.error fault, m₁)) :
    roundUntil (test b) (body b) m = some (.error fault, m₁) := by
  rw [roundUntil, bind_apply, hbody]

theorem rounds_until_forth (htest : Computes L test value) (hbody : Performs L body e)
    {b k count : Nat} {result : Except Fault Nat} {m m' : Machine} {s : State} (hm : Agrees L m s)
    (hresult : rounds (roundUntil (test b) (body b)) k count m = some (result, m')) :
    ∃ ending s', Effect.Until e value s ending s' ∧ EndsAs result ending ∧ Agrees L m' s' := by
  induction k generalizing m s count with
  | zero => cases hresult
  | succ k ih =>
    rw [rounds, bind_apply] at hresult
    rcases hb : body b m with _ | ⟨fault | a, m₁⟩
    · rw [roundUntil, bind_apply, hb] at hresult
      cases hresult
    · rw [roundUntil_of_error hb] at hresult
      cases hresult
      obtain ⟨ending, s', he, hends, hm'⟩ := hbody.forth hm hb
      obtain ⟨span, rfl, rfl⟩ := endsAs_error hends
      exact ⟨_, s', .stop he, rfl, hm'⟩
    · obtain ⟨ending, s₁, he, hends, hm₁⟩ := hbody.forth hm hb
      cases endsAs_ok hends
      rw [roundUntil_of_ok htest hb hm₁] at hresult
      cases hvalue : value s₁.env with
      | error span =>
        rw [hvalue] at hresult
        cases hresult
        exact ⟨_, s₁, .fault he hvalue, rfl, hm₁⟩
      | ok v =>
        rw [hvalue] at hresult
        change (if (!truthy v) = true then _ else _ : Run Nat) m₁ = _ at hresult
        cases hv : truthy v with
        | true =>
          rw [hv] at hresult
          cases hresult
          exact ⟨.done, s₁, .finish he hvalue hv, ⟨_, rfl⟩, hm₁⟩
        | false =>
          rw [hv] at hresult
          obtain ⟨ending, s', huntil, hends', hm'⟩ := ih hm₁ hresult
          exact ⟨ending, s', .again he hvalue hv huntil, hends', hm'⟩

theorem rounds_until_back (htest : Computes L test value) (hbody : Performs L body e)
    {ending : Ending} {s s' : State} (h : Effect.Until e value s ending s') :
    ∀ {m : Machine} (count : Nat), Agrees L m s → ∃ b result m',
      rounds (roundUntil (test b) (body b)) b count m = some (result, m') ∧
        EndsAs result ending ∧ Agrees L m' s' := by
  induction h with
  | stop he =>
    intro m count hm
    obtain ⟨b, result, m', hresult, hends, hm'⟩ := hbody.back hm he
    obtain rfl : result = _ := hends
    refine ⟨b + 1, _, m', ?_, rfl, hm'⟩
    rw [rounds, bind_apply, roundUntil_of_error (hbody.mono (Nat.le_succ b) _ _ hresult)]
  | fault he hvalue =>
    intro m count hm
    obtain ⟨b, result, m₁, hresult, ⟨a, rfl⟩, hm₁⟩ := hbody.back hm he
    refine ⟨b + 1, _, m₁, ?_, rfl, hm₁⟩
    rw [rounds, bind_apply, roundUntil_of_ok htest (hbody.mono (Nat.le_succ b) _ _ hresult) hm₁,
      hvalue]
    rfl
  | finish he hvalue hv =>
    intro m count hm
    obtain ⟨b, result, m₁, hresult, ⟨a, rfl⟩, hm₁⟩ := hbody.back hm he
    refine ⟨b + 1, .ok count, m₁, ?_, ⟨count, rfl⟩, hm₁⟩
    rw [rounds, bind_apply, roundUntil_of_ok htest (hbody.mono (Nat.le_succ b) _ _ hresult) hm₁,
      hvalue]
    change (if (!truthy _) = true then _ else _ : Run Nat) m₁ = _
    rw [hv]
    rfl
  | again he hvalue hv _ ih =>
    intro m count hm
    obtain ⟨b₁, result₁, m₁, hresult₁, ⟨a, rfl⟩, hm₁⟩ := hbody.back hm he
    obtain ⟨b₂, result, m', hresult, hends, hm'⟩ := ih (count + 1) hm₁
    refine ⟨max b₁ b₂ + 1, result, m', ?_, hends, hm'⟩
    have hb := hbody.mono (show b₁ ≤ max b₁ b₂ + 1 by omega) _ _ hresult₁
    have hround : Refines (roundUntil (test b₂) (body b₂))
        (roundUntil (test (max b₁ b₂ + 1)) (body (max b₁ b₂ + 1))) :=
      roundUntil_refines (htest.mono (by omega)) (hbody.mono (by omega))
    rw [rounds, bind_apply, roundUntil_of_ok htest hb hm₁, hvalue]
    change (if (!truthy _) = true then _ else _ : Run Nat) m₁ = _
    rw [hv]
    exact hround.rounds (Nat.le_max_right b₁ b₂) _ _ _ hresult

/-- A loop that tests last. -/
theorem repeatUntil (htest : Computes L test value) (hbody : Performs L body e) :
    Performs L (fun b ↦ rounds (roundUntil (test b) (body b)) b 0) (Effect.Until e value) where
  mono hle := (roundUntil_refines (htest.mono hle) (hbody.mono hle)).rounds hle 0
  forth hm hresult := rounds_until_forth htest hbody hm hresult
  back hm he := rounds_until_back htest hbody he 0 hm

end Until

end Performs

end Pseudocode

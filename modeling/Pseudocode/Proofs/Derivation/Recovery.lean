import Pseudocode.Proofs.Derivation.Instruction

/-!
# Recovery does not come before the first error

The reader with recovery does what the strict reader does, up to the first error. If there is one,
it goes on where the strict reader stops, but it has noted that very error before anything else.

## Main definitions

* `Rule.Follows`: a rule that does the same as a strict one until that one fails.
* `Grammar.strictProgram`: a whole program, read without recovery.

## Main results

* `Grammar.follows_instruction`, `Grammar.follows_program`: the reader with recovery follows the
  strict one.
-/

namespace Pseudocode

namespace Rule

variable {α β : Type}

/-- The rule `r` does what `r'` does, unless `r'` fails with an error. Then `r` may go on, but the
error is on its trail, right behind the trail of `r'`. -/
def Follows (r r' : Rule α) : Prop :=
  ∀ s, r s = r' s ∨ ∃ e more, (r' s).result = .error (.syntactic e) ∧
    (r s).events = (r' s).events ++ .discarded e :: more

namespace Follows

theorem refl (r : Rule α) : Follows r r :=
  fun _ ↦ .inl rfl

theorem bind {r r' : Rule α} {f f' : α → Rule β} (hr : Follows r r')
    (hf : ∀ a, Follows (f a) (f' a)) : Follows (r >>= f) (r' >>= f') := by
  intro s
  rcases hr s with heq | ⟨e, more, he, hevents⟩
  · cases hresult : (r' s).result with
    | error failure =>
      left
      rw [bind_congr f heq, bind_of_error f hresult, bind_of_error f' hresult]
    | ok a =>
      rw [bind_congr f heq, bind_of_ok f hresult, bind_of_ok f' hresult]
      rcases hf a (r' s).rest with heq' | ⟨e, more, he, hevents⟩
      · left
        rw [heq']
      · right
        refine ⟨e, more, he, ?_⟩
        simp only [hevents, List.append_assoc]
  · -- the strict rule has failed, and nothing is taken back from the trail
    right
    rw [bind_of_error f' he]
    cases hresult : (r s).result with
    | error failure =>
      rw [bind_of_error f hresult]
      exact ⟨e, more, rfl, hevents⟩
    | ok a =>
      rw [bind_of_ok f hresult]
      refine ⟨e, more ++ (f a (r s).rest).events, rfl, ?_⟩
      simp only [hevents, List.append_assoc, List.cons_append]

/-- A step that both rules share may stand in front. -/
theorem behind (r : Rule α) {f f' : α → Rule β} (hf : ∀ a, Follows (f a) (f' a)) :
    Follows (r >>= f) (r >>= f') :=
  (refl r).bind hf

/-- Steps that both rules share may follow. -/
theorem before {r r' : Rule α} (hr : Follows r r') (f : α → Rule β) :
    Follows (r >>= f) (r' >>= f) :=
  hr.bind fun a ↦ refl (f a)

theorem many {starts : Token.Kind → Option β} {item item' : β → Rule α}
    (h : ∀ b, Follows (item b) (item' b)) : Follows (many starts item) (many starts item') := by
  have along (bound : List Token) :
      Follows (manyAlong starts item bound) (manyAlong starts item' bound) := by
    induction bound with
    | nil => exact refl _
    | cons t bound ih =>
      refine behind peek fun t ↦ ?_
      split
      · exact refl _
      · exact (h _).bind fun _ ↦ ih.before _
  exact fun s ↦ along s.ahead s

theorem nest {base : Rule α} {rule rule' : Rule α → Rule α}
    (h : ∀ {p q}, Follows p q → Follows (rule p) (rule' q)) :
    Follows (nest base rule) (nest base rule') := by
  have along (bound : List Token) :
      Follows (nestAlong base rule bound) (nestAlong base rule' bound) := by
    induction bound with
    | nil => exact refl base
    | cons t bound ih => exact h ih
  exact fun s ↦ h (along s.ahead) s

end Follows

end Rule

namespace Grammar

open Rule

/-! ### Instructions -/

section Inner

variable {p q : Rule (Tree Symbol)}

theorem follows_sequenceOf (h : Follows p q) : Follows (sequenceOf p) (sequenceOf q) :=
  h.bind fun _ ↦ (Follows.many fun _ ↦ h).before _

theorem follows_furtherArms (h : Follows p q) : Follows (furtherArms p) (furtherArms q) := by
  have hguarded : Follows (guardedArm p) (guardedArm q) :=
    .behind _ fun _ ↦ .behind _ fun _ ↦ (follows_sequenceOf h).before _
  have hlast : Follows (lastArm p) (lastArm q) := by
    refine .behind _ fun t ↦ ?_
    split
    · exact .behind _ fun _ ↦ (follows_sequenceOf h).before _
    · exact .refl _
  exact (Follows.many fun _ ↦ hguarded).bind fun _ ↦ hlast.before _

theorem follows_formRule (h : Follows p q) : ∀ form, Follows (formRule p form) (formRule q form)
  | .assignment => .refl _
  | .ifThen =>
    .behind _ fun _ ↦ .behind _ fun _ ↦ (follows_sequenceOf h).bind fun _ ↦
      (follows_furtherArms h).before _
  | .repeatUntil => .behind _ fun _ ↦ (follows_sequenceOf h).before _
  | .whileDo => .behind _ fun _ ↦ .behind _ fun _ ↦ (follows_sequenceOf h).before _
  | .forLoop =>
    .behind _ fun _ ↦ .behind _ fun _ ↦ .behind _ fun _ ↦ .behind _ fun _ ↦ .behind _ fun _ ↦
      .behind _ fun _ ↦ .behind _ fun _ ↦ .behind _ fun _ ↦ (follows_sequenceOf h).before _
  | .write => .refl _
  | .read => .refl _

theorem follows_bareInstruction (h : Follows p q) :
    Follows (bareInstruction p) (bareInstruction q) := by
  refine .behind _ fun t ↦ ?_
  split
  · exact follows_formRule h _
  · exact .refl _

/-- An instruction that can be read is read as the strict rule reads it. -/
theorem instructionRule_of_ok {s : Stream} {tree : Tree Symbol}
    (h : (bareInstruction p s).result = .ok tree) : instructionRule p s = strictRule p s := by
  have hattempt : attempt (bareInstruction p) s =
      { bareInstruction p s with result := .ok (.ok tree) } := by
    simp only [attempt, h]
  rw [instructionRule, strictRule, bind_of_ok _ (congrArg Outcome.result hattempt), hattempt,
    bind_of_ok _ h]

/-- A token that runs backwards ends the reading at once. -/
theorem instructionRule_of_unordered {s : Stream} {t : Token}
    (h : (bareInstruction p s).result = .error (.unordered t)) :
    instructionRule p s = strictRule p s := by
  have hattempt : attempt (bareInstruction p) s =
      { bareInstruction p s with result := .error (.unordered t) } := by
    simp only [attempt, h]
  rw [instructionRule, strictRule, bind_of_error _ (congrArg Outcome.result hattempt), hattempt,
    bind_of_error _ h]

/-- An error is noted as soon as the instruction is given up. -/
theorem instructionRule_of_syntactic {s : Stream} {e : SyntaxError}
    (h : (bareInstruction p s).result = .error (.syntactic e)) :
    ∃ more,
      (instructionRule p s).events = (bareInstruction p s).events ++ .discarded e :: more := by
  have hattempt : attempt (bareInstruction p) s =
      { bareInstruction p s with result := .ok (.error e) } := by
    simp only [attempt, h]
  rw [instructionRule, bind_of_ok _ (congrArg Outcome.result hattempt), hattempt]
  dsimp only
  rw [bind_of_ok _ (show (leave (.discarded e) _).result = .ok () from rfl)]
  exact ⟨_, rfl⟩

/-- The trail of an instruction is never taken back. -/
theorem events_bareInstruction_prefix (s : Stream) :
    (bareInstruction p s).events <+: (instructionRule p s).events := by
  cases h : (bareInstruction p s).result with
  | ok tree =>
    rw [instructionRule_of_ok h, strictRule, bind_of_ok _ h]
    exact List.prefix_append _ _
  | error failure =>
    cases failure with
    | syntactic e =>
      obtain ⟨more, hmore⟩ := instructionRule_of_syntactic h
      rw [hmore]
      exact List.prefix_append _ _
    | unordered t =>
      have hevents : (instructionRule p s).events = (bareInstruction p s).events := by
        rw [instructionRule_of_unordered h, strictRule, bind_of_error _ h]
      exact hevents ▸ List.prefix_refl _

theorem follows_instructionRule (h : Follows p q) :
    Follows (instructionRule p) (strictRule q) := by
  intro s
  rcases follows_bareInstruction h s with heq | ⟨e, more, he, hevents⟩
  · have hstrict : strictRule p s = strictRule q s := bind_congr _ heq
    cases hresult : (bareInstruction p s).result with
    | ok tree => exact .inl ((instructionRule_of_ok hresult).trans hstrict)
    | error failure =>
      cases failure with
      | syntactic e =>
        obtain ⟨more, hmore⟩ := instructionRule_of_syntactic hresult
        rw [← hstrict, strictRule, bind_of_error _ hresult]
        exact .inr ⟨e, more, rfl, hmore⟩
      | unordered t => exact .inl ((instructionRule_of_unordered hresult).trans hstrict)
  · obtain ⟨more', hmore⟩ := events_bareInstruction_prefix (p := p) s
    rw [strictRule, bind_of_error _ he]
    refine .inr ⟨e, more ++ more', rfl, ?_⟩
    rw [← hmore, hevents, List.append_assoc, List.cons_append]

end Inner

theorem follows_instruction : Follows instruction strictInstruction :=
  .nest follows_instructionRule

/-! ### Programs -/

/-- A whole program up to the end of input, without recovery. -/
def strictProgram : Rule (Tree Symbol) := do
  keyword .procedure
  keyword .principale
  mark .leftParenthesis
  mark .rightParenthesis
  let body ← sequenceOf strictInstruction
  keyword .finproc
  expect .endOfInput
  pure body

theorem follows_program : Follows program strictProgram :=
  .behind _ fun _ ↦ .behind _ fun _ ↦ .behind _ fun _ ↦ .behind _ fun _ ↦
    (follows_sequenceOf follows_instruction).before _

end Grammar

end Pseudocode

import Pseudocode.Grammar.Program

/-!
# Progress of grammar rules

No rule gives tokens back, and the rules that refer to themselves take a token first. So the bounds
on repetition and nesting are never felt: a factor and an instruction satisfy the equations that
their grammar writes down.

## Main definitions

* `Rule.Forward`: the rule never leaves more tokens than it found.
* `Rule.Takes`: the rule takes at least one token when it succeeds.
* `Rule.AgreeUpTo`: two rules do the same on streams of a limited length.

## Main results

* `Rule.nest_eq`: a rule that takes a token before it refers to itself satisfies its equation.
* `Grammar.factor_eq`, `Grammar.instruction_eq`: the equations of factors and instructions.
-/

namespace Pseudocode

namespace Rule

variable {α β γ : Type}

/-- The rule never leaves more tokens than it found. -/
def Forward (r : Rule α) : Prop :=
  ∀ s, (r s).rest.length ≤ s.length

/-- The rule takes at least one token when it succeeds. -/
def Takes (r : Rule α) : Prop :=
  ∀ s a, (r s).result = .ok a → (r s).rest.length < s.length

/-- The two rules do the same on streams of at most `n` tokens. -/
def AgreeUpTo (n : Nat) (r r' : Rule α) : Prop :=
  ∀ s, s.length ≤ n → r s = r' s

/-! ### Single steps in front of a rule -/

@[simp]
theorem peek_bind (f : Token → Rule β) (s : Stream) : (peek >>= f) s = f s.peek s := by
  rw [bind_of_ok f (r := peek) (a := s.peek) rfl]
  simp [peek]

@[simp]
theorem advance_bind (f : Unit → Rule β) (s : Stream) : (advance >>= f) s = f () s.advance := by
  rw [bind_of_ok f (r := advance) (a := ()) rfl]
  simp [advance]

@[simp]
theorem atEnd_bind (f : Bool → Rule β) (s : Stream) : (atEnd >>= f) s = f s.atEnd s := by
  rw [bind_of_ok f (r := atEnd) (a := s.atEnd) rfl]
  simp [atEnd]

@[simp]
theorem skipUntil_bind (p : Token → Bool) (f : Unit → Rule β) (s : Stream) :
    (skipUntil p >>= f) s = f () (s.dropUntil p) := by
  rw [bind_of_ok f (r := skipUntil p) (a := ()) rfl]
  simp [skipUntil]

/-! ### Rules that go forward -/

theorem forward_pure (a : α) : Forward (pure a : Rule α) := fun _ ↦ Nat.le_refl _

theorem forward_peek : Forward peek := fun _ ↦ Nat.le_refl _

theorem forward_advance : Forward advance := Stream.length_advance_le

theorem forward_stop (e : Failure) : Forward (stop e : Rule α) := fun _ ↦ Nat.le_refl _

theorem forward_leave (e : Event) : Forward (leave e) := fun _ ↦ Nat.le_refl _

theorem forward_skipUntil (p : Token → Bool) : Forward (skipUntil p) :=
  Stream.length_dropUntil_le p

theorem forward_atEnd : Forward atEnd := fun _ ↦ Nat.le_refl _

theorem Forward.bind {r : Rule α} {f : α → Rule β} (hr : Forward r) (hf : ∀ a, Forward (f a)) :
    Forward (r >>= f) := by
  intro s
  cases h : (r s).result with
  | ok a =>
    rw [bind_of_ok f h]
    exact Nat.le_trans (hf a _) (hr s)
  | error e =>
    rw [bind_of_error f h]
    exact hr s

theorem Forward.attempt {r : Rule α} (hr : Forward r) : Forward (attempt r) := by
  intro s
  have := hr s
  unfold Rule.attempt
  dsimp only
  split <;> exact this

theorem forward_spanOf (t : Token) : Forward (spanOf t) := by
  unfold spanOf
  split
  · exact forward_pure _
  · exact forward_stop _

theorem forward_fail (wanted : Expectation) : Forward (fail wanted : Rule α) :=
  forward_peek.bind fun t ↦ (forward_spanOf t).bind fun _ ↦ forward_stop _

theorem forward_expect (c : Token.Category) : Forward (expect c) := by
  refine forward_peek.bind fun t ↦ ?_
  split
  · exact forward_advance
  · exact forward_fail _

theorem forward_meet (s : Symbol) : Forward (meet s) :=
  (forward_leave _).bind fun _ ↦ forward_pure _

theorem forward_manyAlong {starts : Token.Kind → Option β} {item : β → Rule α}
    (h : ∀ b, Forward (item b)) (bound : List Token) : Forward (manyAlong starts item bound) := by
  induction bound with
  | nil => exact forward_pure _
  | cons t bound ih =>
    refine forward_peek.bind fun t ↦ ?_
    split
    · exact forward_pure _
    · exact (h _).bind fun _ ↦ ih.bind fun _ ↦ forward_pure _

theorem forward_many {starts : Token.Kind → Option β} {item : β → Rule α}
    (h : ∀ b, Forward (item b)) : Forward (many starts item) :=
  fun s ↦ forward_manyAlong h s.ahead s

theorem forward_list {item : Rule α} (h : Forward item) : Forward (list item) :=
  h.bind fun _ ↦ (forward_many fun _ ↦ (forward_expect _).bind fun _ ↦ h).bind fun _ ↦
    forward_pure _

theorem forward_parenthesized {item : Rule α} (h : Forward item) : Forward (parenthesized item) :=
  (forward_expect _).bind fun _ ↦ h.bind fun _ ↦ (forward_expect _).bind fun _ ↦ forward_pure _

/-! ### Rules that take a token -/

/-- A token of a class other than the end of input is taken. -/
theorem takes_expect {c : Token.Category} (hc : c ≠ .endOfInput) : Takes (expect c) := by
  intro s a h
  have hpeek : expect c s = (if s.peek.kind.category = c then advance else fail (.token c)) s :=
    peek_bind _ s
  rw [hpeek] at h ⊢
  split at h
  · next hk =>
    rw [if_pos hk]
    refine Stream.length_advance_lt fun hend ↦ hc ?_
    rw [← hk, hend]
    rfl
  · next hk =>
    change ((peek >>= _ : Rule Unit) s).result = _ at h
    rw [peek_bind] at h
    unfold spanOf at h
    split at h
    · rw [bind_of_ok _ rfl] at h
      cases h
    · rw [bind_of_error _ rfl] at h
      cases h

/-! ### Rules that agree -/

theorem AgreeUpTo.refl (n : Nat) (r : Rule α) : AgreeUpTo n r r := fun _ _ ↦ rfl

theorem AgreeUpTo.bind {n : Nat} {r r' : Rule α} {f f' : α → Rule β} (hr : AgreeUpTo n r r')
    (hforward : Forward r) (hf : ∀ a, AgreeUpTo n (f a) (f' a)) :
    AgreeUpTo n (r >>= f) (r' >>= f') := by
  intro s hs
  have hrs := hr s hs
  cases h : (r s).result with
  | ok a =>
    have h' : (r' s).result = .ok a := hrs ▸ h
    rw [bind_of_ok f h, bind_of_ok f' h', ← hrs,
      hf a (r s).rest (Nat.le_trans (hforward s) hs)]
  | error e =>
    have h' : (r' s).result = .error e := hrs ▸ h
    rw [bind_of_error f h, bind_of_error f' h', ← hrs]

/-- Behind a rule that takes a token, it is enough to agree on shorter streams. -/
theorem AgreeUpTo.bind_takes {n : Nat} {r : Rule α} {f f' : α → Rule β} (hr : Takes r)
    (hf : ∀ a, AgreeUpTo n (f a) (f' a)) : AgreeUpTo (n + 1) (r >>= f) (r >>= f') := by
  intro s hs
  cases h : (r s).result with
  | ok a =>
    have hlt := hr s a h
    rw [bind_of_ok f h, bind_of_ok f' h, hf a (r s).rest (by omega)]
  | error e => rw [bind_of_error f h, bind_of_error f' h]

theorem AgreeUpTo.many {n : Nat} {starts : Token.Kind → Option β} {item item' : β → Rule α}
    (h : ∀ b, AgreeUpTo n (item b) (item' b)) (hforward : ∀ b, Forward (item b)) :
    AgreeUpTo n (many starts item) (many starts item') := by
  have along (bound : List Token) :
      AgreeUpTo n (manyAlong starts item bound) (manyAlong starts item' bound) := by
    induction bound with
    | nil => exact .refl _ _
    | cons t bound ih =>
      refine (AgreeUpTo.refl _ _).bind forward_peek fun t ↦ ?_
      split
      · exact .refl _ _
      · exact (h _).bind (hforward _) fun _ ↦
          ih.bind (forward_manyAlong hforward _) fun _ ↦ .refl _ _
  exact fun s hs ↦ along s.ahead s hs

/-! ### Self-reference -/

/-- What a rule that refers to itself has to satisfy: it goes forward, and what it does depends on
itself at shorter streams only. -/
structure Guarded (rule : Rule α → Rule α) : Prop where
  /-- The rule goes forward. -/
  forward : ∀ {p}, Forward p → Forward (rule p)
  /-- The rule takes a token before it refers to itself. -/
  congr : ∀ {p q s}, Forward p → (∀ n, n < s.length → AgreeUpTo n p q) → rule p s = rule q s

theorem forward_nestAlong {base : Rule α} {rule : Rule α → Rule α} (hbase : Forward base)
    (h : Guarded rule) (bound : List Token) : Forward (nestAlong base rule bound) := by
  induction bound with
  | nil => exact hbase
  | cons t bound ih => exact h.forward ih

/-- A bound that is longer than the stream does not matter. -/
theorem nestAlong_agree {base : Rule α} {rule : Rule α → Rule α} (hbase : Forward base)
    (h : Guarded rule) {n : Nat} {b c : List Token} (hb : n < b.length) (hc : n < c.length) :
    AgreeUpTo n (nestAlong base rule b) (nestAlong base rule c) := by
  induction b generalizing n c with
  | nil => simp at hb
  | cons t b ih =>
    cases c with
    | nil => simp at hc
    | cons u c =>
      simp only [List.length_cons] at hb hc
      exact fun s hs ↦ h.congr (forward_nestAlong hbase h b) fun m hm ↦ ih (by omega) (by omega)

theorem forward_nest {base : Rule α} {rule : Rule α → Rule α} (hbase : Forward base)
    (h : Guarded rule) : Forward (nest base rule) :=
  fun s ↦ h.forward (forward_nestAlong hbase h s.ahead) s

/-- A guarded rule satisfies its equation. -/
theorem nest_eq {base : Rule α} {rule : Rule α → Rule α} (hbase : Forward base)
    (h : Guarded rule) : nest base rule = rule (nest base rule) := by
  funext s
  refine h.congr (forward_nestAlong hbase h s.ahead) fun n hn u hu ↦ ?_
  have hagree := nestAlong_agree hbase h (n := u.length) (b := s.ahead) (c := s.peek :: u.ahead)
    (Nat.lt_of_le_of_lt hu hn) (by simp [Stream.length])
  exact hagree u (Nat.le_refl _)

end Rule

namespace Grammar

open Rule

/-! ### Factors -/

theorem forward_link {factor : Rule (Tree Symbol)} (h : Forward factor) (op : Operator) :
    Forward (link factor op) :=
  forward_peek.bind fun t ↦ (forward_spanOf t).bind fun _ ↦ forward_advance.bind fun _ ↦
    h.bind fun _ ↦ forward_pure _

theorem forward_chain {factor : Rule (Tree Symbol)} (h : Forward factor) :
    Forward (chain factor) :=
  h.bind fun _ ↦ (forward_many (forward_link h)).bind fun _ ↦ forward_pure _

theorem agreeUpTo_chain {n : Nat} {p q : Rule (Tree Symbol)} (hp : Forward p)
    (h : AgreeUpTo n p q) : AgreeUpTo n (chain p) (chain q) := by
  refine h.bind hp fun _ ↦ (AgreeUpTo.many (fun op ↦ ?_) (forward_link hp)).bind
    (forward_many (forward_link hp)) fun _ ↦ .refl _ _
  exact (AgreeUpTo.refl _ _).bind forward_peek fun t ↦
    (AgreeUpTo.refl _ _).bind (forward_spanOf t) fun _ ↦
      (AgreeUpTo.refl _ _).bind forward_advance fun _ ↦ h.bind hp fun _ ↦ .refl _ _

theorem Factor.ne_endOfInput {kind : Token.Kind} {form : Factor}
    (h : Factor.ofKind? kind = some form) : kind ≠ .endOfInput := by
  rintro rfl
  cases h

theorem forward_factorRule {p : Rule (Tree Symbol)} (hp : Forward p) : Forward (factorRule p) := by
  refine forward_peek.bind fun t ↦ ?_
  split
  · exact forward_advance.bind fun _ ↦ (forward_meet _).bind fun _ ↦ forward_pure _
  · exact forward_advance.bind fun _ ↦ (forward_meet _).bind fun _ ↦ hp.bind fun _ ↦
      (forward_spanOf _).bind fun _ ↦ forward_pure _
  · exact forward_advance.bind fun _ ↦ hp.bind fun _ ↦ (forward_spanOf _).bind fun _ ↦
      forward_pure _
  · exact forward_parenthesized (forward_chain hp)
  · exact forward_fail _

/-- Two factors agree if what they refer to agrees on the streams that are left. -/
theorem factorRule_congr {p q : Rule (Tree Symbol)} {s : Stream} (hp : Forward p)
    (h : ∀ n, n < s.length → AgreeUpTo n p q) : factorRule p s = factorRule q s := by
  simp only [factorRule, peek_bind]
  cases hform : Factor.ofKind? s.peek.kind with
  | none => rfl
  | some form =>
    have hlt := Stream.length_advance_lt (Factor.ne_endOfInput hform)
    have hpq := h _ hlt
    cases form with
    | leaf x => rfl
    | negative =>
      simp only [advance_bind]
      exact ((AgreeUpTo.refl _ _).bind (forward_meet _) fun _ ↦ hpq.bind hp fun _ ↦ .refl _ _)
        s.advance (Nat.le_refl _)
    | negated =>
      simp only [advance_bind]
      exact (hpq.bind hp fun _ ↦ .refl _ _) s.advance (Nat.le_refl _)
    | group =>
      have hlength : s.length = s.length - 1 + 1 := by omega
      refine AgreeUpTo.bind_takes (takes_expect (by simp)) (fun _ ↦ ?_) s (Nat.le_of_eq hlength)
      exact (agreeUpTo_chain hp (h _ (by omega))).bind (forward_chain hp) fun _ ↦ .refl _ _

theorem guarded_factorRule : Guarded factorRule :=
  { forward := forward_factorRule, congr := factorRule_congr }

/-- A factor is what the grammar writes down. -/
theorem factor_eq : factor = factorRule factor :=
  nest_eq (forward_fail _) guarded_factorRule

theorem forward_factor : Forward factor :=
  forward_nest (forward_fail _) guarded_factorRule

theorem forward_expression : Forward expression :=
  forward_chain forward_factor

/-! ### Instructions -/

theorem forward_variableName : Forward variableName := by
  refine forward_peek.bind fun t ↦ ?_
  split
  · exact forward_advance.bind fun _ ↦ forward_meet _
  · exact forward_fail _

theorem forward_assignment : Forward assignment :=
  forward_variableName.bind fun _ ↦ (forward_expect _).bind fun _ ↦ forward_expression.bind fun _ ↦
    forward_pure _

theorem forward_clauseBefore (closing : Punctuator) : Forward (clauseBefore closing) := by
  refine forward_peek.bind fun t ↦ ?_
  split
  · exact forward_pure _
  · exact forward_assignment.bind fun _ ↦ forward_pure _

theorem forward_condition : Forward condition :=
  forward_parenthesized forward_expression

theorem forward_item : Forward item := by
  refine forward_peek.bind fun t ↦ ?_
  split
  · exact forward_advance.bind fun _ ↦ forward_pure _
  · exact forward_expression.bind fun _ ↦ forward_pure _

section Inner

variable {p q : Rule (Tree Symbol)} {n : Nat}

theorem forward_sequenceOf (hp : Forward p) : Forward (sequenceOf p) :=
  hp.bind fun _ ↦ (forward_many fun _ ↦ hp).bind fun _ ↦ forward_pure _

theorem forward_guardedArm (hp : Forward p) : Forward (guardedArm p) :=
  (forward_expect _).bind fun _ ↦ forward_condition.bind fun _ ↦ (forward_sequenceOf hp).bind
    fun _ ↦ forward_pure _

theorem forward_lastArm (hp : Forward p) : Forward (lastArm p) := by
  refine forward_peek.bind fun t ↦ ?_
  split
  · exact forward_advance.bind fun _ ↦ (forward_sequenceOf hp).bind fun _ ↦ forward_pure _
  · exact forward_pure _

theorem forward_furtherArms (hp : Forward p) : Forward (furtherArms p) :=
  (forward_many fun _ ↦ forward_guardedArm hp).bind fun _ ↦ (forward_lastArm hp).bind fun _ ↦
    forward_pure _

theorem forward_formRule (hp : Forward p) : ∀ form, Forward (formRule p form)
  | .assignment => forward_assignment.bind fun _ ↦ (forward_expect _).bind fun _ ↦ forward_pure _
  | .ifThen =>
    (forward_expect _).bind fun _ ↦ forward_condition.bind fun _ ↦
      (forward_sequenceOf hp).bind fun _ ↦ (forward_furtherArms hp).bind fun _ ↦
        (forward_expect _).bind fun _ ↦ forward_pure _
  | .repeatUntil =>
    (forward_expect _).bind fun _ ↦ (forward_sequenceOf hp).bind fun _ ↦
      (forward_expect _).bind fun _ ↦ forward_condition.bind fun _ ↦ forward_pure _
  | .whileDo =>
    (forward_expect _).bind fun _ ↦ forward_condition.bind fun _ ↦
      (forward_sequenceOf hp).bind fun _ ↦ (forward_expect _).bind fun _ ↦ forward_pure _
  | .forLoop =>
    (forward_expect _).bind fun _ ↦ (forward_expect _).bind fun _ ↦
      (forward_clauseBefore _).bind fun _ ↦ (forward_expect _).bind fun _ ↦
        forward_expression.bind fun _ ↦ (forward_expect _).bind fun _ ↦
          (forward_clauseBefore _).bind fun _ ↦ (forward_expect _).bind fun _ ↦
            (forward_sequenceOf hp).bind fun _ ↦ (forward_expect _).bind fun _ ↦ forward_pure _
  | .write =>
    (forward_expect _).bind fun _ ↦ (forward_parenthesized (forward_list forward_item)).bind
      fun _ ↦ forward_pure _
  | .read =>
    (forward_expect _).bind fun _ ↦
      (forward_parenthesized (forward_list forward_variableName)).bind fun _ ↦ forward_pure _

theorem forward_bareInstruction (hp : Forward p) : Forward (bareInstruction p) := by
  refine forward_peek.bind fun t ↦ ?_
  split
  · exact forward_formRule hp _
  · exact forward_fail _

theorem forward_instructionRule (hp : Forward p) : Forward (instructionRule p) := by
  refine (forward_bareInstruction hp).attempt.bind fun result ↦ ?_
  split
  · exact (forward_leave _).bind fun _ ↦ forward_pure _
  · refine (forward_leave _).bind fun _ ↦ forward_advance.bind fun _ ↦
      (forward_skipUntil _).bind fun _ ↦ forward_atEnd.bind fun b ↦ ?_
    split
    · exact forward_stop _
    · exact hp

theorem agreeUpTo_sequenceOf (hp : Forward p) (h : AgreeUpTo n p q) :
    AgreeUpTo n (sequenceOf p) (sequenceOf q) :=
  h.bind hp fun _ ↦ (AgreeUpTo.many (fun _ ↦ h) fun _ ↦ hp).bind (forward_many fun _ ↦ hp)
    fun _ ↦ .refl _ _

theorem agreeUpTo_furtherArms (hp : Forward p) (h : AgreeUpTo n p q) :
    AgreeUpTo n (furtherArms p) (furtherArms q) := by
  have hsequence := agreeUpTo_sequenceOf hp h
  have hguarded : AgreeUpTo n (guardedArm p) (guardedArm q) :=
    (AgreeUpTo.refl _ _).bind (forward_expect _) fun _ ↦
      (AgreeUpTo.refl _ _).bind forward_condition fun _ ↦
        hsequence.bind (forward_sequenceOf hp) fun _ ↦ .refl _ _
  have hlast : AgreeUpTo n (lastArm p) (lastArm q) := by
    refine (AgreeUpTo.refl _ _).bind forward_peek fun t ↦ ?_
    split
    · exact (AgreeUpTo.refl _ _).bind forward_advance fun _ ↦
        hsequence.bind (forward_sequenceOf hp) fun _ ↦ .refl _ _
    · exact .refl _ _
  exact (AgreeUpTo.many (fun _ ↦ hguarded) fun _ ↦ forward_guardedArm hp).bind
    (forward_many fun _ ↦ forward_guardedArm hp) fun _ ↦
      hlast.bind (forward_lastArm hp) fun _ ↦ .refl _ _

/-- Every form takes its first token before it comes to the instructions inside it. -/
theorem agreeUpTo_formRule (hp : Forward p) (h : AgreeUpTo n p q) :
    ∀ form, AgreeUpTo (n + 1) (formRule p form) (formRule q form) := by
  have hsequence := agreeUpTo_sequenceOf hp h
  have hforward := forward_sequenceOf hp
  intro form
  cases form with
  | assignment => exact .refl _ _
  | ifThen =>
    refine AgreeUpTo.bind_takes (takes_expect (by simp)) fun _ ↦ ?_
    exact (AgreeUpTo.refl _ _).bind forward_condition fun _ ↦ hsequence.bind hforward fun _ ↦
      (agreeUpTo_furtherArms hp h).bind (forward_furtherArms hp) fun _ ↦ .refl _ _
  | repeatUntil =>
    refine AgreeUpTo.bind_takes (takes_expect (by simp)) fun _ ↦ ?_
    exact hsequence.bind hforward fun _ ↦ .refl _ _
  | whileDo =>
    refine AgreeUpTo.bind_takes (takes_expect (by simp)) fun _ ↦ ?_
    exact (AgreeUpTo.refl _ _).bind forward_condition fun _ ↦ hsequence.bind hforward fun _ ↦
      .refl _ _
  | forLoop =>
    refine AgreeUpTo.bind_takes (takes_expect (by simp)) fun _ ↦ ?_
    exact (AgreeUpTo.refl _ _).bind (forward_expect _) fun _ ↦
      (AgreeUpTo.refl _ _).bind (forward_clauseBefore _) fun _ ↦
        (AgreeUpTo.refl _ _).bind (forward_expect _) fun _ ↦
          (AgreeUpTo.refl _ _).bind forward_expression fun _ ↦
            (AgreeUpTo.refl _ _).bind (forward_expect _) fun _ ↦
              (AgreeUpTo.refl _ _).bind (forward_clauseBefore _) fun _ ↦
                (AgreeUpTo.refl _ _).bind (forward_expect _) fun _ ↦
                  hsequence.bind hforward fun _ ↦ .refl _ _
  | write => exact .refl _ _
  | read => exact .refl _ _

end Inner

theorem Form.ne_endOfInput {kind : Token.Kind} {form : Form} (h : Form.ofKind? kind = some form) :
    kind ≠ .endOfInput := by
  rintro rfl
  cases h

theorem bareInstruction_congr {p q : Rule (Tree Symbol)} {s : Stream} (hp : Forward p)
    (h : ∀ n, n < s.length → AgreeUpTo n p q) : bareInstruction p s = bareInstruction q s := by
  simp only [bareInstruction, peek_bind]
  cases hform : Form.ofKind? s.peek.kind with
  | none => rfl
  | some form =>
    have hlt := Stream.length_advance_lt (Form.ne_endOfInput hform)
    have hlength : s.length = s.length - 1 + 1 := by omega
    exact agreeUpTo_formRule hp (h (s.length - 1) (by omega)) form s (Nat.le_of_eq hlength)

theorem instructionRule_congr {p q : Rule (Tree Symbol)} {s : Stream} (hp : Forward p)
    (h : ∀ n, n < s.length → AgreeUpTo n p q) : instructionRule p s = instructionRule q s := by
  have hbare := bareInstruction_congr hp h
  have hattempt : attempt (bareInstruction p) s = attempt (bareInstruction q) s := by
    simp only [attempt, hbare]
  have hrest : (attempt (bareInstruction p) s).rest.length ≤ s.length :=
    (forward_bareInstruction hp).attempt s
  cases hr : (attempt (bareInstruction p) s).result with
  | error e =>
    have hr' : (attempt (bareInstruction q) s).result = .error e := hattempt ▸ hr
    rw [instructionRule, instructionRule, bind_of_error _ hr, bind_of_error _ hr', hattempt]
  | ok result =>
    have hr' : (attempt (bareInstruction q) s).result = .ok result := hattempt ▸ hr
    rw [instructionRule, instructionRule, bind_of_ok _ hr, bind_of_ok _ hr', ← hattempt]
    cases result with
    | ok tree => rfl
    | error e =>
      generalize (attempt (bareInstruction p) s).rest = u at hrest
      have key : (do
          advance
          skipUntil startsInstruction
          if ← atEnd then stop (.syntactic e) else p : Rule (Tree Symbol)) u = (do
          advance
          skipUntil startsInstruction
          if ← atEnd then stop (.syntactic e) else q : Rule (Tree Symbol)) u := by
        simp only [advance_bind, skipUntil_bind, atEnd_bind]
        split
        · rfl
        · next hend =>
          have hne : (u.advance.dropUntil startsInstruction).length ≠ 0 := fun h0 ↦
            hend (Stream.atEnd_iff.2 h0)
          have hle := Stream.length_dropUntil_le startsInstruction u.advance
          rw [Stream.length_advance] at hle
          exact h _ (by omega) _ (Nat.le_refl _)
      have hleave (r : Rule (Tree Symbol)) : (leave (.discarded e) >>= fun _ ↦ r) u =
          { result := (r u).result, rest := (r u).rest, events := .discarded e :: (r u).events } :=
        bind_of_ok _ rfl
      simp only [hleave, key]

theorem guarded_instructionRule : Guarded instructionRule :=
  { forward := forward_instructionRule, congr := instructionRule_congr }

/-- An instruction is what the grammar writes down, with recovery. -/
theorem instruction_eq : instruction = instructionRule instruction :=
  nest_eq (forward_fail _) guarded_instructionRule

theorem forward_instruction : Forward instruction :=
  forward_nest (forward_fail _) guarded_instructionRule

end Grammar

end Pseudocode

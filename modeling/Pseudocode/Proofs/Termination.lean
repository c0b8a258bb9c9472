import Mathlib.Logic.Function.Iterate
import Pseudocode.Proofs.Diagnostics

/-!
# Reading ends, and it ends in front of the first end of input

A reader goes along a list of tokens with a cursor that only moves forward. Three things can keep it
busy: rules that refer to themselves, loops, and the retries after an error. Each of them takes a
token before it comes round again, and the end of input is never taken. So the number of tokens up
to the first end of input bounds all of them, and what stands behind it is never looked at.

## Main definitions

* `Stream.behind`, `Stream.extent`, `Stream.tokenAt`: a cursor in a list of tokens.
* `Rule.Settles`: a rule that refers to itself goes no deeper than there are tokens ahead.
* `Rule.round`: one round of a loop.
* `Rule.MovesOn`: the rule keeps the cursor in front of the first end of input.
* `Grammar.Settled`, `Grammar.Advances`: nothing goes on for ever, and what succeeds takes a token.
* `Reading.Request`, `Reading.answers`: what a reader is asked for, and what it answers.

## Main results

* `Rule.Guarded.settles`, `Rule.settles_many`: self-reference and loops behind a token settle.
* `Rule.closed_movesOn`: all rules of the grammar keep the cursor in front of the end of input.
* `Reading.answers_end`: any requests, one after the other, on any list of tokens.
-/

namespace Pseudocode

/-! ### A cursor in a list of tokens -/

namespace Stream

variable {tokens : List Token} {n : Nat}

/-- The number of tokens before the first end of input. -/
def extent (tokens : List Token) : Nat :=
  tokens.findIdx (·.isEnd)

/-- The token at a place. Behind the last one there is an end of input where that one stops. -/
def tokenAt (tokens : List Token) (n : Nat) : Token :=
  tokens.getD n (Token.endAt ((tokens.getLast?.map (·.stop)).getD {}))

/-- The stream of a reader whose cursor stands at a place. -/
def behind (tokens : List Token) (n : Nat) : Stream :=
  { ofTokens tokens with ahead := (ofTokens tokens).ahead.drop n }

theorem behind_zero (tokens : List Token) : behind tokens 0 = ofTokens tokens := rfl

theorem ahead_behind (tokens : List Token) (n : Nat) :
    (behind tokens n).ahead = (tokens.take (extent tokens)).drop n := by
  rw [behind, ahead_ofTokens, List.takeWhile_eq_take_findIdx_not]
  simp [extent]

@[simp]
theorem length_behind (tokens : List Token) (n : Nat) :
    (behind tokens n).length = extent tokens - n := by
  have hle : extent tokens ≤ tokens.length := List.findIdx_le_length
  rw [length, ahead_behind, List.length_drop, List.length_take, Nat.min_eq_left hle]

/-- The extent of a list reaches to an end of input. -/
theorem isEnd_tokenAt_extent (tokens : List Token) :
    (tokenAt tokens (extent tokens)).isEnd = true := by
  rw [tokenAt, List.getD_eq_getElem?_getD, extent, ← List.find?_eq_getElem?_findIdx]
  cases h : tokens.find? (·.isEnd) with
  | none => rfl
  | some t => exact List.find?_some h

theorem isEnd_tokenAt_of_lt (h : n < extent tokens) : (tokenAt tokens n).isEnd = false := by
  have hlt : n < tokens.length := Nat.lt_of_lt_of_le h List.findIdx_le_length
  rw [tokenAt, List.getD_eq_getElem?_getD, List.getElem?_eq_getElem hlt]
  exact List.not_of_lt_findIdx h

/-- The end of input that closes a list of tokens is the one at the end of its extent. -/
theorem close_behind (tokens : List Token) (n : Nat) :
    (behind tokens n).close = tokenAt tokens (extent tokens) := by
  have hkind : (tokenAt tokens (extent tokens)).kind = .endOfInput :=
    of_decide_eq_true (isEnd_tokenAt_extent tokens)
  have hclose : (behind tokens n).close = { tokenAt tokens (extent tokens) with
      kind := .endOfInput } := by
    rw [tokenAt, List.getD_eq_getElem?_getD, extent, ← List.find?_eq_getElem?_findIdx]
    rfl
  rw [hclose, ← hkind]

/-- A reader in front of the first end of input looks at the token at its cursor. -/
theorem peek_behind (h : n ≤ extent tokens) : (behind tokens n).peek = tokenAt tokens n := by
  rw [peek, ahead_behind]
  rcases Nat.lt_or_eq_of_le h with hlt | rfl
  · have hlength : n < tokens.length := Nat.lt_of_lt_of_le hlt List.findIdx_le_length
    rw [List.headD_eq_head?_getD, List.head?_drop, List.getElem?_take_of_lt hlt, tokenAt,
      List.getD_eq_getElem?_getD, List.getElem?_eq_getElem hlength]
    rfl
  · rw [List.drop_eq_nil_of_le (List.length_take_le ..)]
    exact close_behind tokens _

/-- The token at the cursor is taken, unless it is an end of input. -/
theorem advance_behind (h : n ≤ extent tokens) : (behind tokens n).advance =
    behind tokens (if (tokenAt tokens n).isEnd then n else n + 1) := by
  rcases Nat.lt_or_eq_of_le h with hlt | rfl
  · rw [isEnd_tokenAt_of_lt hlt, if_neg Bool.false_ne_true]
    simp only [advance, behind, List.tail_drop]
  · rw [isEnd_tokenAt_extent, if_pos rfl]
    have hlength : (behind tokens (extent tokens)).length = 0 := by
      rw [length_behind, Nat.sub_self]
    exact advance_of_ahead_eq_nil (List.length_eq_zero_iff.1 hlength)

/-- Skipping tokens moves the cursor forward, up to the first end of input at most. -/
theorem dropUntil_behind (p : Token → Bool) (h : n ≤ extent tokens) :
    ∃ n', n ≤ n' ∧ n' ≤ extent tokens ∧ (behind tokens n).dropUntil p = behind tokens n' := by
  refine ⟨n + (behind tokens n).ahead.findIdx p, Nat.le_add_right .., ?_, ?_⟩
  · have hle : (behind tokens n).ahead.findIdx p ≤ (behind tokens n).length :=
      List.findIdx_le_length
    rw [length_behind] at hle
    omega
  · simp only [dropUntil, behind, List.dropWhile_eq_drop_findIdx_not, Bool.not_not, List.drop_drop]

end Stream

/-! ### Self-reference and loops -/

namespace Rule

variable {α β : Type}

/-- A rule that refers to itself comes to an outcome without going deeper than there are tokens
ahead: what it would do below that does not matter. -/
def Settles (rule : Rule α → Rule α) (s : Stream) (o : Outcome α) : Prop :=
  ∀ deeper, rule^[s.length + 1] deeper s = o

/-- What takes a token before it refers to itself settles. -/
theorem Guarded.settles {rule : Rule α → Rule α} (h : Guarded rule) {p : Rule α} (hp : Forward p)
    (heq : p = rule p) (s : Stream) : Settles rule s (p s) := by
  -- what is deeper is only asked about shorter streams, so one unfolding serves one token more
  have agree (deeper : Rule α) (n : Nat) : AgreeUpTo n p (rule^[n + 1] deeper) := by
    induction n with
    | zero =>
      intro u hu
      rw [congrFun heq u]
      exact h.congr hp fun m hm ↦ by omega
    | succ n ih =>
      intro u hu
      rw [congrFun heq u, Function.iterate_succ_apply']
      exact h.congr hp fun m hm v hv ↦ ih v (by omega)
  exact fun deeper ↦ (agree deeper s.length s (Nat.le_refl _)).symm

/-- One round of a loop, when `self` does the further rounds. -/
def round (starts : Token.Kind → Option β) (item : β → Rule α) (self : Rule (List α)) :
    Rule (List α) := do
  match starts (← peek).kind with
  | none => pure []
  | some b =>
    let first ← item b
    let others ← self
    pure (first :: others)

section Loops

variable {starts : Token.Kind → Option β} {item : β → Rule α}

/-- A loop whose items take a token takes one before it comes round. -/
theorem guarded_round (hforward : ∀ b, Forward (item b)) (htakes : ∀ b, Takes (item b)) :
    Guarded (round starts item) where
  forward hp := by
    refine forward_peek.bind fun t ↦ ?_
    split
    · exact forward_pure _
    · exact (hforward _).bind fun _ ↦ hp.bind fun _ ↦ forward_pure _
  congr {p q s} hp h := by
    simp only [round, peek_bind]
    cases starts s.peek.kind with
    | none => rfl
    | some b =>
      dsimp only
      cases hfirst : (item b s).result with
      | error e => rw [bind_of_error _ hfirst, bind_of_error _ hfirst]
      | ok a =>
        -- the further rounds start behind the item, which has taken a token
        have hlt := htakes b s a hfirst
        have hothers := ((h _ hlt).bind (f := fun others ↦ pure (a :: others)) hp
          fun _ ↦ .refl _ _) (item b s).rest (Nat.le_refl _)
        rw [bind_of_ok _ hfirst, bind_of_ok _ hfirst, hothers]

/-- At the end of input a loop that no end of input starts does nothing. -/
theorem manyAlong_of_length_eq_zero (hstarts : starts .endOfInput = none) {s : Stream}
    (hs : s.length = 0) (bound : List Token) :
    manyAlong starts item bound s = (pure [] : Rule (List α)) s := by
  have hpeek : s.peek.kind = .endOfInput := by
    rw [Stream.peek, List.length_eq_zero_iff.1 hs]
    rfl
  cases bound with
  | nil => rfl
  | cons t bound =>
    rw [manyAlong, peek_bind, hpeek, hstarts]

theorem manyAlong_cons (t : Token) (bound : List Token) :
    manyAlong starts item (t :: bound) = round starts item (manyAlong starts item bound) := rfl

/-- A bound that is not shorter than the stream does not matter. -/
theorem manyAlong_agree (hstarts : starts .endOfInput = none) (h : Guarded (round starts item))
    (hforward : ∀ b, Forward (item b)) {n : Nat} {b c : List Token} (hb : n ≤ b.length)
    (hc : n ≤ c.length) : AgreeUpTo n (manyAlong starts item b) (manyAlong starts item c) := by
  induction b generalizing n c with
  | nil =>
    intro s hs
    have hzero : s.length = 0 := by
      rw [List.length_nil] at hb
      omega
    rw [manyAlong_of_length_eq_zero hstarts hzero, manyAlong_of_length_eq_zero hstarts hzero]
  | cons t b ih =>
    intro s hs
    cases c with
    | nil =>
      have hzero : s.length = 0 := by
        rw [List.length_nil] at hc
        omega
      rw [manyAlong_of_length_eq_zero hstarts hzero, manyAlong_of_length_eq_zero hstarts hzero]
    | cons u c =>
      rw [List.length_cons] at hb hc
      exact h.congr (forward_manyAlong hforward b) fun m hm ↦ ih (by omega) (by omega)

/-- A loop whose items take a token satisfies its equation. -/
theorem many_eq_round (hstarts : starts .endOfInput = none) (hforward : ∀ b, Forward (item b))
    (htakes : ∀ b, Takes (item b)) : many starts item = round starts item (many starts item) := by
  have hguarded : Guarded (round starts item) := guarded_round hforward htakes
  funext s
  have hlong : many starts item s = manyAlong starts item (s.peek :: s.ahead) s :=
    manyAlong_agree hstarts hguarded hforward (Nat.le_refl s.length) (Nat.le_succ _) s
      (Nat.le_refl _)
  rw [hlong, manyAlong_cons]
  refine hguarded.congr (forward_manyAlong hforward _) fun n hn u hu ↦ ?_
  have hle : u.length ≤ s.length := Nat.le_trans hu (Nat.le_of_lt hn)
  exact manyAlong_agree hstarts hguarded hforward hle (Nat.le_refl _) u (Nat.le_refl _)

/-- A loop whose items take a token goes round no more often than there are tokens ahead. -/
theorem settles_many (hstarts : starts .endOfInput = none) (hforward : ∀ b, Forward (item b))
    (htakes : ∀ b, Takes (item b)) (s : Stream) :
    Settles (round starts item) s (many starts item s) :=
  (guarded_round hforward htakes).settles (forward_many hforward)
    (many_eq_round hstarts hforward htakes) s

end Loops

/-! ### Rules that take a token -/

theorem Takes.bind {r : Rule α} {f : α → Rule β} (hr : Takes r) (hf : ∀ a, Forward (f a)) :
    Takes (r >>= f) := by
  intro s b h
  cases hresult : (r s).result with
  | error e =>
    rw [bind_of_error f hresult] at h
    cases h
  | ok a =>
    rw [bind_of_ok f hresult]
    exact Nat.lt_of_le_of_lt (hf a _) (hr s a hresult)

theorem Forward.bind_takes {r : Rule α} {f : α → Rule β} (hr : Forward r)
    (hf : ∀ a, Takes (f a)) : Takes (r >>= f) := by
  intro s b h
  cases hresult : (r s).result with
  | error e =>
    rw [bind_of_error f hresult] at h
    cases h
  | ok a =>
    rw [bind_of_ok f hresult] at h ⊢
    exact Nat.lt_of_lt_of_le (hf a _ b h) (hr s)

/-- A rule that never succeeds takes a token whenever it does. -/
theorem takes_fail (wanted : Expectation) : Takes (fail wanted : Rule α) := by
  refine forward_peek.bind_takes fun t ↦ (forward_spanOf t).bind_takes fun span s a h ↦ ?_
  cases h

/-- Behind a look at the next token, it is enough to take it if it is not the end of input. -/
theorem length_advance_bind_lt {f : Unit → Rule α} {s : Stream} (hs : s.peek.kind ≠ .endOfInput)
    (hf : Forward (f ())) : ((advance >>= f) s).rest.length < s.length := by
  rw [advance_bind]
  exact Nat.lt_of_le_of_lt (hf _) (Stream.length_advance_lt hs)

end Rule

namespace Grammar

open Rule

theorem takes_factorRule {p : Rule (Tree Symbol)} (hp : Forward p) : Takes (factorRule p) := by
  intro s tree h
  simp only [factorRule, peek_bind] at h ⊢
  cases hform : Factor.ofKind? s.peek.kind with
  | none =>
    rw [hform] at h
    exact takes_fail .factor s tree h
  | some form =>
    rw [hform] at h
    have hs := Factor.ne_endOfInput hform
    cases form with
    | leaf x => exact length_advance_bind_lt hs ((forward_meet _).bind fun _ ↦ forward_pure _)
    | negative =>
      exact length_advance_bind_lt hs <| (forward_meet _).bind fun _ ↦ hp.bind fun _ ↦
        (forward_spanOf _).bind fun _ ↦ forward_pure _
    | negated =>
      exact length_advance_bind_lt hs <| hp.bind fun _ ↦ (forward_spanOf _).bind fun _ ↦
        forward_pure _
    | group =>
      refine (takes_expect (by simp)).bind (fun _ ↦ ?_) s tree h
      exact (forward_chain hp).bind fun _ ↦ (forward_expect _).bind fun _ ↦ forward_pure _

/-- A factor takes at least a token. -/
theorem takes_factor : Takes factor := by
  rw [factor_eq]
  exact takes_factorRule forward_factor

theorem takes_link (op : Operator) : Takes (link factor op) :=
  forward_peek.bind_takes fun t ↦ (forward_spanOf t).bind_takes fun _ ↦
    forward_advance.bind_takes fun _ ↦ takes_factor.bind fun _ ↦ forward_pure _

theorem takes_variableName : Takes variableName := by
  intro s x h
  simp only [variableName, peek_bind] at h ⊢
  cases hname : s.peek.kind.name? with
  | none =>
    rw [hname] at h
    exact takes_fail _ s x h
  | some name =>
    refine length_advance_bind_lt (fun hend ↦ ?_) (forward_meet _)
    rw [hend] at hname
    cases hname

section Inner

variable {p : Rule (Tree Symbol)}

theorem takes_formRule (hp : Forward p) : ∀ form, Takes (formRule p form)
  | .assignment =>
    (takes_variableName.bind fun _ ↦ (forward_expect _).bind fun _ ↦ forward_expression.bind fun _ ↦
      forward_pure _).bind fun _ ↦ (forward_expect _).bind fun _ ↦ forward_pure _
  | .ifThen =>
    (takes_expect (by simp)).bind fun _ ↦ forward_condition.bind fun _ ↦
      (forward_sequenceOf hp).bind fun _ ↦ (forward_furtherArms hp).bind fun _ ↦
        (forward_expect _).bind fun _ ↦ forward_pure _
  | .repeatUntil =>
    (takes_expect (by simp)).bind fun _ ↦ (forward_sequenceOf hp).bind fun _ ↦
      (forward_expect _).bind fun _ ↦ forward_condition.bind fun _ ↦ forward_pure _
  | .whileDo =>
    (takes_expect (by simp)).bind fun _ ↦ forward_condition.bind fun _ ↦
      (forward_sequenceOf hp).bind fun _ ↦ (forward_expect _).bind fun _ ↦ forward_pure _
  | .forLoop =>
    (takes_expect (by simp)).bind fun _ ↦ (forward_expect _).bind fun _ ↦
      (forward_clauseBefore _).bind fun _ ↦ (forward_expect _).bind fun _ ↦
        forward_expression.bind fun _ ↦ (forward_expect _).bind fun _ ↦
          (forward_clauseBefore _).bind fun _ ↦ (forward_expect _).bind fun _ ↦
            (forward_sequenceOf hp).bind fun _ ↦ (forward_expect _).bind fun _ ↦ forward_pure _
  | .write =>
    (takes_expect (by simp)).bind fun _ ↦
      (forward_parenthesized (forward_list forward_item)).bind fun _ ↦ forward_pure _
  | .read =>
    (takes_expect (by simp)).bind fun _ ↦
      (forward_parenthesized (forward_list forward_variableName)).bind fun _ ↦ forward_pure _

theorem takes_bareInstruction (hp : Forward p) : Takes (bareInstruction p) := by
  refine forward_peek.bind_takes fun t ↦ ?_
  split
  · exact takes_formRule hp _
  · exact takes_fail _

theorem takes_guardedArm (hp : Forward p) : Takes (guardedArm p) :=
  (takes_expect (by simp)).bind fun _ ↦ forward_condition.bind fun _ ↦
    (forward_sequenceOf hp).bind fun _ ↦ forward_pure _

end Inner

/-- Where the reader tries again after an error, if there is such a place. -/
def retryAfter (s : Stream) : Stream :=
  s.advance.dropUntil startsInstruction

/-- A retry starts with fewer tokens than the error before it. -/
theorem length_retryAfter_lt {s : Stream} (h : (retryAfter s).atEnd = false) :
    (retryAfter s).length < s.length := by
  have hne : (retryAfter s).length ≠ 0 := fun h0 ↦
    Bool.false_ne_true (h.symm.trans (Stream.atEnd_iff.2 h0))
  have hle : (retryAfter s).length ≤ s.advance.length := Stream.length_dropUntil_le ..
  rw [Stream.length_advance] at hle
  omega

/-- An instruction takes at least a token, even if others are given up before it. -/
theorem takes_instructionRule {p : Rule (Tree Symbol)} (hp : Forward p) :
    Takes (instructionRule p) := by
  intro s tree h
  have hstrict : Takes (strictRule p) :=
    (takes_bareInstruction hp).bind fun _ ↦ (forward_leave _).bind fun _ ↦ forward_pure _
  cases hresult : (bareInstruction p s).result with
  | ok tree' =>
    rw [instructionRule_of_ok hresult] at h ⊢
    exact hstrict s tree h
  | error failure =>
    cases failure with
    | unordered t =>
      rw [instructionRule_of_unordered hresult] at h ⊢
      exact hstrict s tree h
    | syntactic e =>
      have hbare := forward_bareInstruction hp s
      rw [instructionRule_of_error hresult (u := retryAfter _) rfl] at h ⊢
      cases hend : (retryAfter (bareInstruction p s).rest).atEnd with
      | true =>
        rw [hend] at h
        cases h
      | false =>
        -- the token of the error is taken, whatever the retry takes
        exact Nat.lt_of_le_of_lt (hp _) (Nat.lt_of_lt_of_le (length_retryAfter_lt hend) hbare)

theorem takes_instruction : Takes instruction := by
  rw [instruction_eq]
  exact takes_instructionRule forward_instruction

/-! ### Nothing goes on for ever -/

/-- Whether a token is of a certain kind, as the loops over arms and over lists ask for it. -/
def only (k : Token.Kind) (kind : Token.Kind) : Option Unit :=
  if kind = k then some () else none

/-- Every rule that refers to itself and every loop of the grammar comes to an end on the stream. -/
structure Settled (s : Stream) : Prop where
  /-- Factors inside factors. -/
  factor : Settles factorRule s (factor s)
  /-- Instructions inside instructions, and retries. -/
  instruction : Settles instructionRule s (instruction s)
  /-- Operators behind a factor. -/
  links : Settles (round Operator.ofKind? (link Grammar.factor)) s
    (many Operator.ofKind? (link Grammar.factor) s)
  /-- Instructions behind an instruction. -/
  instructions : Settles (round Form.ofKind? fun _ ↦ Grammar.instruction) s
    (many Form.ofKind? (fun _ ↦ Grammar.instruction) s)
  /-- Arms with a condition behind an arm. -/
  arms : Settles (round (only (.keyword .sinonsi)) fun _ ↦ guardedArm Grammar.instruction) s
    (many (only (.keyword .sinonsi)) (fun _ ↦ guardedArm Grammar.instruction) s)
  /-- Items behind an item to show. -/
  items : Settles (round (only (.punctuator .comma)) fun _ ↦ mark .comma >>= fun _ ↦ item) s
    (many (only (.punctuator .comma)) (fun _ ↦ mark .comma >>= fun _ ↦ item) s)
  /-- Variables behind a variable to show. -/
  names : Settles (round (only (.punctuator .comma)) fun _ ↦ mark .comma >>= fun _ ↦ variableName) s
    (many (only (.punctuator .comma)) (fun _ ↦ mark .comma >>= fun _ ↦ variableName) s)

/-- Nothing goes on for ever. -/
theorem settled (s : Stream) : Settled s where
  factor := guarded_factorRule.settles forward_factor factor_eq s
  instruction := guarded_instructionRule.settles forward_instruction instruction_eq s
  links := settles_many rfl (forward_link forward_factor) takes_link s
  instructions := settles_many rfl (fun _ ↦ forward_instruction) (fun _ ↦ takes_instruction) s
  arms := settles_many rfl (fun _ ↦ forward_guardedArm forward_instruction)
    (fun _ ↦ takes_guardedArm forward_instruction) s
  items := settles_many rfl (fun _ ↦ (forward_expect _).bind fun _ ↦ forward_item)
    (fun _ ↦ (takes_expect (by simp)).bind fun _ ↦ forward_item) s
  names := settles_many rfl (fun _ ↦ (forward_expect _).bind fun _ ↦ forward_variableName)
    (fun _ ↦ (takes_expect (by simp)).bind fun _ ↦ forward_variableName) s

end Grammar

/-! ### The cursor stays in front of the first end of input -/

/-- The cursor has moved on from a place, and not over the first end of input. -/
def Stream.MovedOn (tokens : List Token) (n : Nat) (s : Stream) : Prop :=
  ∃ n', n ≤ n' ∧ n' ≤ extent tokens ∧ s = behind tokens n'

/-- The cursor has moved on from a place, and no token that runs backwards stopped it. -/
structure Outcome.MovesOn {α : Type} (tokens : List Token) (n : Nat) (o : Outcome α) : Prop where
  /-- The cursor has moved on. -/
  rest : o.rest.MovedOn tokens n
  /-- No token that runs backwards stopped it. -/
  result : ∀ t, o.result ≠ .error (.unordered t)

/-- The rule moves the cursor on from every place in front of the first end of input. -/
def Rule.MovesOn {α : Type} (tokens : List Token) (r : Rule α) : Prop :=
  ∀ n ≤ Stream.extent tokens, (r (.behind tokens n)).MovesOn tokens n

namespace Stream

variable {tokens : List Token} {n : Nat}

theorem movedOn_behind (h : n ≤ extent tokens) : (behind tokens n).MovedOn tokens n :=
  ⟨n, Nat.le_refl _, h, rfl⟩

theorem MovedOn.trans {n' : Nat} {s : Stream} (hs : s.MovedOn tokens n') (h : n ≤ n') :
    s.MovedOn tokens n := by
  obtain ⟨m, hm, hend, rfl⟩ := hs
  exact ⟨m, Nat.le_trans h hm, hend, rfl⟩

theorem MovedOn.advance {s : Stream} (hs : s.MovedOn tokens n) : s.advance.MovedOn tokens n := by
  obtain ⟨m, hm, hend, rfl⟩ := hs
  rw [advance_behind hend]
  refine ⟨_, ?_, ?_, rfl⟩ <;> split
  · exact hm
  · exact Nat.le_succ_of_le hm
  · exact hend
  · next hnot =>
    refine Nat.lt_of_le_of_ne hend fun heq ↦ hnot ?_
    rw [heq, isEnd_tokenAt_extent]

theorem MovedOn.dropUntil {s : Stream} (hs : s.MovedOn tokens n) (p : Token → Bool) :
    (s.dropUntil p).MovedOn tokens n := by
  obtain ⟨m, hm, hend, rfl⟩ := hs
  exact MovedOn.trans (dropUntil_behind p hend) hm

/-- In front of the first end of input, no token runs backwards if none of the list does. -/
theorem ordered_behind (hordered : ∀ t ∈ tokens, t.Ordered) (n : Nat) :
    (behind tokens n).Ordered := by
  intro t ht
  refine ordered_ofTokens hordered t ?_
  rcases List.mem_append.1 ht with ht | ht
  · exact List.mem_append_left _ (List.mem_of_mem_drop ht)
  · exact List.mem_append_right _ ht

end Stream

namespace Rule

variable {α β : Type} {tokens : List Token}

theorem MovesOn.bind {r : Rule α} {f : α → Rule β} (hr : MovesOn tokens r)
    (hf : ∀ a, MovesOn tokens (f a)) : MovesOn tokens (r >>= f) := by
  intro n hn
  obtain ⟨⟨m, hm, hend, hrest⟩, hresult⟩ := hr n hn
  cases h : (r (.behind tokens n)).result with
  | error failure =>
    rw [bind_of_error f h]
    refine ⟨⟨m, hm, hend, hrest⟩, fun t ht ↦ hresult t ?_⟩
    rw [h, Except.error.inj ht]
  | ok a =>
    rw [bind_of_ok f h, hrest]
    obtain ⟨hafter, hok⟩ := hf a m hend
    exact ⟨hafter.trans hm, hok⟩

/-- An instruction that is given up leaves the cursor where the next one may start, or at the first
end of input. -/
theorem movesOn_instructionRule {p : Rule (Tree Symbol)} (hp : MovesOn tokens p)
    (hbare : MovesOn tokens (Grammar.bareInstruction p)) :
    MovesOn tokens (Grammar.instructionRule p) := by
  intro n hn
  obtain ⟨hrest, hresult⟩ := hbare n hn
  cases h : (Grammar.bareInstruction p (.behind tokens n)).result with
  | ok tree =>
    rw [Grammar.instructionRule_of_ok h, Grammar.strictRule, bind_of_ok _ h]
    refine ⟨hrest, fun t ht ↦ ?_⟩
    cases ht
  | error failure =>
    cases failure with
    | unordered t => exact absurd h (hresult t)
    | syntactic e =>
      rw [instructionRule_of_error h rfl]
      obtain ⟨m, hm, hend, hu⟩ := hrest.advance.dropUntil Grammar.startsInstruction
      rw [hu]
      split
      · refine ⟨⟨m, hm, hend, rfl⟩, fun t ht ↦ ?_⟩
        cases ht
      · exact ⟨(hp m hend).rest.trans hm, (hp m hend).result⟩

/-- All rules of the grammar keep the cursor in front of the first end of input. -/
theorem closed_movesOn (hordered : ∀ t ∈ tokens, t.Ordered) :
    Closed fun _ r ↦ MovesOn tokens r where
  holds_pure _ _ hn := ⟨Stream.movedOn_behind hn, fun _ ht ↦ nomatch ht⟩
  holds_bind := MovesOn.bind
  holds_peek hf n hn := by
    rw [peek_bind]
    exact hf _ (Stream.ordered_behind hordered n).peek n hn
  holds_advance _ hn := ⟨(Stream.movedOn_behind hn).advance, fun _ ht ↦ nomatch ht⟩
  holds_meet _ _ hn := ⟨Stream.movedOn_behind hn, fun _ ht ↦ nomatch ht⟩
  holds_fail wanted n hn := by
    obtain ⟨e, -, -, hfail⟩ := fail_apply wanted (Stream.ordered_behind hordered n)
    rw [hfail]
    exact ⟨Stream.movedOn_behind hn, fun _ ht ↦ nomatch ht⟩
  holds_of_forall hr n hn := by
    obtain ⟨r', hr', heq⟩ := hr (.behind tokens n)
    rw [heq]
    exact hr' n hn
  holds_instructionRule := movesOn_instructionRule

end Rule

/-! ### Progress of the cursor -/

/-- From a place, the rule moves the cursor on, and over at least one token if it succeeds. -/
def Rule.TakesFrom {α : Type} (tokens : List Token) (n : Nat) (r : Rule α) : Prop :=
  ∃ n', n ≤ n' ∧ n' ≤ Stream.extent tokens ∧ (r (.behind tokens n)).rest = .behind tokens n' ∧
    ∀ a, (r (.behind tokens n)).result = .ok a → n < n'

theorem Rule.MovesOn.takesFrom {α : Type} {tokens : List Token} {r : Rule α}
    (hr : MovesOn tokens r) (htakes : Takes r) {n : Nat} (hn : n ≤ Stream.extent tokens) :
    TakesFrom tokens n r := by
  obtain ⟨⟨n', hle, hend, hrest⟩, -⟩ := hr n hn
  refine ⟨n', hle, hend, hrest, fun a ha ↦ ?_⟩
  have hlt := htakes _ a ha
  rw [hrest, Stream.length_behind, Stream.length_behind] at hlt
  omega

namespace Grammar

open Rule
open Pseudocode.Stream (behind extent length_behind movedOn_behind)

/-- How the reader goes on after the error `e` at a place: it gives up at the first end of input, or
it tries again behind that place. -/
def Retries (tokens : List Token) (n : Nat) (e : SyntaxError) (o : Outcome (Tree Symbol)) : Prop :=
  (o.result = .error (.syntactic e) ∧ o.rest = behind tokens (extent tokens)) ∨
    ∃ n', n < n' ∧ n' < extent tokens ∧ o.result = (instruction (behind tokens n')).result ∧
      o.rest = (instruction (behind tokens n')).rest

/-- What the reader does from a place in a list of tokens. -/
structure Advances (tokens : List Token) (n : Nat) : Prop where
  /-- A factor that is read takes a token. -/
  factor : TakesFrom tokens n Grammar.factor
  /-- An instruction that is read without recovery takes a token. -/
  instruction : TakesFrom tokens n (bareInstruction Grammar.instruction)
  /-- After an error, a retry starts behind the token of the error. -/
  retry : ∀ e m,
    (bareInstruction Grammar.instruction (behind tokens n)).result = .error (.syntactic e) →
    (bareInstruction Grammar.instruction (behind tokens n)).rest = behind tokens m →
    m ≤ extent tokens → Retries tokens m e (Grammar.instruction (behind tokens n))

theorem retries_instruction {tokens : List Token} {n m : Nat} {e : SyntaxError}
    (h : (bareInstruction instruction (behind tokens n)).result = .error (.syntactic e))
    (hrest : (bareInstruction instruction (behind tokens n)).rest = behind tokens m)
    (hm : m ≤ extent tokens) : Retries tokens m e (instruction (behind tokens n)) := by
  obtain ⟨n', -, hend, hu⟩ : (retryAfter (behind tokens m)).MovedOn tokens m :=
    (movedOn_behind hm).advance.dropUntil _
  have hlength : (retryAfter (behind tokens m)).length = extent tokens - n' := by
    rw [hu, length_behind]
  have hretry := congrFun instruction_eq (behind tokens n)
  rw [instructionRule_of_error h (u := retryAfter (behind tokens m)) (hrest ▸ rfl)] at hretry
  rw [hretry]
  cases hat : (retryAfter (behind tokens m)).atEnd with
  | true =>
    have hzero := Stream.atEnd_iff.1 hat
    obtain rfl : n' = extent tokens := by omega
    exact .inl ⟨rfl, hu⟩
  | false =>
    have hlt := length_retryAfter_lt hat
    rw [length_behind] at hlt
    have hne : n' ≠ extent tokens := fun heq ↦ by
      rw [Stream.atEnd_iff.2 (by omega)] at hat
      cases hat
    exact .inr ⟨n', by omega, Nat.lt_of_le_of_ne hend hne, hu ▸ rfl, hu ▸ rfl⟩

/-- What succeeds takes a token, and so does every retry. -/
theorem advances {tokens : List Token} (hordered : ∀ t ∈ tokens, t.Ordered) {n : Nat}
    (hn : n ≤ extent tokens) : Advances tokens n where
  factor := (closed_movesOn hordered).holds_factor.takesFrom takes_factor hn
  instruction :=
    ((closed_movesOn hordered).holds_bareInstruction
      (closed_movesOn hordered).holds_instruction).takesFrom
        (takes_bareInstruction forward_instruction) hn
  retry _ _ := retries_instruction

end Grammar

/-! ### Requests to a reader -/

namespace Reading

/-- What a reader may be asked for. -/
inductive Request where
  /-- A program. -/
  | program
  /-- An expression. -/
  | expression

/-- What the reader answers, and where it goes on. -/
def answer (r : Reading) : Request → Except Failure (Tree Symbol) × Reading
  | .program => r.program
  | .expression => r.expression

/-- What the reader answers to requests one after the other. -/
def answers (r : Reading) : List Request → List (Except Failure (Tree Symbol)) × Reading
  | [] => ([], r)
  | request :: requests =>
    let first := r.answer request
    let others := first.2.answers requests
    (first.1 :: others.1, others.2)

variable {tokens : List Token} {n : Nat}

@[simp]
theorem stream_noteFailure {α : Type} (r : Reading) (result : Except Failure α) :
    (r.noteFailure result).stream = r.stream := by
  unfold noteFailure
  split <;> rfl

/-- A program is given up because of a token that runs backwards only if its rule is. -/
theorem program_fst_ne_unordered {r : Reading}
    (h : ∀ t, (r.run Grammar.program).1 ≠ .error (.unordered t)) (t : Token) :
    r.program.1 ≠ .error (.unordered t) := by
  unfold program
  dsimp only
  split
  · next hresult => exact absurd hresult (h _)
  · exact fun hsyntactic ↦ nomatch hsyntactic
  · exact h t

/-- A request moves the cursor on, and the answer is a tree or a syntax error. -/
theorem answer_movesOn (hordered : ∀ t ∈ tokens, t.Ordered) {r : Reading}
    (hr : r.stream.MovedOn tokens n) (request : Request) :
    (r.answer request).2.stream.MovedOn tokens n ∧
      ∀ t, (r.answer request).1 ≠ .error (.unordered t) := by
  obtain ⟨m, hm, hend, hstream⟩ := hr
  have hclosed := Rule.closed_movesOn hordered
  cases request with
  | program =>
    obtain ⟨hrest, hresult⟩ := hclosed.holds_program m hend
    rw [← hstream] at hrest hresult
    refine ⟨?_, program_fst_ne_unordered hresult⟩
    change r.program.2.stream.MovedOn tokens n
    rw [program_snd, stream_noteFailure]
    exact hrest.trans hm
  | expression =>
    obtain ⟨hrest, hresult⟩ := hclosed.holds_expression m hend
    rw [← hstream] at hrest hresult
    exact ⟨hrest.trans hm, hresult⟩

/-- So do requests one after the other. -/
theorem answers_movesOn (hordered : ∀ t ∈ tokens, t.Ordered) {r : Reading}
    (hr : r.stream.MovedOn tokens n) (requests : List Request) :
    (r.answers requests).2.stream.MovedOn tokens n ∧
      ∀ a ∈ (r.answers requests).1, ∀ t, a ≠ .error (.unordered t) := by
  induction requests generalizing r with
  | nil => exact ⟨hr, fun _ ha ↦ absurd ha List.not_mem_nil⟩
  | cons request requests ih =>
    obtain ⟨hfirst, hanswer⟩ := answer_movesOn hordered hr request
    obtain ⟨hothers, hanswers⟩ := ih hfirst
    refine ⟨hothers, fun a ha ↦ ?_⟩
    rcases List.mem_cons.1 ha with rfl | ha
    · exact hanswer
    · exact hanswers a ha

/-- Any requests to a reader of any tokens come to an end. The cursor stands for the place in the
list, it moves forward only, and it stays in front of the first end of input, where it looks at no
other token than the one at its place. Nothing in the grammar goes on for ever, what succeeds takes
a token, and so does every retry. Tokens behind an end of input change nothing. -/
theorem answers_end {tokens : List Token} (hordered : ∀ t ∈ tokens, t.Ordered) :
    (∀ requests, ∃ n ≤ Stream.extent tokens,
      let after := (ofTokens tokens).answers requests
      after.2.stream = .behind tokens n ∧
        (∀ a ∈ after.1, (∃ tree, a = .ok tree) ∨ ∃ e, a = .error (.syntactic e)) ∧
        ∀ more, (after.2.answers more).2.stream.MovedOn tokens n) ∧
      (∀ n ≤ Stream.extent tokens,
        (Stream.behind tokens n).peek = Stream.tokenAt tokens n ∧
          (Stream.behind tokens n).advance =
            .behind tokens (if (Stream.tokenAt tokens n).isEnd then n else n + 1) ∧
          Grammar.Settled (.behind tokens n) ∧ Grammar.Advances tokens n) ∧
      ∀ before last more more', last.isEnd → tokens = before ++ last :: more → ∀ requests,
        let after := (ofTokens tokens).answers requests
        let after' := (ofTokens (before ++ last :: more')).answers requests
        after'.1 = after.1 ∧ after'.2.diagnostics = after.2.diagnostics ∧
          after'.2.table = after.2.table := by
  refine ⟨fun requests ↦ ?_, fun n hn ↦ ?_, ?_⟩
  · have hstart : (ofTokens tokens).stream.MovedOn tokens 0 :=
      ⟨0, Nat.le_refl _, Nat.zero_le _, (Stream.behind_zero tokens).symm⟩
    obtain ⟨⟨n, -, hn, hstream⟩, hanswers⟩ := answers_movesOn hordered hstart requests
    refine ⟨n, hn, hstream, fun a ha ↦ ?_, fun more ↦ ?_⟩
    · cases a with
      | ok tree => exact .inl ⟨tree, rfl⟩
      | error failure =>
        cases failure with
        | syntactic e => exact .inr ⟨e, rfl⟩
        | unordered t => exact absurd rfl (hanswers _ ha t)
    · exact (answers_movesOn hordered ⟨n, Nat.le_refl _, hn, hstream⟩ more).1
  · exact ⟨Stream.peek_behind hn, Stream.advance_behind hn, Grammar.settled _,
      Grammar.advances hordered hn⟩
  · rintro before last more more' hlast rfl requests
    have hsame : ofTokens (before ++ last :: more') = ofTokens (before ++ last :: more) := by
      rw [ofTokens, ofTokens, Stream.ofTokens_append_end hlast more',
        Stream.ofTokens_append_end hlast more]
    rw [hsame]
    exact ⟨rfl, rfl, rfl⟩

/-- A variable, an end of input and a comma behind it: the comma is never reached, and without it a
reader that is asked for an expression and then for a program gives the same answers. -/
theorem answers_end_comma :
    let x : Token := { kind := .var "x", start := {}, stop := {} }
    let comma : Token := { kind := .punctuator .comma, start := {}, stop := {} }
    let tokens := [x, Token.endAt {}, comma]
    (∀ t ∈ tokens, t.Ordered) ∧
      (∀ requests, ∃ n ≤ 1, ((ofTokens tokens).answers requests).2.stream = .behind tokens n) ∧
      ((ofTokens [x, Token.endAt {}]).answers [.expression, .program]).1 =
        ((ofTokens tokens).answers [.expression, .program]).1 := by
  intro x comma tokens
  have hordered : ∀ t ∈ tokens, t.Ordered := by decide
  obtain ⟨hends, -, hsame⟩ := answers_end hordered
  refine ⟨hordered, fun requests ↦ ?_, ?_⟩
  · obtain ⟨n, hn, hstream, -⟩ := hends requests
    exact ⟨n, hn, hstream⟩
  · exact (hsame [x] (Token.endAt {}) [comma] [] rfl rfl [.expression, .program]).1

end Reading

end Pseudocode

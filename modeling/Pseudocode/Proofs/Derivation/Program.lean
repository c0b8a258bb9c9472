import Pseudocode.Proofs.Derivation.Recovery

/-!
# Programs are read as they are derived

A sentence is a program and the end of input behind it. The strict reader accepts the tokens of a
program, and where it fails, no sentence goes on with the token it stops at.

## Main definitions

* `Derivation.Sentence`: the tokens of a program and the end of input.
* `Derivation.Blame`: a token at which no sentence can go on.

## Main results

* `Grammar.strictProgram_of_derivation`: the strict reader accepts every program.
* `Grammar.strictProgram_cases`: every other stream is rejected at a token that is to blame.
-/

namespace Pseudocode

open Token (Kind Category)

namespace Phrase

open Pseudocode.Derivation Rule

/-! ### Any number of tokens -/

/-- A rule that reads a phrase whatever the number of tokens fails at a token that no derivation
goes on with, however long. -/
theorem ReadBy.outcome_all {D α : Type} {P : Phrase D} {r : Rule α} {value : D → α}
    {trail : D → List Event} (h : ∀ n, P.ReadBy n r value trail) {s : Stream} (hs : s.Ordered) :
    (∃ d rest, P.Begins s d rest) ∨
      ∃ (w : List Token) (rest : Stream) (e : SyntaxError), s = rest.push w ∧
        (r s).FailsAt e rest ∧ e.At rest.peek ∧ ∀ n, P.Blame n w rest.peek e.expectation := by
  rcases (h (s.length + 1)).outcome s hs (Nat.lt_succ_self _) with
    hd | ⟨w, rest, e, hw, he, hat, -⟩
  · exact .inl hd
  · refine .inr ⟨w, rest, e, hw, he, hat, fun n ↦ ?_⟩
    have hlong := h (s.length + 1 + n)
    rcases hlong.outcome s hs (by omega) with ⟨d, rest', hd⟩ | ⟨w', rest', e', hw', he', -, hblame⟩
    · obtain ⟨-, -, hr⟩ := hlong.eq_of_begins hs (by omega) hd
      have hok := he.1
      rw [hr] at hok
      cases hok
    · -- the rule is the same, and so are the error and the place where it fails
      obtain rfl : rest = rest' := he.2.symm.trans he'.2
      obtain rfl : e = e' := by
        have herror := he.1.symm.trans he'.1
        cases herror
        rfl
      obtain rfl : w = w' := by
        have hahead := congrArg Stream.ahead (hw.symm.trans hw')
        exact List.append_cancel_right hahead
      exact ⟨hblame.viable, hblame.viable_wanted, fun d s hs hlength ↦
        hblame.excluded d s hs (by omega)⟩

/-! ### Programs -/

theorem program_ordered (d : Program) : ∀ t ∈ d.tokens, t.Ordered := by
  intro t ht
  simp only [Program.tokens, List.mem_cons, List.mem_append, List.not_mem_nil, or_false] at ht
  rcases ht with rfl | rfl | rfl | rfl | ht | rfl
  · exact d.procedure.ordered
  · exact d.principale.ordered
  · exact d.opening.ordered
  · exact d.closing.ordered
  · exact d.body.ordered t ht
  · exact d.finproc.ordered

/-- Programs. -/
def program : Phrase Program where
  tokens := Program.tokens
  ordered := program_ordered
  stops _ _ := True

end Phrase

namespace Grammar

open Rule Pseudocode.Derivation

/-- A program without recovery, before the end of input. -/
def strictBody : Rule (Tree Symbol) := do
  keyword .procedure
  keyword .principale
  mark .leftParenthesis
  mark .rightParenthesis
  let body ← sequenceOf strictInstruction
  keyword .finproc
  pure body

theorem strictProgram_eq :
    strictProgram = strictBody >>= fun body ↦ expect .endOfInput >>= fun _ ↦ pure body := by
  simp only [strictProgram, strictBody, bind_assoc, pure_bind]

theorem readBy_strictBody (n : Nat) :
    Phrase.program.ReadBy n strictBody Program.tree fun d ↦ d.tree.trail := by
  have hbody := (Phrase.readBy_sequenceOf (Phrase.readBy_strictInstruction n)).both
    (Phrase.readBy_keyword .finproc n) (by simp) (Phrase.before_keyword fun _ ↦ rfl)
  have hclosing := (Phrase.readBy_mark .rightParenthesis n).both hbody (by simp)
    (Phrase.terminal_before _)
  have hopening := (Phrase.readBy_mark .leftParenthesis n).both hclosing (by simp)
    (Phrase.terminal_before _)
  have hname := (Phrase.readBy_keyword .principale n).both hopening (by simp)
    (Phrase.terminal_before _)
  have hall := ((Phrase.readBy_keyword .procedure n).both hname (by simp)
    (Phrase.terminal_before _)).map fun x ↦ x.2.2.2.2.1
  refine (hall.congr fun s _ ↦ by simp only [strictBody, both_bind]).transport
    (fun x ↦ ⟨x.1, x.2.1, x.2.2.1, x.2.2.2.1, x.2.2.2.2.1, x.2.2.2.2.2⟩) ?_ (fun _ ↦ rfl) ?_
    (fun _ ↦ rfl) ?_
  · rintro ⟨procedure, principale, opening, closing, body, finproc⟩
    exact ⟨(procedure, principale, opening, closing, body, finproc), rfl⟩
  · intro x kind
    simp [Phrase.program, Phrase.seq, Phrase.terminal]
  · intro x
    simp [Program.tree]

end Grammar

/-! ### Sentences -/

namespace Derivation

/-- The tokens of a program and an end of input behind them. -/
def Sentence (ts : List Token) : Prop :=
  ∃ (d : Program) (last : Token), last.kind = .endOfInput ∧ last.Ordered ∧
    ts = d.tokens ++ [last]

/-- Behind the tokens `w`, the token `t` is wrong and another one is wanted: the tokens so far
begin a sentence, they still do with a token of the class that is wanted, and no sentence goes on
with `t`. -/
structure Blame (w : List Token) (t : Token) (wanted : Expectation) : Prop where
  /-- The tokens so far begin a sentence. -/
  viable : ∃ ts, Sentence ts ∧ w <+: ts
  /-- So they do with a token of the class that is wanted. -/
  viable_wanted : ∀ c, wanted = .token c →
    ∃ u : Token, u.kind.category = c ∧ ∃ ts, Sentence ts ∧ w ++ [u] <+: ts
  /-- No sentence goes on with `t`. -/
  excluded : ∀ ts, Sentence ts → ¬ w ++ [t] <+: ts

theorem sentence_append_end (d : Program) : Sentence (d.tokens ++ [Token.endAt {}]) :=
  ⟨d, _, rfl, Nat.le_refl _, rfl⟩

/-- The end of input of a sentence, as a stream. -/
theorem Sentence.exists_stream {ts : List Token} (h : Sentence ts) :
    ∃ (d : Program) (s : Stream), s.Ordered ∧ s.peek.kind = .endOfInput ∧ s.ahead = [] ∧
      ts = d.tokens ++ s.all := by
  obtain ⟨d, ⟨kind, start, stop⟩, hkind, hordered, rfl⟩ := h
  obtain rfl : kind = .endOfInput := hkind
  refine ⟨d, ⟨[], start, stop⟩, ?_, rfl, rfl, rfl⟩
  intro t ht
  rw [List.mem_singleton.1 ht]
  exact hordered

/-- A token that no program goes on with is one that no sentence goes on with. -/
theorem blame_of_program {w : List Token} {t : Token} {wanted : Expectation}
    (h : ∀ n, Phrase.program.Blame n w t wanted) : Blame w t wanted where
  viable := by
    obtain ⟨d, hd⟩ := (h 0).viable
    exact ⟨_, sentence_append_end d, hd.trans (List.prefix_append _ _)⟩
  viable_wanted c hc := by
    obtain ⟨u, hu, d, hd⟩ := (h 0).viable_wanted c hc
    exact ⟨u, hu, _, sentence_append_end d, hd.trans (List.prefix_append _ _)⟩
  excluded ts hts hprefix := by
    obtain ⟨d, s, hs, -, -, rfl⟩ := hts.exists_stream
    exact (h (d.tokens.length + 1)).excluded d s hs (Nat.lt_succ_self _) trivial hprefix

/-- Behind a program, only the end of input may follow. -/
theorem blame_behind_program (d : Program) {t : Token} (ht : t.kind ≠ .endOfInput) :
    Blame d.tokens t (.token .endOfInput) where
  viable := ⟨_, sentence_append_end d, List.prefix_append _ _⟩
  viable_wanted c hc := by
    cases hc
    exact ⟨Token.endAt {}, rfl, _, sentence_append_end d, List.prefix_refl _⟩
  excluded ts hts hprefix := by
    obtain ⟨d', s, hs, hpeek, hahead, rfl⟩ := hts.exists_stream
    obtain ⟨more, hmore⟩ := hprefix
    have heq : d.tokens ++ ([t] ++ more) = d'.tokens ++ s.all := by
      rw [← List.append_assoc]
      exact hmore
    have hlength : d.tokens.length < d.tokens.length + d'.tokens.length + 1 := by omega
    have hlength' : d'.tokens.length < d.tokens.length + d'.tokens.length + 1 := by omega
    have hfirst : ([t] ++ more).head? = some t := rfl
    have hall :=
      (Grammar.readBy_strictBody _).rest_eq hlength hlength' hfirst trivial hs trivial heq
    have hhead := s.head?_all
    rw [← hall] at hhead
    exact ht (Option.some.inj hhead ▸ hpeek)

end Derivation

/-! ### The strict reader -/

namespace Grammar

open Rule Pseudocode.Derivation

/-- The strict reader accepts every program. -/
theorem strictProgram_of_derivation (d : Program) {s : Stream} (hs : s.Ordered)
    (hahead : s.ahead = d.tokens) :
    strictProgram s =
      { result := .ok d.tree, rest := { s with ahead := [] }, events := d.tree.trail } := by
  let rest : Stream := { s with ahead := [] }
  have hpush : s = rest.push d.tokens := by
    obtain ⟨ahead, endStart, endStop⟩ := s
    obtain rfl : ahead = d.tokens := hahead
    simp [rest, Stream.push]
  have hrest : rest.Ordered := by
    rw [hpush] at hs
    exact (Stream.ordered_push_iff.1 hs).2
  have hbody := (readBy_strictBody (d.tokens.length + 1)).complete d rest hrest
    (Nat.lt_succ_self _) trivial
  rw [strictProgram_eq, hpush]
  change (_ >>= _ : Rule _) (rest.push (Phrase.program.tokens d)) = _
  rw [bind_of_ok _ (congrArg Outcome.result hbody), hbody]
  have hexpect : expect .endOfInput rest = advance rest := expect_of_peek rfl
  dsimp only
  rw [bind_congr _ hexpect, advance_bind, pure_apply, List.append_nil]
  rfl

/-- Behind a program, the strict reader fails at everything but the end of input. -/
theorem strictProgram_behind {s rest : Stream} {d : Program} (hs : s.Ordered)
    (hd : Phrase.program.Begins s d rest) (hpeek : rest.peek.kind ≠ .endOfInput) :
    ∃ e : SyntaxError, e.At rest.peek ∧ e.expectation = .token .endOfInput ∧
      strictProgram s =
        { result := .error (.syntactic e), rest, events := d.tree.trail } := by
  obtain ⟨hrest, -, hbody⟩ :=
    (readBy_strictBody (s.length + 1)).eq_of_begins hs (Nat.lt_succ_self _) hd
  obtain ⟨e, hat, hwanted, hfail⟩ := fail_apply (α := Tree Symbol) (.token .endOfInput) hrest
  refine ⟨e, hat, hwanted, ?_⟩
  have hexpect : expect .endOfInput rest = (fail (.token .endOfInput) : Rule Unit) rest :=
    expect_of_ne (mt Kind.category_eq_endOfInput_iff.1 hpeek)
  rw [strictProgram_eq, bind_of_ok _ (congrArg Outcome.result hbody), hbody]
  dsimp only
  rw [bind_congr _ hexpect, fail_bind, hfail, List.append_nil]

/-- A stream that is not the tokens of a program is rejected at a token that is to blame. -/
theorem strictProgram_cases {s : Stream} (hs : s.Ordered)
    (hend : ∀ t ∈ s.ahead, t.kind ≠ .endOfInput) :
    (∃ d : Program, s.ahead = d.tokens) ∨
      ∃ (w : List Token) (rest : Stream) (e : SyntaxError), s = rest.push w ∧
        (strictProgram s).FailsAt e rest ∧ e.At rest.peek ∧ Blame w rest.peek e.expectation := by
  rcases Phrase.ReadBy.outcome_all readBy_strictBody hs with
    ⟨d, rest, hd⟩ | ⟨w, rest, e, hw, he, hat, hblame⟩
  · by_cases hpeek : rest.peek.kind = .endOfInput
    · refine .inl ⟨d, ?_⟩
      have hahead : s.ahead = d.tokens ++ rest.ahead := congrArg Stream.ahead hd.1
      cases hnil : rest.ahead with
      | nil => rw [hahead, hnil, List.append_nil]
      | cons t ts =>
        have ht : rest.peek = t := by rw [Stream.peek, hnil]; rfl
        refine absurd (ht ▸ hpeek) (hend t ?_)
        rw [hahead, hnil]
        exact List.mem_append_right _ List.mem_cons_self
    · obtain ⟨e, hat, hwanted, hfail⟩ := strictProgram_behind hs hd hpeek
      refine .inr ⟨d.tokens, rest, e, hd.1, ?_, hat, hwanted ▸ blame_behind_program d hpeek⟩
      rw [hfail]
      exact ⟨rfl, rfl⟩
  · refine .inr ⟨w, rest, e, hw, ?_, hat, blame_of_program hblame⟩
    rw [strictProgram_eq]
    exact he.bind _

/-- The strict reader notes no errors. -/
theorem strictProgram_quiet {s : Stream} (hs : s.Ordered) :
    ∀ x ∈ (strictProgram s).events, x.error? = none := by
  have hbody := (readBy_strictBody (s.length + 1)).quiet s hs (Nat.lt_succ_self _)
  have hexpect (u : Stream) (body : Tree Symbol) :
      ((expect .endOfInput >>= fun _ ↦ pure body : Rule _) u).events = [] := by
    cases hresult : (expect .endOfInput u).result with
    | ok _ =>
      rw [bind_of_ok _ hresult]
      exact congrArg (· ++ []) (events_expect _ u)
    | error failure =>
      rw [bind_of_error _ hresult]
      exact events_expect _ u
  intro x hx
  rw [strictProgram_eq] at hx
  cases hresult : (strictBody s).result with
  | ok body =>
    rw [bind_of_ok _ hresult] at hx
    dsimp only at hx
    rw [hexpect, List.append_nil] at hx
    exact hbody x hx
  | error failure =>
    rw [bind_of_error _ hresult] at hx
    exact hbody x hx

end Grammar

end Pseudocode

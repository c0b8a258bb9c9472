import Mathlib.Data.List.TakeWhile
import Pseudocode.Proofs.Termination

/-!
# Recovery isolates errors

An instruction that is given up costs its own tokens only. If a program is cut into segments, each
of them a whole instruction or a stretch that cannot be read as one, the reader tells one error for
each broken segment, at the token where reading that segment alone fails, and none for what comes
behind. The last segment is no exception: behind it the reader skips to the end of input, and the
error that comes back from there is the one that it told last.

## Main definitions

* `Grammar.Form.isFlat`: the forms of instructions that hold no others.
* `Segment`: a whole instruction or a stretch of tokens that cannot be read as one.
* `Draft`: a program whose body is cut into segments.
* `Outcome.Isolates`: one error for each broken segment and no others.

## Main results

* `Segment.Broken.fails_in`: a broken segment fails at the same token whatever follows it.
* `Segment.isolates_instructions`: segments are read one by one.
* `Scan.recovery_isolates_errors`: the diagnostics of a program that is cut into segments.
-/

namespace Pseudocode

open Pseudocode.Derivation
open Trail (addDiagnostic)

/-! ### Flat instructions -/

namespace Grammar

open Rule

/-- The forms of instructions that hold no other instructions. -/
def Form.isFlat : Form → Bool
  | .assignment | .write | .read => true
  | .ifThen | .repeatUntil | .whileDo | .forLoop => false

/-- A flat instruction is read without looking for others. -/
theorem bareInstruction_of_isFlat {s : Stream} {form : Form}
    (hform : Form.ofKind? s.peek.kind = some form) (hflat : form.isFlat = true)
    (p q : Rule (Tree Symbol)) : bareInstruction p s = bareInstruction q s := by
  rw [bareInstruction, bareInstruction, peek_bind, peek_bind, hform]
  cases form with
  | assignment | write | read => rfl
  | ifThen | repeatUntil | whileDo | forLoop => cases hflat

end Grammar

/-! ### Where reading fails -/

namespace Stream

theorem push_cancel {s u : Stream} {w : List Token} (h : s.push w = u.push w) : s = u := by
  obtain ⟨ahead, l, l'⟩ := s
  obtain ⟨ahead', m, m'⟩ := u
  obtain ⟨hahead, hl, hl'⟩ := Stream.mk.inj h
  rw [Stream.mk.injEq]
  exact ⟨List.append_cancel_left hahead, hl, hl'⟩

/-- A stream is its end of input with the tokens ahead in front. -/
theorem eq_push_ahead (s : Stream) : s = { s with ahead := [] }.push s.ahead := by
  rw [push, List.append_nil]

end Stream

namespace Phrase

/-- Instructions are read as they are derived, without recovery inside them. -/
theorem readBy_bareStrict (n : Nat) :
    instruction.ReadBy n (Grammar.bareInstruction Grammar.strictInstruction) Instruction.tree
      fun d ↦ d.tree.trail :=
  (readBy_bareInstruction (readBy_strictInstruction n)).mono (Nat.le_succ n)

variable {D : Type} {P : Phrase D} {w w' more : List Token} {t t' : Token}
  {wanted wanted' : Expectation}

/-- No derivation goes on with a token that is to blame. -/
theorem Blame.not_isPrefix (h : ∀ n, P.Blame n w t wanted) {d : D} {s : Stream} (hs : s.Ordered)
    (hstops : P.stops d s.peek.kind) : ¬ w ++ [t] <+: P.tokens d ++ s.all :=
  (h _).excluded d s hs (Nat.lt_succ_self _) hstops

/-- Along the same tokens the blame does not come behind the first token that is to blame. -/
theorem Blame.length_le (hcomplete : ∀ d kind, P.stops d kind) (h : ∀ n, P.Blame n w t wanted)
    (h' : ∀ n, P.Blame n w' t' wanted') (hw : w ++ [t] <+: more) (hw' : w' ++ [t'] <+: more) :
    w'.length ≤ w.length := by
  by_contra hlt
  -- the tokens up to `t` would be the beginning of what `w'` is the beginning of
  have hlonger : w ++ [t] <+: w' := by
    refine List.prefix_of_prefix_length_le hw ((List.prefix_append w' [t']).trans hw') ?_
    rw [List.length_append, List.length_singleton]
    omega
  obtain ⟨d, hd⟩ := (h' 0).viable
  have hend : (Stream.ofList []).Ordered := Stream.ordered_ofList fun t ht ↦ nomatch ht
  exact Blame.not_isPrefix h hend (hcomplete d _)
    ((hlonger.trans hd).trans (List.prefix_append _ _))

/-- Along the same tokens the blame is on one token only. -/
theorem Blame.unique (hcomplete : ∀ d kind, P.stops d kind) (h : ∀ n, P.Blame n w t wanted)
    (h' : ∀ n, P.Blame n w' t' wanted') (hw : w ++ [t] <+: more) (hw' : w' ++ [t'] <+: more) :
    w = w' := by
  have hlength : w.length = w'.length :=
    Nat.le_antisymm (length_le hcomplete h' h hw' hw) (length_le hcomplete h h' hw hw')
  exact List.prefix_of_prefix_length_le ((List.prefix_append _ _).trans hw)
    ((List.prefix_append _ _).trans hw') (Nat.le_of_eq hlength) |>.eq_of_length hlength

end Phrase

/-! ### Segments -/

namespace Segment

/-- A stretch of tokens that cannot be read as an instruction. -/
structure Broken where
  /-- The tokens before the one that reading fails at. -/
  before : List Token
  /-- The token that reading fails at. -/
  offending : Token
  /-- The tokens behind that one. -/
  behind : List Token
  /-- The stretch starts like an assignment, an input or an output. -/
  flat : ∃ t form, (before ++ offending :: behind).head? = some t ∧
    Grammar.Form.ofKind? t.kind = some form ∧ form.isFlat = true
  /-- Reading the stretch as an instruction fails there. -/
  fails : ∃ e rest, (Grammar.bareInstruction Grammar.instruction
    (Stream.ofTokens (before ++ offending :: behind))).FailsAt e rest ∧
      rest.ahead = offending :: behind
  /-- No instruction can start behind that token. -/
  calm : ∀ t ∈ behind, Grammar.startsInstruction t = false

/-- The tokens of a broken segment. -/
def Broken.tokens (b : Broken) : List Token :=
  b.before ++ b.offending :: b.behind

end Segment

/-- A part of a program: a whole flat instruction or a stretch that cannot be read as one. -/
inductive Segment where
  | whole (d : Instruction) (flat : d.form.isFlat = true)
  | broken (b : Segment.Broken)

namespace Segment

/-- The tokens of a segment. -/
def tokens : Segment → List Token
  | whole d _ => d.tokens
  | broken b => b.tokens

/-- The token that reading the segment fails at, if it is broken. -/
def offending? : Segment → Option Token
  | whole _ _ => none
  | broken b => some b.offending

/-- The tree of the segment, if it is whole. -/
def tree? : Segment → Option (Tree Symbol)
  | whole d _ => some d.tree
  | broken _ => none

/-- Where no segment is broken, each one has a tree. -/
theorem length_filterMap_tree? {segments : List Segment}
    (h : ∀ x ∈ segments, x.offending? = none) :
    (segments.filterMap tree?).length = segments.length := by
  induction segments with
  | nil => rfl
  | cons segment segments ih =>
    obtain ⟨hfirst, hothers⟩ := List.forall_mem_cons.1 h
    cases segment with
    | whole d flat => exact congrArg (· + 1) (ih hothers)
    | broken b => cases hfirst

/-- Tokens of a text: they have their locations in order, and the end of input is not among them. -/
def Plain (tokens : List Token) : Prop :=
  ∀ t ∈ tokens, t.Ordered ∧ t.kind ≠ .endOfInput

/-- A segment starts like a flat instruction. -/
theorem exists_form (segment : Segment) (s : Stream) :
    ∃ form, Grammar.Form.ofKind? (s.push segment.tokens).peek.kind = some form ∧
      form.isFlat = true := by
  cases segment with
  | whole d flat => exact ⟨d.form, d.ofKind?_peek s, flat⟩
  | broken b =>
    obtain ⟨t, form, hhead, hform, hflat⟩ := b.flat
    refine ⟨form, ?_, hflat⟩
    have hpeek : (s.push b.tokens).peek = t := by
      obtain ⟨more, hmore⟩ := List.head?_eq_some_iff.1 hhead
      rw [Broken.tokens, hmore]
      rfl
    exact (congrArg (fun u : Token ↦ Grammar.Form.ofKind? u.kind) hpeek).trans hform

/-- The stream of plain tokens has all of them ahead. -/
theorem Plain.ahead_ofTokens {tokens : List Token} (h : Plain tokens) :
    (Stream.ofTokens tokens).ahead = tokens := by
  rw [Stream.ahead_ofTokens]
  exact List.takeWhile_eq_self_iff.2 fun t ht ↦ by simpa [Token.isEnd] using (h t ht).2

/-- What follows a segment does not matter to whether instructions inside it are looked for. -/
theorem bareInstruction_push (segment : Segment) (s : Stream) :
    Grammar.bareInstruction Grammar.instruction (s.push segment.tokens) =
      Grammar.bareInstruction Grammar.strictInstruction (s.push segment.tokens) := by
  obtain ⟨form, hform, hflat⟩ := segment.exists_form s
  exact Grammar.bareInstruction_of_isFlat hform hflat _ _

/-- The token that reading a broken segment fails at is to blame. -/
theorem Broken.blame (b : Broken) (hplain : Plain b.tokens) :
    ∃ wanted, ∀ n, Phrase.instruction.Blame n b.before b.offending wanted := by
  have halone : Stream.ofTokens b.tokens =
      { Stream.ofTokens b.tokens with ahead := [] }.push (broken b).tokens := by
    have hpush := (Stream.ofTokens b.tokens).eq_push_ahead
    rwa [hplain.ahead_ofTokens] at hpush
  have hordered := Stream.ordered_ofTokens fun t ht ↦ (hplain t ht).1
  obtain ⟨e, rest, hfails, hrest⟩ := b.fails
  change (Grammar.bareInstruction _ (Stream.ofTokens b.tokens)).FailsAt e rest at hfails
  rw [halone, bareInstruction_push, ← halone] at hfails
  rcases Phrase.ReadBy.outcome_all Phrase.readBy_bareStrict hordered with
    ⟨d, rest', hd⟩ | ⟨w, rest', e', hw, hfails', -, hblame⟩
  · have hok := ((Phrase.readBy_bareStrict _).eq_of_begins hordered (Nat.lt_succ_self _) hd).2.2
    rw [hok] at hfails
    exact nomatch hfails.1
  · obtain rfl : rest = rest' := hfails.2.symm.trans hfails'.2
    have hahead : b.tokens = w ++ rest.ahead :=
      hplain.ahead_ofTokens.symm.trans (congrArg Stream.ahead hw)
    rw [hrest] at hahead
    obtain rfl : b.before = w := List.append_cancel_right hahead
    have hpeek : rest.peek = b.offending := by
      rw [Stream.peek, hrest]
      rfl
    exact ⟨_, hpeek ▸ hblame⟩

/-- A broken segment fails at the same token whatever follows it. -/
theorem Broken.fails_in (b : Broken) (hplain : Plain b.tokens) {s : Stream} (hs : s.Ordered) :
    ∃ e, e.At b.offending ∧
      (Grammar.bareInstruction Grammar.instruction (s.push b.tokens)).FailsAt e
        (s.push (b.offending :: b.behind)) ∧
      ∀ x ∈ (Grammar.bareInstruction Grammar.instruction (s.push b.tokens)).events,
        x.error? = none := by
  obtain ⟨wanted, hblame⟩ := b.blame hplain
  have hordered : (s.push b.tokens).Ordered :=
    Stream.ordered_push_iff.2 ⟨fun t ht ↦ (hplain t ht).1, hs⟩
  have hwith : b.before ++ [b.offending] <+: (s.push b.tokens).all := by
    rw [Stream.all_push, Broken.tokens]
    exact ⟨b.behind ++ s.all, by simp⟩
  rw [show b.tokens = (broken b).tokens from rfl, bareInstruction_push]
  change (s.push (broken b).tokens).Ordered at hordered
  rcases Phrase.ReadBy.outcome_all Phrase.readBy_bareStrict hordered with
    ⟨d, rest, hd⟩ | ⟨w, rest, e, hw, hfails, hat, hblame'⟩
  · -- a derivation would go on with the token that is to blame
    obtain ⟨hrest, -⟩ :=
      (Phrase.readBy_bareStrict _).eq_of_begins hordered (Nat.lt_succ_self _) hd
    rw [show s.push b.tokens = _ from hd.1, Stream.all_push] at hwith
    exact absurd hwith (Phrase.Blame.not_isPrefix hblame hrest trivial)
  · have hwith' : w ++ [rest.peek] <+: (s.push b.tokens).all := by
      rw [show s.push b.tokens = _ from hw, Stream.all_push]
      obtain ⟨more, hmore⟩ := List.head?_eq_some_iff.1 rest.head?_all
      rw [hmore]
      exact ⟨more, by simp⟩
    obtain rfl := Phrase.Blame.unique (fun _ _ ↦ trivial) hblame hblame' hwith hwith'
    obtain rfl : s.push (b.offending :: b.behind) = rest := by
      refine Stream.push_cancel (w := b.before) ?_
      rw [← Stream.push_append]
      exact hw
    exact ⟨e, hat, hfails,
      (Phrase.readBy_bareStrict _).quiet _ hordered (Nat.lt_succ_self _)⟩

end Segment

/-! ### Reading segments one by one -/

namespace Grammar

open Rule

/-- Instructions as long as one can start, with recovery. -/
def instructions : Rule (List (Tree Symbol)) :=
  many Form.ofKind? fun _ ↦ instruction

theorem instructions_eq_round :
    instructions = Rule.round Form.ofKind? (fun _ ↦ instruction) instructions :=
  many_eq_round rfl (fun _ ↦ forward_instruction) fun _ ↦ takes_instruction

theorem instructions_of_start {s : Stream} {form : Form}
    (h : Form.ofKind? s.peek.kind = some form) : instructions s =
      (instruction >>= fun first ↦ instructions >>= fun others ↦ pure (first :: others)) s := by
  rw [show instructions s = _ from congrFun instructions_eq_round s, Rule.round,
    peek_bind, h]

theorem instructions_of_none {s : Stream} (h : Form.ofKind? s.peek.kind = none) :
    instructions s = { result := .ok [], rest := s, events := [] } := by
  rw [show instructions s = _ from congrFun instructions_eq_round s, Rule.round,
    peek_bind, h]
  rfl

/-- A sequence is a list of instructions that starts with one. -/
theorem sequence_of_start {s : Stream} {form : Form} (h : Form.ofKind? s.peek.kind = some form) :
    sequence s = (instructions >>= fun items ↦ pure (.sequence items)) s := by
  rw [bind_congr _ (instructions_of_start h), bind_assoc]
  simp only [bind_assoc, pure_bind]
  rfl

end Grammar

/-- A rule that does on one stream what it does on another, behind some events, does so with
whatever follows it. -/
theorem Rule.bind_of_later {α β : Type} {r : Rule α} {s u : Stream} {events : List Event}
    (f : α → Rule β) (h : r s = { r u with events := events ++ (r u).events }) :
    (r >>= f) s = { (r >>= f) u with events := events ++ ((r >>= f) u).events } := by
  have hresult : (r s).result = (r u).result := by rw [h]
  cases hu : (r u).result with
  | ok a => rw [bind_of_ok f (hresult.trans hu), bind_of_ok f hu, h, List.append_assoc]
  | error e => rw [bind_of_error f (hresult.trans hu), bind_of_error f hu, h]

/-- Where an instruction can start, nothing is skipped. -/
theorem Stream.dropUntil_of_peek {p : Token → Bool} {s : Stream} (hne : s.ahead ≠ [])
    (hp : p s.peek = true) : s.dropUntil p = s := by
  obtain ⟨_ | ⟨t, ts⟩, l, l'⟩ := s
  · exact absurd rfl hne
  · have ht : p t = true := hp
    simp [dropUntil, ht]

namespace Segment

/-- A whole segment is read as it is derived, without an error. -/
theorem instruction_push_whole {d : Instruction} (flat : d.form.isFlat = true) {s : Stream}
    (hs : s.Ordered) : ∃ events, (∀ x ∈ events, x.error? = none) ∧
      Grammar.instruction (s.push d.tokens) = { result := .ok d.tree, rest := s, events } := by
  have hbare := (Phrase.readBy_bareStrict _).complete d s hs (Nat.lt_succ_self _) trivial
  have hquiet := (Phrase.readBy_bareStrict _).quiet _
    (Phrase.ordered_push (P := Phrase.instruction) hs d) (Nat.lt_succ_self _)
  rw [hbare] at hquiet
  change Grammar.bareInstruction _ (s.push (whole d flat).tokens) = _ at hbare
  rw [← bareInstruction_push] at hbare
  have hresult := congrArg Outcome.result hbare
  refine ⟨d.tree.trail ++ [.understood d.tree.name],
    List.forall_mem_append.2 ⟨hquiet, List.forall_mem_singleton.2 rfl⟩, ?_⟩
  change Grammar.instruction (s.push (whole d flat).tokens) = _
  rw [Grammar.instruction_eq, Grammar.instructionRule_of_ok hresult, Grammar.strictRule,
    Rule.bind_of_ok _ hresult, hbare]
  rfl

/-- A broken segment is told as one error, and reading goes on where the next instruction can start,
if there is one. -/
theorem Broken.instruction_push (b : Broken) (hplain : Plain b.tokens) {s : Stream}
    (hs : s.Ordered) :
    let u := s.dropUntil Grammar.startsInstruction
    ∃ e events, e.At b.offending ∧ (∀ x ∈ events, x.error? = none) ∧
      Grammar.instruction (s.push b.tokens) =
        { result := if u.atEnd then .error (.syntactic e) else (Grammar.instruction u).result
          rest := if u.atEnd then u else (Grammar.instruction u).rest
          events := events ++ .discarded e ::
            if u.atEnd then [] else (Grammar.instruction u).events } := by
  intro u
  obtain ⟨e, hat, hfails, hquiet⟩ := b.fails_in hplain hs
  refine ⟨e, _, hat, hquiet, ?_⟩
  rw [Grammar.instruction_eq]
  let failed := Grammar.bareInstruction Grammar.instruction (s.push b.tokens)
  have hu : u = failed.rest.advance.dropUntil Grammar.startsInstruction := by
    rw [hfails.2]
    change s.dropUntil _ = Stream.mk (List.dropWhile _ (b.behind ++ s.ahead)) _ _
    rw [List.dropWhile_append_of_pos fun t ht ↦ by rw [b.calm t ht]; rfl]
    rfl
  rw [Rule.instructionRule_of_error hfails.1 hu, ← Grammar.instruction_eq]

end Segment

/-- The errors along the trail of an outcome. -/
def Outcome.errors {α : Type} (o : Outcome α) : List SyntaxError :=
  o.events.filterMap Event.error?

/-- What is left without an error in front does not change the errors. -/
theorem Outcome.errors_append {α β : Type} {o : Outcome α} {o' : Outcome β} {events : List Event}
    (hquiet : ∀ x ∈ events, x.error? = none) (h : o.events = events ++ o'.events) :
    o.errors = o'.errors := by
  rw [errors, h, List.filterMap_append, List.filterMap_eq_nil_iff.2 hquiet]
  rfl

/-- Of the segments before `rest`, the broken ones are told in order, each by an error about its
offending token. If the reading comes through, it has read the segments up to `rest`, all of them if
none is broken; otherwise it fails with the error that it told last. -/
structure Outcome.Isolates (o : Outcome (List (Tree Symbol))) (segments : List Segment)
    (rest : Stream) : Prop where
  /-- There is one error for each broken segment. -/
  told : List.Forall₂ SyntaxError.At o.errors (segments.filterMap Segment.offending?)
  /-- The reading comes through, or it fails with the error that it told last. -/
  ends : (∃ trees, o.result = .ok trees ∧ o.rest = rest ∧
      ((∀ x ∈ segments, x.offending? = none) → trees = segments.filterMap Segment.tree?)) ∨
    ∃ e, o.result = .error (.syntactic e) ∧ o.errors.getLast? = some e

namespace Segment

open Grammar (instructions startsInstruction)

variable {segments : List Segment} {s rest : Stream}

theorem isolates_nil (h : ∀ t ∈ rest.ahead, startsInstruction t = false) :
    (instructions rest).Isolates [] rest := by
  have hnone : Grammar.Form.ofKind? rest.peek.kind = none := by
    obtain ⟨_ | ⟨t, ts⟩, l, l'⟩ := rest
    · rfl
    · exact Option.isSome_eq_false_iff.1 (h t List.mem_cons_self) |> Option.isNone_iff_eq_none.1
  rw [Grammar.instructions_of_none hnone]
  exact ⟨.nil, .inl ⟨[], rfl, rfl, fun _ ↦ rfl⟩⟩

theorem isolates_whole {d : Instruction} (flat : d.form.isFlat = true) (hs : s.Ordered)
    (h : (instructions s).Isolates segments rest) :
    (instructions (s.push d.tokens)).Isolates (whole d flat :: segments) rest := by
  obtain ⟨events, hquiet, hinstruction⟩ := instruction_push_whole flat hs
  have hstart := Grammar.instructions_of_start (d.ofKind?_peek s)
  rw [Rule.bind_of_ok _ (congrArg Outcome.result hinstruction), hinstruction] at hstart
  rcases h.ends with ⟨trees, hresult, hrest, htrees⟩ | ⟨e, hresult, hlast⟩
  · rw [Rule.bind_of_ok _ hresult] at hstart
    have herrors : (instructions (s.push d.tokens)).errors = (instructions s).errors :=
      Outcome.errors_append hquiet (by rw [hstart]; exact congrArg _ (List.append_nil _))
    refine ⟨herrors ▸ h.told, .inl ⟨d.tree :: trees, ?_, ?_, fun hwhole ↦ ?_⟩⟩
    · rw [hstart]
      rfl
    · rw [hstart]
      exact hrest
    · rw [htrees fun x hx ↦ hwhole x (List.mem_cons_of_mem _ hx)]
      rfl
  · rw [Rule.bind_of_error _ hresult] at hstart
    have herrors : (instructions (s.push d.tokens)).errors = (instructions s).errors :=
      Outcome.errors_append hquiet (by rw [hstart])
    exact ⟨herrors ▸ h.told, .inr ⟨e, by rw [hstart], herrors ▸ hlast⟩⟩

/-- The tokens of a broken segment start like an instruction. -/
theorem Broken.instructions_push (b : Broken) (s : Stream) : instructions (s.push b.tokens) =
    (Grammar.instruction >>= fun first ↦ instructions >>= fun others ↦ pure (first :: others))
      (s.push b.tokens) := by
  obtain ⟨form, hform, -⟩ := (broken b).exists_form s
  exact Grammar.instructions_of_start hform

/-- A broken segment that others follow is told before them. -/
theorem isolates_broken {b : Broken} (hplain : Plain b.tokens) (hs : s.Ordered)
    {form : Grammar.Form} (hform : Grammar.Form.ofKind? s.peek.kind = some form)
    (h : (instructions s).Isolates segments rest) :
    (instructions (s.push b.tokens)).Isolates (broken b :: segments) rest := by
  obtain ⟨e, events, hat, hquiet, hinstruction⟩ := b.instruction_push hplain hs
  have hne : s.ahead ≠ [] := by
    intro hnil
    rw [Stream.peek, hnil] at hform
    cases hform
  have hskip : s.dropUntil startsInstruction = s :=
    Stream.dropUntil_of_peek hne (by rw [startsInstruction, hform]; rfl)
  have hend : s.atEnd = false := by simpa [Stream.atEnd] using hne
  rw [hskip, hend] at hinstruction
  have hlater : Grammar.instruction (s.push b.tokens) = { Grammar.instruction s with
      events := (events ++ [.discarded e]) ++ (Grammar.instruction s).events } := by
    rw [hinstruction, List.append_assoc]
    rfl
  have hinstructions : instructions (s.push b.tokens) = { instructions s with
      events := (events ++ [.discarded e]) ++ (instructions s).events } := by
    rw [b.instructions_push, Grammar.instructions_of_start hform]
    exact Rule.bind_of_later _ hlater
  have herrors : (instructions (s.push b.tokens)).errors = e :: (instructions s).errors := by
    rw [Outcome.errors, hinstructions, List.append_assoc, List.filterMap_append,
      List.filterMap_eq_nil_iff.2 hquiet]
    rfl
  refine ⟨herrors ▸ .cons hat h.told, ?_⟩
  rcases h.ends with ⟨trees, hresult, hrest, -⟩ | ⟨e', hresult, hlast⟩
  · refine .inl ⟨trees, by rw [hinstructions, hresult], by rw [hinstructions, hrest], ?_⟩
    intro hwhole
    cases hwhole _ List.mem_cons_self
  · refine .inr ⟨e', by rw [hinstructions, hresult], ?_⟩
    rw [herrors, List.getLast?_cons, hlast]
    rfl

/-- Behind a broken segment that no instruction follows, everything is skipped. -/
theorem isolates_broken_last {b : Broken} (hplain : Plain b.tokens) (hs : s.Ordered)
    (hcalm : ∀ t ∈ s.ahead, startsInstruction t = false) :
    (instructions (s.push b.tokens)).Isolates [broken b] s := by
  obtain ⟨e, events, hat, hquiet, hinstruction⟩ := b.instruction_push hplain hs
  have hend : (s.dropUntil startsInstruction).atEnd = true := by
    refine List.isEmpty_iff.2 (List.dropWhile_eq_nil_iff.2 fun t ht ↦ ?_)
    rw [hcalm t ht]
    rfl
  rw [hend] at hinstruction
  have hinstructions := b.instructions_push s
  rw [Rule.bind_of_error _ (congrArg Outcome.result hinstruction)] at hinstructions
  have herrors : (instructions (s.push b.tokens)).errors = [e] := by
    rw [Outcome.errors, hinstructions, hinstruction, List.filterMap_append,
      List.filterMap_eq_nil_iff.2 hquiet]
    rfl
  refine ⟨herrors ▸ .cons hat .nil, .inr ⟨e, ?_, by rw [herrors]; rfl⟩⟩
  rw [hinstructions]

/-- Segments are read one by one, and each broken one is told once. -/
theorem isolates_instructions (hrest : rest.Ordered)
    (hcalm : ∀ t ∈ rest.ahead, startsInstruction t = false) (segments : List Segment)
    (hplain : Plain (segments.flatMap tokens)) :
    (instructions (rest.push (segments.flatMap tokens))).Isolates segments rest := by
  induction segments with
  | nil => exact isolates_nil hcalm
  | cons segment segments ih =>
    obtain ⟨hfirst, hothers⟩ := List.forall_mem_append.1 hplain
    have hs : (rest.push (segments.flatMap tokens)).Ordered :=
      Stream.ordered_push_iff.2 ⟨fun t ht ↦ (hothers t ht).1, hrest⟩
    rw [List.flatMap_cons, Stream.push_append]
    cases segment with
    | whole d flat => exact isolates_whole flat hs (ih hothers)
    | broken b =>
      -- what follows decides whether the reader stops skipping at a segment or at the end
      cases segments with
      | nil => exact isolates_broken_last hfirst hrest hcalm
      | cons next others =>
        rw [List.flatMap_cons, Stream.push_append] at hs ih ⊢
        obtain ⟨form, hform, -⟩ := next.exists_form (rest.push (others.flatMap tokens))
        exact isolates_broken hfirst hs hform (ih hothers)

end Segment

/-! ### Drafts of programs -/

/-- A program whose body is cut into segments, at least one. -/
structure Draft where
  procedure : Word .procedure
  principale : Word .principale
  opening : Mark .leftParenthesis
  closing : Mark .rightParenthesis
  segments : List Segment
  nonempty : segments ≠ []
  finproc : Word .finproc

namespace Draft

/-- The tokens of a draft. -/
def tokens (d : Draft) : List Token :=
  d.procedure.token :: d.principale.token :: d.opening.token :: d.closing.token ::
    (d.segments.flatMap Segment.tokens ++ [d.finproc.token])

/-- The tokens that the broken segments of a draft fail at, in order. -/
def offending (d : Draft) : List Token :=
  d.segments.filterMap Segment.offending?

/-- The offending tokens are among the others, in the same order. -/
theorem offending_sublist (d : Draft) : d.offending.Sublist d.tokens := by
  have hsegments : ∀ segments : List Segment,
      (segments.filterMap Segment.offending?).Sublist (segments.flatMap Segment.tokens) := by
    intro segments
    induction segments with
    | nil => exact .slnil
    | cons segment segments ih =>
      rw [List.flatMap_cons]
      cases segment with
      | whole i flat => exact ih.trans (List.sublist_append_right ..)
      | broken b =>
        have hmem : b.offending ∈ b.tokens := List.mem_append_right _ List.mem_cons_self
        exact (List.singleton_sublist.2 hmem).append ih
  exact ((hsegments d.segments).trans (List.sublist_append_left ..)).cons _ |>.cons _ |>.cons _
    |>.cons _

end Draft

/-! ### Programs that are cut into segments -/

/-- A token of the right class is taken. -/
theorem Rule.expect_push_bind {β : Type} {c : Token.Category} (t : Fixed c) (f : Unit → Rule β)
    (s : Stream) (ts : List Token) :
    (expect c >>= f) (s.push (t.token :: ts)) = f () (s.push ts) := by
  rw [bind_congr f (expect_of_peek (s := s.push (t.token :: ts)) t.category_eq), advance_bind]
  rfl

namespace Grammar

open Rule

/-- What is wanted behind the instructions of a program. -/
def closing (items : List (Tree Symbol)) : Rule (Tree Symbol) := do
  keyword .finproc
  expect .endOfInput
  pure (.sequence items)

/-- The reader of a draft comes to its segments. -/
theorem program_push (d : Draft) (s : Stream) : program (s.push d.tokens) =
    (instructions >>= closing)
      ((s.push [d.finproc.token]).push (d.segments.flatMap Segment.tokens)) := by
  have hform : ∃ form, Form.ofKind? ((s.push [d.finproc.token]).push
      (d.segments.flatMap Segment.tokens)).peek.kind = some form := by
    obtain ⟨segment, segments, hcons⟩ := List.exists_cons_of_ne_nil d.nonempty
    obtain ⟨form, hform, -⟩ := segment.exists_form
      ((s.push [d.finproc.token]).push (segments.flatMap Segment.tokens))
    refine ⟨form, ?_⟩
    rw [hcons, List.flatMap_cons, Stream.push_append]
    exact hform
  obtain ⟨form, hform⟩ := hform
  rw [program, Draft.tokens, keyword, expect_push_bind, keyword, expect_push_bind, mark,
    expect_push_bind, mark, expect_push_bind, Stream.push_append,
    bind_congr _ (sequence_of_start hform), bind_assoc]
  simp only [pure_bind]
  rfl

/-- Behind the last segment there is nothing left to fail at. -/
theorem closing_push (items : List (Tree Symbol)) (finproc : Word .finproc) {s : Stream}
    (hs : s.ahead = []) : closing items (s.push [finproc.token]) =
      { result := .ok (.sequence items), rest := s, events := [] } := by
  have hend : expect .endOfInput s = advance s := by
    refine expect_of_peek ?_
    rw [Stream.peek, hs]
    rfl
  rw [closing, keyword, expect_push_bind, Stream.push_nil, bind_congr _ hend, advance_bind,
    Stream.advance_of_ahead_eq_nil hs]
  rfl

end Grammar

namespace Trail

/-- Errors about places in order are all told. -/
theorem foldl_addDiagnostic_of_pairwise {known errors : List SyntaxError}
    (h : (known ++ errors).Pairwise fun e e' ↦ e.span.start.offset < e'.span.start.offset) :
    errors.foldl addDiagnostic known = known ++ errors := by
  induction errors generalizing known with
  | nil => exact (List.append_nil known).symm
  | cons e errors ih =>
    have hnew : addDiagnostic known e = known ++ [e] := by
      refine if_neg fun hlast ↦ ?_
      have hlt := (List.pairwise_append.1 h).2.2 e (List.mem_of_getLast? hlast) e
        List.mem_cons_self
      exact Nat.lt_irrefl _ hlt
    rw [List.foldl_cons, hnew, ih (by rwa [List.append_assoc]), List.append_assoc]
    rfl

end Trail

/-- Errors about tokens start where the tokens do. -/
theorem SyntaxError.map_start_of_forall₂ {errors : List SyntaxError} {tokens : List Token}
    (h : List.Forall₂ At errors tokens) :
    errors.map (·.span.start.offset) = tokens.map (·.start.offset) := by
  induction h with
  | nil => rfl
  | cons hat _ ih => rw [List.map_cons, List.map_cons, ih, hat.start_eq]

namespace Draft

variable {tokens : List Token} {d : Draft}

/-- The reader of a draft ends with a sequence or with the error that it told last. -/
theorem program_ofTokens (htokens : ∀ t ∈ tokens, t.Ordered)
    (hd : d.tokens = tokens.takeWhile (!·.isEnd)) :
    let o := Grammar.program (Stream.ofTokens tokens)
    List.Forall₂ SyntaxError.At o.errors d.offending ∧
      ((∃ items, o.result = .ok (.sequence items) ∧
          ((∀ x ∈ d.segments, x.offending? = none) →
            items = d.segments.filterMap Segment.tree?)) ∨
        ∃ e, o.result = .error (.syntactic e) ∧ o.errors.getLast? = some e) := by
  intro o
  let last : Stream := { Stream.ofTokens tokens with ahead := [] }
  have hordered := Stream.ordered_ofTokens htokens
  have hpush : Stream.ofTokens tokens = last.push d.tokens := by
    rw [hd]
    exact (Stream.ofTokens tokens).eq_push_ahead
  have hplain : Segment.Plain (d.segments.flatMap Segment.tokens) := by
    intro t ht
    have hmem : t ∈ (Stream.ofTokens tokens).ahead := by
      rw [Stream.ahead_ofTokens, ← hd]
      simp only [Draft.tokens, List.mem_cons, List.mem_append, ht, true_or, or_true]
    exact ⟨hordered t (List.mem_append_left _ hmem), Stream.kind_ne_of_mem_ofTokens t hmem⟩
  have hlast : (last.push [d.finproc.token]).Ordered :=
    Stream.ordered_push_iff.2 ⟨List.forall_mem_singleton.2 d.finproc.ordered,
      (Stream.ordered_push_iff.1 (hpush ▸ hordered)).2⟩
  have hcalm : ∀ t ∈ (last.push [d.finproc.token]).ahead,
      Grammar.startsInstruction t = false := by
    refine List.forall_mem_singleton.2 ?_
    rw [Grammar.startsInstruction, d.finproc.kind_eq]
    rfl
  obtain ⟨htold, hends⟩ := Segment.isolates_instructions hlast hcalm d.segments hplain
  have ho : o = _ := (congrArg Grammar.program hpush).trans (Grammar.program_push d last)
  rw [ho]
  rcases hends with ⟨items, hresult, hrest, hitems⟩ | ⟨e, hresult, he⟩
  · rw [Rule.bind_of_ok _ hresult, hrest, Grammar.closing_push items d.finproc rfl]
    refine ⟨?_, .inl ⟨items, rfl, hitems⟩⟩
    rw [Outcome.errors, List.append_nil]
    exact htold
  · rw [Rule.bind_of_error _ hresult]
    exact ⟨htold, .inr ⟨e, rfl, he⟩⟩

end Draft

/-- Giving up the program as a whole does not tell again what was told last. -/
theorem Reading.diagnostics_program {tokens : List Token} {o : Outcome (Tree Symbol)}
    (ho : Grammar.program (Stream.ofTokens tokens) = o)
    (htells : o.errors.foldl addDiagnostic [] = o.errors)
    (hends : (∃ tree, o.result = .ok tree) ∨
      ∃ e, o.result = .error (.syntactic e) ∧ o.errors.getLast? = some e) :
    (ofTokens tokens).program.2.diagnostics = o.errors := by
  have hrun : (ofTokens tokens).run Grammar.program =
      (o.result, { stream := o.rest, trail := o.events }) := by
    rw [run, ← ho]
    rfl
  rw [program_snd, hrun]
  rcases hends with ⟨tree, hresult⟩ | ⟨e, hresult, hlast⟩
  · rw [hresult]
    exact htells
  · have herrors : (o.events ++ [Event.rejected e]).filterMap Event.error? = o.errors ++ [e] :=
      List.filterMap_append
    rw [hresult, noteFailure, diagnostics, Trail.diagnostics, herrors, List.foldl_append, htells,
      List.foldl_cons, List.foldl_nil, addDiagnostic, if_pos hlast]

namespace Scan

/-- Recovery isolates errors. If the tokens of a text are those of a program that is cut into whole
and broken segments, the diagnostics are one for each broken segment, in order, each about the token
that reading this segment alone fails at. If no segment is broken, the program is read, with one
instruction for each segment. -/
theorem recovery_isolates_errors (source : String) (d : Draft)
    (hd : d.tokens = (ofSource source).tokens.takeWhile (!·.isEnd)) :
    let result := (Reading.ofTokens (ofSource source).tokens).program.1
    let diagnostics := (Reading.ofTokens (ofSource source).tokens).program.2.diagnostics
    List.Forall₂ SyntaxError.At diagnostics d.offending ∧
      ((∀ x ∈ d.segments, x.offending? = none) →
        ∃ items, result = .ok (.sequence items) ∧ items = d.segments.filterMap Segment.tree? ∧
          items.length = d.segments.length) := by
  intro result diagnostics
  obtain ⟨htold, hends⟩ := Draft.program_ofTokens (ordered_ofSource source) hd
  have hsorted : (Grammar.program (Stream.ofTokens (ofSource source).tokens)).errors.Pairwise
      fun e e' ↦ e.span.start.offset < e'.span.start.offset := by
    have hstarts : (d.offending.map (·.start.offset)).Pairwise (· < ·) := by
      refine List.pairwise_map.2 ((pairwise_start_ofSource source).sublist
        (d.offending_sublist.trans ?_))
      rw [hd]
      exact List.takeWhile_sublist _
    rw [← SyntaxError.map_start_of_forall₂ htold] at hstarts
    exact List.pairwise_map.1 hstarts
  have hdiagnostics : diagnostics = _ :=
    Reading.diagnostics_program rfl (Trail.foldl_addDiagnostic_of_pairwise hsorted)
      (hends.imp_left fun ⟨items, hresult, _⟩ ↦ ⟨_, hresult⟩)
  refine ⟨hdiagnostics ▸ htold, fun hwhole ↦ ?_⟩
  have hnone : d.offending = [] := List.filterMap_eq_nil_iff.2 hwhole
  rw [hnone, List.forall₂_nil_right_iff] at htold
  rcases hends with ⟨items, hresult, hitems⟩ | ⟨e, -, hlast⟩
  · refine ⟨items, ?_, hitems hwhole, ?_⟩
    · exact (Reading.program_fst_eq (hdiagnostics.trans htold)).trans hresult
    · rw [hitems hwhole]
      exact Segment.length_filterMap_tree? hwhole
  · rw [htold] at hlast
    cases hlast

/-- Three broken segments around a whole one, the last of them before `finproc`. -/
theorem recovery_isolates_errors_last :
    let source := "procedure principale () x = ; ecrire(1) lire 5 , y = ) finproc"
    ∃ d : Draft, d.tokens = (ofSource source).tokens.takeWhile (!·.isEnd) ∧
      d.segments.length = 4 ∧ d.offending.map (·.start.offset) = [28, 45, 53] ∧
      ((Reading.ofTokens (ofSource source).tokens).program.2.diagnostics.map
        (·.span.start.offset)) = [28, 45, 53] := by
  intro source
  let token (kind : Token.Kind) (start stop : Nat) : Token :=
    ⟨kind, ⟨start, 0, start⟩, ⟨stop, 0, stop⟩⟩
  let first : Segment.Broken :=
    { before := [token (.var "x") 24 25, token (.punctuator .assign) 26 27]
      offending := token (.punctuator .semicolon) 28 29
      behind := []
      flat := ⟨_, .assignment, rfl, rfl, rfl⟩
      fails := ⟨⟨⟨⟨28, 0, 28⟩, ⟨29, 0, 29⟩, by decide⟩, .factor, ";"⟩, _,
        ⟨by decide +kernel, rfl⟩, by decide +kernel⟩
      calm := by decide }
  let second : Segment.Broken :=
    { before := [token (.keyword .lire) 40 44]
      offending := token (.integer "5" 5) 45 46
      behind := [token (.punctuator .comma) 47 48]
      flat := ⟨_, .read, rfl, rfl, rfl⟩
      fails := ⟨⟨⟨⟨45, 0, 45⟩, ⟨46, 0, 46⟩, by decide⟩,
        .token (.punctuator .leftParenthesis), "5"⟩, _, ⟨by decide +kernel, rfl⟩, by decide +kernel⟩
      calm := by decide }
  let third : Segment.Broken :=
    { before := [token (.var "y") 49 50, token (.punctuator .assign) 51 52]
      offending := token (.punctuator .rightParenthesis) 53 54
      behind := []
      flat := ⟨_, .assignment, rfl, rfl, rfl⟩
      fails := ⟨⟨⟨⟨53, 0, 53⟩, ⟨54, 0, 54⟩, by decide⟩, .factor, ")"⟩, _,
        ⟨by decide +kernel, rfl⟩, by decide +kernel⟩
      calm := by decide }
  let whole : Instruction := .write ⟨token (.keyword .ecrire) 30 36, (), rfl, by decide⟩
    { opening := ⟨token (.punctuator .leftParenthesis) 36 37, (), rfl, by decide⟩
      inner :=
        { first := .value (.chain (.number ⟨token (.integer "1" 1) 37 38, ("1", 1), rfl,
            by decide⟩) [])
          others := [] }
      closing := ⟨token (.punctuator .rightParenthesis) 38 39, (), rfl, by decide⟩ }
  let d : Draft :=
    { procedure := ⟨token (.keyword .procedure) 0 9, (), rfl, by decide⟩
      principale := ⟨token (.keyword .principale) 10 20, (), rfl, by decide⟩
      opening := ⟨token (.punctuator .leftParenthesis) 21 22, (), rfl, by decide⟩
      closing := ⟨token (.punctuator .rightParenthesis) 22 23, (), rfl, by decide⟩
      segments := [.broken first, .whole whole rfl, .broken second, .broken third]
      nonempty := List.cons_ne_nil _ _
      finproc := ⟨token (.keyword .finproc) 55 62, (), rfl, by decide⟩ }
  have hd : d.tokens = (ofSource source).tokens.takeWhile (!·.isEnd) := by decide +kernel
  refine ⟨d, hd, rfl, rfl, ?_⟩
  exact SyntaxError.map_start_of_forall₂ (recovery_isolates_errors source d hd).1

end Scan

end Pseudocode

import Mathlib.Data.List.Nodup
import Pseudocode.Proofs.Closure
import Pseudocode.Proofs.CorrectPrefix

/-!
# Diagnostics come in source order

An instruction that is given up inside others may make them be given up as well, so the same error
can come by many times. Still it is told once, and errors are told in the order of the tokens that
they are about. The reason is where the reader stands: an error that is not told yet is about the
next token, and everything told before is about tokens before that one; an error that is told
already comes by again only when no token is left, and it was told last then.

## Main definitions

* `Stream.Past`, `Stream.Raises`: how the diagnostics so far and an error in flight relate to the
  next token.
* `Rule.Tells`: a rule that tells errors in the order of the tokens.

## Main results

* `Rule.closed_tells`: all rules of the grammar tell errors in the order of the tokens.
* `Scan.diagnostics_in_source_order`: the diagnostics of a text.
-/

namespace Pseudocode

/-! ### Diagnostics behind a part of a trail -/

namespace Trail

/-- The diagnostics behind a trail, when some are known before it. -/
def diagnosticsAfter (known : List SyntaxError) (trail : List Event) : List SyntaxError :=
  (trail.filterMap Event.error?).foldl addDiagnostic known

theorem diagnosticsAfter_append (known : List SyntaxError) (a b : List Event) :
    diagnosticsAfter known (a ++ b) = diagnosticsAfter (diagnosticsAfter known a) b := by
  simp [diagnosticsAfter]

theorem diagnosticsAfter_cons (known : List SyntaxError) {x : Event} {e : SyntaxError}
    (hx : x.error? = some e) (trail : List Event) :
    diagnosticsAfter known (x :: trail) = diagnosticsAfter (addDiagnostic known e) trail := by
  simp [diagnosticsAfter, hx]

end Trail

open Trail (diagnosticsAfter diagnosticsAfter_append diagnosticsAfter_cons addDiagnostic)

/-! ### Where a reader stands -/

theorem SyntaxError.At.start_eq {e : SyntaxError} {t : Token} (h : e.At t) :
    e.span.start = t.start :=
  (Span.between?_eq_some_iff.1 h.1).1

namespace Stream

theorem all_advance {s : Stream} (h : s.ahead ≠ []) : s.advance.all = s.all.tail := by
  rw [all, all, List.tail_append_of_ne_nil h]
  rfl

theorem advance_of_ahead_eq_nil {s : Stream} (h : s.ahead = []) : s.advance = s := by
  obtain ⟨ahead, endStart, endStop⟩ := s
  obtain rfl : ahead = [] := h
  rfl

theorem all_advance_suffix (s : Stream) : s.advance.all <:+ s.all := by
  by_cases h : s.ahead = []
  · exact ⟨[], congrArg all (advance_of_ahead_eq_nil h)⟩
  · exact all_advance h ▸ List.tail_suffix _

theorem all_dropUntil_suffix (p : Token → Bool) (s : Stream) : (s.dropUntil p).all <:+ s.all := by
  obtain ⟨before, hbefore⟩ := List.dropWhile_suffix (l := s.ahead) (!p ·)
  refine ⟨before, ?_⟩
  rw [all, all, ← hbefore, List.append_assoc]
  rfl

/-- Every error that is known is about a token before the next one. -/
def Past (s : Stream) (known : List SyntaxError) : Prop :=
  ∀ e ∈ known, e.span.start.offset < s.peek.start.offset

/-- An error about the next token is a new one. -/
theorem Past.addDiagnostic_eq {s : Stream} {known : List SyntaxError} {e : SyntaxError}
    (h : s.Past known) (hat : e.At s.peek) : addDiagnostic known e = known ++ [e] := by
  refine if_neg fun hlast ↦ ?_
  have hlt := h e (List.mem_of_getLast? hlast)
  rw [hat.start_eq] at hlt
  exact Nat.lt_irrefl _ hlt

/-- An error in flight. Either it is about the next token and not told yet, or it was told last and
no token is left. -/
inductive Raises (s : Stream) (known : List SyntaxError) (e : SyntaxError) : Prop
  | untold (hat : e.At s.peek) (hpast : s.Past known)
  | told (hend : s.ahead = []) (hlast : known.getLast? = some e)

/-- How a reader that has told the errors `known` may stop in front of the stream. -/
def Ends {α : Type} (s : Stream) (known : List SyntaxError) : Except Failure α → Prop
  | .ok _ => s.Past known
  | .error (.syntactic e) => s.Raises known e
  | .error (.unordered _) => False

end Stream

/-- Each token has its locations in order and starts behind the start of the one before it. -/
structure Token.InOrder (tokens : List Token) : Prop where
  /-- Each token has its locations in order. -/
  ordered : ∀ t ∈ tokens, t.Ordered
  /-- The tokens start one behind the other. -/
  sorted : tokens.Pairwise fun t u ↦ t.start.offset < u.start.offset

/-- A reader of `tokens` has come to the stream `s` and has told the errors `known`: in order, and
each of them about one of the tokens. -/
structure Stream.Reached (tokens : List Token) (s : Stream) (known : List SyntaxError) : Prop where
  /-- The tokens ahead are the last ones. -/
  suffix : s.all <:+ tokens
  /-- The errors are told in order. -/
  sorted : known.Pairwise fun e e' ↦ e.span.start.offset < e'.span.start.offset
  /-- Each error is about a token. -/
  located : ∀ e ∈ known, ∃ t ∈ tokens, e.At t

namespace Stream.Reached

variable {tokens : List Token} {s u : Stream} {known : List SyntaxError} {e : SyntaxError}

theorem ordered (h : Reached tokens s known) (htokens : Token.InOrder tokens) : s.Ordered :=
  fun t ht ↦ htokens.ordered t (h.suffix.mem ht)

theorem move (h : Reached tokens s known) (hu : u.all <:+ s.all) : Reached tokens u known :=
  { h with suffix := hu.trans h.suffix }

/-- A token that is not the next one starts behind the start of the next one. -/
theorem start_lt (h : Reached tokens s known) (htokens : Token.InOrder tokens)
    (hu : u.all <:+ s.all.tail) : s.peek.start.offset < u.peek.start.offset := by
  have hsorted := htokens.sorted.sublist h.suffix.sublist
  obtain ⟨more, hmore⟩ := List.head?_eq_some_iff.1 s.head?_all
  rw [hmore] at hsorted hu
  exact (List.pairwise_cons.1 hsorted).1 _ (hu.mem u.peek_mem_all)

theorem past_advance (h : Reached tokens s known) (htokens : Token.InOrder tokens)
    (hpast : s.Past known) : s.advance.Past known := by
  by_cases hend : s.ahead = []
  · rwa [advance_of_ahead_eq_nil hend]
  · intro e he
    have hlt := h.start_lt htokens (u := s.advance) (all_advance hend ▸ List.suffix_refl _)
    exact Nat.lt_trans (hpast e he) hlt

theorem tell (h : Reached tokens s known) (hat : e.At s.peek) (hpast : s.Past known) :
    Reached tokens s (known ++ [e]) where
  suffix := h.suffix
  sorted := by
    refine List.pairwise_append.2 ⟨h.sorted, List.pairwise_singleton .., fun e' he' e'' he'' ↦ ?_⟩
    rw [List.mem_singleton.1 he'', hat.start_eq]
    exact hpast e' he'
  located := by
    intro e' he'
    rcases List.mem_append.1 he' with he' | he'
    · exact h.located e' he'
    · rw [List.mem_singleton.1 he']
      exact ⟨s.peek, h.suffix.mem s.peek_mem_all, hat⟩

/-- Telling an error in flight keeps the order, and the error is the last one told. -/
theorem tell_raised (h : Reached tokens s known) (he : s.Raises known e) :
    Reached tokens s (addDiagnostic known e) ∧ (addDiagnostic known e).getLast? = some e := by
  cases he with
  | untold hat hpast =>
    rw [hpast.addDiagnostic_eq hat]
    exact ⟨h.tell hat hpast, List.getLast?_concat⟩
  | told hend hlast =>
    rw [addDiagnostic, if_pos hlast]
    exact ⟨h, hlast⟩

/-- Behind the next token, everything told is past, an error in flight included. -/
theorem past_tell_raised (h : Reached tokens s known) (htokens : Token.InOrder tokens)
    (he : s.Raises known e) (hne : s.ahead ≠ []) (hu : u.all <:+ s.all.tail) :
    u.Past (addDiagnostic known e) := by
  cases he with
  | told hnil _ => exact absurd hnil hne
  | untold hat hpast =>
    have hlt := h.start_lt htokens hu
    rw [hpast.addDiagnostic_eq hat]
    intro e' he'
    rcases List.mem_append.1 he' with he' | he'
    · exact Nat.lt_trans (hpast e' he') hlt
    · rw [List.mem_singleton.1 he', hat.start_eq]
      exact hlt

end Stream.Reached

/-! ### Rules that tell errors in order -/

open Pseudocode.Stream (Reached)

/-- The errors `known` and those of the outcome are told in the order of the tokens. -/
structure Outcome.Tells {α : Type} (tokens : List Token) (known : List SyntaxError)
    (o : Outcome α) : Prop where
  /-- The errors so far are told in order. -/
  reached : Reached tokens o.rest (diagnosticsAfter known o.events)
  /-- So will be an error in flight, or the next one. -/
  ends : o.rest.Ends (diagnosticsAfter known o.events) o.result

/-- From every stream, the rule tells errors in the order of the tokens. -/
def Rule.Tells {α : Type} (tokens : List Token) (r : Rule α) : Prop :=
  ∀ s known, Reached tokens s known → s.Past known → (r s).Tells tokens known

namespace Rule

variable {α β : Type} {tokens : List Token}

theorem Tells.bind {r : Rule α} {f : α → Rule β} (hr : Tells tokens r)
    (hf : ∀ a, Tells tokens (f a)) : Tells tokens (r >>= f) := by
  intro s known hs hpast
  obtain ⟨hreached, hends⟩ := hr s known hs hpast
  cases hresult : (r s).result with
  | ok a =>
    rw [hresult] at hends
    obtain ⟨hreached', hends'⟩ := hf a _ _ hreached hends
    rw [← diagnosticsAfter_append] at hreached' hends'
    rw [bind_of_ok f hresult]
    exact ⟨hreached', hends'⟩
  | error failure =>
    rw [bind_of_error f hresult]
    refine ⟨hreached, ?_⟩
    rw [hresult] at hends
    cases failure with
    | syntactic e => exact hends
    | unordered t => exact hends

/-- A rule that fails at the next token raises an error about it. -/
theorem tells_fail (htokens : Token.InOrder tokens) (wanted : Expectation) :
    Tells tokens (fail wanted : Rule α) := by
  intro s known hs hpast
  obtain ⟨e, hat, -, hfail⟩ := fail_apply (α := α) wanted (hs.ordered htokens)
  rw [hfail]
  exact ⟨hs, .untold hat hpast⟩

/-- What an instruction that is given up leaves behind: the reader notes the error and goes on at
the next token that can start an instruction, if there is one. -/
theorem instructionRule_of_error {p : Rule (Tree Symbol)} {s u : Stream} {e : SyntaxError}
    (h : (Grammar.bareInstruction p s).result = .error (.syntactic e))
    (hu : u = (Grammar.bareInstruction p s).rest.advance.dropUntil Grammar.startsInstruction) :
    Grammar.instructionRule p s =
      { result := if u.atEnd then .error (.syntactic e) else (p u).result
        rest := if u.atEnd then u else (p u).rest
        events := (Grammar.bareInstruction p s).events ++
          .discarded e :: if u.atEnd then [] else (p u).events } := by
  have hattempt : attempt (Grammar.bareInstruction p) s =
      { Grammar.bareInstruction p s with result := .ok (.error e) } := by
    simp only [attempt, h]
  rw [Grammar.instructionRule, bind_of_ok _ (congrArg Outcome.result hattempt), hattempt]
  dsimp only
  rw [bind_of_ok _ (show (leave (.discarded e) _).result = .ok () from rfl)]
  simp only [leave, advance_bind, skipUntil_bind, atEnd_bind, ← hu]
  cases u.atEnd <;> rfl

/-- Recovery tells an error when it gives up an instruction, and goes on behind it only if there
are more tokens. -/
theorem tells_instructionRule (htokens : Token.InOrder tokens) {p : Rule (Tree Symbol)}
    (hp : Tells tokens p) (hbare : Tells tokens (Grammar.bareInstruction p)) :
    Tells tokens (Grammar.instructionRule p) := by
  intro s known hs hpast
  obtain ⟨hreached, hends⟩ := hbare s known hs hpast
  cases hresult : (Grammar.bareInstruction p s).result with
  | ok tree =>
    rw [hresult] at hends
    rw [Grammar.instructionRule_of_ok hresult, Grammar.strictRule, bind_of_ok _ hresult]
    have hsilent : diagnosticsAfter known ((Grammar.bareInstruction p s).events ++
        [.understood tree.name]) = diagnosticsAfter known (Grammar.bareInstruction p s).events :=
      diagnosticsAfter_append ..
    rw [← hsilent] at hreached hends
    exact ⟨hreached, hends⟩
  | error failure =>
    rw [hresult] at hends
    cases failure with
    | unordered t => exact hends.elim
    | syntactic e =>
      have hraised : (Grammar.bareInstruction p s).rest.Raises _ e := hends
      obtain ⟨htold, hlast⟩ := hreached.tell_raised hraised
      obtain ⟨u, hu⟩ : ∃ u, u = (Grammar.bareInstruction p s).rest.advance.dropUntil
        Grammar.startsInstruction := ⟨_, rfl⟩
      have hsuffix : u.all <:+ (Grammar.bareInstruction p s).rest.advance.all :=
        hu ▸ Stream.all_dropUntil_suffix ..
      have hmoved := htold.move (hsuffix.trans (Stream.all_advance_suffix _))
      rw [instructionRule_of_error hresult hu]
      cases hend : u.atEnd with
      | true =>
        refine ⟨?_, ?_⟩ <;> rw [diagnosticsAfter_append, diagnosticsAfter_cons _ rfl]
        · exact hmoved
        · exact .told (List.isEmpty_iff.1 hend) hlast
      | false =>
        -- tokens are left, so the error was about one before the token that is next now
        have hne : (Grammar.bareInstruction p s).rest.ahead ≠ [] := by
          intro hnil
          rw [hu] at hend
          simp [Stream.atEnd, Stream.dropUntil, Stream.advance, hnil] at hend
        rw [Stream.all_advance hne] at hsuffix
        obtain ⟨hreached', hends'⟩ :=
          hp u _ hmoved (hreached.past_tell_raised htokens hraised hne hsuffix)
        rw [← diagnosticsAfter_cons _ (x := .discarded e) rfl, ← diagnosticsAfter_append]
          at hreached' hends'
        exact ⟨hreached', hends'⟩

/-- All rules of the grammar tell errors in the order of the tokens. -/
theorem closed_tells (htokens : Token.InOrder tokens) : Closed fun _ r ↦ Tells tokens r where
  holds_pure _ _ _ hs hpast := ⟨hs, hpast⟩
  holds_bind := Tells.bind
  holds_peek hf s known hs hpast := by
    rw [peek_bind]
    exact hf _ (hs.ordered htokens).peek s known hs hpast
  holds_advance s _ hs hpast := ⟨hs.move s.all_advance_suffix, hs.past_advance htokens hpast⟩
  holds_meet _ _ _ hs hpast := ⟨hs, hpast⟩
  holds_fail := tells_fail htokens
  holds_of_forall hr s known hs hpast := by
    obtain ⟨r', hr', heq⟩ := hr s
    rw [heq]
    exact hr' s known hs hpast
  holds_instructionRule := tells_instructionRule htokens

end Rule

/-! ### The diagnostics of a text -/

namespace Reading

variable {tokens : List Token}

/-- If a token that runs backwards does not stop the reading, the first error makes it fail. -/
theorem program_fst_of_cons {r : Reading} {first : SyntaxError} {others : List SyntaxError}
    (hordered : ∀ t, (r.run Grammar.program).1 ≠ .error (.unordered t))
    (h : r.program.2.diagnostics = first :: others) : r.program.1 = .error (.syntactic first) := by
  rw [program_snd] at h
  unfold program
  dsimp only
  split
  · next hresult => exact absurd hresult (hordered _)
  · next hcons _ =>
    rw [hcons] at h
    rw [(List.cons.inj h).1]
  · next hnil _ =>
    rw [hnil] at h
    cases h

/-- The rule of programs tells errors in order, from the start of the tokens on. -/
theorem tells_program (htokens : Token.InOrder tokens)
    (hall : (Stream.ofTokens tokens).all = tokens) :
    (Grammar.program (Stream.ofTokens tokens)).Tells tokens [] := by
  have hstart : Reached tokens (Stream.ofTokens tokens) [] :=
    ⟨⟨[], hall⟩, .nil, fun e he ↦ nomatch he⟩
  exact (Rule.closed_tells htokens).holds_program _ _ hstart fun e he ↦ nomatch he

/-- Giving up the program as a whole keeps the order of the errors, and it leaves at least one. -/
theorem reached_program (htokens : Token.InOrder tokens)
    (hall : (Stream.ofTokens tokens).all = tokens) :
    let after := (ofTokens tokens).program.2
    Reached tokens after.stream after.diagnostics ∧
      (after.diagnostics = [] → ∃ tree, ((ofTokens tokens).run Grammar.program).1 = .ok tree) := by
  obtain ⟨hreached, hends⟩ := tells_program htokens hall
  intro after
  have hafter : after = _ := program_snd (ofTokens tokens)
  have hresult : ((ofTokens tokens).run Grammar.program).1 =
    (Grammar.program (Stream.ofTokens tokens)).result := rfl
  rw [hafter, hresult]
  cases hcase : (Grammar.program (Stream.ofTokens tokens)).result with
  | ok tree => exact ⟨hreached, fun _ ↦ ⟨tree, rfl⟩⟩
  | error failure =>
    rw [hcase] at hends
    cases failure with
    | unordered t => exact hends.elim
    | syntactic e =>
      obtain ⟨htold, hlast⟩ := hreached.tell_raised hends
      have hdiagnostics : (((ofTokens tokens).run Grammar.program).2.noteFailure
          (.error (.syntactic e) : Except Failure (Tree Symbol))).diagnostics =
          addDiagnostic (diagnosticsAfter [] (Grammar.program (Stream.ofTokens tokens)).events) e :=
        diagnosticsAfter_append ..
      rw [hdiagnostics]
      refine ⟨htold, fun hnil ↦ ?_⟩
      rw [hnil] at hlast
      cases hlast

/-- A reading ends with a tree and no errors, or it fails with the first of its errors. -/
theorem program_tree_or_first (htokens : Token.InOrder tokens)
    (hall : (Stream.ofTokens tokens).all = tokens) :
    let result := (ofTokens tokens).program.1
    let diagnostics := (ofTokens tokens).program.2.diagnostics
    (diagnostics = [] ∧ ∃ tree, result = .ok tree) ∨
      ∃ first others, diagnostics = first :: others ∧ result = .error (.syntactic first) := by
  intro result diagnostics
  cases hcase : diagnostics with
  | nil =>
    obtain ⟨tree, htree⟩ := (reached_program htokens hall).2 hcase
    exact .inl ⟨rfl, tree, (program_fst_eq hcase).trans htree⟩
  | cons first others =>
    refine .inr ⟨first, others, rfl, program_fst_of_cons (fun t ht ↦ ?_) hcase⟩
    have hends := (tells_program htokens hall).ends
    rw [show (Grammar.program (Stream.ofTokens tokens)).result = _ from ht] at hends
    exact hends

end Reading

namespace Scan

theorem inOrder_ofSource (source : String) : Token.InOrder (ofSource source).tokens :=
  ⟨ordered_ofSource source, pairwise_start_ofSource source⟩

/-- The diagnostics of a text come in the order of its tokens, each about one of them and no two
about the same. The reading fails if and only if there are diagnostics, and it fails with the one
that is about the first place. -/
theorem diagnostics_in_source_order (source : String) :
    let tokens := (ofSource source).tokens
    let result := (Reading.ofTokens tokens).program.1
    let diagnostics := (Reading.ofTokens tokens).program.2.diagnostics
    diagnostics.Pairwise (fun e e' ↦ e.span.start.offset < e'.span.start.offset) ∧
      (∀ e ∈ diagnostics, ∃ t ∈ tokens, e.At t) ∧
      (∀ t, ∀ e ∈ diagnostics, ∀ e' ∈ diagnostics, e.At t → e'.At t → e = e') ∧
      ((∃ failure, result = .error failure) ↔ diagnostics ≠ []) ∧
      ∀ failure, result = .error failure → ∃ e ∈ diagnostics, failure = .syntactic e ∧
        ∀ e' ∈ diagnostics, e.span.start.offset ≤ e'.span.start.offset := by
  intro tokens result diagnostics
  have hreached := (Reading.reached_program (inOrder_ofSource source) (all_ofTokens source)).1
  have hresult := Reading.program_tree_or_first (inOrder_ofSource source) (all_ofTokens source)
  refine ⟨hreached.sorted, hreached.located, ?_, ?_, ?_⟩
  · intro t e he e' he' hat hat'
    have hnodup : (diagnostics.map fun e ↦ e.span.start.offset).Nodup :=
      List.pairwise_map.2 (hreached.sorted.imp Nat.ne_of_lt)
    have hspan : e.span = e'.span := Option.some.inj (hat.1.symm.trans hat'.1)
    exact List.inj_on_of_nodup_map hnodup he he' (by rw [hspan])
  · rcases hresult with ⟨hnil, tree, htree⟩ | ⟨first, others, hcons, hfirst⟩
    · refine ⟨fun ⟨failure, hfailure⟩ ↦ ?_, fun hne ↦ absurd hnil hne⟩
      exact nomatch htree.symm.trans hfailure
    · refine ⟨fun _ hnil ↦ ?_, fun _ ↦ ⟨_, hfirst⟩⟩
      exact List.cons_ne_nil _ _ (hcons.symm.trans hnil)
  · intro failure hfailure
    rcases hresult with ⟨-, tree, htree⟩ | ⟨first, others, hcons, hfirst⟩
    · exact nomatch htree.symm.trans hfailure
    · have hsorted := hreached.sorted
      rw [show diagnostics = _ from hcons]
      rw [hcons] at hsorted
      refine ⟨first, List.mem_cons_self, Except.error.inj (hfailure.symm.trans hfirst), ?_⟩
      intro e' he'
      rcases List.mem_cons.1 he' with rfl | he'
      · exact Nat.le_refl _
      · exact Nat.le_of_lt ((List.pairwise_cons.1 hsorted).1 e' he')

end Scan

end Pseudocode

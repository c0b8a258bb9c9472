import Mathlib.Data.List.Nodup
import Pseudocode.Proofs.Translation.Reading

/-!
# Layout does not matter

Two texts with the same kinds of tokens mean the same, wherever the tokens stand. The reader may be
taken from one text to the other by moving every place to the place of the same token. An error is
left out of the diagnostics if it was told last, which compares places. But no two tokens stand at
the same place, so moving them makes no two errors equal that were not.

## Main definitions

* `Reading.relocate`: a reading at other places.
* `Token.moveTo`: takes the places of tokens to those of others.
* `Tree.unplaced`, `Run.EndAlike`: what trees and runs have in common, places left out.

## Main results

* `Trail.diagnostics_relocate`: the same errors are told at other places.
* `Token.InOrder.map_moveTo`: tokens of the same kinds are moved onto each other.
* `Scan.layout_irrelevant`: what becomes of two texts with the same kinds of tokens.
-/

namespace Pseudocode

/-! ### The same errors are told -/

/-- Places that are kept apart keep errors apart. -/
theorem SyntaxError.injOn_relocate {f : Span → Span} {places : Set Span} (hf : Set.InjOn f places) :
    Set.InjOn (SyntaxError.relocate f) {e | e.span ∈ places} := by
  intro e he e' he' heq
  have hspan : e.span = e'.span := hf he he' (congrArg SyntaxError.span heq)
  obtain ⟨span, expectation, found⟩ := e
  obtain ⟨span', expectation', found'⟩ := e'
  cases hspan
  cases heq
  rfl

namespace Trail

variable {f : Span → Span} {places : Set Span}

/-- If no two places of diagnostics become one, the same errors are told at other places. -/
theorem diagnostics_relocate {trail : List Event} (hf : Set.InjOn f places)
    (h : ∀ e ∈ diagnostics trail, e.span ∈ places) :
    diagnostics (trail.map (Event.relocate f)) =
      (diagnostics trail).map (SyntaxError.relocate f) := by
  refine diagnostics_map (fun x ↦ ?_) (SyntaxError.injOn_relocate hf) h
  cases x <;> rfl

end Trail

/-! ### A reading at other places -/

namespace Reading

variable (f : Span → Span)

/-- The reading with all tokens, and whatever its trail tells about them, at other places. -/
def relocate (r : Reading) : Reading where
  stream := r.stream.relocate f
  trail := r.trail.map (Event.relocate f)

theorem reading_moving (r : Reading) : (Translation.moving f).reading r = r.relocate f := by
  rw [Translation.reading, Translation.moving_stream, Translation.moving_event]
  rfl

theorem table_relocate (r : Reading) : (r.relocate f).table = r.table := by
  have hsymbols : Trail.symbols (r.trail.map (Event.relocate f)) =
      (Trail.symbols r.trail).map id := by
    refine Trail.symbols_map (fun x ↦ ?_) r.trail
    cases x <;> rfl
  rw [table, Trail.table, Trail.intern, relocate, hsymbols, List.map_id]
  rfl

theorem run_relocate {α β : Type} {f : Span → Span} {g : α → β} {rule : Rule α} {rule' : Rule β}
    (h : rule.Relocates f g rule') (r : Reading) :
    (r.relocate f).run rule' =
      (((r.run rule).1.map g).mapError (Failure.relocate f), (r.run rule).2.relocate f) := by
  simp only [run, relocate, h r.stream, Outcome.relocate, List.map_append]

/-- After a program, a reading at other places is where the reading is. -/
theorem program_snd_relocate (r : Reading) :
    (r.relocate f).program.2 = r.program.2.relocate f := by
  have hprogram := Translation.program_snd_reading (T := .moving f) (r := r) fun t _ ↦
    Translation.moving_covers f t
  rwa [reading_moving, reading_moving] at hprogram

end Reading

/-! ### Tokens of the same kinds -/

namespace Token

/-- Takes the place of each token of a list to the place of the token at the same index of another
list. -/
def moveTo (tokens tokens' : List Token) (span : Span) : Span :=
  (tokens'[(tokens.map (·.span?)).idxOf (some span)]?.bind (·.span?)).getD span

theorem Ordered.exists_span? {t : Token} (h : t.Ordered) : ∃ span, t.span? = some span :=
  ⟨⟨t.start, t.stop, h⟩, Span.between?_eq_some_iff.2 ⟨rfl, rfl⟩⟩

namespace InOrder

variable {tokens tokens' : List Token}

/-- No two tokens stand at the same place. -/
theorem nodup_spans (h : InOrder tokens) : (tokens.map (·.span?)).Nodup := by
  refine List.pairwise_map.2 (h.sorted.imp_of_mem fun {t u} ht _ hlt heq ↦ ?_)
  obtain ⟨span, hspan⟩ := (h.ordered t ht).exists_span?
  have hstart := (Span.between?_eq_some_iff.1 hspan).1
  have hstart' := (Span.between?_eq_some_iff.1 (heq.symm.trans hspan)).1
  rw [← hstart, ← hstart'] at hlt
  exact Nat.lt_irrefl _ hlt

theorem moveTo_eq (h : InOrder tokens) {i : Nat} {t t' : Token} {span span' : Span}
    (ht : tokens[i]? = some t) (ht' : tokens'[i]? = some t') (hspan : t.span? = some span)
    (hspan' : t'.span? = some span') : moveTo tokens tokens' span = span' := by
  have hget : (tokens.map (·.span?))[i]? = some (some span) := by
    rw [List.getElem?_map, ht, Option.map_some, hspan]
  obtain ⟨hi, hget⟩ := List.getElem?_eq_some_iff.1 hget
  have hidx : (tokens.map (·.span?)).idxOf (some span) = i := by
    rw [← hget]
    exact h.nodup_spans.idxOf_getElem i hi
  rw [moveTo, hidx, ht', Option.bind_some, hspan', Option.getD_some]

/-- The place of a token is moved to the place of the token at the same index. -/
theorem exists_index_moveTo (h : InOrder tokens) (h' : InOrder tokens')
    (hlength : tokens.length = tokens'.length) {t : Token} {span : Span} (ht : t ∈ tokens)
    (hspan : t.span? = some span) :
    ∃ i : Nat, (tokens.map (·.span?))[i]? = some (some span) ∧
      (tokens'.map (·.span?))[i]? = some (some (moveTo tokens tokens' span)) := by
  obtain ⟨i, hi, rfl⟩ := List.mem_iff_getElem.1 ht
  have hi' : i < tokens'.length := hlength ▸ hi
  have hget := List.getElem?_eq_getElem hi
  have hget' := List.getElem?_eq_getElem hi'
  obtain ⟨span', hspan'⟩ := (h'.ordered _ (List.getElem_mem hi')).exists_span?
  refine ⟨i, ?_, ?_⟩
  · rw [List.getElem?_map, hget, Option.map_some, hspan]
  · rw [List.getElem?_map, hget', Option.map_some, hspan', h.moveTo_eq hget hget' hspan hspan']

/-- Tokens of the same kinds are moved onto each other. -/
theorem map_moveTo (h : InOrder tokens) (h' : InOrder tokens')
    (hkinds : tokens.map (·.kind) = tokens'.map (·.kind)) :
    tokens.map (relocate (moveTo tokens tokens')) = tokens' := by
  refine List.ext_getElem? fun i ↦ ?_
  have hkind := congrArg (·[i]?) hkinds
  simp only [List.getElem?_map] at hkind ⊢
  cases ht : tokens[i]? with
  | none =>
    rw [ht, Option.map_none, eq_comm, Option.map_eq_none_iff] at hkind
    rw [hkind, Option.map_none]
  | some t =>
    rw [ht, Option.map_some, eq_comm, Option.map_eq_some_iff] at hkind
    obtain ⟨t', ht', hkind⟩ := hkind
    obtain ⟨span, hspan⟩ := (h.ordered t (List.mem_of_getElem? ht)).exists_span?
    obtain ⟨span', hspan'⟩ := (h'.ordered t' (List.mem_of_getElem? ht')).exists_span?
    obtain ⟨hstart, hstop⟩ := Span.between?_eq_some_iff.1 hspan'
    rw [Option.map_some, ht', relocate_of_span? _ hspan, h.moveTo_eq ht ht' hspan hspan', ← hkind,
      hstart, hstop]

/-- No two tokens are moved to one place. -/
theorem injOn_moveTo (h : InOrder tokens) (h' : InOrder tokens')
    (hlength : tokens.length = tokens'.length) :
    Set.InjOn (moveTo tokens tokens') {span | ∃ t ∈ tokens, t.span? = some span} := by
  rintro span ⟨t, ht, hspan⟩ other ⟨u, hu, hother⟩ heq
  obtain ⟨i, hi, hi'⟩ := h.exists_index_moveTo h' hlength ht hspan
  obtain ⟨j, hj, hj'⟩ := h.exists_index_moveTo h' hlength hu hother
  -- both tokens are moved to the same one, since no other stands there
  rw [heq] at hi'
  obtain ⟨_, hi'⟩ := List.getElem?_eq_some_iff.1 hi'
  obtain ⟨_, hj'⟩ := List.getElem?_eq_some_iff.1 hj'
  obtain rfl : i = j := h'.nodup_spans.getElem_inj_iff.1 (hi'.trans hj'.symm)
  exact Option.some_inj.1 (Option.some_inj.1 (hi.symm.trans hj))

end InOrder

end Token

/-- A stream is known by its tokens. -/
theorem Stream.eq_of_all_eq {s s' : Stream} (h : s.all = s'.all) : s = s' := by
  obtain ⟨hahead, hclose⟩ := List.append_inj' h rfl
  have hclose : s.close = s'.close := List.singleton_inj.1 hclose
  obtain ⟨ahead, start, stop⟩ := s
  obtain ⟨ahead', start', stop'⟩ := s'
  cases hahead
  cases hclose
  rfl

theorem Stream.all_relocate (f : Span → Span) (s : Stream) :
    (s.relocate f).all = s.all.map (Token.relocate f) := by
  rw [all, all, close_relocate, List.map_append, List.map_singleton]
  rfl

namespace Reading

variable {tokens tokens' : List Token}

/-- A reader of tokens of the same kinds is the reader at their places. -/
theorem relocate_moveTo (h : Token.InOrder tokens) (h' : Token.InOrder tokens')
    (hall : (Stream.ofTokens tokens).all = tokens)
    (hall' : (Stream.ofTokens tokens').all = tokens')
    (hkinds : tokens.map (·.kind) = tokens'.map (·.kind)) :
    (ofTokens tokens).relocate (Token.moveTo tokens tokens') = ofTokens tokens' := by
  have hstream : (Stream.ofTokens tokens).relocate (Token.moveTo tokens tokens') =
      Stream.ofTokens tokens' := by
    refine Stream.eq_of_all_eq ?_
    rw [Stream.all_relocate, hall, hall', h.map_moveTo h' hkinds]
  rw [relocate, ofTokens, hstream]
  rfl

/-- The diagnostics of a program at the places of other tokens. -/
theorem diagnostics_moveTo (h : Token.InOrder tokens) (h' : Token.InOrder tokens')
    (hall : (Stream.ofTokens tokens).all = tokens) (hlength : tokens.length = tokens'.length) :
    let after := (ofTokens tokens).program.2
    (after.relocate (Token.moveTo tokens tokens')).diagnostics =
      after.diagnostics.map (SyntaxError.relocate (Token.moveTo tokens tokens')) := by
  refine Trail.diagnostics_relocate (h.injOn_moveTo h' hlength) fun e he ↦ ?_
  obtain ⟨t, ht, hat⟩ := (reached_program h hall).1.located e he
  exact ⟨t, ht, hat.1⟩

end Reading

/-! ### What two texts have in common -/

/-- The tree without the places of its operators. -/
def Tree.unplaced {α : Type} (t : Tree α) : Tree α :=
  t.relocate fun _ ↦ default

theorem Tree.unplaced_relocate {α : Type} (f : Span → Span) (t : Tree α) :
    (t.relocate f).unplaced = t.unplaced :=
  relocate_relocate ..

/-- The fault without its place. -/
def Fault.unplaced (e : Fault) : Fault :=
  e.relocate fun _ ↦ default

theorem Fault.unplaced_relocate (f : Span → Span) (e : Fault) :
    (e.relocate f).unplaced = e.unplaced := by
  cases e <;> rfl

/-- Two runs end alike: neither of them ends, or both do, with the same value or with faults of the
same kind, with the same lines and with the same cells. -/
inductive Run.EndAlike {α : Type} :
    Option (Except Fault α × Machine) → Option (Except Fault α × Machine) → Prop
  | unfinished : EndAlike none none
  | finished {result result' : Except Fault α} {m m' : Machine}
    (hresult : result.mapError Fault.unplaced = result'.mapError Fault.unplaced)
    (hlines : m.lines = m'.lines) (htable : m.table = m'.table) :
    EndAlike (some (result, m)) (some (result', m'))

theorem Tree.endAlike_relocate (f : Span → Span) (t : Tree Nat) (bound : Nat) (m : Machine) :
    Run.EndAlike (t.run bound m) ((t.relocate f).run bound m) := by
  rw [run, run, eval_relocate, Run.relocate]
  rcases eval bound t m with _ | ⟨e | v, m'⟩
  · exact .unfinished
  · exact .finished (congrArg Except.error (e.unplaced_relocate f).symm) rfl rfl
  · exact .finished rfl rfl rfl

namespace Scan

/-- Two texts with the same kinds of tokens have the same symbols. Either both are programs, with
the same tree but for the places of operators, and running them ends alike; or neither is, and the
same errors are told about them, in the same order. -/
theorem layout_irrelevant (a b : String)
    (hkinds : (ofSource a).tokens.map (·.kind) = (ofSource b).tokens.map (·.kind)) :
    let first := (Reading.ofTokens (ofSource a).tokens).program
    let second := (Reading.ofTokens (ofSource b).tokens).program
    first.2.table = second.2.table ∧
      ((∃ tree tree', first.1 = .ok tree ∧ second.1 = .ok tree' ∧
          (first.2.resolve tree).unplaced = (second.2.resolve tree').unplaced ∧
          ∀ bound, Run.EndAlike ((first.2.resolve tree).run bound { table := first.2.table })
            ((second.2.resolve tree').run bound { table := second.2.table })) ∨
        (∃ e e', first.1 = .error (.syntactic e) ∧ second.1 = .error (.syntactic e')) ∧
          first.2.diagnostics.map (fun e ↦ (e.expectation, e.found)) =
            second.2.diagnostics.map fun e ↦ (e.expectation, e.found)) := by
  intro first second
  have ha := inOrder_ofSource a
  have hb := inOrder_ofSource b
  have hlength : (ofSource a).tokens.length = (ofSource b).tokens.length := by
    simpa using congrArg List.length hkinds
  obtain ⟨f, hf⟩ : ∃ f, f = Token.moveTo (ofSource a).tokens (ofSource b).tokens := ⟨_, rfl⟩
  have hreader : (Reading.ofTokens (ofSource a).tokens).relocate f =
      Reading.ofTokens (ofSource b).tokens :=
    hf ▸ Reading.relocate_moveTo ha hb (all_ofTokens a) (all_ofTokens b) hkinds
  have hafter : second.2 = first.2.relocate f := by
    rw [← Reading.program_snd_relocate, hreader]
  have htable : first.2.table = second.2.table := by
    rw [hafter, Reading.table_relocate]
  have hdiagnostics : second.2.diagnostics = first.2.diagnostics.map (SyntaxError.relocate f) := by
    rw [hafter, hf]
    exact Reading.diagnostics_moveTo ha hb (all_ofTokens a) hlength
  refine ⟨htable, ?_⟩
  rcases Reading.program_tree_or_first ha (all_ofTokens a) with
    ⟨hnil, tree, htree⟩ | ⟨e, others, hcons, he⟩
  · have hnil' : second.2.diagnostics = [] := by
      rw [hdiagnostics, hnil, List.map_nil]
    have htree' : second.1 = .ok (tree.relocate f) := by
      have hrun := (Reading.program_fst_eq hnil).symm.trans htree
      rw [Reading.program_fst_eq hnil', ← hreader,
        Reading.run_relocate Grammar.relocates_program, hrun]
      rfl
    have hresolve : second.2.resolve (tree.relocate f) = (first.2.resolve tree).relocate f := by
      rw [Reading.resolve, Reading.resolve, ← htable, Tree.resolve, Tree.resolve, Tree.map_relocate]
    refine .inl ⟨tree, tree.relocate f, htree, htree', ?_, fun bound ↦ ?_⟩
    · rw [hresolve, Tree.unplaced_relocate]
    · rw [hresolve, ← htable]
      exact Tree.endAlike_relocate ..
  · -- as many errors are told about the second text, so there is one that it fails with
    refine .inr ⟨?_, ?_⟩
    · rcases Reading.program_tree_or_first hb (all_ofTokens b) with
        ⟨hnil, -⟩ | ⟨e', others', -, he'⟩
      · have hne : second.2.diagnostics ≠ [] := by
          rw [hdiagnostics, hcons]
          exact List.cons_ne_nil _ _
        exact absurd hnil hne
      · exact ⟨e, e', he, he'⟩
    · rw [hdiagnostics, List.map_map]
      rfl

/-- A division by zero on one line and on three. -/
theorem layout_irrelevant_division :
    let a := "procedure principale() x = 1 / 0; finproc"
    let b := "procedure principale ()\n  x = 1/0;\nfinproc\n"
    let first := (Reading.ofTokens (ofSource a).tokens).program
    let second := (Reading.ofTokens (ofSource b).tokens).program
    (ofSource a).tokens ≠ (ofSource b).tokens ∧
      (ofSource a).tokens.map (·.kind) = (ofSource b).tokens.map (·.kind) ∧
      ∃ tree tree', first.1 = .ok tree ∧ second.1 = .ok tree' ∧
        Run.EndAlike ((first.2.resolve tree).run 0 { table := first.2.table })
          ((second.2.resolve tree').run 0 { table := second.2.table }) := by
  intro a b first second
  have hkinds : (ofSource a).tokens.map (·.kind) = (ofSource b).tokens.map (·.kind) := by
    decide +kernel
  refine ⟨by decide +kernel, hkinds, ?_⟩
  rcases (layout_irrelevant a b hkinds).2 with ⟨tree, tree', h, h', -, hruns⟩ | ⟨⟨e, -, he, -⟩, -⟩
  · exact ⟨tree, tree', h, h', hruns 0⟩
  · have hok : first.1.toOption.isSome = true := by decide +kernel
    rw [show first.1 = _ from he] at hok
    cases hok

end Scan

end Pseudocode

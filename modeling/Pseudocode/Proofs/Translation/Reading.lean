import Mathlib.Data.Set.Function
import Pseudocode.Proofs.Translation.Grammar

/-!
# Readings under other names and at other places

A reading tells each error once. It compares errors for this, so the errors of a translated reading
are the translated errors only if no two of them become one. With this, what is read of a program is
translated as the tokens are.

## Main definitions

* `Translation.reading`: a reading under other names and at other places.
* `Rule.Relocates`: one rule does at other places what another one does.

## Main results

* `Trail.diagnostics_map`: the same errors are told if no two of them become one.
* `Translation.program_fst_reading`, `Translation.program_snd_reading`: what a translated reading of
  a program gives, and where it is then.
* `Grammar.relocates_program`: the rule of programs does the same at other places.
-/

namespace Pseudocode

/-! ### Trails -/

namespace Trail

variable {known errors : List SyntaxError} {e : SyntaxError}

/-- If other symbols are met on a trail, the symbols along it are those. -/
theorem symbols_map {h : Event → Event} {g : Symbol → Symbol}
    (hsymbol : ∀ x, (h x).symbol? = x.symbol?.map g) (trail : List Event) :
    symbols (trail.map h) = (symbols trail).map g := by
  rw [symbols, symbols, List.filterMap_map, List.map_filterMap]
  exact List.filterMap_congr fun x _ ↦ hsymbol x

theorem mem_addDiagnostic_iff {e' : SyntaxError} :
    e' ∈ addDiagnostic known e ↔ e' ∈ known ∨ e' = e := by
  unfold addDiagnostic
  split
  · next hlast =>
    refine ⟨.inl, fun h ↦ h.elim id fun heq ↦ ?_⟩
    exact heq ▸ List.mem_of_getLast? hlast
  · rw [List.mem_append, List.mem_singleton]

theorem mem_foldl_addDiagnostic (h : e ∈ known ∨ e ∈ errors) :
    e ∈ errors.foldl addDiagnostic known := by
  induction errors generalizing known with
  | nil => exact h.resolve_right List.not_mem_nil
  | cons x errors ih =>
    refine ih ?_
    rw [mem_addDiagnostic_iff]
    rcases h with h | h
    · exact .inl (.inl h)
    · rcases List.mem_cons.1 h with rfl | h
      · exact .inl (.inr rfl)
      · exact .inr h

section Injective

variable {g : SyntaxError → SyntaxError} {kept : Set SyntaxError}

/-- If no two errors become one, an error was told last if and only if what becomes of it was. -/
theorem addDiagnostic_map (hg : Set.InjOn g kept) (hknown : ∀ e' ∈ known, e' ∈ kept)
    (he : e ∈ kept) : addDiagnostic (known.map g) (g e) = (addDiagnostic known e).map g := by
  have hlast : (known.map g).getLast? = some (g e) ↔ known.getLast? = some e := by
    rw [List.getLast?_map]
    cases h : known.getLast? with
    | none => simp only [Option.map_none, reduceCtorEq]
    | some e' =>
      rw [Option.map_some, Option.some_inj, Option.some_inj]
      exact hg.eq_iff (hknown e' (List.mem_of_getLast? h)) he
  unfold addDiagnostic
  simp only [hlast]
  split
  · rfl
  · rw [List.map_append, List.map_singleton]

theorem foldl_addDiagnostic_map (hg : Set.InjOn g kept) (hknown : ∀ e ∈ known, e ∈ kept)
    (herrors : ∀ e ∈ errors, e ∈ kept) :
    (errors.map g).foldl addDiagnostic (known.map g) =
      (errors.foldl addDiagnostic known).map g := by
  induction errors generalizing known with
  | nil => rfl
  | cons e errors ih =>
    obtain ⟨he, hothers⟩ := List.forall_mem_cons.1 herrors
    rw [List.map_cons, List.foldl_cons, List.foldl_cons, addDiagnostic_map hg hknown he]
    refine ih (fun e' he' ↦ ?_) hothers
    rcases mem_addDiagnostic_iff.1 he' with he' | rfl
    · exact hknown e' he'
    · exact he

/-- If other errors come by on a trail and no two diagnostics become one, the diagnostics are
those. -/
theorem diagnostics_map {h : Event → Event} (herror : ∀ x, (h x).error? = x.error?.map g)
    {trail : List Event} (hg : Set.InjOn g kept) (hkept : ∀ e ∈ diagnostics trail, e ∈ kept) :
    diagnostics (trail.map h) = (diagnostics trail).map g := by
  have herrors : (trail.map h).filterMap Event.error? = (trail.filterMap Event.error?).map g := by
    rw [List.filterMap_map, List.map_filterMap]
    exact List.filterMap_congr fun x _ ↦ herror x
  rw [diagnostics, herrors]
  refine foldl_addDiagnostic_map hg (fun e he ↦ absurd he List.not_mem_nil) fun e he ↦ ?_
  exact hkept e (mem_foldl_addDiagnostic (.inr he))

end Injective

end Trail

/-! ### Readings -/

namespace Translation

variable (T : Translation)

/-- The reading with all tokens, and whatever its trail tells about them, translated. -/
def reading (r : Reading) : Reading where
  stream := T.stream r.stream
  trail := r.trail.map T.event

variable {T}

theorem run_reading {α β : Type} {g : α → β} {rule : Rule α} {rule' : Rule β}
    (h : rule.Translates T g rule') {r : Reading} (hr : ∀ t ∈ r.stream.all, T.Covers t) :
    (T.reading r).run rule' =
      (((r.run rule).1.map g).mapError T.failure, T.reading (r.run rule).2) := by
  simp only [Reading.run, reading, (h r.stream hr).1, outcome, List.map_append]

theorem noteFailure_reading {α β : Type} (g : α → β) (r : Reading) (result : Except Failure α) :
    (T.reading r).noteFailure ((result.map g).mapError T.failure) =
      T.reading (r.noteFailure result) := by
  rcases result with (_ | _) | _
  · simp [Reading.noteFailure, reading, Except.map, Except.mapError, failure, event]
  · rfl
  · rfl

/-- After a program, a translated reading is the translation of where the reading is. -/
theorem program_snd_reading {r : Reading} (hr : ∀ t ∈ r.stream.all, T.Covers t) :
    (T.reading r).program.2 = T.reading r.program.2 := by
  rw [Reading.program_snd, Reading.program_snd, run_reading Grammar.translates_program hr,
    noteFailure_reading]

/-- If no two diagnostics become one, the diagnostics are translated. -/
theorem diagnostics_reading {r : Reading} (hT : Set.InjOn T.error {e | e ∈ r.diagnostics}) :
    (T.reading r).diagnostics = r.diagnostics.map T.error :=
  Trail.diagnostics_map (fun x ↦ by cases x <;> rfl) hT fun _ he ↦ he

/-- If no two diagnostics become one, what is read of a program is translated. -/
theorem program_fst_reading {r : Reading} (hr : ∀ t ∈ r.stream.all, T.Covers t)
    (hT : Set.InjOn T.error {e | e ∈ r.program.2.diagnostics}) :
    (T.reading r).program.1 = (r.program.1.map T.tree).mapError T.failure := by
  -- the first diagnostic decides what is given, and it is translated only if diagnostics are
  rw [Reading.program_snd] at hT
  unfold Reading.program
  rw [run_reading Grammar.translates_program hr]
  dsimp only
  rw [noteFailure_reading, diagnostics_reading hT]
  generalize (r.run Grammar.program).2.noteFailure (r.run Grammar.program).1 = after
  rcases (r.run Grammar.program).1 with (_ | _) | _
  · cases after.diagnostics <;> rfl
  · rfl
  · cases after.diagnostics <;> rfl

end Translation

/-! ### Other places only -/

/-- The rule `r'` does at other places what `r` does. The function `g` moves the result. -/
def Rule.Relocates {α β : Type} (f : Span → Span) (g : α → β) (r : Rule α) (r' : Rule β) : Prop :=
  ∀ s : Stream, r' (s.relocate f) = (r s).relocate f g

/-- A program is read in the same way at other places. -/
theorem Grammar.relocates_program {f : Span → Span} :
    Rule.Relocates f (Tree.relocate f) program program := by
  intro s
  have heq := (translates_program s fun t _ ↦ Translation.moving_covers f t).1
  rwa [Translation.moving_stream, Translation.moving_outcome, Translation.moving_tree] at heq

end Pseudocode

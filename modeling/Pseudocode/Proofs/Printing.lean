import Pseudocode.Proofs.Flaws

/-!
# Scanning undoes writing

Kinds of tokens are written with single spaces between them. A space puts an end to every lexeme
without a flaw, so the text that is written is cut into the same kinds again, whatever stands next
to what. The kinds of a text without errors can all be written in this way, so writing them and
scanning again changes nothing but the layout.

## Main definitions

* `Token.Kind.WellFormed`: kinds that stand for a token without a flaw.
* `Token.Kind.written`: kinds written with single spaces between them.

## Main results

* `Token.Kind.WellFormed.exists_ofHead`: what is written of a kind is a lexeme of this kind.
* `Lexeme.wellFormed_ofHead`: a lexeme without a flaw is of a kind that can be written.
* `Scan.scanning_undoes_writing`: writing kinds and scanning them, and the other way round.
-/

namespace Pseudocode

open Token (Kind)

namespace Token.Kind

/-- The kind stands for a token without a flaw: a variable has a word for its name that is not
reserved, an integer the value that its digits denote, the contents of a string stay between two
quotes on one line, and an illegal character is an exclamation mark or starts neither a token nor a
gap. The end of input is no token of its own. -/
def WellFormed : Kind → Prop
  | keyword _ | punctuator _ => True
  | var name => (∃ c cs, name.toList = c :: cs ∧ Lexeme.isWordStart c = true ∧
      ∀ d ∈ cs, Lexeme.isWordPart d = true) ∧ ∀ k : Keyword, k.text ≠ name
  | integer digits value => digits.toList ≠ [] ∧ (∀ d ∈ digits.toList, d.isDigit = true) ∧
      Decimal.value digits.toList ≤ 2 ^ 63 - 1 ∧ value.toInt = Decimal.value digits.toList
  | string contents => '"' ∉ contents.toList ∧ '\n' ∉ contents.toList
  | illegal c => c = '!' ∨ Text.isBlank c = false ∧ c ≠ '#' ∧ c ≠ '"' ∧
      Lexeme.isWordStart c = false ∧ c.isDigit = false ∧
      ∀ p : Punctuator, p.text.toList.head? ≠ some c
  | endOfInput => False

/-- The kinds as they are written, with single spaces between them. -/
def written (kinds : List Kind) : String :=
  String.intercalate " " (kinds.map text)

end Token.Kind

/-- Digits are read as the number that they denote, if it fits. -/
theorem Decimal.int64?_eq_some_iff {digits : List Char} {v : Int64} :
    int64? digits = some v ↔ value digits ≤ 2 ^ 63 - 1 ∧ v.toInt = value digits := by
  rw [int64?, largest_eq]
  by_cases hfits : value digits ≤ 2 ^ 63 - 1
  · have hofNat : (Int64.ofNat (value digits)).toInt = value digits :=
      Int64.toInt_ofNat_of_lt (Nat.lt_succ_of_le hfits)
    rw [if_pos hfits, Option.some_inj, ← Int64.toInt_inj, hofNat]
    exact ⟨fun h ↦ ⟨hfits, h.symm⟩, fun h ↦ h.2.symm⟩
  · rw [if_neg hfits]
    refine ⟨fun h ↦ ?_, fun h ↦ absurd h.1 hfits⟩
    cases h

/-! ### Lexemes of well-formed kinds -/

namespace Lexeme

variable {c : Char} {cs rest : List Char}

/-- The characters of words and numbers lie between the first digit and the last letter. -/
theorem toNat_of_isWordPart (h : isWordPart c = true) :
    '0'.toNat ≤ c.toNat ∧ c.toNat ≤ 'z'.toNat := by
  rcases Bool.or_eq_true_iff.1 h with halphanum | hunderscore
  · rcases Bool.or_eq_true_iff.1 halphanum with halpha | hdigit
    · rcases Bool.or_eq_true_iff.1 halpha with hupper | hlower
      · have hle := UInt32.le_iff_toNat_le.1 (of_decide_eq_true hupper).1
        have hle' := UInt32.le_iff_toNat_le.1 (of_decide_eq_true hupper).2
        exact ⟨Nat.le_trans (by decide) hle, Nat.le_trans hle' (by decide)⟩
      · obtain ⟨hfirst, hlast⟩ := Bool.and_eq_true_iff.1 hlower
        have hle := UInt32.le_iff_toNat_le.1 (of_decide_eq_true hfirst)
        have hle' := UInt32.le_iff_toNat_le.1 (of_decide_eq_true hlast)
        exact ⟨Nat.le_trans (by decide) hle, hle'⟩
    · obtain ⟨hle, hle'⟩ := Char.isDigit_iff_toNat.1 hdigit
      exact ⟨hle, Nat.le_trans hle' (by decide)⟩
  · rw [beq_iff_eq.1 hunderscore]
    decide

/-- Neither a word nor a number goes on with a gap. -/
theorem not_isBlank_of_isWordPart (h : isWordPart c = true) :
    Text.isBlank c = false ∧ c ≠ '#' := by
  obtain ⟨hlower, hupper⟩ := toNat_of_isWordPart h
  change 48 ≤ c.toNat at hlower
  change c.toNat ≤ 122 at hupper
  refine ⟨?_, ?_⟩
  · refine Bool.eq_false_iff.2 fun hblank ↦ ?_
    simp only [Text.isBlank, Text.blankRanges, List.any_cons, List.any_nil, Bool.or_eq_true,
      Bool.and_eq_true, decide_eq_true_eq, Bool.false_eq_true, or_false] at hblank
    omega
  · rintro rfl
    exact absurd hlower (by decide)

theorem isWordPart_of_isWordStart (h : isWordStart c = true) : isWordPart c = true := by
  rcases Bool.or_eq_true_iff.1 h with halpha | hunderscore
  · exact Bool.or_eq_true_iff.2 (.inl (Bool.or_eq_true_iff.2 (.inl halpha)))
  · exact Bool.or_eq_true_iff.2 (.inr hunderscore)

theorem isWordPart_of_isDigit (h : c.isDigit = true) : isWordPart c = true :=
  Bool.or_eq_true_iff.2 (.inl (Bool.or_eq_true_iff.2 (.inr h)))

/-- A space puts an end to every lexeme without a flaw. -/
theorem endsBefore_of_space {lexeme : Lexeme} (hflaw : lexeme.flaw = none)
    (hrest : ∀ d ∈ rest.head?, d = ' ') : lexeme.EndsBefore rest := by
  refine ⟨?_, fun h ↦ nomatch hflaw.symm.trans h⟩
  unfold Maximal
  split
  case h_1 | h_2 | h_3 =>
    intro d hd
    rw [hrest d hd]
    decide
  case h_4 | h_5 => exact fun _ h ↦ absurd (hrest '=' h) (by decide)
  case h_6 | h_7 => trivial

end Lexeme

namespace Lexeme

/-- A word is read back as it is written. -/
theorem exists_ofHead_word {kind : Kind} {letters : List Char}
    (hstart : ∃ c cs, letters = c :: cs ∧ isWordStart c = true ∧ ∀ d ∈ cs, isWordPart d = true)
    (hword : word letters = { kind, text := letters }) :
    ∃ c cs, letters = c :: cs ∧ Text.isBlank c = false ∧ c ≠ '#' ∧
      ofHead c cs = { kind, text := c :: cs } := by
  obtain ⟨c, cs, rfl, hc, hcs⟩ := hstart
  obtain ⟨hblank, hhash⟩ := not_isBlank_of_isWordPart (isWordPart_of_isWordStart hc)
  exact ⟨c, cs, rfl, hblank, hhash, (ofHead_of_word hc hcs).trans hword⟩

/-- A number is read back as it is written. -/
theorem exists_ofHead_number {digits : List Char} {value : Int64} (hne : digits ≠ [])
    (hdigits : ∀ d ∈ digits, d.isDigit = true) (hfits : Decimal.value digits ≤ 2 ^ 63 - 1)
    (hvalue : value.toInt = Decimal.value digits) :
    ∃ c cs, digits = c :: cs ∧ Text.isBlank c = false ∧ c ≠ '#' ∧
      ofHead c cs = { kind := .integer (String.ofList digits) value, text := c :: cs } := by
  obtain ⟨c, cs, rfl⟩ := List.exists_cons_of_ne_nil hne
  obtain ⟨hc, hcs⟩ := List.forall_mem_cons.1 hdigits
  obtain ⟨hblank, hhash⟩ := not_isBlank_of_isWordPart (isWordPart_of_isDigit hc)
  have hread : Decimal.int64? (c :: cs) = some value :=
    Decimal.int64?_eq_some_iff.2 ⟨hfits, hvalue⟩
  refine ⟨c, cs, rfl, hblank, hhash, ?_⟩
  have hend : ∀ d ∈ ([] : List Char).head?, d.isDigit = false := fun d hd ↦ nomatch hd
  have hnumber := ofHead_number hc hcs hend
  rw [List.append_nil] at hnumber
  rw [hnumber, number, hread]

/-- A string is read back as it is written. -/
theorem exists_ofHead_string {contents : String} (hquote : '"' ∉ contents.toList)
    (hline : '\n' ∉ contents.toList) :
    ∃ c cs, (Kind.string contents).text.toList = c :: cs ∧ Text.isBlank c = false ∧ c ≠ '#' ∧
      ofHead c cs = { kind := .string contents, text := c :: cs } := by
  refine ⟨'"', contents.toList ++ ['"'], by simp [Kind.text], by decide, by decide, ?_⟩
  have hparts : ∀ d ∈ contents.toList, isStringPart d = true := by
    intro d hd
    have hne : d ≠ '"' := fun h ↦ hquote (h ▸ hd)
    have hne' : d ≠ '\n' := fun h ↦ hline (h ▸ hd)
    simp [isStringPart, hne, hne']
  rw [ofHead_quote, quoted_closed hparts, String.ofList_toList]
  rfl

/-- An illegal character is read back as it is written. -/
theorem exists_ofHead_illegal {c : Char} (h : (Kind.illegal c).WellFormed) :
    ∃ d cs, (Kind.illegal c).text.toList = d :: cs ∧ Text.isBlank d = false ∧ d ≠ '#' ∧
      ofHead d cs = { kind := .illegal c, text := d :: cs } := by
  refine ⟨c, [], String.toList_singleton c, ?_⟩
  rcases h with rfl | ⟨hblank, hhash, hquote, hword, hdigit, hmark⟩
  · decide
  · refine ⟨hblank, hhash, ?_⟩
    have hillegal : mark c none = .illegal c := by
      rcases mark_eq c none with ⟨p, -, hp | ⟨hp, -⟩⟩ | ⟨hc, -⟩
      · exact absurd (congrArg List.head? hp) (hmark p)
      · exact absurd (congrArg List.head? hp) (hmark p)
      · exact hc
    have htext : (Kind.illegal c).text.toList = [c] := String.toList_singleton c
    rw [ofHead_mark hquote hword hdigit, List.head?_nil, hillegal, htext]

end Lexeme

/-- What is written of a well-formed kind is a lexeme of this kind, without a flaw. -/
theorem Token.Kind.WellFormed.exists_ofHead {kind : Kind} (h : kind.WellFormed) :
    ∃ c cs, kind.text.toList = c :: cs ∧ Text.isBlank c = false ∧ c ≠ '#' ∧
      Lexeme.ofHead c cs = { kind, text := c :: cs } := by
  cases kind with
  | keyword k =>
    obtain ⟨hstart, hparts⟩ := Lexeme.isWordPart_of_keyword k
    obtain ⟨c, cs, hcs⟩ := List.exists_cons_of_ne_nil (Lexeme.Spells.keyword k).ne_nil
    rw [hcs] at hstart hparts
    refine Lexeme.exists_ofHead_word ⟨c, cs, hcs, hstart c rfl, fun d hd ↦
      hparts d (List.mem_cons_of_mem _ hd)⟩ ?_
    rw [Lexeme.word, Kind.text, String.ofList_toList, Keyword.ofText?_text]
  | punctuator p => cases p <;> exact ⟨_, _, rfl, by decide, by decide, by decide⟩
  | var name =>
    refine Lexeme.exists_ofHead_word h.1 ?_
    have hnone : Keyword.ofText? name = none :=
      Option.eq_none_iff_forall_ne_some.2 fun k hk ↦
        h.2 k (Keyword.ofText?_eq_some_iff.1 hk).symm
    rw [Lexeme.word, Kind.text, String.ofList_toList, hnone]
  | integer digits value =>
    obtain ⟨hne, hdigits, hfits, hvalue⟩ := h
    have hread := Lexeme.exists_ofHead_number hne hdigits hfits hvalue
    rwa [String.ofList_toList] at hread
  | string contents => exact Lexeme.exists_ofHead_string h.1 h.2
  | illegal c => exact Lexeme.exists_ofHead_illegal h
  | endOfInput => exact h.elim

/-- What is written of a well-formed kind before a space or the end of a text is a lexeme of this
kind, without a flaw. -/
theorem Text.Lexes.kind {kind : Kind} {rest : List Char} {lexemes : List Lexeme}
    (hkind : kind.WellFormed) (hrest : ∀ d ∈ rest.head?, d = ' ') (h : Lexes rest lexemes) :
    Lexes (kind.text.toList ++ rest) ({ kind, text := kind.text.toList } :: lexemes) := by
  obtain ⟨c, cs, htext, hblank, hhash, hread⟩ := hkind.exists_ofHead
  have hends : (Lexeme.ofHead c cs).EndsBefore rest :=
    Lexeme.endsBefore_of_space (by rw [hread]) hrest
  have hsplit : c :: cs = (Lexeme.ofHead c cs).text ++ [] := by rw [hread, List.append_nil]
  have hlexes := h.before hblank hhash hsplit hends
  rwa [hread, ← htext] at hlexes

/-- Well-formed kinds are written as lexemes of these kinds, without a flaw. -/
theorem Text.lexes_written (kinds : List Kind) (h : ∀ k ∈ kinds, k.WellFormed) :
    Lexes (Kind.written kinds).toList
      (kinds.map fun kind ↦ { kind, text := kind.text.toList }) := by
  induction kinds with
  | nil => exact .done .nil
  | cons kind kinds ih =>
    obtain ⟨hkind, hkinds⟩ := List.forall_mem_cons.1 h
    cases kinds with
    | nil =>
      have hend : ∀ d ∈ ([] : List Char).head?, d = ' ' := fun d hd ↦ nomatch hd
      have hlexes := Lexes.kind hkind hend (.done .nil)
      rw [List.append_nil] at hlexes
      rwa [Kind.written, List.map_singleton, String.intercalate_singleton]
    | cons kind' kinds =>
      rw [Kind.written, List.map_cons, List.map_cons, String.intercalate_cons_cons,
        String.append_assoc, String.toList_append, String.toList_append]
      exact Lexes.kind hkind (fun d hd ↦ (Option.some.inj hd).symm) (.gap .space (ih hkinds))

/-! ### Kinds of lexemes -/

/-- No mark starts with a character that is not a mark of its own, but for an exclamation mark. -/
theorem Punctuator.head?_text (p : Punctuator) : p.text.toList.head? = some '!' ∨
    ∃ q : Punctuator, q.text.toList = p.text.toList.head?.toList := by
  have hself : p.text.toList = p.text.toList.head?.toList →
      ∃ q : Punctuator, q.text.toList = p.text.toList.head?.toList := fun h ↦ ⟨p, h⟩
  cases p with
  | equal => exact .inr ⟨.assign, by decide⟩
  | lessOrEqual => exact .inr ⟨.less, by decide⟩
  | greaterOrEqual => exact .inr ⟨.greater, by decide⟩
  | notEqual => exact .inl (by decide)
  | _ => exact .inr (hself (by decide))

/-- A lexeme without a flaw is of a kind that can be written. -/
theorem Lexeme.wellFormed_ofHead {c : Char} {cs : List Char} (hblank : Text.isBlank c = false)
    (hhash : c ≠ '#') (hflaw : (ofHead c cs).flaw = none) : (ofHead c cs).kind.WellFormed := by
  have hspells := spells_ofHead cs hblank hhash
  have hvalue {digits : String} {value : Int64} (h : (ofHead c cs).kind = .integer digits value) :
      Decimal.int64? digits.toList = some value := int64?_ofHead h hflaw
  generalize (ofHead c cs).kind = kind at hspells hvalue ⊢
  generalize (ofHead c cs).text = text at hspells
  cases hspells with
  | keyword k => trivial
  | punctuator p => trivial
  | @var c cs hc hcs hkeyword =>
    refine ⟨⟨c, cs, String.toList_ofList, hc, hcs⟩, fun k hk ↦ hkeyword k ?_⟩
    rw [hk, String.toList_ofList]
  | @integer digits hne hdigits =>
    obtain ⟨hfits, hdenotes⟩ := Decimal.int64?_eq_some_iff.1 (hvalue rfl)
    rw [String.toList_ofList] at hfits hdenotes
    simp only [Kind.WellFormed, String.toList_ofList]
    exact ⟨hne, hdigits, hfits, hdenotes⟩
  | @closed contents hparts | @unclosed contents hparts =>
    simp only [Kind.WellFormed, String.toList_ofList]
    refine ⟨fun hmem ↦ ?_, fun hmem ↦ ?_⟩
    · exact absurd (hparts _ hmem) (by decide)
    · exact absurd (hparts _ hmem) (by decide)
  | @illegal c hblank hhash hquote hword hdigit hmark =>
    by_cases hc : c = '!'
    · exact .inl hc
    refine .inr ⟨hblank, hhash, hquote, hword, hdigit, fun p hp ↦ ?_⟩
    rcases p.head?_text with hbang | ⟨q, hq⟩
    · exact hc (Option.some.inj (hp.symm.trans hbang))
    · rw [hp] at hq
      exact hmark q hq

namespace Scan

/-- The kinds of a text without errors can be written, up to the end of input. -/
theorem wellFormed_of_errors_eq_nil {source : String} (h : (ofSource source).errors = []) :
    ∀ k ∈ (ofSource source).tokens.dropLast.map (·.kind), k.WellFormed := by
  intro k hk
  rw [tokens_ofSource, List.dropLast_concat, List.map_map] at hk
  rw [errors_ofSource] at h
  obtain ⟨x, hx, rfl⟩ := List.mem_map.1 hk
  have herror : x.error? = none := List.filterMap_eq_nil_iff.1 h x hx
  obtain ⟨before, d, head, tail, -, -, hblank, hhash, rfl⟩ :=
    Cursor.exists_place_ofSource source x hx
  exact Lexeme.wellFormed_ofHead hblank hhash (Option.map_eq_none_iff.1 herror)

/-- The kinds of a text end with the end of input. -/
theorem kinds_eq_dropLast (source : String) : (ofSource source).tokens.map (·.kind) =
    (ofSource source).tokens.dropLast.map (·.kind) ++ [.endOfInput] := by
  rw [tokens_ofSource, List.dropLast_concat, List.map_append]
  rfl

/-- Well-formed kinds are read back as they are written. -/
theorem kinds_written {kinds : List Kind} (h : ∀ k ∈ kinds, k.WellFormed) :
    (ofSource (Kind.written kinds)).tokens.map (·.kind) = kinds ++ [.endOfInput] ∧
      (ofSource (Kind.written kinds)).errors = [] := by
  have hlexes := Text.lexes_written kinds h
  constructor
  · rw [hlexes.kinds_eq, List.map_map]
    simp [Function.comp_def]
  · rw [← List.map_eq_nil_iff, hlexes.flaws_eq, List.filterMap_eq_nil_iff]
    intro lexeme hlexeme
    obtain ⟨kind, -, rfl⟩ := List.mem_map.1 hlexeme
    rfl

/-- Scanning undoes writing: well-formed kinds that are written with single spaces between them are
read back, followed by the end of input, and without an error. The other way round, the kinds of
every text without errors can be written and read back. -/
theorem scanning_undoes_writing :
    (∀ kinds : List Kind, (∀ k ∈ kinds, k.WellFormed) →
      (ofSource (Kind.written kinds)).tokens.map (·.kind) = kinds ++ [.endOfInput] ∧
      (ofSource (Kind.written kinds)).errors = []) ∧
    ∀ source : String, (ofSource source).errors = [] →
      let kinds := (ofSource source).tokens.dropLast.map (·.kind)
      (ofSource (Kind.written kinds)).tokens.map (·.kind) = (ofSource source).tokens.map (·.kind) ∧
      (ofSource (Kind.written kinds)).errors = [] := by
  refine ⟨fun kinds hkinds ↦ kinds_written hkinds, fun source hscan ↦ ?_⟩
  intro kinds
  rw [kinds_eq_dropLast source]
  exact kinds_written (wellFormed_of_errors_eq_nil hscan)

/-- An exclamation mark is kept apart from an equals sign behind it, and neither the contents of a
string nor leading zeros are lost. -/
theorem scanning_undoes_writing_bang :
    let kinds : List Kind :=
      [.illegal '!', .punctuator .assign, .string "# et \u00e9", .integer "007" 7]
    let again := (ofSource "si!==1# un\n\"a#b\"").tokens.dropLast.map (·.kind)
    ((ofSource (Kind.written kinds)).tokens.map (·.kind) = kinds ++ [.endOfInput] ∧
      (ofSource (Kind.written kinds)).errors = []) ∧
    (ofSource (Kind.written again)).tokens.map (·.kind) =
        (ofSource "si!==1# un\n\"a#b\"").tokens.map (·.kind) ∧
      (ofSource (Kind.written again)).errors = [] := by
  have hstring : (Kind.string "# et \u00e9").WellFormed := ⟨by decide +kernel, by decide +kernel⟩
  have hinteger : (Kind.integer "007" 7).WellFormed :=
    ⟨by decide, List.all_eq_true.1 (by decide), by decide, by decide⟩
  refine ⟨scanning_undoes_writing.1 _ ?_, scanning_undoes_writing.2 _ (by decide +kernel)⟩
  rintro k (_ | ⟨_, _ | ⟨_, _ | ⟨_, _ | ⟨_, ⟨⟩⟩⟩⟩⟩)
  · exact .inl rfl
  · trivial
  · exact hstring
  · exact hinteger

end Scan

end Pseudocode

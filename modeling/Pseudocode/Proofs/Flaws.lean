import Pseudocode.Proofs.Delimiters
import Pseudocode.Proofs.Positions

/-!
# Lexical errors are told exactly

Two things can be wrong with a token in itself: the number that its digits denote may be too large,
and the line may end before its closing quote. Both can be told from the token and the text that it
stands in, without asking how the scanner came to it. The errors of a text are those of its tokens
in order, and they do not depend on how the tokens are asked for.

## Main definitions

* `Text.lineEndsAt`: whether the line, or the whole text, ends at an offset.
* `Token.flaw?`, `Token.error?`: what is wrong with a token of a text.

## Main results

* `Cursor.Walks.flaw?_place`: the flaw of a lexeme is that of its token.
* `Scan.errors_eq_filterMap`: the errors are those of the tokens.
* `Scan.lexical_errors_exact`: the errors of a text, however its tokens are asked for.
-/

namespace Pseudocode

open Token (Kind)

/-! ### What is wrong with a token -/

/-- Whether the line, or the whole text, ends at the byte `offset`. -/
def Text.lineEndsAt (source : String) (offset : Nat) : Bool :=
  match slice? source offset source.utf8ByteSize with
  | some rest => rest.toList.head? = none ∨ rest.toList.head? = some '\n'
  | none => false

/-- What is wrong with a token of the text `source`: an integer may be larger than 2^63 - 1, and the
line may end behind the contents of a string. -/
def Token.flaw? (source : String) (t : Token) : Option Flaw :=
  match t.kind with
  | .integer digits _ =>
    if Decimal.value digits.toList ≤ 2 ^ 63 - 1 then none else some .invalidNumber
  | .string contents =>
    if Text.lineEndsAt source (t.start.offset + 1 + contents.utf8ByteSize) then
      some .unterminatedString
    else
      none
  | _ => none

/-- The error that a token of the text `source` brings along, if any. It is located where the token
starts. -/
def Token.error? (source : String) (t : Token) : Option LexicalError :=
  (t.flaw? source).map fun flaw ↦ { location := t.start, flaw }

theorem Decimal.largest_eq : largest = 2 ^ 63 - 1 := rfl

/-- A literal stands for the number that its digits denote, and for 0 if this is too large. -/
theorem Decimal.toInt_getD_int64? (digits : List Char) : ((int64? digits).getD 0).toInt =
    if value digits ≤ 2 ^ 63 - 1 then (value digits : Int) else 0 := by
  rw [int64?, largest_eq]
  split
  · next hfits => exact Int64.toInt_ofNat_of_lt (Nat.lt_succ_of_le hfits)
  · rfl

namespace Lexeme

theorem flaw_number (digits : List Char) : (number digits).flaw =
    if Decimal.value digits ≤ 2 ^ 63 - 1 then none else some .invalidNumber := by
  rw [number, Decimal.int64?, Decimal.largest_eq]
  by_cases hfits : Decimal.value digits ≤ 2 ^ 63 - 1
  · rw [if_pos hfits, if_pos hfits]
  · rw [if_neg hfits, if_neg hfits]

/-- Only a quote opens a string. -/
theorem eq_quote_of_kind_ofHead {c : Char} {cs : List Char} {contents : String}
    (h : (ofHead c cs).kind = .string contents) : c = '"' := by
  by_contra hquote
  rw [ofHead, if_neg hquote] at h
  split at h
  · unfold word at h
    split at h <;> cases h
  split at h
  · rw [kind_number] at h
    cases h
  · change mark c cs.head? = _ at h
    rcases mark_eq c cs.head? with ⟨p, hp, -⟩ | ⟨hillegal, -⟩
    · rw [hp] at h
      cases h
    · rw [hillegal] at h
      cases h

end Lexeme

namespace Cursor

variable {source : String} {before : List Char} {c : Cursor}

/-- Behind an opening quote come the contents of the string, and then a quote or the end of the
line. Whatever comes behind the contents can be told from the text. -/
theorem Walks.exists_contents (hc : (ofSource source).Walks before c) {tail : List Char}
    (hrest : c.rest = '"' :: tail) : ∃ contents behind : List Char,
      tail = contents ++ behind ∧ (∀ d ∈ contents, Lexeme.isStringPart d = true) ∧
      ((∃ behind', behind = '"' :: behind') ∨ ∀ d ∈ behind.head?, d = '\n') ∧
      Text.slice? source (c.location.offset + 1 + (String.ofList contents).utf8ByteSize)
        source.utf8ByteSize = some (String.ofList behind) := by
  obtain ⟨contents, behind, rfl, hcontents, hbehind⟩ := Lexeme.exists_contents tail
  refine ⟨contents, behind, rfl, hcontents, hbehind, ?_⟩
  have hmove : c.Walks ('"' :: contents) (c.move ('"' :: contents)) :=
    walks_move (hrest ▸ ⟨behind, rfl⟩)
  have hahead : (c.move ('"' :: contents)).rest = behind := by
    have hsplit := hmove.1
    rw [hrest] at hsplit
    simpa using hsplit.symm
  have hoffset : (c.move ('"' :: contents)).location.offset =
      c.location.offset + 1 + (String.ofList contents).utf8ByteSize := by
    rw [hmove.2, Location.offset_after, String.ofList_cons, String.utf8ByteSize_append,
      ← Nat.add_assoc]
    rfl
  rw [← hoffset, ← hahead]
  exact (hc.trans hmove).slice?_rest

/-- The flaw of a lexeme is that of its token. -/
theorem Walks.flaw?_place (hc : (ofSource source).Walks before c) {head : Char} {tail : List Char}
    (hrest : c.rest = head :: tail) :
    (c.place (Lexeme.ofHead head tail)).token.flaw? source = (Lexeme.ofHead head tail).flaw := by
  by_cases hquote : head = '"'
  · subst hquote
    obtain ⟨contents, behind, rfl, hcontents, hbehind, hslice⟩ := hc.exists_contents hrest
    rw [Lexeme.ofHead_quote]
    rcases hbehind with ⟨behind', rfl⟩ | hline
    · rw [Lexeme.quoted_closed hcontents]
      simp [place, Token.flaw?, Text.lineEndsAt, hslice]
    · rw [Lexeme.quoted_unclosed hcontents hline]
      have hends : behind.head? = none ∨ behind.head? = some '\n' := by
        cases hhead : behind.head? with
        | none => exact .inl rfl
        | some d => exact .inr (congrArg some (hline d hhead))
      simp only [place, Token.flaw?, Text.lineEndsAt, hslice, String.toList_ofList,
        decide_eq_true hends, if_true]
  rw [Lexeme.ofHead, if_neg hquote]
  split
  · rw [Lexeme.flaw_word]
    unfold Lexeme.word
    split <;> rfl
  split
  · rw [Lexeme.flaw_number]
    simp only [place, Token.flaw?, Lexeme.kind_number, String.toList_ofList]
  · rcases Lexeme.mark_eq head tail.head? with ⟨p, hp, -⟩ | ⟨hillegal, -⟩
    · simp only [place, Token.flaw?, hp]
    · simp only [place, Token.flaw?, hillegal]

/-- A string stands in the text with its opening quote, and behind its contents comes the closing
quote or the end of the line. -/
theorem Walks.slice?_string (hc : (ofSource source).Walks before c) {head : Char}
    {tail : List Char} (hrest : c.rest = head :: tail) {contents : String}
    (hkind : (Lexeme.ofHead head tail).kind = .string contents) : ∃ behind : String,
      Text.slice? source c.location.offset source.utf8ByteSize =
        some ("\"" ++ contents ++ behind) ∧
      (behind.toList.head? = some '"' ∨ behind.toList.head? = some '\n' ∨ behind = "") := by
  obtain rfl := Lexeme.eq_quote_of_kind_ofHead hkind
  obtain ⟨letters, behind, rfl, hletters, hbehind, -⟩ := hc.exists_contents hrest
  obtain rfl : contents = String.ofList letters := by
    rw [Lexeme.ofHead_quote] at hkind
    rcases hbehind with ⟨behind', rfl⟩ | hline
    · rw [Lexeme.quoted_closed hletters] at hkind
      exact (Kind.string.inj hkind).symm
    · rw [Lexeme.quoted_unclosed hletters hline] at hkind
      exact (Kind.string.inj hkind).symm
  refine ⟨String.ofList behind, ?_, ?_⟩
  · rw [hc.slice?_rest, hrest, String.ofList_cons, String.ofList_append, ← String.append_assoc]
    rfl
  · rw [String.toList_ofList]
    rcases hbehind with ⟨behind', rfl⟩ | hline
    · exact .inl rfl
    · cases behind with
      | nil => exact .inr (.inr rfl)
      | cons d behind => exact .inr (.inl (congrArg some (hline d rfl)))

end Cursor

namespace Scan

/-- The errors of a text are those of its tokens in order. -/
theorem errors_eq_filterMap (source : String) :
    (ofSource source).errors = (ofSource source).tokens.filterMap (·.error? source) := by
  have hend : (Token.endAt (Cursor.ofSource source).finish.location).error? source = none := rfl
  rw [errors_ofSource, tokens_ofSource, List.filterMap_append, List.filterMap_map,
    List.filterMap_cons_none hend, List.filterMap_nil, List.append_nil]
  refine List.filterMap_congr fun x hx ↦ ?_
  obtain ⟨before, d, head, tail, hd, hrest, -, -, rfl⟩ := Cursor.exists_place_ofSource source x hx
  rw [Function.comp_apply, Token.error?, hd.flaw?_place hrest]
  rfl

/-- Lexical errors are told exactly. However the tokens of a text are asked for before all that is
left is, the errors told in the end are the same: those of all tokens in order, an integer that is
too large and a string that its line ends before its closing quote, each where its token starts, and
no token is lost on the way. An integer stands for the number that its digits denote if this is at
most 2^63 - 1, and for 0 otherwise. -/
theorem lexical_errors_exact (source : String) (calls : List Scanner.Call) :
    let pulled := ((Scanner.ofSource source).answers calls).1
    let scan := ((Scanner.ofSource source).answers calls).2.scan
    let tokens := (ofSource source).tokens
    pulled ++ scan.tokens = tokens ∧
    scan.errors = (ofSource source).errors ∧
    scan.errors = tokens.filterMap (·.error? source) ∧
    scan.errors.Pairwise (fun e e' ↦ e.location.offset < e'.location.offset) ∧
    (∀ t ∈ tokens, ∀ contents, t.kind = .string contents → ∃ behind : String,
      Text.slice? source t.start.offset source.utf8ByteSize =
        some ("\"" ++ contents ++ behind) ∧
      (behind.toList.head? = some '"' ∨ behind.toList.head? = some '\n' ∨ behind = "")) ∧
    ∀ t ∈ tokens, ∀ digits value, t.kind = .integer digits value → value.toInt =
      if Decimal.value digits.toList ≤ 2 ^ 63 - 1 then (Decimal.value digits.toList : Int)
      else 0 := by
  intro pulled scan tokens
  have hscan : ofSource source = { tokens := pulled ++ scan.tokens, errors := scan.errors } :=
    (Scanner.ofSource source).scan_answers calls
  have hsame : scan.errors = (ofSource source).errors := (congrArg Scan.errors hscan).symm
  have herrors := hsame.trans (errors_eq_filterMap source)
  refine ⟨(congrArg Scan.tokens hscan).symm, hsame, herrors, ?_, fun t ht contents hkind ↦ ?_,
    fun t ht digits value hkind ↦ ?_⟩
  · rw [hsame]
    exact pairwise_errors_ofSource source
  · rcases mem_tokens_ofSource.1 ht with ⟨x, hx, rfl⟩ | rfl
    · obtain ⟨before, d, head, tail, hd, hrest, -, -, rfl⟩ :=
        Cursor.exists_place_ofSource source x hx
      exact hd.slice?_string hrest hkind
    · cases hkind
  · have hspelled := wellSpelled_ofSource source t ht
    rw [hkind] at hspelled
    rw [hspelled.2.2]
    exact Decimal.toInt_getD_int64? digits.toList

end Scan

end Pseudocode

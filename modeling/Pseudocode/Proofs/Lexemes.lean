import Mathlib.Data.List.TakeWhile
import Pseudocode.Token.Lexeme

/-!
# How lexemes are spelled

Which kind of token a piece of text spells can be told from the piece alone, without looking at how
the scanner came to it. The lexeme at the head of a text spells its kind in this sense, no piece of
text spells two kinds, and what follows a lexeme in the text does not go on with it.

## Main definitions

* `Lexeme.Spells`: the kind of token that a piece of text spells.
* `Lexeme.Maximal`: what follows a piece of text does not go on with the token it spells.
* `Lexeme.Unterminated`: a string that lacks its closing quote.

## Main results

* `Lexeme.spells_ofHead`: a lexeme spells its kind.
* `Lexeme.Spells.unique`: no piece of text spells two kinds.
* `Lexeme.maximal_ofHead`: a lexeme goes as far as its kind allows.
* `Lexeme.display_ofHead`: a kind is written as the lexeme is, with the closing quote of a string.
-/

namespace Pseudocode

open Token (Kind)

namespace Lexeme

/-- The kind of token that a piece of text spells. -/
inductive Spells : List Char → Kind → Prop
  /-- A reserved word. -/
  | keyword (k : Keyword) : Spells k.text.toList (.keyword k)
  /-- Any other word is a variable. -/
  | var {c : Char} {cs : List Char} (hc : isWordStart c = true)
      (hcs : ∀ d ∈ cs, isWordPart d = true) (hkeyword : ∀ k : Keyword, k.text.toList ≠ c :: cs) :
      Spells (c :: cs) (.var (String.ofList (c :: cs)))
  /-- A run of digits stands for its value, or for 0 if the value is too large. -/
  | integer {digits : List Char} (hne : digits ≠ []) (hdigits : ∀ d ∈ digits, d.isDigit = true) :
      Spells digits (.integer (String.ofList digits) ((Decimal.int64? digits).getD 0))
  /-- A string between two quotes, on one line. -/
  | closed {contents : List Char} (h : ∀ d ∈ contents, isStringPart d = true) :
      Spells ('"' :: contents ++ ['"']) (.string (String.ofList contents))
  /-- A string without its closing quote, on one line. -/
  | unclosed {contents : List Char} (h : ∀ d ∈ contents, isStringPart d = true) :
      Spells ('"' :: contents) (.string (String.ofList contents))
  /-- A mark. -/
  | punctuator (p : Punctuator) : Spells p.text.toList (.punctuator p)
  /-- A character that starts neither a gap nor any of the above, or an exclamation mark. -/
  | illegal {c : Char} (hblank : Text.isBlank c = false) (hhash : c ≠ '#') (hquote : c ≠ '"')
      (hword : isWordStart c = false) (hdigit : c.isDigit = false)
      (hmark : ∀ p : Punctuator, p.text.toList ≠ [c]) : Spells [c] (.illegal c)

/-- The text `rest` does not go on with the token of this kind that `text` spells: a word is not
followed by a character of a word, a number not by a digit, and a mark that may take an equals sign
not by an equals sign. -/
def Maximal (text : List Char) (kind : Kind) (rest : List Char) : Prop :=
  match kind with
  | .keyword _ | .var _ => ∀ c ∈ rest.head?, isWordPart c = false
  | .integer _ _ => ∀ c ∈ rest.head?, c.isDigit = false
  | .punctuator _ | .illegal _ => text ∈ [['='], ['<'], ['>'], ['!']] → rest.head? ≠ some '='
  | .string _ | .endOfInput => True

/-- The text is a string without its closing quote, up to the end of the line or of the source. -/
def Unterminated (text : List Char) (kind : Kind) (rest : List Char) : Prop :=
  ∃ contents, kind = .string (String.ofList contents) ∧ text = '"' :: contents ∧
    (rest = [] ∨ rest.head? = some '\n')

/-! ### Classes of characters -/

/-- The characters that a word may start with come behind the digits. -/
theorem toNat_of_isWordStart {c : Char} (h : isWordStart c = true) :
    'A'.toNat ≤ c.toNat := by
  rcases Bool.or_eq_true_iff.1 h with halpha | hunderscore
  · rcases Bool.or_eq_true_iff.1 halpha with hupper | hlower
    · exact UInt32.le_iff_toNat_le.1 (of_decide_eq_true hupper).1
    · have hle := UInt32.le_iff_toNat_le.1 (of_decide_eq_true (Bool.and_eq_true_iff.1 hlower).1)
      exact Nat.le_trans (by decide) hle
  · rw [beq_iff_eq.1 hunderscore]
    decide

/-- A name of a variable does not start with a digit. -/
theorem not_isDigit_of_isWordStart {c : Char} (h : isWordStart c = true) :
    c.isDigit = false := by
  refine Bool.eq_false_iff.2 fun hdigit ↦ ?_
  have hle : c.toNat ≤ '9'.toNat := (Char.isDigit_iff_toNat.1 hdigit).2
  have hnine : '9'.toNat < 'A'.toNat := by decide
  have hstart := toNat_of_isWordStart h
  omega

theorem ne_quote_of_isWordStart {c : Char} (h : isWordStart c = true) : c ≠ '"' := by
  rintro rfl
  exact absurd h (by decide)

theorem ne_quote_of_isDigit {c : Char} (h : c.isDigit = true) : c ≠ '"' := by
  rintro rfl
  exact absurd h (by decide)

theorem not_isWordStart_of_isDigit {c : Char} (h : c.isDigit = true) : ¬ isWordStart c = true :=
  fun hword ↦ absurd h (Bool.eq_false_iff.1 (not_isDigit_of_isWordStart hword))

/-- A keyword is spelled as a word. -/
theorem isWordPart_of_keyword (k : Keyword) :
    (∀ c ∈ k.text.toList.head?, isWordStart c = true) ∧
      ∀ c ∈ k.text.toList, isWordPart c = true := by
  have h : k.text.toList.head?.all isWordStart = true ∧ k.text.toList.all isWordPart = true := by
    cases k <;> decide
  refine ⟨fun c hc ↦ ?_, List.all_eq_true.1 h.2⟩
  have hstart := h.1
  rwa [Option.mem_def.1 hc] at hstart

/-! ### Marks -/

/-- A mark takes an equals sign if it can. -/
theorem mark_eq (c : Char) (next : Option Char) :
    (∃ p : Punctuator, mark c next = .punctuator p ∧ (p.text.toList = [c] ∨
      p.text.toList = [c, '='] ∧ next = some '=')) ∨
      mark c next = .illegal c ∧ ∀ p : Punctuator, p.text.toList ≠ [c] := by
  unfold mark
  split
  case h_9 | h_11 | h_13 | h_15 => exact .inl ⟨_, rfl, .inr ⟨by decide, rfl⟩⟩
  case h_16 =>
    refine .inr ⟨rfl, fun p hp ↦ ?_⟩
    cases p <;> simp [Punctuator.text] at hp <;> subst hp <;> contradiction
  all_goals exact .inl ⟨_, rfl, .inl (by decide)⟩

/-! ### A lexeme spells its kind -/

theorem kind_quoted (cs : List Char) :
    (quoted cs).kind = .string (String.ofList (cs.takeWhile isStringPart)) := by
  unfold quoted
  dsimp only
  split <;> rfl

theorem spells_quoted (cs : List Char) : Spells (quoted cs).text (quoted cs).kind := by
  have hparts : ∀ d ∈ cs.takeWhile isStringPart, isStringPart d = true :=
    List.all_eq_true.1 List.all_takeWhile
  unfold quoted
  dsimp only
  split
  · exact .closed hparts
  · exact .unclosed hparts

theorem spells_word {c : Char} {cs : List Char} (hc : isWordStart c = true)
    (hcs : ∀ d ∈ cs, isWordPart d = true) : Spells (word (c :: cs)).text (word (c :: cs)).kind := by
  rw [text_word]
  unfold word
  split
  · next k hk =>
    have htext : k.text.toList = c :: cs := by
      rw [← Keyword.ofText?_eq_some_iff.1 hk, String.toList_ofList]
    exact htext ▸ .keyword k
  · next hnone =>
    refine .var hc hcs fun k hk ↦ ?_
    rw [← hk, String.ofList_toList, Keyword.ofText?_text] at hnone
    cases hnone

theorem kind_number (digits : List Char) :
    (number digits).kind =
      .integer (String.ofList digits) ((Decimal.int64? digits).getD 0) := by
  unfold number
  split <;> next hvalue => rw [hvalue]; rfl

theorem spells_number {digits : List Char} (hne : digits ≠ [])
    (hdigits : ∀ d ∈ digits, d.isDigit = true) :
    Spells (number digits).text (number digits).kind := by
  rw [text_number, kind_number]
  exact .integer hne hdigits

/-- A lexeme that does not start in a gap spells its kind. -/
theorem spells_ofHead {c : Char} (cs : List Char) (hblank : Text.isBlank c = false)
    (hhash : c ≠ '#') : Spells (ofHead c cs).text (ofHead c cs).kind := by
  unfold ofHead
  split
  · exact spells_quoted cs
  split
  · next hword => exact spells_word hword (List.all_eq_true.1 List.all_takeWhile)
  split
  · next hdigit =>
    refine spells_number (List.cons_ne_nil _ _) fun d hd ↦ ?_
    rcases List.mem_cons.1 hd with rfl | hd
    · exact hdigit
    · exact List.all_eq_true.1 List.all_takeWhile d hd
  · next hquote hword hdigit =>
    dsimp only
    rcases mark_eq c cs.head? with ⟨p, hp, -⟩ | ⟨hc, hmark⟩
    · rw [hp]
      exact .punctuator p
    · rw [hc]
      have hsingle : (Kind.illegal c).text.toList = [c] := String.toList_singleton c
      rw [hsingle]
      exact .illegal hblank hhash hquote (Bool.eq_false_iff.2 hword)
        (Bool.eq_false_iff.2 hdigit) hmark

/-! ### No piece of text spells two kinds -/

theorem ofHead_of_word {c : Char} {cs : List Char} (hc : isWordStart c = true)
    (hcs : ∀ d ∈ cs, isWordPart d = true) : ofHead c cs = word (c :: cs) := by
  rw [ofHead, if_neg (ne_quote_of_isWordStart hc), if_pos hc, List.takeWhile_eq_self_iff.2 hcs]

/-- The lexeme at the head of a piece of text that spells a kind has this kind. -/
theorem Spells.kind_ofHead {c : Char} {cs : List Char} {kind : Kind} (h : Spells (c :: cs) kind) :
    (ofHead c cs).kind = kind := by
  generalize htext : c :: cs = text at h
  cases h with
  | keyword k =>
    obtain ⟨hstart, hparts⟩ := isWordPart_of_keyword k
    rw [← htext] at hstart hparts
    rw [ofHead_of_word (hstart c rfl) fun d hd ↦ hparts d (List.mem_cons_of_mem _ hd), word, htext,
      String.ofList_toList, Keyword.ofText?_text]
  | var hc hcs hkeyword =>
    cases htext
    rw [ofHead_of_word hc hcs, word]
    cases hk : Keyword.ofText? (String.ofList (c :: cs)) with
    | none => rfl
    | some k =>
      refine absurd ?_ (hkeyword k)
      rw [← Keyword.ofText?_eq_some_iff.1 hk, String.toList_ofList]
  | integer hne hdigits =>
    subst htext
    have hc := hdigits c List.mem_cons_self
    rw [ofHead, if_neg (ne_quote_of_isDigit hc), if_neg (not_isWordStart_of_isDigit hc), if_pos hc,
      List.takeWhile_eq_self_iff.2 fun d hd ↦ hdigits d (List.mem_cons_of_mem _ hd), kind_number]
  | @closed contents hparts =>
    obtain ⟨rfl, rfl⟩ := List.cons.inj (htext.trans (List.cons_append ..))
    have hcontents : (contents ++ ['"']).takeWhile isStringPart = contents := by
      rw [List.takeWhile_append_of_pos hparts]
      exact List.append_nil _
    rw [ofHead, if_pos rfl, kind_quoted, hcontents]
  | unclosed hparts =>
    obtain ⟨rfl, rfl⟩ := List.cons.inj htext
    rw [ofHead, if_pos rfl, kind_quoted, List.takeWhile_eq_self_iff.2 hparts]
  | punctuator p =>
    cases p <;> simp [Punctuator.text] at htext <;> obtain ⟨rfl, rfl⟩ := htext <;> decide
  | illegal hblank hhash hquote hword hdigit hmark =>
    cases htext
    rw [ofHead, if_neg hquote, if_neg (Bool.eq_false_iff.1 hword),
      if_neg (Bool.eq_false_iff.1 hdigit)]
    rcases mark_eq c none with ⟨p, -, hp | ⟨-, hnone⟩⟩ | ⟨hc, -⟩
    · exact absurd hp (hmark p)
    · cases hnone
    · exact hc

theorem Spells.ne_nil {text : List Char} {kind : Kind} (h : Spells text kind) : text ≠ [] := by
  cases h with
  | keyword k => cases k <;> decide
  | integer hne => exact hne
  | punctuator p => cases p <;> decide
  | _ => exact List.cons_ne_nil _ _

/-- No piece of text spells two kinds. -/
theorem Spells.unique {text : List Char} {kind kind' : Kind} (h : Spells text kind)
    (h' : Spells text kind') : kind = kind' := by
  obtain ⟨c, cs, rfl⟩ := List.exists_cons_of_ne_nil h.ne_nil
  rw [← h.kind_ofHead, h'.kind_ofHead]

/-- No token goes over the end of a line. -/
theorem Spells.not_mem_newline {text : List Char} {kind : Kind} (h : Spells text kind) :
    '\n' ∉ text := by
  cases h with
  | keyword k => exact fun hn ↦ absurd ((isWordPart_of_keyword k).2 _ hn) (by decide)
  | var hc hcs =>
    intro hn
    rcases List.mem_cons.1 hn with rfl | hn
    · exact absurd hc (by decide)
    · exact absurd (hcs _ hn) (by decide)
  | integer _ hdigits => exact fun hn ↦ absurd (hdigits _ hn) (by decide)
  | closed hparts =>
    intro hn
    rcases List.mem_cons.1 (List.cons_append ▸ hn) with hn | hn
    · exact absurd hn (by decide)
    · rcases List.mem_append.1 hn with hn | hn
      · exact absurd (hparts _ hn) (by decide)
      · exact absurd (List.mem_singleton.1 hn) (by decide)
  | unclosed hparts =>
    intro hn
    rcases List.mem_cons.1 hn with hn | hn
    · exact absurd hn (by decide)
    · exact absurd (hparts _ hn) (by decide)
  | punctuator p => cases p <;> decide
  | illegal hblank =>
    intro hn
    rw [← List.mem_singleton.1 hn, Text.isBlank_newline] at hblank
    cases hblank

/-! ### How far a lexeme goes -/

/-- What is left behind the longest run at the head of a text does not go on with the run. -/
theorem not_of_mem_head?_rest {p : Char → Bool} {cs rest : List Char}
    (h : cs = cs.takeWhile p ++ rest) : ∀ c ∈ rest.head?, p c = false := by
  intro c hc
  obtain rfl : rest = cs.dropWhile p :=
    List.append_cancel_left (h.symm.trans List.takeWhile_append_dropWhile.symm)
  have hnot := List.head?_dropWhile_not p cs
  rw [Option.mem_def.1 hc] at hnot
  simpa using hnot

/-- A mark that may take an equals sign is not followed by one. -/
theorem head?_ne_of_mark {c : Char} {cs rest : List Char}
    (h : c :: cs = (mark c cs.head?).text.toList ++ rest)
    (hsingle : (mark c cs.head?).text.toList ∈ [['='], ['<'], ['>'], ['!']]) :
    rest.head? ≠ some '=' := by
  obtain ⟨d, hd, htext⟩ : ∃ d ∈ ['=', '<', '>', '!'], (mark c cs.head?).text.toList = [d] := by
    simpa using hsingle
  rw [htext] at h
  obtain ⟨rfl, rfl⟩ := List.cons.inj h
  intro hnext
  rw [hnext] at htext
  -- each of the four marks would have taken the equals sign
  simp only [List.mem_cons, List.not_mem_nil, or_false] at hd
  rcases hd with rfl | rfl | rfl | rfl <;> exact absurd htext (by decide)

/-- The text behind a lexeme does not go on with it. -/
theorem maximal_ofHead {c : Char} {cs rest : List Char} (h : c :: cs = (ofHead c cs).text ++ rest) :
    Maximal (ofHead c cs).text (ofHead c cs).kind rest := by
  by_cases hquote : c = '"'
  · rw [ofHead, if_pos hquote, kind_quoted]
    trivial
  by_cases hword : isWordStart c = true
  · rw [ofHead, if_neg hquote, if_pos hword, text_word] at h ⊢
    have hrest := not_of_mem_head?_rest (List.cons.inj h).2
    unfold word
    split <;> exact hrest
  by_cases hdigit : c.isDigit = true
  · rw [ofHead, if_neg hquote, if_neg hword, if_pos hdigit, text_number] at h ⊢
    rw [kind_number]
    exact not_of_mem_head?_rest (List.cons.inj h).2
  · rw [ofHead, if_neg hquote, if_neg hword, if_neg hdigit] at h ⊢
    have hrest := head?_ne_of_mark h
    dsimp only
    rcases mark_eq c cs.head? with ⟨p, hp, -⟩ | ⟨hc, -⟩
    · rw [hp] at hrest ⊢
      exact hrest
    · rw [hc] at hrest ⊢
      exact hrest

theorem display_quoted {cs rest : List Char} (h : '"' :: cs = (quoted cs).text ++ rest) :
    (quoted cs).kind.text.toList = (quoted cs).text ∨
      Unterminated (quoted cs).text (quoted cs).kind rest ∧
        (quoted cs).kind.text.toList = (quoted cs).text ++ ['"'] := by
  unfold quoted at h ⊢
  dsimp only at h ⊢
  split at h
  · left
    simp [Kind.text]
  · next hopen =>
    have hcs := (List.cons.inj h).2
    have hend : rest = [] ∨ rest.head? = some '\n' := by
      rcases rest with _ | ⟨d, rest⟩
      · exact .inl rfl
      · right
        have hdrop : cs.dropWhile isStringPart = d :: rest :=
          List.append_cancel_left (List.takeWhile_append_dropWhile.trans hcs)
        have hquote : d ≠ '"' := fun hd ↦ hopen rest (hd ▸ hdrop)
        have hpart : isStringPart d = false := not_of_mem_head?_rest hcs d rfl
        simpa [isStringPart, hquote] using hpart
    refine .inr ⟨⟨_, rfl, rfl, hend⟩, ?_⟩
    simp [Kind.text]

/-- A kind is written as the lexeme is, but for the closing quote that a string may lack. -/
theorem display_ofHead {c : Char} {cs rest : List Char} (h : c :: cs = (ofHead c cs).text ++ rest) :
    (ofHead c cs).kind.text.toList = (ofHead c cs).text ∨
      Unterminated (ofHead c cs).text (ofHead c cs).kind rest ∧
        (ofHead c cs).kind.text.toList = (ofHead c cs).text ++ ['"'] := by
  by_cases hquote : c = '"'
  · subst hquote
    rw [ofHead, if_pos rfl] at h ⊢
    exact display_quoted h
  left
  rw [ofHead, if_neg hquote]
  split
  · unfold word
    split
    · next k hk =>
      rw [← String.toList_ofList (l := c :: _), Keyword.ofText?_eq_some_iff.1 hk]
      rfl
    · exact String.toList_ofList
  split
  · rw [text_number, kind_number]
    exact String.toList_ofList
  · rfl

end Lexeme

end Pseudocode

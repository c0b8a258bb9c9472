import Pseudocode.Proofs.Tokenization

/-!
# Where lexemes and gaps end

A lexeme stays the same whatever follows it, as long as what follows does not go on with it. A gap
is walked over in the same way whatever follows it, unless it is a comment that is still open. So
the tokens of a text can be told piece by piece, from the gap and the lexeme that it begins with.

## Main definitions

* `Lexeme.EndsBefore`: a text that puts an end to a lexeme.
* `Text.Lexes`: a text that is made of gaps and of given lexemes.

## Main results

* `Lexeme.ofHead_eq_of_endsBefore`: a lexeme depends on its own characters and on where it ends.
* `Cursor.drain_gap`, `Cursor.drain_lexeme`: the tokens behind a gap and behind a lexeme.
* `Text.Lexes.kinds_eq`, `Text.Lexes.flaws_eq`: the tokens and errors of such a text.
-/

namespace Pseudocode

open Token (Kind)

/-! ### Lexemes -/

namespace Lexeme

variable {c : Char} {cs rest : List Char}

/-- The text `rest` puts an end to the lexeme: it does not go on with it, and it does not close a
string that lacks its closing quote. -/
structure EndsBefore (lexeme : Lexeme) (rest : List Char) : Prop where
  /-- The lexeme goes as far as its kind allows. -/
  maximal : Maximal lexeme.text lexeme.kind rest
  /-- An open string runs up to the end of its line. -/
  unclosed : lexeme.flaw = some .unterminatedString → ∀ d ∈ rest.head?, d = '\n'

/-- What puts an end to a lexeme can be told from its first character. -/
theorem EndsBefore.of_head? {lexeme : Lexeme} {rest' : List Char} (h : lexeme.EndsBefore rest)
    (hhead : rest'.head? = rest.head?) : lexeme.EndsBefore rest' := by
  obtain ⟨hmaximal, hunclosed⟩ := h
  refine ⟨?_, ?_⟩
  · unfold Maximal at hmaximal ⊢
    rwa [hhead]
  · rwa [hhead]

/-- The longest run at the head of a text ends where the run is interrupted. -/
theorem takeWhile_append_of_stop {p : Char → Bool} {run rest : List Char}
    (hrun : ∀ d ∈ run, p d = true) (hrest : ∀ d ∈ rest.head?, p d = false) :
    (run ++ rest).takeWhile p = run ∧ (run ++ rest).dropWhile p = rest := by
  rw [List.takeWhile_append_of_pos hrun, List.dropWhile_append_of_pos hrun]
  cases rest with
  | nil => simp
  | cons d rest => simp [hrest d rfl]

/-! ### Strings -/

/-- A string ends with the next quote. -/
theorem quoted_closed {contents : List Char} (h : ∀ d ∈ contents, isStringPart d = true)
    (rest : List Char) : quoted (contents ++ '"' :: rest) =
      { kind := .string (String.ofList contents), text := '"' :: contents ++ ['"'] } := by
  have hquote : ∀ d ∈ ('"' :: rest).head?, isStringPart d = false := by
    rintro d ⟨⟩
    decide
  obtain ⟨htake, hdrop⟩ := takeWhile_append_of_stop h hquote
  simp only [quoted, htake, hdrop]

/-- A string that is not closed ends with its line. -/
theorem quoted_unclosed {contents : List Char} (h : ∀ d ∈ contents, isStringPart d = true)
    (hrest : ∀ d ∈ rest.head?, d = '\n') : quoted (contents ++ rest) =
      { kind := .string (String.ofList contents), text := '"' :: contents
        flaw := some .unterminatedString } := by
  obtain ⟨htake, hdrop⟩ := takeWhile_append_of_stop h fun d hd ↦ by
    rw [hrest d hd]
    decide
  rw [quoted, htake, hdrop]
  split
  · exact absurd (hrest '"' rfl) (by decide)
  · rfl

/-- What follows an opening quote: the contents of a string, and then a quote or the end of the
line. -/
theorem exists_contents (cs : List Char) : ∃ contents rest, cs = contents ++ rest ∧
    (∀ d ∈ contents, isStringPart d = true) ∧
    ((∃ behind, rest = '"' :: behind) ∨ ∀ d ∈ rest.head?, d = '\n') := by
  refine ⟨cs.takeWhile isStringPart, cs.dropWhile isStringPart,
    List.takeWhile_append_dropWhile.symm, List.all_eq_true.1 List.all_takeWhile, ?_⟩
  have hstop := not_of_mem_head?_rest
    (List.takeWhile_append_dropWhile (p := isStringPart) (l := cs)).symm
  generalize cs.dropWhile isStringPart = rest at hstop
  cases rest with
  | nil => exact .inr fun d hd ↦ nomatch hd
  | cons d behind =>
    by_cases hquote : d = '"'
    · exact .inl ⟨behind, hquote ▸ rfl⟩
    · refine .inr fun e he ↦ ?_
      rw [← Option.some.inj he]
      simpa [isStringPart, hquote] using hstop d rfl

/-! ### The lexeme at the head of a text -/

theorem ofHead_word (hc : isWordStart c = true) (hcs : ∀ d ∈ cs, isWordPart d = true)
    (hrest : ∀ d ∈ rest.head?, isWordPart d = false) : ofHead c (cs ++ rest) = word (c :: cs) := by
  rw [ofHead, if_neg (ne_quote_of_isWordStart hc), if_pos hc,
    (takeWhile_append_of_stop hcs hrest).1]

theorem ofHead_number (hc : c.isDigit = true) (hcs : ∀ d ∈ cs, d.isDigit = true)
    (hrest : ∀ d ∈ rest.head?, d.isDigit = false) : ofHead c (cs ++ rest) = number (c :: cs) := by
  rw [ofHead, if_neg (ne_quote_of_isDigit hc), if_neg (not_isWordStart_of_isDigit hc), if_pos hc,
    (takeWhile_append_of_stop hcs hrest).1]

theorem ofHead_quote (cs : List Char) : ofHead '"' cs = quoted cs := rfl

theorem ofHead_mark (hquote : c ≠ '"') (hword : isWordStart c = false)
    (hdigit : c.isDigit = false) (cs : List Char) : ofHead c cs =
      { kind := mark c cs.head?, text := (mark c cs.head?).text.toList } := by
  rw [ofHead, if_neg hquote, if_neg (Bool.eq_false_iff.1 hword),
    if_neg (Bool.eq_false_iff.1 hdigit)]

/-- A mark looks at what comes next for an equals sign only. -/
theorem mark_of_ne {next : Option Char} (h : next ≠ some '=') : mark c next = mark c none := by
  unfold mark
  split <;> simp_all

/-- Only four marks look at what comes next. -/
theorem mark_of_not_mem (h : c ∉ ['=', '<', '>', '!']) (next : Option Char) :
    mark c next = mark c none := by
  unfold mark
  split <;> simp_all

/-- A mark that is written alone did not see an equals sign that it could take. -/
theorem mark_eq_none_of_text {next : Option Char} (h : (mark c next).text.toList = [c]) :
    mark c next = mark c none := by
  by_cases hc : c ∈ ['=', '<', '>', '!']
  · refine mark_of_ne fun hnext ↦ ?_
    subst hnext
    simp only [List.mem_cons, List.not_mem_nil, or_false] at hc
    rcases hc with rfl | rfl | rfl | rfl <;> exact absurd h (by decide)
  · exact mark_of_not_mem hc next

/-- A mark is the same wherever the text that follows puts an end to it. -/
theorem mark_eq_of_maximal {next : Option Char}
    (hsplit : c :: cs = (mark c next).text.toList ++ rest)
    (hmaximal : (mark c next).text.toList ∈ [['='], ['<'], ['>'], ['!']] →
      rest.head? ≠ some '=') : mark c cs.head? = mark c next := by
  -- a mark that is written alone is not followed by an equals sign that it could take
  have hsingle (h : (mark c next).text.toList = [c]) : mark c cs.head? = mark c next := by
    rw [h] at hsplit hmaximal
    obtain ⟨-, rfl⟩ := List.cons.inj hsplit
    rw [mark_eq_none_of_text h]
    by_cases hc : c ∈ ['=', '<', '>', '!']
    · exact mark_of_ne (hmaximal (by simpa using hc))
    · exact mark_of_not_mem hc _
  rcases mark_eq c next with ⟨p, hp, htext | ⟨htext, rfl⟩⟩ | ⟨hc, -⟩
  · exact hsingle (by rw [hp]; exact htext)
  · rw [hp] at hsplit
    obtain ⟨-, rfl⟩ := List.cons.inj (hsplit.trans (congrArg (· ++ rest) htext))
    rfl
  · exact hsingle (by rw [hc]; exact String.toList_singleton c)

/-- A string is the same wherever the text that follows puts an end to it. -/
theorem quoted_eq_of_endsBefore {cs' : List Char} (hsplit : '"' :: cs' = (quoted cs).text ++ rest)
    (hends : (quoted cs).EndsBefore rest) : quoted cs' = quoted cs := by
  obtain ⟨contents, behind, rfl, hcontents, ⟨behind, rfl⟩ | hline⟩ := exists_contents cs
  · rw [quoted_closed hcontents] at hsplit ⊢
    obtain rfl : cs' = contents ++ '"' :: rest := by simpa using hsplit
    exact quoted_closed hcontents rest
  · have hunclosed := hends.unclosed
    rw [quoted_unclosed hcontents hline] at hsplit hunclosed ⊢
    obtain rfl : cs' = contents ++ rest := by simpa using hsplit
    exact quoted_unclosed hcontents (hunclosed rfl)

/-- A lexeme depends on its own characters and on where it ends, and on nothing else that follows
it. -/
theorem ofHead_eq_of_endsBefore {cs' : List Char}
    (hsplit : c :: cs' = (ofHead c cs).text ++ rest) (hends : (ofHead c cs).EndsBefore rest) :
    ofHead c cs' = ofHead c cs := by
  by_cases hquote : c = '"'
  · subst hquote
    exact quoted_eq_of_endsBefore hsplit hends
  by_cases hword : isWordStart c = true
  · have hcs : ofHead c cs = word (c :: cs.takeWhile isWordPart) := by
      rw [ofHead, if_neg hquote, if_pos hword]
    have hmaximal := hends.maximal
    rw [hcs, text_word] at hsplit hmaximal
    obtain ⟨-, rfl⟩ := List.cons.inj hsplit
    rw [hcs]
    refine ofHead_word hword (List.all_eq_true.1 List.all_takeWhile) ?_
    unfold word at hmaximal
    split at hmaximal <;> exact hmaximal
  by_cases hdigit : c.isDigit = true
  · have hcs : ofHead c cs = number (c :: cs.takeWhile Char.isDigit) := by
      rw [ofHead, if_neg hquote, if_neg hword, if_pos hdigit]
    have hmaximal := hends.maximal
    rw [hcs, text_number, kind_number] at hmaximal
    rw [hcs, text_number] at hsplit
    obtain ⟨-, rfl⟩ := List.cons.inj hsplit
    rw [hcs]
    exact ofHead_number hdigit (List.all_eq_true.1 List.all_takeWhile) hmaximal
  · have hmark := ofHead_mark hquote (Bool.eq_false_iff.2 hword) (Bool.eq_false_iff.2 hdigit)
    have hmaximal := hends.maximal
    rw [hmark cs] at hsplit hmaximal
    rw [hmark cs, hmark cs', mark_eq_of_maximal hsplit]
    rcases mark_eq c cs.head? with ⟨p, hp, -⟩ | ⟨hc, -⟩
    · rw [hp] at hmaximal ⊢
      exact hmaximal
    · rw [hc] at hmaximal ⊢
      exact hmaximal

theorem flaw_word (letters : List Char) : (word letters).flaw = none := by
  unfold word
  split <;> rfl

/-- A number does not lack a closing quote. -/
theorem flaw_number_ne (digits : List Char) :
    (number digits).flaw ≠ some .unterminatedString := by
  unfold number
  split <;> exact fun h ↦ nomatch h

theorem unclosed_quoted (h : '"' :: cs = (quoted cs).text ++ rest)
    (hflaw : (quoted cs).flaw = some .unterminatedString) : ∀ d ∈ rest.head?, d = '\n' := by
  obtain ⟨contents, behind, rfl, hcontents, ⟨behind, rfl⟩ | hline⟩ := exists_contents cs
  · rw [quoted_closed hcontents] at hflaw
    cases hflaw
  · rw [quoted_unclosed hcontents hline] at h
    obtain rfl : behind = rest := by simpa using h
    exact hline

/-- The text that follows a lexeme puts an end to it. -/
theorem endsBefore_ofHead (h : c :: cs = (ofHead c cs).text ++ rest) :
    (ofHead c cs).EndsBefore rest := by
  refine ⟨maximal_ofHead h, fun hflaw ↦ ?_⟩
  by_cases hquote : c = '"'
  · subst hquote
    exact unclosed_quoted h hflaw
  rw [ofHead, if_neg hquote] at hflaw
  split at hflaw
  · rw [flaw_word] at hflaw
    cases hflaw
  split at hflaw
  · exact absurd hflaw (flaw_number_ne _)
  · cases hflaw

end Lexeme

/-! ### Gaps -/

namespace Text

theorem IsGap.space : IsGap False [' '] :=
  .blank (by decide) .nil

/-- The end of the line closes the last comment of a gap. -/
theorem IsGap.append_newline {last : Prop} {gap : List Char} (h : IsGap last gap) :
    IsGap False (gap ++ ['\n']) := by
  induction h with
  | nil => exact .blank isBlank_newline .nil
  | blank hc _ ih => exact .blank hc ih
  | comment hbody _ ih =>
    rw [List.cons_append, List.append_assoc]
    exact .comment hbody ih
  | lastComment hbody _ => exact .comment hbody .nil

end Text

namespace Cursor

open Text (IsGap)

variable {l : Location} {gap rest : List Char}

/-- A comment is walked over up to the end of its line. -/
theorem skipGapFrom_comment {body : List Char} (hbody : '\n' ∉ body) (l : Location)
    (rest : List Char) : skipGapFrom true l (body ++ '\n' :: rest) =
      skipGapFrom false (l.after (body ++ ['\n'])) rest := by
  induction body generalizing l with
  | nil => rfl
  | cons c body ih =>
    rw [List.mem_cons, not_or] at hbody
    rw [List.cons_append, skipGapFrom, if_pos rfl, bne_iff_ne.2 (Ne.symm hbody.1), ih hbody.2]
    rfl

/-- A comment that is not closed is walked over up to the end of the text. -/
theorem skipGapFrom_lastComment {body : List Char} (hbody : '\n' ∉ body) (l : Location) :
    skipGapFrom true l body = { location := l.after body, rest := [] } := by
  induction body generalizing l with
  | nil => rfl
  | cons c body ih =>
    rw [List.mem_cons, not_or] at hbody
    rw [skipGapFrom, if_pos rfl, bne_iff_ne.2 (Ne.symm hbody.1), ih hbody.2]
    rfl

/-- A gap is walked over whatever follows it. -/
theorem skipGap_gap (h : IsGap False gap) (l : Location) (rest : List Char) :
    skipGap { location := l, rest := gap ++ rest } =
      skipGap { location := l.after gap, rest } := by
  change skipGapFrom false l (gap ++ rest) = skipGapFrom false (l.after gap) rest
  induction h generalizing l with
  | nil => rfl
  | @blank c gap hc _ ih =>
    have hhash : c ≠ '#' := by
      rintro rfl
      exact absurd hc (by decide)
    rw [List.cons_append, skipGapFrom, if_neg Bool.false_ne_true, if_neg hhash, if_pos hc, ih]
    rfl
  | @comment body gap hbody _ ih =>
    rw [List.cons_append, List.append_assoc, skipGapFrom, if_neg Bool.false_ne_true, if_pos rfl,
      List.cons_append, skipGapFrom_comment hbody, ih, Location.after_cons, Location.after_append,
      Location.after_append]
    rfl
  | lastComment _ hfalse => exact hfalse.elim

/-- The next token does not depend on the gap before it. -/
theorem next?_gap (h : IsGap False gap) (l : Location) (rest : List Char) :
    next? { location := l, rest := gap ++ rest } =
      next? { location := l.after gap, rest } := by
  unfold next?
  rw [skipGap_gap h]

/-- Where only a gap is left, there is no further token. -/
theorem next?_eq_none_of_isGap (h : IsGap True gap) (l : Location) :
    next? { location := l, rest := gap } = none := by
  induction h generalizing l with
  | nil => rfl
  | blank hc _ ih => exact (next?_gap (.blank hc .nil) l _).trans (ih _)
  | @comment body gap hbody _ ih =>
    have hclosed : IsGap False ('#' :: (body ++ ['\n'])) := .comment hbody .nil
    have hnext := next?_gap hclosed l gap
    rw [List.cons_append, List.append_assoc] at hnext
    exact hnext.trans (ih _)
  | @lastComment body hbody _ =>
    have hskip : skipGap { location := l, rest := '#' :: body } =
        { location := l.after ('#' :: body), rest := [] } := by
      change skipGapFrom false l ('#' :: body) = _
      rw [skipGapFrom, if_neg Bool.false_ne_true, if_pos rfl, skipGapFrom_lastComment hbody]
      rfl
    unfold next?
    rw [hskip]

theorem drain_gap (h : IsGap False gap) (l : Location) (rest : List Char) :
    drain { location := l, rest := gap ++ rest } =
      drain { location := l.after gap, rest } := by
  rw [drain_eq, next?_gap h, ← drain_eq]

/-- A cursor at a token has no gap to walk over. -/
theorem next?_lexeme {head : Char} {tail : List Char} (hblank : Text.isBlank head = false)
    (hhash : head ≠ '#') (hrest : head :: tail = (Lexeme.ofHead head tail).text ++ rest)
    (l : Location) : next? { location := l, rest := head :: tail } =
      some (place { location := l, rest := head :: tail } (Lexeme.ofHead head tail),
        { location := l.after (Lexeme.ofHead head tail).text, rest }) := by
  have hskip : skipGap { location := l, rest := head :: tail } =
      { location := l, rest := head :: tail } := by
    change skipGapFrom false l (head :: tail) = _
    rw [skipGapFrom, if_neg Bool.false_ne_true, if_neg hhash, if_neg (Bool.eq_false_iff.1 hblank)]
  have hmove : (head :: tail).drop (Lexeme.ofHead head tail).text.length = rest := by
    conv_lhs => rw [hrest]
    exact List.drop_left
  unfold next?
  rw [hskip]
  dsimp only [move]
  rw [hmove]

/-- The tokens of a text that begins with a lexeme are this lexeme and the tokens behind it. -/
theorem drain_lexeme {head : Char} {tail : List Char} (hblank : Text.isBlank head = false)
    (hhash : head ≠ '#') (hrest : head :: tail = (Lexeme.ofHead head tail).text ++ rest)
    (l : Location) : drain { location := l, rest := head :: tail } =
      place { location := l, rest := head :: tail } (Lexeme.ofHead head tail) ::
        drain { location := l.after (Lexeme.ofHead head tail).text, rest } := by
  rw [drain_eq, next?_lexeme hblank hhash hrest]

/-- Every token of a source is a lexeme at a place of it. -/
theorem Drains.exists_place {source : String} {before : List Char} {c : Cursor}
    {xs : List Scanned} (h : c.Drains xs) (hc : (ofSource source).Walks before c) :
    ∀ x ∈ xs, ∃ before d head tail, (ofSource source).Walks before d ∧ d.rest = head :: tail ∧
      Text.isBlank head = false ∧ head ≠ '#' ∧ x = d.place (Lexeme.ofHead head tail) := by
  induction h generalizing before with
  | done => exact fun _ hx ↦ absurd hx List.not_mem_nil
  | step hnext _ ih =>
    obtain ⟨gap, head, tail, hgap, -, hrest, hblank, hhash, rfl, hd⟩ :=
      exists_of_next?_eq_some hnext
    refine List.forall_mem_cons.2 ⟨?_, ih ((hc.trans hgap).trans hd)⟩
    exact ⟨_, _, head, tail, hc.trans hgap, hrest, hblank, hhash, rfl⟩

theorem exists_place_ofSource (source : String) : ∀ x ∈ (ofSource source).drain,
    ∃ before d head tail, (ofSource source).Walks before d ∧ d.rest = head :: tail ∧
      Text.isBlank head = false ∧ head ≠ '#' ∧ x = d.place (Lexeme.ofHead head tail) :=
  (drains_drain _).exists_place (walks_ofSource source)

end Cursor

/-! ### Texts of gaps and lexemes -/

/-- The text is made of gaps and of these lexemes in order, wherever it stands. -/
inductive Text.Lexes : List Char → List Lexeme → Prop
  /-- Only a gap is left. -/
  | done {gap : List Char} (h : IsGap True gap) : Lexes gap []
  /-- A gap, and what follows it. -/
  | gap {gap rest : List Char} {lexemes : List Lexeme} (hgap : IsGap False gap)
      (h : Lexes rest lexemes) : Lexes (gap ++ rest) lexemes
  /-- A lexeme, and what follows it. -/
  | lexeme {c : Char} {cs rest : List Char} {lexemes : List Lexeme} (hblank : isBlank c = false)
      (hhash : c ≠ '#') (hrest : c :: cs = (Lexeme.ofHead c cs).text ++ rest)
      (h : Lexes rest lexemes) : Lexes (c :: cs) (Lexeme.ofHead c cs :: lexemes)

namespace Text

/-- A cursor finds the lexemes that a text is made of. -/
theorem Lexes.drain_eq {text : List Char} {lexemes : List Lexeme} (h : Lexes text lexemes)
    (l : Location) :
    (Cursor.drain { location := l, rest := text }).map
        (fun x ↦ (x.token.kind, x.error?.map (·.flaw))) =
      lexemes.map fun lexeme ↦ (lexeme.kind, lexeme.flaw) := by
  induction h generalizing l with
  | done hgap => rw [Cursor.drain_eq, Cursor.next?_eq_none_of_isGap hgap]; rfl
  | gap hgap _ ih => rw [Cursor.drain_gap hgap, ih]
  | lexeme hblank hhash hrest _ ih =>
    rw [Cursor.drain_lexeme hblank hhash hrest, List.map_cons, ih, List.map_cons]
    simp [Cursor.place, Function.comp_def]

/-- A lexeme stays the same before every text that puts an end to it. -/
theorem Lexes.before {c : Char} {cs rest rest' : List Char} {lexemes : List Lexeme}
    (hblank : isBlank c = false) (hhash : c ≠ '#')
    (hsplit : c :: cs = (Lexeme.ofHead c cs).text ++ rest)
    (hends : (Lexeme.ofHead c cs).EndsBefore rest') (h : Lexes rest' lexemes) :
    Lexes ((Lexeme.ofHead c cs).text ++ rest') (Lexeme.ofHead c cs :: lexemes) := by
  obtain ⟨d, ds, htext⟩ := List.exists_cons_of_ne_nil (Lexeme.ofHead_text_ne_nil c cs)
  obtain rfl : c = d := by
    rw [htext, List.cons_append] at hsplit
    exact (List.cons.inj hsplit).1
  have hsplit' : c :: (ds ++ rest') = (Lexeme.ofHead c cs).text ++ rest' := by
    rw [htext, List.cons_append]
  have hsame := Lexeme.ofHead_eq_of_endsBefore hsplit' hends
  rw [← hsplit', ← hsame]
  exact .lexeme hblank hhash (hsame ▸ hsplit') h

variable {source : String} {lexemes : List Lexeme}

/-- The tokens of a source are the lexemes that it is made of. -/
theorem Lexes.kinds_eq (h : Lexes source.toList lexemes) :
    (Scan.ofSource source).tokens.map (·.kind) = lexemes.map (·.kind) ++ [.endOfInput] := by
  have hdrain := congrArg (List.map Prod.fst) (h.drain_eq {})
  rw [List.map_map, List.map_map] at hdrain
  rw [Scan.tokens_ofSource, List.map_append, List.map_map]
  exact congrArg (· ++ [_]) hdrain

/-- The errors of a source are the flaws of its lexemes. -/
theorem Lexes.flaws_eq (h : Lexes source.toList lexemes) :
    (Scan.ofSource source).errors.map (·.flaw) = lexemes.filterMap (·.flaw) := by
  have hdrain := congrArg (List.filterMap Prod.snd) (h.drain_eq {})
  rw [List.filterMap_map, List.filterMap_map] at hdrain
  rw [Scan.errors_ofSource, List.map_filterMap]
  exact hdrain

end Text

end Pseudocode

import Pseudocode.Proofs.AllOrNothing
import Pseudocode.Proofs.Delimiters
import Pseudocode.Proofs.Division
import Pseudocode.Proofs.Lines
import Pseudocode.Proofs.Printing

/-!
# Excerpts show the right place

A diagnostic is about the start of a token or about the end of the text. No white space follows
such a place, so it is neither in front of a line end nor inside one, and the character behind it
stands in the line with its number. The excerpt shows this line, with the caret under the
character, and the lines around it. The caret and the tildes behind it are as many as the token has
bytes, which is too wide for a token with characters of several bytes.

## Main definitions

* `Location.FacesToken`: a place that no white space follows.
* `Diagnostic.AboutToken`, `Diagnostic.Reported`: what is reported on a text.

## Main results

* `Diagnostic.Reported.facesToken`: what is reported is about such a place.
* `Location.FacesToken.line?`: the line of such a place and the character in its column.
* `Diagnostic.excerpt_exact`: the excerpt of whatever is reported.
* `Diagnostic.underline_width`: how wide the underline of a token is.
-/

namespace Pseudocode

/-! ### Places at tokens -/

/-- The place lies in the text, and no white space follows it. -/
def Location.FacesToken (source : String) (l : Location) : Prop :=
  ∃ before rest, source = String.ofList (before ++ rest) ∧ l = Location.after {} before ∧
    ∀ c ∈ rest.head?, Text.isBlank c = false

theorem Cursor.Walks.facesToken {source : String} {before : List Char} {c : Cursor}
    (hc : (ofSource source).Walks before c) (hhead : ∀ d ∈ c.rest.head?, Text.isBlank d = false) :
    c.location.FacesToken source := by
  refine ⟨before, c.rest, ?_, hc.2, hhead⟩
  rw [← hc.1]
  exact String.ofList_toList.symm

namespace Scan

variable {source : String}

/-- Every token starts at a place that no white space follows, and the end of input stands at one
too. -/
theorem facesToken_of_mem_tokens {t : Token} (ht : t ∈ (ofSource source).tokens) :
    t.start.FacesToken source := by
  rcases mem_tokens_ofSource.1 ht with ⟨x, hx, rfl⟩ | rfl
  · obtain ⟨before, d, head, tail, hd, hrest, hblank, -, rfl⟩ :=
      Cursor.exists_place_ofSource source x hx
    refine hd.facesToken fun c hc ↦ ?_
    rw [hrest] at hc
    exact Option.some.inj hc ▸ hblank
  · refine ((Cursor.walks_ofSource source).trans (Cursor.walks_finish _)).facesToken fun c hc ↦ ?_
    rw [Cursor.finish_rest] at hc
    cases hc

/-- A flaw is told at the start of its token. -/
theorem facesToken_of_mem_errors {e : LexicalError} (he : e ∈ (ofSource source).errors) :
    e.location.FacesToken source := by
  rw [errors_ofSource] at he
  obtain ⟨x, hx, he⟩ := List.mem_filterMap.1 he
  rw [(Cursor.drains_drain _).location_error hx he]
  exact facesToken_of_mem_tokens (mem_tokens_ofSource.2 (.inl ⟨x, hx, rfl⟩))

end Scan

namespace Text

/-- Only a text without characters takes no bytes. -/
theorem utf8ByteSize_append_eq_iff {before rest : List Char} :
    (String.ofList before).utf8ByteSize = (String.ofList (before ++ rest)).utf8ByteSize ↔
      rest = [] := by
  rw [String.ofList_append, String.utf8ByteSize_append, Nat.left_eq_add,
    String.utf8ByteSize_eq_zero_iff, String.ofList_eq_empty_iff]

/-- The line of a place that no white space follows starts with the characters before it and goes
on with the one behind it. -/
theorem exists_toList_line? (before : List Char) {rest : List Char}
    (h : ∀ c ∈ rest.head?, isBlank c = false) : ∃ behind,
      ((line? (String.ofList (before ++ rest)) (before.count '\n')).getD "").toList =
        lastLine before ++ behind ∧ behind.head? = rest.head? := by
  cases rest with
  | nil =>
    refine ⟨[], ?_, rfl⟩
    rw [List.append_nil, List.append_nil, line?_of_end]
    split
    · next hnil => exact hnil.symm
    · exact String.toList_ofList
  | cons c rest =>
    have hne {d : Char} (hd : isBlank d = true) : c ≠ d := by
      rintro rfl
      exact absurd hd (Bool.eq_false_iff.1 (h c rfl))
    have hfeed : c ≠ '\n' := hne (by decide)
    have hreturn : c ≠ '\r' := hne (by decide)
    obtain ⟨behind, hline⟩ := @line?_of_cons before c rest hfeed hreturn
    exact ⟨c :: behind, by rw [hline]; exact String.toList_ofList, rfl⟩

/-- There is no line at a place only if no text follows it and no text comes before it on a line. -/
theorem line?_eq_none_iff (before : List Char) {rest : List Char}
    (h : ∀ c ∈ rest.head?, isBlank c = false) :
    line? (String.ofList (before ++ rest)) (before.count '\n') = none ↔
      rest = [] ∧ (before = [] ∨ before.getLast? = some '\n') := by
  cases rest with
  | nil =>
    rw [List.append_nil, line?_of_end, ite_eq_left_iff, ← lastLine_eq_nil_iff]
    simp
  | cons c rest =>
    obtain ⟨behind, hline, hhead⟩ := exists_toList_line? before h
    refine ⟨fun hnone ↦ ?_, fun hnil ↦ nomatch hnil.1⟩
    rw [hnone] at hline
    obtain ⟨-, rfl⟩ := List.append_eq_nil_iff.1 hline.symm
    cases hhead

end Text

namespace Location

/-- The rest of a text starts at the byte behind the text before. -/
theorem slice?_after (before rest : List Char) :
    let source := String.ofList (before ++ rest)
    Text.slice? source (after {} before).offset source.utf8ByteSize =
      some (String.ofList rest) := by
  intro source
  have hwalks : (Cursor.ofSource source).Walks before ⟨after {} before, rest⟩ :=
    ⟨String.toList_ofList, rfl⟩
  exact hwalks.slice?_rest

/-- The line of a place that no white space follows. What follows the place starts with the
character in its column of that line, and nothing follows it if its column is the length of the
line. Only behind a line feed at the end of the text, or in an empty text, there is no line. -/
theorem FacesToken.line? {source : String} {l : Location} (h : l.FacesToken source) :
    let line := (Text.line? source l.line).getD ""
    (∃ behind, Text.slice? source l.offset source.utf8ByteSize = some behind ∧
      line.toList[l.column]? = behind.toList.head?) ∧
      (l.column = line.length ↔ l.offset = source.utf8ByteSize) ∧
      (Text.line? source l.line = none ↔ l.offset = source.utf8ByteSize ∧
        (source = "" ∨ source.toList.getLast? = some '\n')) := by
  obtain ⟨before, rest, rfl, rfl, hhead⟩ := h
  have hslice := slice?_after before rest
  obtain ⟨hline, hcolumn⟩ := after_eq before
  have hoffset : (after {} before).offset = (String.ofList before).utf8ByteSize := by
    rw [offset_after]
    exact Nat.zero_add _
  rw [hoffset] at hslice
  rw [hline, hcolumn, hoffset, Text.utf8ByteSize_append_eq_iff]
  obtain ⟨behind, hbehind, hhead'⟩ := Text.exists_toList_line? before hhead
  refine ⟨⟨_, hslice, ?_⟩, ?_, ?_⟩
  · rw [hbehind, String.toList_ofList, ← hhead', List.getElem?_append_right (Nat.le_refl _),
      Nat.sub_self, List.head?_eq_getElem?]
  · rw [← String.length_toList, hbehind, List.length_append, Nat.left_eq_add,
      List.length_eq_zero_iff, ← List.head?_eq_none_iff, hhead', List.head?_eq_none_iff]
  · rw [Text.line?_eq_none_iff before hhead, String.toList_ofList, String.ofList_eq_empty_iff]
    refine and_congr_right ?_
    rintro rfl
    rw [List.append_nil]

end Location

/-! ### Excerpts in general -/

namespace Excerpt

theorem marker_eq (e : Excerpt) (paint : Painter) (hint? : Option String) :
    e.marker paint hint? = repeated e.column ' ' ++ paint .boldRed "^" ++
      paint .red (repeated e.tildes '~') ++ " " ++
        hint?.elim (paint .bold "") fun hint ↦
          paint .boldRed ("hint: " ++ hint) := by
  cases hint? <;> rfl

/-- The line before and the line after are left out if there is none. -/
theorem render_eq (e : Excerpt) (paint : Painter) (hint? : Option String) :
    e.render paint hint? = e.before?.elim "" (e.unnumbered paint) ++
      e.numbered paint e.primary ++ e.unnumbered paint (e.marker paint hint?) ++
        e.after?.elim "" (e.unnumbered paint) := by
  rw [render]
  cases e.before? <;> cases e.after? <;> rfl

/-- The line before is left out too if it is blank. -/
theorem before?_ofSpan_eq_some_iff {source text : String} {span : Span} :
    (ofSpan source span).before? = some text ↔ ∃ n, span.start.line = n + 1 ∧
      Text.line? source n = some text ∧ Text.isAllBlank text.toList = false := by
  rw [ofSpan]
  dsimp only
  split
  · next hzero => simp [hzero]
  · next hzero =>
    obtain ⟨n, hn⟩ := Nat.exists_eq_succ_of_ne_zero hzero
    simp [hn, Text.getElem?_lines, Option.filter_eq_some_iff]

end Excerpt

/-! ### What is reported on a text -/

/-- An accepted program is the tree that the reader gives, with its cells. -/
theorem Check.exists_of_accepted? {source : String} {tree : Tree Nat} {table : Table}
    (h : (ofSource source).accepted? = some (tree, table)) :
    let read := (Reading.ofTokens (Scan.ofSource source).tokens).program
    ∃ t, read.1 = .ok t ∧ tree = read.2.resolve t ∧ table = read.2.table := by
  rcases Nat.eq_zero_or_pos (ofSource source).count with hcount | hcount
  · obtain ⟨t, ht, haccepted⟩ := accepted?_of_count_eq_zero hcount
    have hpair := Option.some.inj (h.symm.trans haccepted)
    exact ⟨t, ht, congrArg Prod.fst hpair, congrArg Prod.snd hpair⟩
  · rw [accepted?_of_count_pos hcount] at h
    cases h

namespace Diagnostic

/-- The diagnostic is about a token of the text. -/
inductive AboutToken (source : String) : Diagnostic → Prop
  /-- The reader has found a token that it cannot use. -/
  | syntactic {e : SyntaxError} (h : e ∈ (Check.ofSource source).diagnostics) :
      AboutToken source (.ofSyntax e)
  /-- The program is accepted, and running it ends with a division by zero. -/
  | division {tree : Tree Nat} {table : Table} {bound : Nat} {span : Span} {m : Machine}
      (haccepted : (Check.ofSource source).accepted? = some (tree, table))
      (hrun : tree.run bound { table } = some (.error (.divisionByZero span), m)) :
      AboutToken source (.ofDivision span)

/-- The diagnostic is reported on the text. -/
inductive Reported (source : String) : Diagnostic → Prop
  /-- A token has a flaw. -/
  | lexical {e : LexicalError} (h : e ∈ (Check.ofSource source).lexical) :
      Reported source (.ofLexical e)
  /-- A token is to blame. -/
  | token {d : Diagnostic} (h : AboutToken source d) : Reported source d

variable {source : String} {d : Diagnostic}

/-- The diagnostic shows the whole token. -/
theorem AboutToken.exists_token (h : AboutToken source d) :
    ∃ t ∈ (Scan.ofSource source).tokens, d.span.start = t.start ∧ d.span.stop = t.stop := by
  cases h with
  | syntactic he =>
    obtain ⟨t, ht, hat⟩ := (Reading.reached_program (Scan.inOrder_ofSource source)
      (Scan.all_ofTokens source)).1.located _ he
    exact ⟨t, ht, Span.between?_eq_some_iff.1 hat.1⟩
  | @division tree table bound span m haccepted hrun =>
    obtain ⟨t, ht, rfl, -⟩ := Check.exists_of_accepted? haccepted
    have hsound := Reading.sound_of_ok (fun t ht ↦ Scan.all_ofTokens source ▸ ht) (.inr ht)
    obtain ⟨t, ht, -, hspan⟩ := Tree.eval_blames _ bound t
      (fun n hn span hop ↦ hsound.of_operator? hn hop) _ span m hrun
    exact ⟨t, ht, hspan⟩

/-- Whatever is reported is about a place that no white space follows. -/
theorem Reported.facesToken (h : Reported source d) : d.span.start.FacesToken source := by
  cases h with
  | lexical he => exact Scan.facesToken_of_mem_errors he
  | token h =>
    obtain ⟨t, ht, hstart, -⟩ := h.exists_token
    exact hstart ▸ Scan.facesToken_of_mem_tokens ht

/-- The excerpt of whatever is reported shows the right place, in whatever colours. The line of the
place has its number in the margin, counted from one. It is empty if the text ends at the place and
is empty or ends with a line feed. The caret stands behind as many spaces as there are characters
before the place on this line, and so under the character that the text goes on with there; it
stands behind the line if and only if the text ends at the place. The line before is shown if there
is one and it is not blank, and the line after is shown if there is one. -/
theorem excerpt_exact (h : Reported source d) (paint : Painter) :
    let start := d.span.start
    let number := Decimal.ofNat (start.line + 1)
    let bar := Excerpt.bar paint
    let margin := Excerpt.repeated number.length ' '
    let beside (line? : Option String) := line?.elim "" fun text ↦ margin ++ bar ++ text ++ "\n"
    let primary := (Text.line? source start.line).getD ""
    let hint := d.hint?.elim (paint .bold "") fun hint ↦
      paint .boldRed ("hint: " ++ hint)
    ∃ (before? : Option String) (tildes : Nat),
      (Excerpt.ofSpan source d.span).render paint d.hint? =
        beside before? ++
          (paint .boldBlue number ++ bar ++ primary ++ "\n") ++
          (margin ++ bar ++
            (Excerpt.repeated start.column ' ' ++ paint .boldRed "^" ++
              paint .red (Excerpt.repeated tildes '~') ++ " " ++ hint) ++ "\n") ++
          beside (Text.line? source (start.line + 1)) ∧
      (∀ text, before? = some text ↔ ∃ n, start.line = n + 1 ∧
        Text.line? source n = some text ∧ Text.isAllBlank text.toList = false) ∧
      (Text.line? source start.line = none ↔ start.offset = source.utf8ByteSize ∧
        (source = "" ∨ source.toList.getLast? = some '\n')) ∧
      (∃ behind, Text.slice? source start.offset source.utf8ByteSize = some behind ∧
        primary.toList[start.column]? = behind.toList.head?) ∧
      (start.column = primary.length ↔ start.offset = source.utf8ByteSize) := by
  intro start number bar margin beside primary hint
  obtain ⟨hcaret, hcolumn, hnone⟩ := h.facesToken.line?
  refine ⟨(Excerpt.ofSpan source d.span).before?, d.span.length - 1, ?_,
    fun text ↦ Excerpt.before?_ofSpan_eq_some_iff, hnone, hcaret, hcolumn⟩
  rw [Excerpt.render_eq, Excerpt.marker_eq]
  simp only [beside, primary, ← Text.getElem?_lines]
  rfl

/-- A character of two bytes on the second of two lines that end in a carriage return too. -/
theorem excerpt_exact_second_line :
    let source := "procedure principale()\r\nx = é ;\r\n"
    ∃ d : Diagnostic, d.Reported source ∧ d.span.start = ⟨28, 1, 4⟩ ∧ ∃ tildes,
      (Excerpt.ofSpan source d.span).render .plain d.hint? =
        "   | procedure principale()\n" ++ "2  | x = é ;\n" ++
          ("   |     ^" ++ Excerpt.repeated tildes '~' ++ " " ++ "\n") := by
  intro source
  let e : SyntaxError :=
    { span := ⟨⟨28, 1, 4⟩, ⟨30, 1, 5⟩, by decide⟩, expectation := .factor, found := "é" }
  have he : (Check.ofSource source).diagnostics = [e] := by decide +kernel
  have hreported : (ofSyntax e).Reported source :=
    .token (.syntactic (he ▸ List.mem_singleton_self e))
  obtain ⟨before?, tildes, hrender, hbefore, -⟩ := excerpt_exact hreported .plain
  have hline : Text.line? source 0 = some "procedure principale()" := by decide +kernel
  obtain rfl : before? = some "procedure principale()" :=
    (hbefore _).2 ⟨0, rfl, hline, by decide +kernel⟩
  have hprimary : Text.line? source 1 = some "x = é ;" := by decide +kernel
  have hafter : Text.line? source 2 = none := by decide +kernel
  refine ⟨ofSyntax e, hreported, rfl, tildes, ?_⟩
  rw [hrender]
  dsimp only [ofSyntax, e]
  rw [hprimary, hafter]
  have hnumber : Decimal.ofNat (1 + 1) = "2" := by decide
  have hmargin : Excerpt.repeated "2".length ' ' = " " := by decide
  have hspaces : Excerpt.repeated 4 ' ' = "    " := by decide
  simp only [Option.elim, Option.getD, Painter.plain, Excerpt.bar, hnumber, hmargin, hspaces]
  simp [← String.append_assoc]

end Diagnostic

/-! ### How wide the underline is -/

namespace Text

/-- Every character takes at least one byte. -/
theorem length_le_utf8ByteSize (text : List Char) :
    text.length ≤ (String.ofList text).utf8ByteSize := by
  induction text with
  | nil => exact Nat.zero_le _
  | cons c text ih =>
    have hpos := c.utf8Size_pos
    rw [String.ofList_cons, String.utf8ByteSize_append, String.utf8ByteSize_singleton,
      List.length_cons]
    omega

/-- A text has as many bytes as characters if and only if each of these takes one byte. -/
theorem utf8ByteSize_eq_length_iff {text : List Char} :
    (String.ofList text).utf8ByteSize = text.length ↔ ∀ c ∈ text, c.utf8Size = 1 := by
  induction text with
  | nil => exact ⟨fun _ _ hc ↦ absurd hc List.not_mem_nil, fun _ ↦ rfl⟩
  | cons c text ih =>
    have hpos := c.utf8Size_pos
    have hle := length_le_utf8ByteSize text
    rw [String.ofList_cons, String.utf8ByteSize_append, String.utf8ByteSize_singleton,
      List.length_cons, List.forall_mem_cons, ← ih]
    omega

end Text

namespace Lexeme

theorem utf8Size_of_isWordPart {c : Char} (h : isWordPart c = true) : c.utf8Size = 1 := by
  have hle := (toNat_of_isWordPart h).2
  exact Char.utf8Size_eq_one_iff.2 (UInt32.le_iff_toNat_le.2 (Nat.le_trans hle (by decide)))

/-- Only strings and illegal characters are spelled with characters of more than one byte. -/
theorem Spells.utf8Size {text : List Char} {kind : Token.Kind} (h : Spells text kind)
    (hstring : kind.contents? = none) (hillegal : ∀ c, kind ≠ .illegal c) :
    ∀ c ∈ text, c.utf8Size = 1 := by
  cases h with
  | keyword k => exact fun c hc ↦ utf8Size_of_isWordPart ((isWordPart_of_keyword k).2 c hc)
  | var hstart hpart =>
    exact List.forall_mem_cons.2
      ⟨utf8Size_of_isWordPart (isWordPart_of_isWordStart hstart),
        fun c hc ↦ utf8Size_of_isWordPart (hpart c hc)⟩
  | integer hne hdigits =>
    exact fun c hc ↦ utf8Size_of_isWordPart (isWordPart_of_isDigit (hdigits c hc))
  | closed => cases hstring
  | unclosed => cases hstring
  | punctuator p =>
    have hone : p.text.toList.all (·.utf8Size == 1) = true := by cases p <;> decide
    exact fun c hc ↦ beq_iff_eq.1 (List.all_eq_true.1 hone c hc)
  | @illegal c => exact absurd rfl (hillegal c)

end Lexeme

/-- Every token is a slice of the text. Only strings and illegal characters have characters of more
than one byte. -/
theorem Scan.exists_slice? {source : String} {t : Token} (ht : t ∈ (ofSource source).tokens) :
    ∃ text, Text.slice? source t.start.offset t.stop.offset = some text ∧
      (t.kind.contents? = none → (∀ c, t.kind ≠ .illegal c) →
        ∀ c ∈ text.toList, c.utf8Size = 1) := by
  rcases mem_tokens_ofSource.1 ht with ⟨x, hx, rfl⟩ | rfl
  · obtain ⟨text, rest, hcut⟩ :=
      (Cursor.drains_drain _).cutFrom (Cursor.walks_ofSource source) x hx
    exact ⟨text, hcut.slice, ((hcut.spells _).2 rfl).utf8Size⟩
  · have hend := (Cursor.walks_ofSource source).trans (Cursor.walks_finish _)
    exact ⟨"", hend.slice?_eq ⟨rfl, rfl⟩, fun _ _ _ hc ↦ absurd hc List.not_mem_nil⟩

namespace Diagnostic

variable {source : String} {d : Diagnostic}

/-- The caret and the tildes under a token are as many as it has bytes, and there is a caret even
if it has none. So they are as wide as the token if and only if each of its characters takes one
byte, which holds of every token that is neither a string nor an illegal character. -/
theorem underline_width (h : AboutToken source d) (paint : Painter) :
    let hint := d.hint?.elim (paint .bold "") fun hint ↦
      paint .boldRed ("hint: " ++ hint)
    ∃ t ∈ (Scan.ofSource source).tokens, ∃ (text : String) (tildes : Nat),
      d.span.start = t.start ∧ d.span.stop = t.stop ∧
      Text.slice? source t.start.offset t.stop.offset = some text ∧
      (Excerpt.ofSpan source d.span).marker paint d.hint? =
        Excerpt.repeated t.start.column ' ' ++ paint .boldRed "^" ++
          paint .red (Excerpt.repeated tildes '~') ++ " " ++ hint ∧
      1 + tildes = max 1 text.utf8ByteSize ∧
      (1 + tildes = max 1 text.length ↔ ∀ c ∈ text.toList, c.utf8Size = 1) ∧
      (t.kind.contents? = none → (∀ c, t.kind ≠ .illegal c) →
        ∀ c ∈ text.toList, c.utf8Size = 1) := by
  intro hint
  obtain ⟨t, ht, hstart, hstop⟩ := h.exists_token
  obtain ⟨text, hslice, hkind⟩ := Scan.exists_slice? ht
  have hlength : d.span.length = text.utf8ByteSize := by
    obtain ⟨before, rest, -, hbefore, hbehind⟩ := Text.slice?_eq_some_iff.1 hslice
    rw [Span.length, hstart, hstop, hbefore, hbehind, Nat.add_sub_cancel_left]
  have hle := Text.length_le_utf8ByteSize text.toList
  have hone := @Text.utf8ByteSize_eq_length_iff text.toList
  rw [String.ofList_toList, String.length_toList] at hle hone
  have hempty : text.length = 0 → text.utf8ByteSize = 0 := by
    intro hzero
    rw [String.utf8ByteSize_eq_zero_iff, ← String.length_eq_zero_iff]
    exact hzero
  refine ⟨t, ht, text, text.utf8ByteSize - 1, hstart, hstop, hslice, ?_, by omega, ?_, hkind⟩
  · rw [← hlength, ← hstart]
    exact Excerpt.marker_eq ..
  · rw [← hone]
    omega

/-- An illegal character of two bytes, which gets a caret and a tilde. -/
theorem underline_width_illegal : ∃ d : Diagnostic, d.AboutToken "é" ∧
    Text.slice? "é" d.span.start.offset d.span.stop.offset = some "é" ∧ "é".length = 1 ∧
      (Excerpt.ofSpan "é" d.span).marker .plain d.hint? = "^~ " := by
  let e : SyntaxError :=
    { span := ⟨⟨0, 0, 0⟩, ⟨2, 0, 1⟩, by decide⟩
      expectation := .token (.keyword .procedure)
      found := "é" }
  have he : (Check.ofSource "é").diagnostics = [e] := by decide +kernel
  have habout : (ofSyntax e).AboutToken "é" := .syntactic (he ▸ List.mem_singleton_self e)
  obtain ⟨t, -, text, tildes, hstart, hstop, hslice, hmarker, hwidth, -⟩ :=
    underline_width habout .plain
  have hwhole : Text.slice? "é" 0 2 = some "é" := by decide +kernel
  have htext : text = "é" := by
    rw [← hstart, ← hstop] at hslice
    exact Option.some.inj (hslice.symm.trans hwhole)
  subst htext
  obtain rfl : tildes = 1 := by
    have hbytes : "é".utf8ByteSize = 2 := by decide
    omega
  refine ⟨ofSyntax e, habout, hwhole, rfl, ?_⟩
  rw [hmarker, ← hstart]
  decide

end Diagnostic

end Pseudocode

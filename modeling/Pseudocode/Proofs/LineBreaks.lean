import Pseudocode.Proofs.Delimiters
import Pseudocode.Proofs.Positions

/-!
# Line breaks separate tokens

No token goes over the end of a line, and the end of a line is to every token and every comment
what the end of the text is. So a text may be cut at any of its line breaks: its tokens are those of
the part before and those of the part behind, the latter as many bytes and lines further on as the
part before and the line break take.

## Main definitions

* `Location.shift`: a location further on, and likewise for tokens and errors.

## Main results

* `Cursor.drain_shift`: scanning does not depend on the line where it starts.
* `Cursor.Drains.drain_newline`: a line break does not change the tokens before it.
* `Scan.newline_separates`: the tokens and errors of two texts with a line break between them.
-/

namespace Pseudocode

/-! ### Shifting -/

/-- The location that lies as far behind `base` as `l` lies behind the start. -/
def Location.shift (base l : Location) : Location where
  offset := base.offset + l.offset
  line := base.line + l.line
  column := base.column + l.column

/-- The token further on. -/
def Token.shift (base : Location) (t : Token) : Token :=
  { t with start := base.shift t.start, stop := base.shift t.stop }

/-- The error further on. -/
def LexicalError.shift (base : Location) (e : LexicalError) : LexicalError :=
  { e with location := base.shift e.location }

/-- The token and its error further on. -/
def Scanned.shift (base : Location) (x : Scanned) : Scanned where
  token := x.token.shift base
  error? := x.error?.map (·.shift base)

/-- The cursor further on, with the same text ahead. -/
def Cursor.shift (base : Location) (c : Cursor) : Cursor :=
  { c with location := base.shift c.location }

section Shift

variable {base : Location}

/-- From the start of a line on, every step leads as far as it would from the start of a text. -/
theorem Location.advance_shift (h : base.column = 0) (l : Location) (c : Char) :
    (base.shift l).advance c = base.shift (l.advance c) := by
  unfold Location.advance Location.shift
  split <;> simp [h, Nat.add_assoc]

theorem Location.after_shift (h : base.column = 0) (l : Location) (text : List Char) :
    (base.shift l).after text = base.shift (l.after text) := by
  induction text generalizing l with
  | nil => rfl
  | cons c text ih => rw [after_cons, advance_shift h, ih, after_cons]

namespace Cursor

theorem move_shift (h : base.column = 0) (c : Cursor) (text : List Char) :
    (c.shift base).move text = (c.move text).shift base := by
  rw [move, shift, Location.after_shift h]
  rfl

theorem finish_shift (h : base.column = 0) (c : Cursor) :
    (c.shift base).finish = c.finish.shift base :=
  move_shift h c c.rest

theorem skipGapFrom_shift (h : base.column = 0) (inComment : Bool) (l : Location)
    (text : List Char) :
    skipGapFrom inComment (base.shift l) text = (skipGapFrom inComment l text).shift base := by
  induction text generalizing inComment l with
  | nil => rfl
  | cons c text ih =>
    simp only [skipGapFrom, Location.advance_shift h, ih]
    split_ifs <;> rfl

theorem skipGap_shift (h : base.column = 0) (c : Cursor) :
    (c.shift base).skipGap = c.skipGap.shift base :=
  skipGapFrom_shift h false c.location c.rest

theorem place_shift (h : base.column = 0) (c : Cursor) (lexeme : Lexeme) :
    (c.shift base).place lexeme = (c.place lexeme).shift base := by
  simp only [place, shift, Scanned.shift, Token.shift, Location.after_shift h, Option.map_map]
  rfl

theorem next?_shift (h : base.column = 0) (c : Cursor) : (c.shift base).next? =
    c.next?.map fun r ↦ (r.1.shift base, r.2.shift base) := by
  have hrest : (c.skipGap.shift base).rest = c.skipGap.rest := rfl
  unfold next?
  rw [skipGap_shift h]
  dsimp only
  rw [hrest]
  split
  · rfl
  · rw [place_shift h, move_shift h]
    rfl

/-- Scanning does not depend on the line where it starts. -/
theorem drain_shift (h : base.column = 0) (c : Cursor) :
    (c.shift base).drain = c.drain.map (·.shift base) := by
  have hdrains := c.drains_drain
  generalize c.drain = xs at hdrains
  induction hdrains with
  | done hnext => rw [drain_eq, next?_shift h, hnext]; rfl
  | step hnext _ ih => rw [drain_eq, next?_shift h, hnext, List.map_cons, ← ih]; rfl

end Cursor

end Shift

/-! ### Tokens before a line break -/

namespace Lexeme

/-- The end of the line puts an end to whatever the end of the text does. -/
theorem EndsBefore.append_newline {lexeme : Lexeme} {rest : List Char}
    (h : lexeme.EndsBefore rest) (text : List Char) :
    lexeme.EndsBefore (rest ++ '\n' :: text) := by
  cases rest with
  | cons c rest => exact ⟨h.maximal, h.unclosed⟩
  | nil =>
    refine ⟨?_, fun _ d hd ↦ (Option.some.inj hd).symm⟩
    unfold Maximal
    split
    case h_1 | h_2 | h_3 =>
      rintro d ⟨⟩
      decide
    case h_4 | h_5 => exact fun _ ↦ by simp
    case h_6 | h_7 => trivial

end Lexeme

namespace Cursor

/-- A line break does not change the tokens before it. The tokens behind it are those that the rest
of the text has from there on. -/
theorem Drains.drain_newline {c : Cursor} {xs : List Scanned} (h : c.Drains xs)
    (text : List Char) : drain { c with rest := c.rest ++ '\n' :: text } =
      xs ++ drain { location := c.location.after (c.rest ++ ['\n']), rest := text } := by
  induction h with
  | @done c hnext =>
    have hgap := (isGap_of_next?_eq_none hnext).append_newline
    rw [← drain_gap hgap, List.append_assoc]
    rfl
  | @step c d x xs hnext _ ih =>
    obtain ⟨gap, head, tail, hgap, hisGap, hrest, hblank, hhash, rfl, hd⟩ :=
      exists_of_next?_eq_some hnext
    have hsplit : head :: tail = (Lexeme.ofHead head tail).text ++ d.rest := hrest ▸ hd.1
    have hlonger : head :: (tail ++ '\n' :: text) =
        (Lexeme.ofHead head tail).text ++ (d.rest ++ '\n' :: text) := by
      rw [← List.append_assoc, ← hsplit]
      rfl
    have hsame := Lexeme.ofHead_eq_of_endsBefore hlonger
      ((Lexeme.endsBefore_ofHead hsplit).append_newline text)
    have hlocation : c.location.after (c.rest ++ ['\n']) =
        d.location.after (d.rest ++ ['\n']) := by
      rw [(hgap.trans hd).1, (hgap.trans hd).2, List.append_assoc, Location.after_append]
    rw [hlocation, List.cons_append, ← ih]
    rw [hgap.1, List.append_assoc, drain_gap hisGap, hrest, List.cons_append,
      drain_lexeme hblank hhash (hsame ▸ hlonger), hsame, ← hgap.2, hd.2]
    rfl

end Cursor

/-! ### Two texts with a line break between them -/

/-- The location behind a text and a line break. -/
theorem Location.after_newline (text : String) : after {} (text.toList ++ ['\n']) =
    { offset := text.utf8ByteSize + 1, line := text.toList.count '\n' + 1, column := 0 } := by
  have hoffset := offset_after {} text.toList
  have hline := (after_eq text.toList).1
  rw [String.ofList_toList] at hoffset
  rw [after_append, after_cons, after_nil, advance, if_pos rfl, hoffset, hline, Nat.zero_add]
  rfl

namespace Cursor

variable {base : Location}

/-- Behind a line break, a text is scanned as it is alone, but further on. -/
theorem shift_ofSource (a b : String) (hbase : base = Location.after {} (a.toList ++ ['\n'])) :
    (ofSource b).shift base =
      { location := Location.after {} (a.toList ++ ['\n']), rest := b.toList } := by
  subst hbase
  rfl

theorem ofSource_newline (a b : String) : ofSource (a ++ "\n" ++ b) =
    { ofSource a with rest := (ofSource a).rest ++ '\n' :: b.toList } := by
  simp [ofSource]

/-- The tokens of two texts with a line break between them. -/
theorem drain_ofSource_newline (a b : String)
    (hbase : base = Location.after {} (a.toList ++ ['\n'])) (hcolumn : base.column = 0) :
    (ofSource (a ++ "\n" ++ b)).drain =
      (ofSource a).drain ++ (ofSource b).drain.map (·.shift base) := by
  rw [← drain_shift hcolumn, shift_ofSource a b hbase, ofSource_newline]
  exact (ofSource a).drains_drain.drain_newline b.toList

/-- The end of two texts with a line break between them. -/
theorem finish_ofSource_newline (a b : String)
    (hbase : base = Location.after {} (a.toList ++ ['\n'])) (hcolumn : base.column = 0) :
    (ofSource (a ++ "\n" ++ b)).finish.location = base.shift (ofSource b).finish.location := by
  have hshift : base.shift (ofSource b).finish.location =
      ((ofSource b).shift base).finish.location := by
    rw [finish_shift hcolumn]
    rfl
  rw [hshift, shift_ofSource a b hbase, ofSource_newline, (walks_finish _).2, (walks_finish _).2,
    ← Location.after_append, List.append_assoc]
  rfl

end Cursor

namespace Scan

/-- Line breaks separate tokens. The tokens of two texts with a line break between them are those of
the first, without its end of input, and those of the second, further on by the bytes and the lines
of the first and of the line break. The same holds for the errors. -/
theorem newline_separates (a b : String) :
    let base : Location :=
      { offset := a.utf8ByteSize + 1, line := a.toList.count '\n' + 1, column := 0 }
    (ofSource (a ++ "\n" ++ b)).tokens =
        (ofSource a).tokens.dropLast ++ (ofSource b).tokens.map (·.shift base) ∧
      (ofSource (a ++ "\n" ++ b)).errors =
        (ofSource a).errors ++ (ofSource b).errors.map (·.shift base) := by
  intro base
  have hbase : base = Location.after {} (a.toList ++ ['\n']) := (Location.after_newline a).symm
  have hdrain := Cursor.drain_ofSource_newline a b hbase rfl
  have hfinish := Cursor.finish_ofSource_newline a b hbase rfl
  constructor
  · simp only [tokens_ofSource, hdrain, hfinish, List.dropLast_concat, List.map_append,
      List.map_map, List.append_assoc]
    rfl
  · simp only [errors_ofSource, hdrain, List.filterMap_append, List.filterMap_map,
      List.map_filterMap]
    rfl

end Scan

end Pseudocode

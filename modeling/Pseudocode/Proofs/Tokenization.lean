import Pseudocode.Proofs.Lexemes
import Pseudocode.Proofs.Slices

/-!
# A text is cut into tokens without loss

Every byte of a program text belongs to one of its tokens or to one of the gaps between them. A
token is a slice of the text and is told from this slice alone; it goes as far as its kind allows.
A gap holds white space and comments only.

## Main definitions

* `Text.IsGap`: white space and comments.
* `Token.CutFrom`: what a token has to do with the slice that it is cut from.
* `Scan.gaps`: the stretches between tokens.

## Main results

* `Scan.tokenization_lossless`: the tokens and gaps of a text.
-/

namespace Pseudocode

open Token (Kind)

/-! ### Gaps -/

/-- White space and comments, one behind the other. A comment runs from a hash sign up to and
including the next line break, or up to the end of the text if the gap is the `last` part of it. -/
inductive Text.IsGap (last : Prop) : List Char → Prop
  /-- A gap may be empty. -/
  | nil : IsGap last []
  /-- White space. -/
  | blank {c : Char} {gap : List Char} (hc : isBlank c = true) (h : IsGap last gap) :
      IsGap last (c :: gap)
  /-- A comment with its line break. -/
  | comment {body gap : List Char} (hbody : '\n' ∉ body) (h : IsGap last gap) :
      IsGap last ('#' :: (body ++ '\n' :: gap))
  /-- A comment that nothing follows. -/
  | lastComment {body : List Char} (hbody : '\n' ∉ body) (h : last) : IsGap last ('#' :: body)

namespace Text

theorem IsGap.mono {last last' : Prop} (hlast : last → last') {gap : List Char}
    (h : IsGap last gap) : IsGap last' gap := by
  induction h with
  | nil => exact .nil
  | blank hc _ ih => exact .blank hc ih
  | comment hbody _ ih => exact .comment hbody ih
  | lastComment hbody h => exact .lastComment hbody (hlast h)

/-- A comment goes on with every character that does not end its line. -/
theorem IsGap.cons_comment {last : Prop} {c : Char} {gap : List Char} (hc : c ≠ '\n')
    (h : IsGap last ('#' :: gap)) : IsGap last ('#' :: c :: gap) := by
  have hmem {body : List Char} (hbody : '\n' ∉ body) : '\n' ∉ c :: body := by
    simp [Ne.symm hc, hbody]
  cases h with
  | blank hblank => exact absurd hblank (by decide)
  | comment hbody h => exact .comment (hmem hbody) h
  | lastComment hbody h => exact .lastComment (hmem hbody) h

end Text

namespace Cursor

open Text (IsGap)

/-- A cursor that walks over a gap stops where no gap goes on. If it starts inside a comment, it
walks over the rest of that comment first. -/
theorem isGap_skipGapFrom (inComment : Bool) (l : Location) (text : List Char) :
    ∃ gap, (Cursor.mk l text).Walks gap (skipGapFrom inComment l text) ∧
      IsGap ((skipGapFrom inComment l text).rest = []) (if inComment then '#' :: gap else gap) ∧
      ∀ c ∈ (skipGapFrom inComment l text).rest.head?, Text.isBlank c = false ∧ c ≠ '#' := by
  induction text generalizing inComment l with
  | nil =>
    refine ⟨[], ⟨rfl, rfl⟩, ?_, fun c hc ↦ nomatch hc⟩
    cases inComment
    · exact .nil
    · exact .lastComment List.not_mem_nil rfl
  | cons c text ih =>
    -- a step over `c` leaves a gap that starts with `c`
    have step (b : Bool) (hgap : ∀ {last gap}, IsGap last (if b then '#' :: gap else gap) →
        IsGap last (if inComment then '#' :: c :: gap else c :: gap)) :
        ∃ gap, (Cursor.mk l (c :: text)).Walks gap (skipGapFrom b (l.advance c) text) ∧
          IsGap ((skipGapFrom b (l.advance c) text).rest = [])
            (if inComment then '#' :: gap else gap) ∧
          ∀ d ∈ (skipGapFrom b (l.advance c) text).rest.head?,
            Text.isBlank d = false ∧ d ≠ '#' := by
      obtain ⟨gap, hwalks, hisGap, hhead⟩ := ih b (l.advance c)
      exact ⟨c :: gap, ⟨congrArg (c :: ·) hwalks.1, hwalks.2⟩, hgap hisGap, hhead⟩
    cases inComment with
    | true =>
      rw [skipGapFrom, if_pos rfl]
      refine step _ fun {last gap} h ↦ ?_
      by_cases hc : c = '\n'
      · subst hc
        exact .comment List.not_mem_nil h
      · rw [bne_iff_ne.2 hc] at h
        exact h.cons_comment hc
    | false =>
      rw [skipGapFrom, if_neg Bool.false_ne_true]
      by_cases hhash : c = '#'
      · rw [if_pos hhash]
        exact step _ fun h ↦ hhash ▸ h
      by_cases hblank : Text.isBlank c = true
      · rw [if_neg hhash, if_pos hblank]
        exact step _ fun h ↦ .blank hblank h
      · rw [if_neg hhash, if_neg hblank]
        refine ⟨[], ⟨rfl, rfl⟩, .nil, fun d hd ↦ ?_⟩
        obtain rfl : c = d := Option.some.inj hd
        exact ⟨Bool.eq_false_iff.2 hblank, hhash⟩

/-- When there is no further token, only a gap is left. -/
theorem isGap_of_next?_eq_none {c : Cursor} (h : c.next? = none) : IsGap True c.rest := by
  obtain ⟨gap, hwalks, hgap, -⟩ := isGap_skipGapFrom false c.location c.rest
  unfold next? at h
  dsimp only at h
  split at h
  · next hrest =>
    have hrest' : (skipGapFrom false c.location c.rest).rest = [] := hrest
    have hall : c.rest = gap := by
      have hall := hwalks.1
      rwa [hrest', List.append_nil] at hall
    exact hall ▸ hgap.mono fun _ ↦ trivial
  · cases h

/-- The next token stands behind a gap. It is the lexeme at the head of a text that does not start
with a gap, and the cursor ends up behind it. -/
theorem exists_of_next?_eq_some {c d : Cursor} {x : Scanned} (h : c.next? = some (x, d)) :
    ∃ gap head tail, c.Walks gap c.skipGap ∧ IsGap False gap ∧ c.skipGap.rest = head :: tail ∧
      Text.isBlank head = false ∧ head ≠ '#' ∧ x = c.skipGap.place (Lexeme.ofHead head tail) ∧
      c.skipGap.Walks (Lexeme.ofHead head tail).text d := by
  obtain ⟨gap, hwalks, hgap, hhead⟩ := isGap_skipGapFrom false c.location c.rest
  unfold next? at h
  dsimp only at h
  split at h
  · cases h
  · next head tail hrest =>
    cases h
    have hrest' : (skipGapFrom false c.location c.rest).rest = head :: tail := hrest
    obtain ⟨hblank, hhash⟩ := hhead head (by rw [hrest']; rfl)
    refine ⟨gap, head, tail, hwalks, ?_, hrest, hblank, hhash, rfl, walks_move_ofHead hrest⟩
    exact hgap.mono fun hnil ↦ by rw [hrest'] at hnil; cases hnil

end Cursor

/-! ### Tokens -/

/-- The token is cut from `source`: its slice is `text`, and `rest` follows it. -/
structure Token.CutFrom (source : String) (t : Token) (text rest : String) : Prop where
  /-- The text lies between the locations of the token. -/
  slice : Text.slice? source t.start.offset t.stop.offset = some text
  /-- The rest lies behind the token. -/
  slice_rest : Text.slice? source t.stop.offset source.utf8ByteSize = some rest
  /-- A token has at least one byte. -/
  nonempty : t.start.offset < t.stop.offset
  /-- The kind of the token is the one that its text spells. -/
  spells : ∀ kind, Lexeme.Spells text.toList kind ↔ kind = t.kind
  /-- The token is written as its text, with the closing quote if it is missing. -/
  display : t.kind.text = text ∨
    Lexeme.Unterminated text.toList t.kind rest.toList ∧ t.kind.text = text ++ "\""
  /-- The rest does not go on with the token. -/
  maximal : Lexeme.Maximal text.toList t.kind rest.toList

/-- The stretches from the byte `start` to the first token and from each token to the next. -/
def Scan.gaps (start : Nat) : List Token → List (Nat × Nat)
  | [] => []
  | t :: ts => (start, t.start.offset) :: gaps t.stop.offset ts

namespace Cursor

variable {source : String} {before : List Char} {c d : Cursor}

/-- A token stops where the walk over its text ends. -/
theorem Walks.stop_place {lexeme : Lexeme} (h : c.Walks lexeme.text d) :
    (c.place lexeme).token.stop = d.location :=
  h.2.symm

/-- The next token is cut from the source. -/
theorem Walks.cutFrom (hc : (ofSource source).Walks before c) {head : Char} {tail : List Char}
    (hrest : c.rest = head :: tail) (hblank : Text.isBlank head = false) (hhash : head ≠ '#')
    (hd : c.Walks (Lexeme.ofHead head tail).text d) :
    (c.place (Lexeme.ofHead head tail)).token.CutFrom source
      (String.ofList (Lexeme.ofHead head tail).text) (String.ofList d.rest) := by
  have hsplit : head :: tail = (Lexeme.ofHead head tail).text ++ d.rest := hrest ▸ hd.1
  have hspells := Lexeme.spells_ofHead tail hblank hhash
  refine ⟨?_, ?_, ?_, fun kind ↦ ?_, ?_, ?_⟩
  · rw [hd.stop_place]
    exact hc.slice?_eq hd
  · rw [hd.stop_place]
    exact (hc.trans hd).slice?_rest
  · rw [hd.stop_place]
    exact hd.offset_lt (Lexeme.ofHead_text_ne_nil head tail)
  · rw [String.toList_ofList]
    exact ⟨fun h ↦ h.unique hspells, fun h ↦ h ▸ hspells⟩
  · rw [String.toList_ofList, String.toList_ofList]
    rcases Lexeme.display_ofHead hsplit with h | ⟨hopen, h⟩
    · exact .inl (String.toList_inj.1 (h.trans String.toList_ofList.symm))
    · refine .inr ⟨hopen, String.toList_inj.1 ?_⟩
      rw [String.toList_append, String.toList_ofList]
      exact h
  · rw [String.toList_ofList, String.toList_ofList]
    exact Lexeme.maximal_ofHead hsplit

theorem Drains.cutFrom {xs : List Scanned} (h : c.Drains xs)
    (hc : (ofSource source).Walks before c) :
    ∀ x ∈ xs, ∃ text rest, x.token.CutFrom source text rest := by
  induction h generalizing before with
  | done => exact fun _ hx ↦ absurd hx List.not_mem_nil
  | step hnext _ ih =>
    obtain ⟨gap, head, tail, hgap, -, hrest, hblank, hhash, rfl, hd⟩ :=
      exists_of_next?_eq_some hnext
    intro x hx
    rcases List.mem_cons.1 hx with rfl | hx
    · exact ⟨_, _, (hc.trans hgap).cutFrom hrest hblank hhash hd⟩
    · exact ih ((hc.trans hgap).trans hd) x hx

/-- Each token starts where the one before has stopped, or later. -/
theorem Drains.pairwise_stop {xs : List Scanned} (h : c.Drains xs) :
    (xs.map (·.token)).Pairwise fun t u ↦ t.stop.offset ≤ u.start.offset := by
  induction h with
  | done => exact .nil
  | @step c d x xs hnext hd ih =>
    obtain ⟨gap, lexeme, -, hlexeme, -, rfl⟩ := next?_eq_some hnext
    refine .cons (fun t ht ↦ ?_) ih
    have hstart := hd.pairwise_start.2 t (List.mem_append_left _ ht)
    rwa [← hlexeme.stop_place] at hstart

/-- Between the tokens there are gaps only. -/
theorem Drains.isGap {xs : List Scanned} (h : c.Drains xs)
    (hc : (ofSource source).Walks before c) :
    ∀ gap ∈ Scan.gaps c.location.offset (xs.map (·.token) ++ [Token.endAt c.finish.location]),
      ∃ text, Text.slice? source gap.1 gap.2 = some text ∧
        Text.IsGap (gap.2 = source.utf8ByteSize) text.toList := by
  induction h generalizing before with
  | @done c hnext =>
    intro gap hgap
    obtain rfl := List.mem_singleton.1 hgap
    refine ⟨_, hc.slice?_eq c.walks_finish, ?_⟩
    rw [String.toList_ofList]
    exact (isGap_of_next?_eq_none hnext).mono fun _ ↦ hc.offset_finish
  | @step c d x xs hnext _ ih =>
    obtain ⟨space, head, tail, hspace, hisGap, -, -, -, rfl, hd⟩ := exists_of_next?_eq_some hnext
    intro gap hgap
    rcases List.mem_cons.1 hgap with rfl | hgap
    · refine ⟨_, hc.slice?_eq hspace, ?_⟩
      rw [String.toList_ofList]
      exact hisGap.mono False.elim
    · have hd' := (hc.trans hspace).trans hd
      refine ih hd' gap ?_
      rw [(hspace.trans hd).finish_eq, hd.2]
      exact hgap

end Cursor

namespace Scan

/-- The tokens of a text before the end of input are slices of it, each with at least one byte, in
order and without overlap, and what lies between them are gaps. The kind of a token is the one that
its slice spells, and no token could be longer. Only the last token is the end of input; it is
empty and stands behind the last byte. -/
theorem tokenization_lossless (source : String) :
    ∃ (tokens : List Token) (last : Token), (ofSource source).tokens = tokens ++ [last] ∧
      last.kind = .endOfInput ∧ last.start = last.stop ∧
      last.start.offset = source.utf8ByteSize ∧ (∀ t ∈ tokens, t.kind ≠ .endOfInput) ∧
      (∀ t ∈ tokens, ∃ text rest, t.CutFrom source text rest) ∧
      tokens.Pairwise (fun t u ↦ t.stop.offset ≤ u.start.offset) ∧
      ∀ gap ∈ gaps 0 (tokens ++ [last]), ∃ text, Text.slice? source gap.1 gap.2 = some text ∧
        Text.IsGap (gap.2 = source.utf8ByteSize) text.toList := by
  have hdrains := Cursor.drains_drain (Cursor.ofSource source)
  have hsource := Cursor.walks_ofSource source
  refine ⟨_, _, tokens_ofSource source, rfl, rfl, hsource.offset_finish,
    hdrains.kind_ne_endOfInput, fun t ht ↦ ?_, hdrains.pairwise_stop, hdrains.isGap hsource⟩
  obtain ⟨x, hx, rfl⟩ := List.mem_map.1 ht
  exact hdrains.cutFrom hsource x hx

end Scan

end Pseudocode

import Pseudocode.Token.Walk

/-!
# The tokens of a text

The tokens that a text is cut into stand one behind the other, and each is spelled as its kind
demands. Only the last one is the end of input.

## Main definitions

* `Cursor.Drains`: the tokens from a cursor on, one by one.
* `Token.Kind.WellSpelled`: kinds of tokens that are spelled as the scanner spells them.

## Main results

* `Scan.ordered_ofSource`: no token runs backwards.
* `Scan.pairwise_start_ofSource`: each token starts behind the start of the one before.
* `Scan.pairwise_errors_ofSource`: the errors come in the order of the text.
* `Scan.wellSpelled_ofSource`: each token is spelled as its kind demands.
* `Scan.int64?_of_errors_eq_nil`: without errors, every literal stands for the value of its digits.
-/

namespace Pseudocode

open Token (Kind)

/-! ### How kinds of tokens are spelled -/

/-- The name of a variable starts with a letter or an underscore. A literal is a run of digits and
stands for their value, and for 0 if that is too large. -/
def Token.Kind.WellSpelled : Kind → Prop
  | .var name => ∃ c ∈ name.toList.head?, Lexeme.isWordStart c = true
  | .integer digits value => digits.toList ≠ [] ∧ (∀ c ∈ digits.toList, c.isDigit = true) ∧
    value = (Decimal.int64? digits.toList).getD 0
  | _ => True

namespace Lexeme

theorem wellSpelled_word {c : Char} (cs : List Char) (h : isWordStart c = true) :
    (word (c :: cs)).kind.WellSpelled := by
  unfold word
  split
  · trivial
  · exact ⟨c, by simp, h⟩

theorem wellSpelled_number {digits : List Char} (hne : digits ≠ [])
    (h : ∀ c ∈ digits, c.isDigit = true) : (number digits).kind.WellSpelled := by
  unfold number
  split
  · next value hvalue =>
    exact ⟨by simpa using hne, by simpa using h, by simp [hvalue]⟩
  · next hvalue =>
    exact ⟨by simpa using hne, by simpa using h, by simp [hvalue]⟩

/-- Marks and strings have no name. -/
theorem name_mark_quoted {c : Char} {cs : List Char} {kind : Kind}
    (h : kind = mark c cs.head? ∨ kind = (quoted cs).kind) :
    kind.WellSpelled ∧ kind ≠ .endOfInput := by
  rcases h with rfl | rfl
  · unfold mark
    split <;> exact ⟨trivial, by simp⟩
  · unfold quoted
    dsimp only
    split <;> exact ⟨trivial, by simp⟩

/-- Every lexeme is spelled as its kind demands, and none is the end of input. -/
theorem wellSpelled_ofHead (c : Char) (cs : List Char) :
    (ofHead c cs).kind.WellSpelled ∧ (ofHead c cs).kind ≠ .endOfInput := by
  unfold ofHead
  split
  · exact name_mark_quoted (c := c) (.inr rfl)
  split
  · next h =>
    refine ⟨wellSpelled_word _ h, ?_⟩
    unfold word
    split <;> simp
  split
  · next h =>
    refine ⟨wellSpelled_number (List.cons_ne_nil _ _) ?_, ?_⟩
    · intro d hd
      rcases List.mem_cons.1 hd with rfl | hd
      · exact h
      · exact List.all_eq_true.1 List.all_takeWhile d hd
    · unfold number
      split <;> simp
  · exact name_mark_quoted (.inl rfl)

theorem int64?_number {ds : List Char} {digits : String} {value : Int64}
    (hkind : (number ds).kind = .integer digits value) (hflaw : (number ds).flaw = none) :
    Decimal.int64? digits.toList = some value := by
  unfold number at hkind hflaw
  split at hkind
  · next hvalue =>
    cases hkind
    simpa using hvalue
  · next hvalue =>
    rw [hvalue] at hflaw
    cases hflaw

/-- A literal without a flaw stands for the value of its digits. -/
theorem int64?_ofHead {c : Char} {cs : List Char} {digits : String} {value : Int64}
    (hkind : (ofHead c cs).kind = .integer digits value) (hflaw : (ofHead c cs).flaw = none) :
    Decimal.int64? digits.toList = some value := by
  unfold ofHead at hkind hflaw
  split at hkind
  · unfold quoted at hkind
    dsimp only at hkind
    split at hkind <;> cases hkind
  split at hkind
  · unfold word at hkind
    split at hkind <;> cases hkind
  split at hkind
  · next hquote hword hdigit =>
    rw [if_neg hquote, if_neg hword, if_pos hdigit] at hflaw
    exact int64?_number hkind hflaw
  · dsimp only [mark] at hkind
    split at hkind <;> cases hkind

end Lexeme

namespace Cursor

/-- The tokens from a cursor on, one by one. -/
inductive Drains : Cursor → List Scanned → Prop
  | done {c : Cursor} (h : c.next? = none) : Drains c []
  | step {c d : Cursor} {x : Scanned} {xs : List Scanned} (h : c.next? = some (x, d))
      (hd : Drains d xs) : Drains c (x :: xs)

theorem drains_drain (c : Cursor) : c.Drains c.drain := by
  induction hn : c.rest.length using Nat.strongRecOn generalizing c with
  | _ n ih =>
    rw [drain_eq]
    cases hnext : c.next? with
    | none => exact .done hnext
    | some r =>
      obtain ⟨x, d⟩ := r
      exact .step hnext (ih d.rest.length (hn ▸ length_rest_lt_of_next? hnext) d rfl)

/-- The next token is the lexeme at the head of what follows the gap. -/
theorem next?_eq_ofHead {c d : Cursor} {x : Scanned} (h : c.next? = some (x, d)) :
    ∃ head tail, x = c.skipGap.place (Lexeme.ofHead head tail) := by
  unfold next? at h
  dsimp only at h
  split at h
  · cases h
  · next head tail _ =>
    cases h
    exact ⟨head, tail, rfl⟩

/-- Every token is a lexeme at some place. -/
theorem Drains.exists_ofHead {c : Cursor} {xs : List Scanned} (h : c.Drains xs) :
    ∀ x ∈ xs, ∃ d head tail, x = place d (Lexeme.ofHead head tail) := by
  induction h with
  | done => exact fun _ hx ↦ absurd hx List.not_mem_nil
  | step hnext _ ih =>
    intro x hx
    rcases List.mem_cons.1 hx with rfl | hx
    · obtain ⟨head, tail, rfl⟩ := next?_eq_ofHead hnext
      exact ⟨_, head, tail, rfl⟩
    · exact ih x hx

/-- No token is the end of input. -/
theorem Drains.kind_ne_endOfInput {c : Cursor} {xs : List Scanned} (h : c.Drains xs) :
    ∀ t ∈ xs.map (·.token), t.kind ≠ .endOfInput := by
  intro t ht
  obtain ⟨x, hx, rfl⟩ := List.mem_map.1 ht
  obtain ⟨d, head, tail, rfl⟩ := h.exists_ofHead x hx
  exact (Lexeme.wellSpelled_ofHead head tail).2

/-- An error is located where its token starts. -/
theorem Drains.location_error {c : Cursor} {xs : List Scanned} (h : c.Drains xs) {x : Scanned}
    (hx : x ∈ xs) {e : LexicalError} (he : x.error? = some e) : e.location = x.token.start := by
  obtain ⟨d, head, tail, rfl⟩ := h.exists_ofHead x hx
  obtain ⟨flaw, -, rfl⟩ := Option.map_eq_some_iff.1 he
  rfl

theorem Walks.offset_le {c d : Cursor} {text : List Char} (h : c.Walks text d) :
    c.location.offset ≤ d.location.offset := by
  rw [h.2]
  exact c.location.offset_le_after text

/-- A walk that takes a character moves the offset. -/
theorem Walks.offset_lt {c d : Cursor} {text : List Char} (h : c.Walks text d) (hne : text ≠ []) :
    c.location.offset < d.location.offset := by
  cases text with
  | nil => exact absurd rfl hne
  | cons a text =>
    rw [h.2, Location.after_cons]
    exact Nat.lt_of_lt_of_le (c.location.offset_lt_advance a) (Location.offset_le_after _ text)

/-- The tokens and the end of the text start behind the cursor, each behind the start of the one
before. -/
theorem Drains.pairwise_start {c : Cursor} {xs : List Scanned} (h : c.Drains xs) :
    (xs.map (·.token) ++ [Token.endAt c.finish.location]).Pairwise
        (fun t u ↦ t.start.offset < u.start.offset) ∧
      ∀ t ∈ xs.map (·.token) ++ [Token.endAt c.finish.location],
        c.location.offset ≤ t.start.offset := by
  induction h with
  | @done c _ =>
    refine ⟨List.pairwise_singleton _ _, fun t ht ↦ ?_⟩
    rw [List.mem_singleton.1 ht]
    exact c.walks_finish.offset_le
  | @step c d x xs hnext _ ih =>
    obtain ⟨gap, lexeme, hgap, hlexeme, hne, rfl⟩ := next?_eq_some hnext
    have hbehind := hlexeme.offset_lt hne
    have hbefore := hgap.offset_le
    rw [(hgap.trans hlexeme).finish_eq] at ih
    rw [List.map_cons, List.cons_append, List.pairwise_cons]
    refine ⟨⟨fun t ht ↦ ?_, ih.1⟩, fun t ht ↦ ?_⟩
    · exact Nat.lt_of_lt_of_le hbehind (ih.2 t ht)
    · rcases List.mem_cons.1 ht with rfl | ht
      · exact hbefore
      · exact Nat.le_trans hbefore (Nat.le_trans (Nat.le_of_lt hbehind) (ih.2 t ht))

end Cursor

/-! ### The tokens of a source -/

namespace Scan

variable {source : String}

/-- Each token starts behind the start of the one before. -/
theorem pairwise_start_ofSource (source : String) :
    (ofSource source).tokens.Pairwise fun t u ↦ t.start.offset < u.start.offset := by
  rw [tokens_ofSource]
  exact (Cursor.drains_drain _).pairwise_start.1

/-- The errors of single tokens come in the order of the text. -/
theorem pairwise_errors_ofSource (source : String) :
    (ofSource source).errors.Pairwise fun e e' ↦ e.location.offset < e'.location.offset := by
  have hdrains := Cursor.drains_drain (Cursor.ofSource source)
  have hstarts := List.pairwise_map.1 (List.pairwise_append.1 hdrains.pairwise_start.1).1
  rw [errors_ofSource]
  refine List.pairwise_filterMap.2 (hstarts.imp_of_mem fun {x y} hx hy hlt e he e' he' ↦ ?_)
  rw [hdrains.location_error hx he, hdrains.location_error hy he']
  exact hlt

/-- What the scanner gives is a lexeme at some place, or the end of input. -/
theorem mem_tokens {t : Token} (h : t ∈ (ofSource source).tokens) :
    (∃ c head tail, t = (Cursor.place c (Lexeme.ofHead head tail)).token) ∨
      ∃ l, t = Token.endAt l := by
  rcases mem_tokens_ofSource.1 h with ⟨x, hx, rfl⟩ | rfl
  · obtain ⟨c, head, tail, rfl⟩ := (Cursor.drains_drain _).exists_ofHead x hx
    exact .inl ⟨c, head, tail, rfl⟩
  · exact .inr ⟨_, rfl⟩

/-- No token runs backwards. -/
theorem ordered_ofSource (source : String) : ∀ t ∈ (ofSource source).tokens, t.Ordered := by
  intro t ht
  rcases mem_tokens ht with ⟨c, head, tail, rfl⟩ | ⟨l, rfl⟩
  · exact Location.offset_le_after _ _
  · exact Nat.le_refl _

/-- Each token is spelled as its kind demands. -/
theorem wellSpelled_ofSource (source : String) :
    ∀ t ∈ (ofSource source).tokens, t.kind.WellSpelled := by
  intro t ht
  rcases mem_tokens ht with ⟨c, head, tail, rfl⟩ | ⟨l, rfl⟩
  · exact (Lexeme.wellSpelled_ofHead head tail).1
  · trivial

/-- In a text without errors, every literal stands for the value of its digits. -/
theorem int64?_of_errors_eq_nil (h : (ofSource source).errors = []) {t : Token}
    (ht : t ∈ (ofSource source).tokens) {digits : String} {value : Int64}
    (hkind : t.kind = .integer digits value) : Decimal.int64? digits.toList = some value := by
  rw [errors_ofSource] at h
  rcases mem_tokens_ofSource.1 ht with ⟨x, hx, rfl⟩ | rfl
  · have herror : x.error? = none := List.filterMap_eq_nil_iff.1 h x hx
    obtain ⟨c, head, tail, rfl⟩ := (Cursor.drains_drain _).exists_ofHead x hx
    exact Lexeme.int64?_ofHead hkind (Option.map_eq_none_iff.1 herror)
  · cases hkind

end Scan

end Pseudocode

import Pseudocode.Token.Scan

/-!
# Scanning walks over the text

A cursor that scans only ever walks over the text in front of it, character by character. So the
bound on the number of tokens is never felt, and tokens can be told one by one. What a scanner gives
in the end are the tokens from its cursor on, and their errors behind those that it has kept.

## Main definitions

* `Cursor.Walks`: one cursor comes from another by walking over a piece of text.
* `Cursor.finish`: the cursor behind the whole text.
* `Cursor.drain`: all tokens from a cursor on, each with its error.

## Main results

* `Cursor.walks_skipGap`, `Cursor.walks_move_ofHead`: gaps and tokens are walked over.
* `Cursor.drain_eq`: all tokens are the next one and those behind it.
* `Scanner.drain_eq`, `Scanner.scan_eq`: what is left for a scanner.
* `Scan.mem_tokens_ofSource`, `Scan.errors_ofSource`: the tokens and errors of a text.
-/

namespace Pseudocode

namespace Cursor

/-- The cursor `d` comes from `c` by walking over `text`. -/
def Walks (c : Cursor) (text : List Char) (d : Cursor) : Prop :=
  c.rest = text ++ d.rest ∧ d.location = c.location.after text

theorem Walks.trans {c d e : Cursor} {s t : List Char} (h : c.Walks s d) (h' : d.Walks t e) :
    c.Walks (s ++ t) e := by
  obtain ⟨hrest, hlocation⟩ := h
  obtain ⟨hrest', hlocation'⟩ := h'
  refine ⟨?_, ?_⟩
  · rw [hrest, hrest', List.append_assoc]
  · rw [hlocation', hlocation, Location.after_append]

theorem Walks.length_eq {c d : Cursor} {text : List Char} (h : c.Walks text d) :
    c.rest.length = text.length + d.rest.length := by
  rw [h.1, List.length_append]

/-- Moving over what the rest starts with is a walk. -/
theorem walks_move {c : Cursor} {text : List Char} (h : text <+: c.rest) :
    c.Walks text (c.move text) := by
  obtain ⟨rest, hrest⟩ := h
  refine ⟨?_, rfl⟩
  rw [move, ← hrest, List.drop_left]

/-- The cursor behind the whole text. -/
def finish (c : Cursor) : Cursor :=
  c.move c.rest

theorem walks_finish (c : Cursor) : c.Walks c.rest c.finish :=
  walks_move (List.prefix_refl c.rest)

theorem finish_rest (c : Cursor) : c.finish.rest = [] :=
  List.drop_length

/-- A walk does not change where the text ends. -/
theorem Walks.finish_eq {c d : Cursor} {text : List Char} (h : c.Walks text d) :
    d.finish = c.finish := by
  have hlocation : d.finish.location = c.finish.location := by
    rw [d.walks_finish.2, h.2, c.walks_finish.2, h.1, Location.after_append]
  exact (Cursor.mk.injEq ..).mpr ⟨hlocation, d.finish_rest.trans c.finish_rest.symm⟩

theorem walks_skipGapFrom (inComment : Bool) (l : Location) (text : List Char) :
    ∃ gap, (Cursor.mk l text).Walks gap (skipGapFrom inComment l text) := by
  induction text generalizing inComment l with
  | nil => exact ⟨[], rfl, rfl⟩
  | cons c text ih =>
    have step (b : Bool) :
        ∃ gap, (Cursor.mk l (c :: text)).Walks gap (skipGapFrom b (l.advance c) text) := by
      obtain ⟨gap, hgap⟩ := ih b (l.advance c)
      exact ⟨c :: gap, congrArg (c :: ·) hgap.1, hgap.2⟩
    unfold skipGapFrom
    split
    · exact step _
    split
    · exact step _
    split
    · exact step _
    · exact ⟨[], rfl, rfl⟩

theorem walks_skipGap (c : Cursor) : ∃ gap, c.Walks gap c.skipGap :=
  walks_skipGapFrom false c.location c.rest

theorem walks_move_ofHead {c : Cursor} {head : Char} {tail : List Char}
    (h : c.rest = head :: tail) :
    c.Walks (Lexeme.ofHead head tail).text (c.move (Lexeme.ofHead head tail).text) :=
  walks_move (h ▸ Lexeme.ofHead_text_isPrefix head tail)

/-- The next token stands behind a gap, and the cursor ends up behind it. -/
theorem next?_eq_some {c d : Cursor} {scanned : Scanned} (h : c.next? = some (scanned, d)) :
    ∃ gap lexeme, c.Walks gap c.skipGap ∧ c.skipGap.Walks lexeme.text d ∧ lexeme.text ≠ [] ∧
      scanned = c.skipGap.place lexeme := by
  obtain ⟨gap, hgap⟩ := walks_skipGap c
  unfold next? at h
  dsimp only at h
  split at h
  · cases h
  · next head tail hrest =>
    cases h
    exact ⟨gap, Lexeme.ofHead head tail, hgap, walks_move_ofHead hrest,
      Lexeme.ofHead_text_ne_nil head tail, rfl⟩

/-- Where no token is left, the gap goes up to the end of the text. -/
theorem skipGap_of_next?_eq_none {c : Cursor} (h : c.next? = none) : c.skipGap = c.finish := by
  unfold next? at h
  dsimp only at h
  split at h
  · next hrest =>
    obtain ⟨gap, hgap⟩ := c.walks_skipGap
    rw [← hgap.finish_eq, finish, hrest]
    rfl
  · cases h

/-- Asking for a token does not change where the text ends. -/
theorem finish_of_next?_eq_some {c d : Cursor} {scanned : Scanned}
    (h : c.next? = some (scanned, d)) : d.finish = c.finish := by
  obtain ⟨gap, lexeme, hgap, hlexeme, -⟩ := next?_eq_some h
  exact (hgap.trans hlexeme).finish_eq

/-- A token takes at least one character. -/
theorem length_rest_lt_of_next? {c d : Cursor} {scanned : Scanned}
    (h : c.next? = some (scanned, d)) : d.rest.length < c.rest.length := by
  obtain ⟨gap, lexeme, hgap, hlexeme, hne, -⟩ := next?_eq_some h
  have h₁ := hgap.length_eq
  have h₂ := hlexeme.length_eq
  have h₃ := List.length_pos_iff.2 hne
  omega

/-! ### All tokens -/

/-- The first tokens from the cursor on, at most `limit` of them. -/
def take : Nat → Cursor → List Scanned
  | 0, _ => []
  | limit + 1, c =>
    match c.next? with
    | none => []
    | some (scanned, c) => scanned :: take limit c

/-- All tokens from the cursor on. A token has at least one character, so there are no more tokens
than characters. -/
def drain (c : Cursor) : List Scanned :=
  c.take c.rest.length

/-- A limit that is not smaller than the number of characters left does not matter. -/
theorem take_eq_take {c : Cursor} {limit limit' : Nat} (h : c.rest.length ≤ limit)
    (h' : c.rest.length ≤ limit') : take limit c = take limit' c := by
  induction limit generalizing c limit' with
  | zero =>
    cases limit' with
    | zero => rfl
    | succ limit' =>
      cases hnext : c.next? with
      | none => simp [take, hnext]
      | some r =>
        have := length_rest_lt_of_next? hnext
        omega
  | succ limit ih =>
    cases hnext : c.next? with
    | none => cases limit' <;> simp [take, hnext]
    | some r =>
      obtain ⟨scanned, d⟩ := r
      have hlt := length_rest_lt_of_next? hnext
      obtain ⟨limit', rfl⟩ : ∃ n, limit' = n + 1 := ⟨limit' - 1, by omega⟩
      simp only [take, hnext]
      rw [ih (by omega) (show d.rest.length ≤ limit' by omega)]

/-- All tokens are the next one and those behind it. -/
theorem drain_eq (c : Cursor) :
    c.drain =
      match c.next? with
      | none => []
      | some (scanned, d) => scanned :: d.drain := by
  cases hnext : c.next? with
  | none =>
    unfold drain
    cases c.rest.length <;> simp [take, hnext]
  | some r =>
    obtain ⟨scanned, d⟩ := r
    have hlt := length_rest_lt_of_next? hnext
    obtain ⟨n, hn⟩ : ∃ n, c.rest.length = n + 1 := ⟨c.rest.length - 1, by omega⟩
    simp only [drain, hn, take, hnext]
    rw [take_eq_take (c := d) (by omega) (Nat.le_refl _)]

/-- Nothing is left behind the end of the text. -/
theorem drain_finish (c : Cursor) : c.finish.drain = [] := by
  rw [drain, finish_rest]
  rfl

end Cursor

namespace Scanner

/-- With a limit above the number of characters left, all tokens from the cursor on are given, and
their errors are kept behind the others. -/
theorem take_eq {s : Scanner} {limit : Nat} (h : s.cursor.rest.length < limit) :
    s.take limit = (s.cursor.drain.map (·.token),
      ⟨s.cursor.finish, s.errors ++ s.cursor.drain.filterMap (·.error?)⟩) := by
  induction limit generalizing s with
  | zero => cases h
  | succ limit ih =>
    rw [take, next, Cursor.drain_eq]
    cases hnext : s.cursor.next? with
    | none =>
      dsimp only
      rw [Cursor.skipGap_of_next?_eq_none hnext, List.map_nil, List.filterMap_nil, List.append_nil]
    | some r =>
      obtain ⟨scanned, d⟩ := r
      have hlt := Cursor.length_rest_lt_of_next? hnext
      dsimp only
      rw [ih (Nat.lt_of_lt_of_le hlt (Nat.le_of_lt_succ h)), Cursor.finish_of_next?_eq_some hnext]
      cases herror : scanned.error? <;> simp [herror]

theorem drain_eq (s : Scanner) :
    s.drain = (s.cursor.drain.map (·.token),
      ⟨s.cursor.finish, s.errors ++ s.cursor.drain.filterMap (·.error?)⟩) :=
  take_eq (Nat.lt_succ_self _)

/-- In the end there are the tokens that are left and the end of input, and the errors of the tokens
that are left join those kept before. -/
theorem scan_eq (s : Scanner) : s.scan =
    { tokens := s.cursor.drain.map (·.token) ++ [Token.endAt s.cursor.finish.location]
      errors := s.errors ++ s.cursor.drain.filterMap (·.error?) } := by
  rw [scan, drain_eq]

end Scanner

namespace Scan

variable {source : String}

theorem tokens_ofSource (source : String) : (ofSource source).tokens =
    (Cursor.ofSource source).drain.map (·.token) ++
      [Token.endAt (Cursor.ofSource source).finish.location] := by
  rw [ofSource, Scanner.scan_eq]
  rfl

/-- The errors of a text are those of its tokens. -/
theorem errors_ofSource (source : String) :
    (ofSource source).errors = (Cursor.ofSource source).drain.filterMap (·.error?) := by
  rw [ofSource, Scanner.scan_eq]
  rfl

/-- The tokens of a text are those from its start on, and the end of input. -/
theorem mem_tokens_ofSource {t : Token} : t ∈ (ofSource source).tokens ↔
    (∃ x ∈ (Cursor.ofSource source).drain, x.token = t) ∨
      t = Token.endAt (Cursor.ofSource source).finish.location := by
  rw [tokens_ofSource, List.mem_append, List.mem_map, List.mem_singleton]

end Scan

end Pseudocode

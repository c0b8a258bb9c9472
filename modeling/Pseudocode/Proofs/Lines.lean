import Pseudocode.Proofs.Positions
import Pseudocode.Text.Lines

/-!
# Numbered lines

A location counts line feeds, and so it numbers lines by the pieces between them. The lines of a
text are cut differently: a line feed belongs to the line that it ends, a carriage return before it
belongs to neither, and there is no line behind the last line feed. Still the two agree on which
line is the one with a given number.

## Main definitions

* `Text.firstLine`: the line that comes first, told from the pieces between line feeds.
* `Text.line?`: the line of a text with a given number.

## Main results

* `Text.getElem?_lines`: the lines of a text are its numbered lines.
* `Text.drop_splitOn`: the piece that a place in a text belongs to.
* `Text.line?_of_cons`: a character that ends no line stands in the line of its place.
* `Text.line?_of_end`: the end of a text is behind the last character of its line, if it has one.
-/

namespace Pseudocode.Text

/-- The first of the pieces of a text between its line feeds, as a line. If a line feed follows, a
carriage return before it does not count; if none does, an empty piece is no line. -/
def firstLine : List (List Char) → Option (List Char)
  | [] => none
  | [last] => if last = [] then none else some last
  | piece :: _ :: _ => some (if piece.getLast? = some '\r' then piece.dropLast else piece)

/-- The line of a text with the given number, from zero. -/
def line? (source : String) (n : Nat) : Option String :=
  (firstLine ((source.toList.splitOn '\n').drop n)).map String.ofList

/-! ### Splitting at line feeds -/

theorem splitOn_newline_cons (text : List Char) :
    ('\n' :: text).splitOn '\n' = [] :: text.splitOn '\n' := by
  rw [List.splitOn_cons_eq_if_modifyHead, if_pos (beq_self_eq_true _)]

theorem splitOn_cons_of_ne {c : Char} (hc : c ≠ '\n') {text : List Char} {first : List Char}
    {others : List (List Char)} (h : text.splitOn '\n' = first :: others) :
    (c :: text).splitOn '\n' = (c :: first) :: others := by
  rw [List.splitOn_cons_eq_if_modifyHead, if_neg (by simpa using hc), h, List.modifyHead_cons]

theorem exists_splitOn (text : List Char) :
    ∃ first others, text.splitOn '\n' = first :: others :=
  List.exists_cons_of_ne_nil (List.splitOn_ne_nil _ _)

/-- No line feed is left in a piece. -/
theorem not_mem_of_mem_splitOn {text piece : List Char} (h : piece ∈ text.splitOn '\n') :
    '\n' ∉ piece := by
  induction text generalizing piece with
  | nil => exact List.mem_singleton.1 h ▸ List.not_mem_nil
  | cons c text ih =>
    by_cases hc : c = '\n'
    · rw [hc, splitOn_newline_cons] at h
      rcases List.mem_cons.1 h with rfl | h
      · exact List.not_mem_nil
      · exact ih h
    · obtain ⟨first, others, hsplit⟩ := exists_splitOn text
      rw [splitOn_cons_of_ne hc hsplit] at h
      rcases List.mem_cons.1 h with rfl | h
      · have hfirst := ih (hsplit ▸ List.mem_cons_self)
        exact fun hmem ↦ (List.mem_cons.1 hmem).elim (fun heq ↦ hc heq.symm) hfirst
      · exact ih (hsplit ▸ List.mem_cons_of_mem _ h)

/-- Behind as many pieces as there are line feeds before a place comes the piece of that place. It
starts behind the last of these line feeds and goes on up to the next one. -/
theorem drop_splitOn (before : List Char) {rest first : List Char} {others : List (List Char)}
    (h : rest.splitOn '\n' = first :: others) :
    ((before ++ rest).splitOn '\n').drop (before.count '\n') =
      (lastLine before ++ first) :: others := by
  induction before using List.reverseRecOn generalizing rest first others with
  | nil => exact h
  | append_singleton before c ih =>
    rw [List.append_assoc, List.count_append, lastLine_concat]
    by_cases hc : c = '\n'
    · subst hc
      rw [List.singleton_append, ← List.drop_drop, ih (splitOn_newline_cons rest), if_pos rfl]
      exact h
    · have hbefore := ih (splitOn_cons_of_ne hc h)
      have hcount : List.count '\n' [c] = 0 := List.count_eq_zero.2 (by simpa using Ne.symm hc)
      rw [List.singleton_append, hcount, Nat.add_zero, hbefore, if_neg hc, List.append_assoc,
        List.singleton_append]

/-! ### The lines of a text -/

/-- The pieces between line feeds with their line feeds. An empty last piece is left out. -/
def withLineFeeds : List (List Char) → List (List Char)
  | [] => []
  | [last] => if last = [] then [] else [last]
  | piece :: next :: others => (piece ++ ['\n']) :: withLineFeeds (next :: others)

theorem segments_eq (text : List Char) : segments text = withLineFeeds (text.splitOn '\n') := by
  induction text with
  | nil => rfl
  | cons c text ih =>
    obtain ⟨first, others, hsplit⟩ := exists_splitOn text
    rw [segments_cons, ih, hsplit]
    by_cases hc : c = '\n'
    · rw [hc, splitOn_newline_cons, hsplit]
      rfl
    · rw [splitOn_cons_of_ne hc hsplit]
      cases others with
      | nil => by_cases hfirst : first = [] <;> simp [withLineFeeds, consSegments, hc, hfirst]
      | cons next others => simp [withLineFeeds, consSegments, hc]

theorem withoutLineEnd_concat (piece : List Char) : withoutLineEnd (piece ++ ['\n']) =
    if piece.getLast? = some '\r' then piece.dropLast else piece := by
  rcases List.eq_nil_or_concat piece with rfl | ⟨piece, c, rfl⟩
  · rfl
  · by_cases hc : c = '\r' <;> simp [withoutLineEnd, hc]

theorem withoutLineEnd_of_not_mem {piece : List Char} (h : '\n' ∉ piece) :
    withoutLineEnd piece = piece := by
  unfold withoutLineEnd
  split
  · next hreverse =>
    exact absurd (List.mem_reverse.1 (hreverse ▸ List.mem_cons_self)) h
  · next hreverse =>
    exact absurd (List.mem_reverse.1 (hreverse ▸ List.mem_cons_self)) h
  · rfl

theorem getElem?_withLineFeeds {pieces : List (List Char)} (h : ∀ piece ∈ pieces, '\n' ∉ piece)
    (n : Nat) : (withLineFeeds pieces)[n]?.map withoutLineEnd = firstLine (pieces.drop n) := by
  induction pieces generalizing n with
  | nil => cases n <;> rfl
  | cons piece pieces ih =>
    obtain ⟨hpiece, hpieces⟩ := List.forall_mem_cons.1 h
    cases pieces with
    | nil =>
      by_cases hnil : piece = []
      · cases n <;> simp [withLineFeeds, firstLine, hnil]
      · cases n <;> simp [withLineFeeds, firstLine, hnil, withoutLineEnd_of_not_mem hpiece]
    | cons next others =>
      cases n with
      | zero => exact congrArg some (withoutLineEnd_concat piece)
      | succ n => exact ih hpieces n

/-- The lines of a text are its numbered lines. -/
theorem getElem?_lines (source : String) (n : Nat) : (lines source)[n]? = line? source n := by
  rw [lines, List.getElem?_map, line?, ← getElem?_withLineFeeds fun _ ↦ not_mem_of_mem_splitOn,
    ← segments_eq, Option.map_map]
  rfl

/-! ### The line of a place -/

theorem lastLine_eq_nil_iff {text : List Char} :
    lastLine text = [] ↔ text = [] ∨ text.getLast? = some '\n' := by
  rcases List.eq_nil_or_concat text with rfl | ⟨text, c, rfl⟩
  · exact ⟨fun _ ↦ .inl rfl, fun _ ↦ rfl⟩
  · rw [List.concat_eq_append, lastLine_concat]
    by_cases hc : c = '\n' <;> simp [hc]

/-- A place at the end of a text is behind the last character of its line, if it has one. -/
theorem line?_of_end (before : List Char) : line? (String.ofList before) (before.count '\n') =
    if lastLine before = [] then none else some (String.ofList (lastLine before)) := by
  have hdrop := drop_splitOn before (List.splitOn_nil '\n')
  rw [List.append_nil, List.append_nil] at hdrop
  rw [line?, String.toList_ofList, hdrop, firstLine]
  split <;> rfl

/-- A character that ends no line stands in the line of its place, behind the characters that come
before it on that line. -/
theorem line?_of_cons (before : List Char) {c : Char} {rest : List Char} (hfeed : c ≠ '\n')
    (hreturn : c ≠ '\r') : ∃ behind,
      line? (String.ofList (before ++ c :: rest)) (before.count '\n') =
        some (String.ofList (lastLine before ++ c :: behind)) := by
  obtain ⟨first, others, hsplit⟩ := exists_splitOn rest
  have hdrop := drop_splitOn before (splitOn_cons_of_ne hfeed hsplit)
  rw [line?, String.toList_ofList, hdrop]
  cases others with
  | nil => exact ⟨first, by simp [firstLine]⟩
  | cons next others =>
    rw [firstLine]
    split
    · next hlast =>
      -- the carriage return is not `c`, so it comes behind it
      have hne : first ≠ [] := by
        rintro rfl
        rw [List.getLast?_concat] at hlast
        exact hreturn (Option.some.inj hlast)
      refine ⟨first.dropLast, ?_⟩
      rw [Option.map_some, List.dropLast_append_of_ne_nil (List.cons_ne_nil _ _),
        List.dropLast_cons_of_ne_nil hne]
    · exact ⟨first, rfl⟩

end Pseudocode.Text

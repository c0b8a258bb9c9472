import Mathlib.Data.String.Basic
import Pseudocode.Proofs.Scanning

/-!
# Slices of a text

A slice is the piece of a text between two byte offsets. It exists only if the offsets are in order
and both stand between code points, so cutting a slice is a partial operation. What a cursor walks
over is always a slice, from the offset where the walk starts to the one where it stops.

## Main definitions

* `Text.slice?`: the piece of a text between two offsets.

## Main results

* `Text.slice?_eq_some_iff`: a slice is the middle of a text that comes in three parts.
* `Cursor.Walks.slice?_eq`: a walk over a text is a slice of it.
-/

namespace Pseudocode

/-- The piece of `source` from the byte `start` up to the byte `stop`. There is none if the offsets
are out of order, outside the text, or inside a code point. -/
def Text.slice? (source : String) (start stop : Nat) : Option String :=
  if start ≤ stop ∧ String.Pos.Raw.isValid source ⟨start⟩ ∧
      String.Pos.Raw.isValid source ⟨stop⟩ then
    some (String.Pos.Raw.extract source ⟨start⟩ ⟨stop⟩)
  else
    none

/-- The three parts of a text are cut at the bytes before and behind the middle one. -/
theorem Text.slice?_append (before text rest : String) :
    slice? (before ++ text ++ rest) before.utf8ByteSize
      (before.utf8ByteSize + text.utf8ByteSize) = some text := by
  have hstart : String.Pos.Raw.IsValid (before ++ text ++ rest) ⟨before.utf8ByteSize⟩ :=
    String.Pos.Raw.isValid_iff_exists_append.2
      ⟨before, text ++ rest, String.append_assoc, rfl⟩
  have hstop : String.Pos.Raw.IsValid (before ++ text ++ rest)
      ⟨before.utf8ByteSize + text.utf8ByteSize⟩ :=
    String.Pos.Raw.isValid_iff_exists_append.2
      ⟨before ++ text, rest, rfl, by rw [String.rawEndPos, String.utf8ByteSize_append]⟩
  rw [slice?, if_pos ⟨Nat.le_add_right _ _, String.Pos.Raw.isValid_eq_true_iff.2 hstart,
    String.Pos.Raw.isValid_eq_true_iff.2 hstop⟩]
  have hextract := String.extract_of_valid before.toList text.toList rest.toList
  simp only [String.ofList_append, String.ofList_toList, ← String.utf8ByteSize_ofList] at hextract
  rw [hextract]

/-- Of two ways to cut a text in two, the one with the longer first part goes further. -/
theorem Text.exists_append_eq {before behind upTo rest : String}
    (h : before ++ behind = upTo ++ rest) (hle : before.utf8ByteSize ≤ upTo.utf8ByteSize) :
    ∃ middle, upTo = before ++ middle := by
  have hlist : before.toList ++ behind.toList = upTo.toList ++ rest.toList := by
    rw [← String.toList_append, h, String.toList_append]
  rcases List.append_eq_append_iff.1 hlist with ⟨middle, hmiddle, -⟩ | ⟨extra, hextra, -⟩
  · refine ⟨String.ofList middle, String.toList_inj.1 ?_⟩
    rw [String.toList_append, String.toList_ofList, hmiddle]
  · have hbefore : before = upTo ++ String.ofList extra := by
      rw [← String.toList_inj, String.toList_append, String.toList_ofList, hextra]
    rw [hbefore, String.utf8ByteSize_append] at hle
    have hempty : String.ofList extra = "" := String.utf8ByteSize_eq_zero_iff.1 (by omega)
    exact ⟨"", by rw [hbefore, hempty, String.append_empty, String.append_empty]⟩

/-- A slice is the middle of a text that comes in three parts. -/
theorem Text.slice?_eq_some_iff {source text : String} {start stop : Nat} :
    slice? source start stop = some text ↔ ∃ before rest, source = before ++ text ++ rest ∧
      start = before.utf8ByteSize ∧ stop = before.utf8ByteSize + text.utf8ByteSize := by
  constructor
  · intro h
    have hvalid := h
    unfold slice? at hvalid
    split at hvalid
    · next hdomain =>
      obtain ⟨hle, hstart, hstop⟩ := hdomain
      obtain ⟨before, behind, hsource, hbefore⟩ := String.Pos.Raw.isValid_iff_exists_append.1
        (String.Pos.Raw.isValid_eq_true_iff.1 hstart)
      obtain ⟨upTo, rest, hsource', hupTo⟩ := String.Pos.Raw.isValid_iff_exists_append.1
        (String.Pos.Raw.isValid_eq_true_iff.1 hstop)
      cases hbefore
      cases hupTo
      obtain ⟨middle, rfl⟩ := exists_append_eq (hsource.symm.trans hsource') hle
      have hmiddle := slice?_append before middle rest
      rw [← hsource', ← String.utf8ByteSize_append] at hmiddle
      obtain rfl : middle = text := Option.some.inj (hmiddle.symm.trans h)
      exact ⟨before, rest, hsource', rfl, String.utf8ByteSize_append⟩
    · cases hvalid
  · rintro ⟨before, rest, rfl, rfl, rfl⟩
    exact slice?_append before text rest

/-- A part of a slice is a slice. -/
theorem Text.slice?_part {source before text rest : String} {start stop : Nat}
    (h : slice? source start stop = some (before ++ text ++ rest)) :
    slice? source (start + before.utf8ByteSize)
        (start + before.utf8ByteSize + text.utf8ByteSize) = some text ∧
      start + before.utf8ByteSize + text.utf8ByteSize ≤ stop := by
  obtain ⟨first, last, rfl, rfl, rfl⟩ := slice?_eq_some_iff.1 h
  refine ⟨slice?_eq_some_iff.2 ⟨first ++ before, rest ++ last, ?_, ?_, ?_⟩, ?_⟩
  · simp only [String.append_assoc]
  · rw [String.utf8ByteSize_append]
  · rw [String.utf8ByteSize_append]
  · simp only [String.utf8ByteSize_append]
    omega

namespace Cursor

variable {source : String} {before text : List Char} {c d : Cursor}

/-- A walk over a piece of the source is a slice of it. -/
theorem Walks.slice?_eq (hc : (ofSource source).Walks before c) (h : c.Walks text d) :
    Text.slice? source c.location.offset d.location.offset = some (String.ofList text) := by
  have hsource : source = String.ofList before ++ String.ofList text ++ String.ofList d.rest := by
    rw [← String.ofList_append, ← String.ofList_append, List.append_assoc, ← h.1, ← hc.1]
    exact String.ofList_toList.symm
  have hstart : c.location.offset = (String.ofList before).utf8ByteSize := by
    rw [hc.2, Location.offset_after]
    exact Nat.zero_add _
  rw [h.2, Location.offset_after, hstart]
  conv => lhs; rw [hsource]
  exact Text.slice?_append _ _ _

/-- All cursors on a source end at its last byte. -/
theorem Walks.offset_finish (hc : (ofSource source).Walks before c) :
    c.finish.location.offset = source.utf8ByteSize := by
  rw [hc.finish_eq, (walks_finish _).2, Location.offset_after]
  change 0 + (String.ofList source.toList).utf8ByteSize = source.utf8ByteSize
  rw [Nat.zero_add, String.ofList_toList]

/-- What a cursor has ahead is the slice up to the end. -/
theorem Walks.slice?_rest (hc : (ofSource source).Walks before c) :
    Text.slice? source c.location.offset source.utf8ByteSize = some (String.ofList c.rest) := by
  rw [← hc.offset_finish]
  exact hc.slice?_eq c.walks_finish

theorem walks_ofSource (source : String) : (ofSource source).Walks [] (ofSource source) :=
  ⟨rfl, rfl⟩

end Cursor

end Pseudocode

import Pseudocode.Proofs.Printing
import Pseudocode.Proofs.Reference

/-!
# Numerals

The decimal text of a 64-bit integer is not a single token: a negative one is a minus sign and a
number. Scanning it gives back its digits, and read as a factor it stands for the integer that was
written. Only the digits of the smallest integer do not fit, as the sign is not part of them.

## Main definitions

* `Lexeme.numeral`: the lexemes of the decimal text of an integer.

## Main results

* `Decimal.value_toDigits`: the digits of a number denote it.
* `Text.Lexes.numeral`: the decimal text of an integer is made of its lexemes.
* `Lexeme.flaws_numeral`: the smallest integer is the only one whose digits do not fit.
* `Derivation.Factor.exists_numeral`: the tokens of an integer are a factor with its value.
-/

namespace Pseudocode

open Token (Kind)

/-! ### Digits and signs -/

namespace Decimal

theorem toList_ofNat (n : Nat) : (ofNat n).toList = Nat.toDigits 10 n :=
  String.toList_ofList

/-- The digits of a number denote it. -/
theorem value_toDigits (n : Nat) : value (Nat.toDigits 10 n) = n :=
  Nat.ofDigitChars_toDigits (by decide) (by decide)

/-- Without its sign, every integer but the smallest one fits. -/
theorem natAbs_le_iff {v : Int64} : v.toInt.natAbs ≤ 2 ^ 63 - 1 ↔ v ≠ Int64.minValue := by
  have hlower := v.le_toInt
  have hupper := v.toInt_lt
  rw [Ne, ← Int64.toInt_inj, Int64.toInt_minValue]
  omega

/-- An integer is its digits behind its sign. -/
theorem ofNat_natAbs (v : Int64) :
    Int64.ofNat v.toInt.natAbs = if v < 0 then -v else v := by
  rw [← Int64.ofInt_eq_ofNat]
  by_cases hneg : v < 0
  · have habs : (v.toInt.natAbs : Int) = -v.toInt :=
      Int.ofNat_natAbs_of_nonpos (Int.le_of_lt (Int64.lt_iff_toInt_lt.1 hneg))
    rw [if_pos hneg, habs, Int64.ofInt_neg, Int64.ofInt_toInt]
  · have habs : (v.toInt.natAbs : Int) = v.toInt :=
      Int.natAbs_of_nonneg (Int.not_lt.1 fun h ↦ hneg (Int64.lt_iff_toInt_lt.2 h))
    rw [if_neg hneg, habs, Int64.ofInt_toInt]

end Decimal

/-! ### Lexemes of a numeral -/

namespace Lexeme

/-- The lexeme of a minus sign. -/
def minus : Lexeme :=
  { kind := .punctuator .minus, text := ['-'] }

/-- The lexemes of the decimal text of an integer. -/
def numeral (v : Int64) : List Lexeme :=
  if v < 0 then
    [minus, number (Nat.toDigits 10 v.toInt.natAbs)]
  else
    [number (Nat.toDigits 10 v.toInt.natAbs)]

theorem ofHead_minus (cs : List Char) : ofHead '-' cs = minus := by
  rw [ofHead_mark (by decide) (by decide) (by decide), mark_of_not_mem (by decide)]
  decide

/-- The smallest integer is the only one whose digits do not fit. -/
theorem flaws_numeral (v : Int64) : (numeral v).filterMap (·.flaw) =
    if v = Int64.minValue then [.invalidNumber] else [] := by
  have hnumber : (number (Nat.toDigits 10 v.toInt.natAbs)).flaw =
      if v.toInt.natAbs ≤ 2 ^ 63 - 1 then none else some .invalidNumber := by
    rw [flaw_number, Decimal.value_toDigits]
  unfold numeral
  by_cases hmin : v = Int64.minValue
  · rw [if_neg (mt Decimal.natAbs_le_iff.1 (not_not.2 hmin))] at hnumber
    rw [if_pos hmin]
    split <;> simp [minus, hnumber]
  · rw [if_pos (Decimal.natAbs_le_iff.2 hmin)] at hnumber
    rw [if_neg hmin]
    split <;> simp [minus, hnumber]

end Lexeme

namespace Text

variable {rest : List Char} {lexemes : List Lexeme}

/-- The digits of a number, before a space or the end of a text. -/
theorem Lexes.digits (n : Nat) (hrest : ∀ d ∈ rest.head?, d = ' ') (h : Lexes rest lexemes) :
    Lexes (Nat.toDigits 10 n ++ rest) (Lexeme.number (Nat.toDigits 10 n) :: lexemes) := by
  have hdigits : ∀ d ∈ Nat.toDigits 10 n, d.isDigit = true :=
    fun d hd ↦ Nat.isDigit_of_mem_toDigits (by decide) (by decide) hd
  obtain ⟨c, cs, hcs⟩ := List.exists_cons_of_ne_nil (Nat.toDigits_ne_nil : Nat.toDigits 10 n ≠ [])
  rw [hcs] at hdigits ⊢
  obtain ⟨hc, htail⟩ := List.forall_mem_cons.1 hdigits
  have hstop : ∀ d ∈ rest.head?, d.isDigit = false := by
    intro d hd
    rw [hrest d hd]
    decide
  have hread := Lexeme.ofHead_number hc htail hstop
  obtain ⟨hblank, hhash⟩ := Lexeme.not_isBlank_of_isWordPart (Lexeme.isWordPart_of_isDigit hc)
  rw [List.cons_append, ← hread]
  refine .lexeme hblank hhash ?_ h
  rw [hread, Lexeme.text_number]
  rfl

/-- The decimal text of an integer, before a space or the end of a text. -/
theorem Lexes.numeral (v : Int64) (hrest : ∀ d ∈ rest.head?, d = ' ') (h : Lexes rest lexemes) :
    Lexes ((Decimal.ofInt64 v).toList ++ rest) (Lexeme.numeral v ++ lexemes) := by
  have hdigits := h.digits v.toInt.natAbs hrest
  unfold Decimal.ofInt64 Lexeme.numeral
  split
  · rw [String.toList_append, Decimal.toList_ofNat, List.append_assoc]
    change Lexes ('-' :: (Nat.toDigits 10 v.toInt.natAbs ++ rest)) (Lexeme.minus :: _)
    rw [← Lexeme.ofHead_minus]
    refine .lexeme (by decide) (by decide) ?_ hdigits
    rw [Lexeme.ofHead_minus]
    rfl
  · rw [Decimal.toList_ofNat]
    exact hdigits

end Text

/-! ### Factors -/

namespace Derivation

/-- A token of digits is a factor with their value. -/
theorem Factor.exists_digits {n : Nat} {t : Token}
    (hkind : t.kind = (Lexeme.number (Nat.toDigits 10 n)).kind) (hordered : t.Ordered) :
    ∃ d : Factor, d.tokens = [t] ∧ ∀ env, d.denote env = .ok (Int64.ofNat n) := by
  rw [Lexeme.kind_number] at hkind
  refine ⟨.number ⟨t, _, congrArg Kind.number? hkind, hordered⟩, rfl, fun env ↦ ?_⟩
  rw [Factor.denote, String.toList_ofList, Decimal.value_toDigits]

/-- The tokens of an integer are a factor with its value, in every environment. -/
theorem Factor.exists_numeral {v : Int64} {ts : List Token}
    (hkinds : ts.map (·.kind) = (Lexeme.numeral v).map (·.kind)) (hordered : ∀ t ∈ ts, t.Ordered) :
    ∃ d : Factor, d.tokens = ts ∧ ∀ env, d.denote env = .ok v := by
  have hvalue := Decimal.ofNat_natAbs v
  unfold Lexeme.numeral at hkinds
  split at hkinds
  · next hneg =>
    rw [if_pos hneg] at hvalue
    rw [List.map_cons, List.map_eq_cons_iff] at hkinds
    obtain ⟨t, ts', rfl, hminus, hkinds⟩ := hkinds
    rw [List.map_singleton, List.map_eq_singleton_iff] at hkinds
    obtain ⟨u, rfl, hkind⟩ := hkinds
    obtain ⟨ht, hu⟩ := List.forall_mem_cons.1 hordered
    obtain ⟨operand, htokens, hdenote⟩ :=
      exists_digits hkind (hu u List.mem_cons_self)
    have hclass : Kind.ofClass? (.punctuator .minus) t.kind = some () := by
      rw [hminus]
      rfl
    refine ⟨.negative ⟨t, (), hclass, ht⟩ operand, congrArg (t :: ·) htokens, fun env ↦ ?_⟩
    rw [Factor.denote, hdenote, hvalue]
    exact congrArg Except.ok Int64.neg_neg
  · next hnonneg =>
    rw [if_neg hnonneg] at hvalue
    rw [List.map_singleton, List.map_eq_singleton_iff] at hkinds
    obtain ⟨t, rfl, hkind⟩ := hkinds
    rw [← hvalue]
    exact exists_digits hkind (hordered t List.mem_cons_self)

end Derivation

end Pseudocode

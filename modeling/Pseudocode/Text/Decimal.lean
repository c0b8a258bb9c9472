/-!
# Decimal numbers

Writing 64-bit integers in decimal, and reading digit strings back.

## Main definitions

* `Decimal.ofNat`, `Decimal.ofInt64`: the decimal text of a number.
* `Decimal.value`: the number that a string of digits denotes.
* `Decimal.int64?`: the same number as a 64-bit integer, if it fits.
-/

namespace Pseudocode.Decimal

/-- The decimal text of a natural number, without leading zeros. -/
def ofNat (n : Nat) : String :=
  String.ofList (Nat.toDigits 10 n)

/-- The decimal text of a 64-bit integer; a negative one starts with a minus sign. -/
def ofInt64 (v : Int64) : String :=
  if v < 0 then "-" ++ ofNat v.toInt.natAbs else ofNat v.toInt.natAbs

/-- The number that a string of decimal digits denotes, most significant digit first. -/
def value (digits : List Char) : Nat :=
  digits.foldl (fun n c ↦ 10 * n + (c.toNat - '0'.toNat)) 0

/-- The largest 64-bit integer, which is 2^63 - 1. -/
def largest : Nat := 9223372036854775807

/-- The 64-bit integer that a string of decimal digits denotes, unless it is too large. -/
def int64? (digits : List Char) : Option Int64 :=
  if value digits ≤ largest then some (Int64.ofNat (value digits)) else none

end Pseudocode.Decimal

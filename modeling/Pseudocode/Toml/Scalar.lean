import Pseudocode.Text.Decimal
import Pseudocode.Toml.Value

/-!
# TOML scalars

Numbers, truth values, dates and times. A scalar of these kinds is one run of characters without
blanks, and its form decides its kind; only a date and a time of day may have a space between them.

## Main definitions

* `Toml.integer?`, `Toml.isFloat`, `Toml.isDate`, `Toml.isTime`: the forms.
* `Toml.scalar?`: the value that a run of characters stands for.
-/

namespace Pseudocode.Toml

/-- Digits with single underscores between them; gives the digits alone. -/
def digits? (isDigit : Char → Bool) : List Char → Option (List Char)
  | [] => none
  | [c] => if isDigit c then some [c] else none
  | c :: '_' :: rest => if isDigit c then (digits? isDigit rest).map (c :: ·) else none
  | c :: rest => if isDigit c then (digits? isDigit rest).map (c :: ·) else none

/-- Decimal digits without a superfluous zero in front. -/
def decimal? (text : List Char) : Option (List Char) :=
  match digits? Char.isDigit text with
  | some ('0' :: _ :: _) => none
  | result => result

/-- The text behind an optional sign, and whether the sign is a minus. -/
def unsigned : List Char → Bool × List Char
  | '-' :: rest => (true, rest)
  | '+' :: rest => (false, rest)
  | text => (false, text)

/-- The number that a digit of a base up to sixteen stands for. -/
def digitValue (c : Char) : Nat :=
  if c.isDigit then c.toNat - '0'.toNat
  else if c.isLower then c.toNat - 'a'.toNat + 10
  else c.toNat - 'A'.toNat + 10

/-- Whether the character is a digit of the base, which is at most sixteen. -/
def isDigitOf (base : Nat) (c : Char) : Bool :=
  (c.isDigit || ('a' ≤ c && c ≤ 'f') || ('A' ≤ c && c ≤ 'F')) && digitValue c < base

/-- The number that digits of a base denote. -/
def ofDigits (base : Nat) (digits : List Char) : Nat :=
  digits.foldl (fun n c ↦ base * n + digitValue c) 0

/-- The whole number that a text denotes: decimal with an optional sign, or hexadecimal, octal or
binary without one. It has to fit in 64 bits. -/
def integer? (text : List Char) : Option Int :=
  let n : Option Int :=
    match text with
    | '0' :: 'x' :: rest => (digits? (isDigitOf 16) rest).map fun ds ↦ ofDigits 16 ds
    | '0' :: 'o' :: rest => (digits? (isDigitOf 8) rest).map fun ds ↦ ofDigits 8 ds
    | '0' :: 'b' :: rest => (digits? (isDigitOf 2) rest).map fun ds ↦ ofDigits 2 ds
    | text =>
      let (negative, rest) := unsigned text
      (decimal? rest).map fun ds ↦
        if negative then -(Decimal.value ds : Int) else (Decimal.value ds : Int)
  n.filter fun n ↦ Int64.minValue.toInt ≤ n && n ≤ Int64.maxValue.toInt

/-- Cuts a text before the first character that satisfies `p`. -/
def cutAt (p : Char → Bool) (text : List Char) : List Char × List Char :=
  (text.takeWhile (!p ·), text.dropWhile (!p ·))

/-- The exponent behind a number: 0 if nothing is there, else its mark and digits with an optional
sign. -/
def exponent? : List Char → Option Int
  | [] => some 0
  | _ :: rest =>
    let (negative, text) := unsigned rest
    (digits? Char.isDigit text).map fun ds ↦
      if negative then -(Decimal.value ds : Int) else (Decimal.value ds : Int)

/-- The digits behind a point, if there is a point. -/
def fraction? : List Char → Option (List Char)
  | [] => some []
  | _ :: text => digits? Char.isDigit text

/-- Whether the number `digits * 10 ^ exponent` lies closer to 2^1024 than to the largest float
below, or halfway between them. The bound has 309 digits, so only a number with as many needs a
closer look. -/
def isTooLarge (digits : List Char) (exponent : Int) : Bool :=
  let significant := digits.dropWhile (· == '0')
  let width : Int := significant.length + exponent
  if significant.isEmpty || width < 309 then
    false
  else if 309 < width then
    true
  else
    (Nat.pow 2 54 - 1) * Nat.pow 2 970 * Nat.pow 10 (-exponent).toNat ≤
      Decimal.value significant * Nat.pow 10 exponent.toNat

/-- Whether a text denotes a number with a fraction or an exponent, infinity or no number. A number
must not be too large; how far below zero it lies does not matter. -/
def isFloat (text : List Char) : Bool :=
  let (negative, rest) := unsigned text
  if rest = "inf".toList || rest = "nan".toList then
    true
  else
    let (mantissa, exponent) := cutAt (fun c ↦ c == 'e' || c == 'E') rest
    let (whole, fraction) := cutAt (· == '.') mantissa
    match decimal? whole, fraction? fraction, exponent? exponent with
    | some ws, some fs, some e =>
      !(fraction.isEmpty && exponent.isEmpty) &&
        (negative || !isTooLarge (ws ++ fs) (e - fs.length))
    | _, _, _ => false

/-- The number of days in a month of a year. -/
def daysIn (year month : Nat) : Nat :=
  if month = 2 then
    if year % 4 = 0 && (year % 100 != 0 || year % 400 = 0) then 29 else 28
  else if month = 4 || month = 6 || month = 9 || month = 11 then 30
  else 31

/-- The number that exactly `width` digits denote. -/
def field? (width : Nat) (text : List Char) : Option Nat :=
  if text.length = width && text.all Char.isDigit then some (Decimal.value text) else none

/-- Whether a text is a date, as in `1979-05-27`. -/
def isDate (text : List Char) : Bool :=
  match field? 4 (text.take 4), text.drop 4 with
  | some year, '-' :: m₁ :: m₂ :: '-' :: day =>
    match field? 2 [m₁, m₂], field? 2 day with
    | some month, some day =>
      1 ≤ month && month ≤ 12 && 1 ≤ day && day ≤ daysIn year month
    | _, _ => false
  | _, _ => false

/-- Whether a text is hours and minutes, as in `07:32`. -/
def isHourMinute (text : List Char) : Bool :=
  match text with
  | [h₁, h₂, ':', m₁, m₂] =>
    match field? 2 [h₁, h₂], field? 2 [m₁, m₂] with
    | some hour, some minute => hour < 24 && minute < 60
    | _, _ => false
  | _ => false

/-- Whether a text is a time of day, as in `07:32:00` or `07:32:00.5`. -/
def isTime (text : List Char) : Bool :=
  match text.drop 5 with
  | ':' :: s₁ :: s₂ :: fraction =>
    let secondsOk := (field? 2 [s₁, s₂]).any (· ≤ 60)
    let fractionOk :=
      match fraction with
      | [] => true
      | '.' :: ds => !ds.isEmpty && ds.all Char.isDigit
      | _ => false
    isHourMinute (text.take 5) && secondsOk && fractionOk
  | _ => false

/-- Whether a text is a time of day with an optional offset, as in `07:32:00Z` or
`07:32:00+01:00`. -/
def isTimeWithOffset (text : List Char) : Bool :=
  let (time, offset) := cutAt (fun c ↦ c == 'Z' || c == 'z' || c == '+' || c == '-') text
  let offsetOk :=
    match offset with
    | [] | ['Z'] | ['z'] => true
    | '+' :: rest | '-' :: rest => isHourMinute rest
    | _ => false
  isTime time && offsetOk

/-- Whether a text is a date, a time of day, or both with a `T` between them. -/
def isDatetime (text : List Char) : Bool :=
  isDate text || isTime text ||
    match text.drop 10 with
    | 'T' :: time | 't' :: time => isDate (text.take 10) && isTimeWithOffset time
    | _ => false

/-- The value of a scalar that is no string. -/
def scalar? (text : List Char) : Option Value :=
  if text = "true".toList then some (.boolean true)
  else if text = "false".toList then some (.boolean false)
  else if isDatetime text then some (.datetime (String.ofList text))
  else if isFloat text then some (.float (String.ofList text))
  else (integer? text).map .integer

end Pseudocode.Toml

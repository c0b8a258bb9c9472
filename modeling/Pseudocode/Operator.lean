import Pseudocode.Token.Basic

/-!
# Operators

The operators of expressions and what they compute on 64-bit integers. All infix operators bind
equally strongly. Arithmetic wraps around, and a truth value is the integer 0 or 1.

## Main definitions

* `Operator`: the thirteen operators.
* `Operator.ofKind?`: the infix operator that a token spells.
* `truthy`: which integers count as true.
* `Operator.value?`: the value of an operator on two operands.

## Main results

* `Operator.value?_eq_none_iff`: only a division by zero has no value.
-/

namespace Pseudocode

/-- The operators of expressions. `not` looks at its left operand only. -/
inductive Operator where
  | add
  | subtract
  | multiply
  | divide
  | less
  | greater
  | lessOrEqual
  | greaterOrEqual
  | equal
  | notEqual
  | and
  | or
  | not
deriving DecidableEq

/-- An integer counts as true unless it is zero. -/
def truthy (v : Int64) : Bool :=
  v ≠ 0

/-- The integer that stands for a truth value. -/
def ofTruth (b : Bool) : Int64 :=
  if b then 1 else 0

namespace Operator

/-- How the operator is spelled. -/
def text : Operator → String
  | add => "+"
  | subtract => "-"
  | multiply => "*"
  | divide => "/"
  | less => "<"
  | greater => ">"
  | lessOrEqual => "<="
  | greaterOrEqual => ">="
  | equal => "=="
  | notEqual => "!="
  | and => "et"
  | or => "ou"
  | not => "non"

/-- The operator that a token of this kind spells between two operands. -/
def ofKind? : Token.Kind → Option Operator
  | .punctuator .plus => some add
  | .punctuator .minus => some subtract
  | .punctuator .asterisk => some multiply
  | .punctuator .slash => some divide
  | .punctuator .less => some less
  | .punctuator .greater => some greater
  | .punctuator .lessOrEqual => some lessOrEqual
  | .punctuator .greaterOrEqual => some greaterOrEqual
  | .punctuator .equal => some equal
  | .punctuator .notEqual => some notEqual
  | .keyword .et => some and
  | .keyword .ou => some or
  | _ => none

/-- Whether the operator ignores its right operand. -/
def isUnary (op : Operator) : Bool :=
  op = not

/-- The value of `op` on two operands; division by zero has none. Sums, differences, products and
quotients are taken modulo 2^64, and a quotient is cut toward zero. -/
def value? (op : Operator) (a b : Int64) : Option Int64 :=
  match op with
  | add => some (a + b)
  | subtract => some (a - b)
  | multiply => some (a * b)
  | divide => if b = 0 then none else some (a / b)
  | less => some (ofTruth (a < b))
  | greater => some (ofTruth (b < a))
  | lessOrEqual => some (ofTruth (a ≤ b))
  | greaterOrEqual => some (ofTruth (b ≤ a))
  | equal => some (ofTruth (a = b))
  | notEqual => some (ofTruth (a ≠ b))
  | and => some (ofTruth (truthy a && truthy b))
  | or => some (ofTruth (truthy a || truthy b))
  | not => some (ofTruth (!truthy a))

theorem value?_eq_none_iff {op : Operator} {a b : Int64} :
    op.value? a b = none ↔ op = divide ∧ b = 0 := by
  cases op <;> simp [value?]

/-- An infix operator is spelled as its token is. -/
theorem text_of_ofKind? {kind : Token.Kind} {op : Operator} (h : ofKind? kind = some op) :
    kind.text = op.text := by
  unfold ofKind? at h
  split at h <;> cases h <;> rfl

end Operator

end Pseudocode

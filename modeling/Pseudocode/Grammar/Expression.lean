import Pseudocode.Grammar.Rule
import Pseudocode.Tree

/-!
# Grammar of expressions

```text
expression := factor { operator factor }
factor     := VARIABLE | INTEGER | "-" factor | "non" factor | "(" expression ")"
```

All infix operators bind equally strongly and associate to the left: `2 + 3 * 4` means
`(2 + 3) * 4`. A minus sign in front of a factor subtracts the factor from the literal `0`.

## Main definitions

* `Grammar.factor`: one operand.
* `Grammar.expression`: a chain of operands.
-/

namespace Pseudocode.Grammar

open Rule

/-- An infix operator, where it is written, and the operand behind it. -/
structure Link where
  /-- The operator. -/
  op : Operator
  /-- Where the operator is written. -/
  span : Span
  /-- The operand behind it. -/
  operand : Tree Symbol

/-- Applies the operator of a link to what stands before it. -/
def Link.attach (lhs : Tree Symbol) (link : Link) : Tree Symbol :=
  .binary link.op link.span lhs link.operand

/-- An operator that is known to come next, and the factor behind it. -/
def link (factor : Rule (Tree Symbol)) (op : Operator) : Rule Link := do
  let span ← spanOf (← peek)
  advance
  let operand ← factor
  pure { op, span, operand }

/-- A chain of factors, folded to the left. -/
def chain (factor : Rule (Tree Symbol)) : Rule (Tree Symbol) := do
  let first ← factor
  let links ← many Operator.ofKind? (link factor)
  pure (links.foldl Link.attach first)

/-- The literal that a leading minus sign subtracts from. -/
def zero : Symbol :=
  .literal "0" 0

/-- The forms of factors. -/
inductive Factor where
  /-- A variable or an integer literal. -/
  | leaf (s : Symbol)
  /-- A factor behind a minus sign. -/
  | negative
  /-- A factor behind `non`. -/
  | negated
  /-- An expression in parentheses. -/
  | group
deriving DecidableEq

/-- The form of the factors that start with a token of this kind. -/
def Factor.ofKind? : Token.Kind → Option Factor
  | .var name => some (.leaf (.var name))
  | .integer digits value => some (.leaf (.literal digits value))
  | .punctuator .minus => some .negative
  | .keyword .non => some .negated
  | .punctuator .leftParenthesis => some .group
  | _ => none

/-- One factor, when `self` reads the factors inside it. -/
def factorRule (self : Rule (Tree Symbol)) : Rule (Tree Symbol) := do
  let t ← peek
  match Factor.ofKind? t.kind with
  | some (.leaf s) =>
    advance
    pure (.cell (← meet s))
  | some .negative =>
    advance
    let lhs ← meet zero
    let operand ← self
    pure (.binary .subtract (← spanOf t) (.cell lhs) operand)
  | some .negated =>
    advance
    let operand ← self
    pure (.unary .not (← spanOf t) operand)
  | some .group => parenthesized (chain self)
  | none => fail .factor

/-- One operand of an expression. -/
def factor : Rule (Tree Symbol) :=
  nest (fail .factor) factorRule

/-- An expression. -/
def expression : Rule (Tree Symbol) :=
  chain factor

end Pseudocode.Grammar

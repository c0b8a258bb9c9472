import Pseudocode.Machine
import Pseudocode.Tree

/-!
# Evaluation of trees

Evaluating a tree gives its value. An expression is evaluated from left to right, both operands of
an operator always, even where the first one settles the result. An instruction does its work and
has the value 0. The first division by zero ends the evaluation; what was done before stays done.

Evaluation goes down the tree, so only a loop can keep it from ending. Every loop may go round
`bound` times; if none needs more, a larger bound changes nothing.

## Main definitions

* `Tree.eval`: evaluates a tree.
* `Tree.run`: evaluates a tree from a state.
-/

namespace Pseudocode.Tree

open Run

/-- The value of an operator that is written at `span`. -/
def operate (op : Operator) (span : Span) (a b : Int64) : Run Int64 :=
  match op.value? a b with
  | some v => pure v
  | none => throw (.divisionByZero span)

/-- The value of a right operand, which a unary operator does not look at. -/
def rightOperand (op : Operator) (rhs : Run Int64) : Run Int64 :=
  if op.isUnary then pure 0 else rhs

/-- One round of a loop: if the test holds, runs the body. Answers whether the test held. -/
def roundWhile (test : Run Int64) (body : Run Unit) : Run Bool := do
  if truthy (← test) then
    body
    pure true
  else
    pure false

/-- Shows the values of cells, a line each. -/
def showCells : List Nat → Run Unit
  | [] => pure ()
  | id :: ids => do
    print (Decimal.ofInt64 (← value id))
    showCells ids

mutual

/-- Evaluates a tree. No loop in it may go round more than `bound` times. -/
def eval (bound : Nat) : Tree Nat → Run Int64
  | sequence items => do
    evalList bound items
    pure 0
  | cell id => value id
  | assignment target expression => do
    note (.assignment (← Run.cell target).name)
    store target (← expression.eval bound)
    pure 0
  | binary op span lhs rhs => do
    let a ← lhs.eval bound
    let b ← rightOperand op (rhs.eval bound)
    operate op span a b
  | unary op span operand => do
    operate op span (← operand.eval bound) 0
  | ifThen condition body => do
    note .ifThen
    if truthy (← condition.eval bound) then
      discard (body.eval bound)
    pure 0
  | choice arms => do
    note (.choice arms.length)
    evalArms bound arms
    pure 0
  | whileDo condition body => do
    note .whileDo
    let count ← rounds (roundWhile (condition.eval bound) (discard (body.eval bound))) bound 0
    note (.finished .tantque count)
    pure 0
  | repeatUntil body condition => do
    note .repeatUntil
    let again ← rounds (do discard (body.eval bound); pure !truthy (← condition.eval bound)) bound 0
    note (.finished .repeter (again + 1))
    pure 0
  | forLoop init condition step body => do
    note .forLoop
    evalClause bound init
    let count ← rounds (roundWhile (condition.eval bound) (do
      discard (body.eval bound)
      evalClause bound step)) bound 0
    note (.finished .pour count)
    pure 0
  | read cells => do
    note (.read cells.length)
    showCells cells
    pure 0
  | write items => do
    note (.write items.length)
    evalItems bound items
    pure 0

/-- Evaluates trees one after the other. -/
def evalList (bound : Nat) : List (Tree Nat) → Run Unit
  | [] => pure ()
  | t :: ts => do
    discard (t.eval bound)
    evalList bound ts

/-- Evaluates the conditions of arms in turn, and runs the first arm whose condition holds. -/
def evalArms (bound : Nat) : List (Arm Nat) → Run Unit
  | [] => pure ()
  | .guarded condition body :: arms => do
    if truthy (← condition.eval bound) then discard (body.eval bound) else evalArms bound arms
  | .otherwise body :: _ => discard (body.eval bound)

/-- Does the assignment of a clause. -/
def evalClause (bound : Nat) : Clause Nat → Run Unit
  | .absent => pure ()
  | .assign target expression => do
    store target (← expression.eval bound)

/-- Shows items one after the other, a line each. -/
def evalItems (bound : Nat) : List (Item Nat) → Run Unit
  | [] => pure ()
  | .value expression :: items => do
    print (Decimal.ofInt64 (← expression.eval bound))
    evalItems bound items
  | .text contents :: items => do
    print contents
    evalItems bound items

end

/-- Evaluates a tree from the given state. Gives the result and the state at the end, or nothing if
a loop goes round more than `bound` times. -/
def run (tree : Tree Nat) (bound : Nat) (m : Machine) : Option (Except Fault Int64 × Machine) :=
  eval bound tree m

/-- More rounds than any loop lives to see. -/
def ampleBound : Nat := Nat.pow 2 62

end Pseudocode.Tree

import Pseudocode.Operator

/-!
# Program trees

A program is a tree of instructions and expressions. Expressions and instructions share one type:
whatever stands where a value is wanted is evaluated, and an instruction has the value 0. The
leaves do not hold values. They hold what stands for a variable or a literal: its symbol in a tree
that was just read, the index of its cell in a tree that is ready to run.

## Main definitions

* `Tree`: instructions and expressions over leaves of a given type.
* `Arm`, `Clause`, `Item`: the parts of a choice, of a counted loop and of an output instruction.
* `Tree.map`: the same tree over other leaves.
* `Tree.name`: what the node at the root is called.
* `Tree.append`: adds an instruction at the end of a sequence.

## Main results

* `Tree.beq_iff_eq`: trees can be compared.
-/

namespace Pseudocode

mutual

/-- A program, an instruction or an expression, with leaves in `α`. -/
inductive Tree (α : Type) where
  /-- Instructions one after the other. -/
  | sequence (items : List (Tree α))
  /-- The value of a variable or literal. -/
  | cell (id : α)
  /-- Gives a variable the value of an expression. -/
  | assignment (target : α) (expression : Tree α)
  /-- An operator, where it is written, and two operands. -/
  | binary (op : Operator) (span : Span) (lhs rhs : Tree α)
  /-- An operator, where it is written, and its left operand alone. -/
  | unary (op : Operator) (span : Span) (operand : Tree α)
  /-- Runs the body if the condition holds. -/
  | ifThen (condition body : Tree α)
  /-- Runs the first arm whose condition holds. -/
  | choice (arms : List (Arm α))
  /-- Runs the body as long as the condition holds. -/
  | whileDo (condition body : Tree α)
  /-- Runs the body until the condition holds, at least once. -/
  | repeatUntil (body condition : Tree α)
  /-- Runs the body and then the step as long as the condition holds, after an opening clause. -/
  | forLoop (init : Clause α) (condition : Tree α) (step : Clause α) (body : Tree α)
  /-- Shows the values of variables. -/
  | read (cells : List α)
  /-- Shows the values of expressions, and texts. -/
  | write (items : List (Item α))

/-- One arm of a choice. -/
inductive Arm (α : Type) where
  /-- An arm that is taken if its condition holds. -/
  | guarded (condition body : Tree α)
  /-- An arm that is taken whenever its turn comes. -/
  | otherwise (body : Tree α)

/-- The assignment that opens or advances a counted loop, if there is one. -/
inductive Clause (α : Type) where
  /-- No assignment. -/
  | absent
  /-- An assignment. -/
  | assign (target : α) (expression : Tree α)

/-- One item of an output instruction. -/
inductive Item (α : Type) where
  /-- An expression, shown by its value. -/
  | value (expression : Tree α)
  /-- A text, shown as it is. -/
  | text (contents : String)

end

namespace Tree

variable {α β : Type}

/-- The empty sequence. -/
instance : Inhabited (Tree α) := ⟨sequence []⟩

/-- What the node at the root is called. -/
def name : Tree α → String
  | sequence _ => "Sequence"
  | cell _ => "Cell"
  | assignment _ _ => "Assignment"
  | binary _ _ _ _ => "BinaryOp"
  | unary _ _ _ => "BinaryOp"
  | ifThen _ _ => "If"
  | choice _ => "RichIf"
  | whileDo _ _ => "While"
  | repeatUntil _ _ => "RepeatUntil"
  | forLoop _ _ _ _ => "For"
  | read _ => "Read"
  | write _ => "Write"

/-! ### Growing a sequence -/

/-- An instruction cannot be added to a node of this name, because it is no sequence. -/
structure AppendError where
  /-- The name of the node. -/
  node : String
deriving DecidableEq

/-- The message of the error. -/
def AppendError.message (e : AppendError) : String :=
  "Forbidden operation: an instruction can only be appended to a sequence, not to a `" ++ e.node ++
    "` node"

/-- Adds an instruction at the end of a sequence. Every other node has a fixed shape and refuses. -/
def append : Tree α → Tree α → Except AppendError (Tree α)
  | sequence items, instruction => .ok (sequence (items ++ [instruction]))
  | other, _ => .error { node := other.name }

/-! ### The same tree over other leaves -/

mutual

/-- Replaces every leaf, and every target of an assignment, by its image. -/
def map (f : α → β) : Tree α → Tree β
  | sequence items => sequence (mapList f items)
  | cell id => cell (f id)
  | assignment target expression => assignment (f target) (expression.map f)
  | binary op span lhs rhs => binary op span (lhs.map f) (rhs.map f)
  | unary op span operand => unary op span (operand.map f)
  | ifThen condition body => ifThen (condition.map f) (body.map f)
  | choice arms => choice (mapArms f arms)
  | whileDo condition body => whileDo (condition.map f) (body.map f)
  | repeatUntil body condition => repeatUntil (body.map f) (condition.map f)
  | forLoop init condition step body =>
    forLoop (mapClause f init) (condition.map f) (mapClause f step) (body.map f)
  | read cells => read (cells.map f)
  | write items => write (mapItems f items)

/-- `Tree.map` on every tree of a list. -/
def mapList (f : α → β) : List (Tree α) → List (Tree β)
  | [] => []
  | t :: ts => t.map f :: mapList f ts

/-- `Tree.map` inside every arm of a list. -/
def mapArms (f : α → β) : List (Arm α) → List (Arm β)
  | [] => []
  | .guarded condition body :: arms => .guarded (condition.map f) (body.map f) :: mapArms f arms
  | .otherwise body :: arms => .otherwise (body.map f) :: mapArms f arms

/-- `Tree.map` inside a clause. -/
def mapClause (f : α → β) : Clause α → Clause β
  | .absent => .absent
  | .assign target expression => .assign (f target) (expression.map f)

/-- `Tree.map` inside every item of a list. -/
def mapItems (f : α → β) : List (Item α) → List (Item β)
  | [] => []
  | .value expression :: items => .value (expression.map f) :: mapItems f items
  | .text contents :: items => .text contents :: mapItems f items

end

theorem mapList_eq_map (f : α → β) (ts : List (Tree α)) : mapList f ts = ts.map (·.map f) := by
  induction ts with
  | nil => rfl
  | cons t ts ih => rw [mapList, ih, List.map_cons]

/-! ### Comparing trees -/

section Comparison

variable [DecidableEq α]

mutual

/-- Whether two trees are the same, the places of their operators included. -/
def beq : Tree α → Tree α → Bool
  | sequence xs, sequence ys => beqList xs ys
  | cell x, cell y => decide (x = y)
  | assignment x e, assignment y f => decide (x = y) && beq e f
  | binary p s a b, binary q t c d => decide (p = q) && decide (s = t) && beq a c && beq b d
  | unary p s a, unary q t c => decide (p = q) && decide (s = t) && beq a c
  | ifThen a b, ifThen c d => beq a c && beq b d
  | choice xs, choice ys => beqArms xs ys
  | whileDo a b, whileDo c d => beq a c && beq b d
  | repeatUntil a b, repeatUntil c d => beq a c && beq b d
  | forLoop i a s b, forLoop j c t d =>
    beqClause i j && beq a c && beqClause s t && beq b d
  | read xs, read ys => decide (xs = ys)
  | write xs, write ys => beqItems xs ys
  | _, _ => false

/-- `Tree.beq` on two lists. -/
def beqList : List (Tree α) → List (Tree α) → Bool
  | [], [] => true
  | x :: xs, y :: ys => beq x y && beqList xs ys
  | _, _ => false

/-- `Tree.beq` on two lists of arms. -/
def beqArms : List (Arm α) → List (Arm α) → Bool
  | [], [] => true
  | .guarded a b :: xs, .guarded c d :: ys => beq a c && beq b d && beqArms xs ys
  | .otherwise b :: xs, .otherwise d :: ys => beq b d && beqArms xs ys
  | _, _ => false

/-- `Tree.beq` on two clauses. -/
def beqClause : Clause α → Clause α → Bool
  | .absent, .absent => true
  | .assign x e, .assign y f => decide (x = y) && beq e f
  | _, _ => false

/-- `Tree.beq` on two lists of items. -/
def beqItems : List (Item α) → List (Item α) → Bool
  | [], [] => true
  | .value e :: xs, .value f :: ys => beq e f && beqItems xs ys
  | .text s :: xs, .text t :: ys => decide (s = t) && beqItems xs ys
  | _, _ => false

end

mutual

theorem beq_iff_eq : ∀ x y : Tree α, beq x y = true ↔ x = y
  | sequence _, y => by cases y <;> simp [beq, beqList_iff_eq]
  | cell _, y => by cases y <;> simp [beq]
  | assignment _ _, y => by cases y <;> simp [beq, beq_iff_eq]
  | binary _ _ _ _, y => by cases y <;> simp [beq, beq_iff_eq, and_assoc]
  | unary _ _ _, y => by cases y <;> simp [beq, beq_iff_eq, and_assoc]
  | ifThen _ _, y => by cases y <;> simp [beq, beq_iff_eq]
  | choice _, y => by cases y <;> simp [beq, beqArms_iff_eq]
  | whileDo _ _, y => by cases y <;> simp [beq, beq_iff_eq]
  | repeatUntil _ _, y => by cases y <;> simp [beq, beq_iff_eq]
  | forLoop _ _ _ _, y => by cases y <;> simp [beq, beq_iff_eq, beqClause_iff_eq, and_assoc]
  | read _, y => by cases y <;> simp [beq]
  | write _, y => by cases y <;> simp [beq, beqItems_iff_eq]
termination_by structural x => x

theorem beqList_iff_eq : ∀ xs ys : List (Tree α), beqList xs ys = true ↔ xs = ys
  | [], ys => by cases ys <;> simp [beqList]
  | _ :: _, ys => by cases ys <;> simp [beqList, beq_iff_eq, beqList_iff_eq]
termination_by structural x => x

theorem beqArms_iff_eq : ∀ xs ys : List (Arm α), beqArms xs ys = true ↔ xs = ys
  | [], ys => by cases ys <;> simp [beqArms]
  | .guarded _ _ :: _, [] => by simp [beqArms]
  | .guarded _ _ :: _, y :: _ => by cases y <;> simp [beqArms, beq_iff_eq, beqArms_iff_eq]
  | .otherwise _ :: _, [] => by simp [beqArms]
  | .otherwise _ :: _, y :: _ => by cases y <;> simp [beqArms, beq_iff_eq, beqArms_iff_eq]
termination_by structural x => x

theorem beqClause_iff_eq : ∀ x y : Clause α, beqClause x y = true ↔ x = y
  | .absent, y => by cases y <;> simp [beqClause]
  | .assign _ _, y => by cases y <;> simp [beqClause, beq_iff_eq]
termination_by structural x => x

theorem beqItems_iff_eq : ∀ xs ys : List (Item α), beqItems xs ys = true ↔ xs = ys
  | [], ys => by cases ys <;> simp [beqItems]
  | .value _ :: _, [] => by simp [beqItems]
  | .value _ :: _, y :: _ => by cases y <;> simp [beqItems, beq_iff_eq, beqItems_iff_eq]
  | .text _ :: _, [] => by simp [beqItems]
  | .text _ :: _, y :: _ => by cases y <;> simp [beqItems, beqItems_iff_eq]
termination_by structural x => x

end

instance : DecidableEq (Tree α) := fun x y ↦ decidable_of_iff _ (beq_iff_eq x y)

end Comparison

end Tree

end Pseudocode

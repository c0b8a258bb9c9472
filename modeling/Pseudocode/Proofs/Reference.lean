import Pseudocode.Operator
import Pseudocode.Proofs.Derivation.Basic

/-!
# What programs mean

A meaning of programs that knows nothing of cells, tables and trees. It follows the derivation of a
program and works on an environment that gives every name a value. A literal is the number that its
digits denote, and a minus sign is negation.

Expressions have a value, or fail at the operator where they divide by zero. Instructions relate
the state they start from to how they end and to the state they leave. An instruction that does not
end is related to nothing.

## Main definitions

* `Reference.Env`, `Reference.State`: the values of names, and the lines shown so far.
* `Reference.Ending`: how an instruction ends.
* `Reference.Effect`: what an instruction does, with the ways to put effects together.
* `Derivation.Expression.denote`: the value of an expression.
* `Derivation.Instruction.effect`, `Derivation.Program.effect`: the meaning of instructions and
  programs.
-/

namespace Pseudocode

namespace Reference

/-- The values of all names. -/
abbrev Env : Type :=
  String → Int64

/-- The state of a program. -/
structure State where
  /-- The values of the variables. -/
  env : Env := fun _ ↦ 0
  /-- The lines shown so far. -/
  lines : List String := []

/-- How an instruction ends. -/
inductive Ending where
  /-- It is done. -/
  | done
  /-- The right operand of the division written here is zero. -/
  | divisionByZero (span : Span)
deriving DecidableEq

/-- The value of an expression in an environment, or where it divides by zero. -/
abbrev Value : Type :=
  Env → Except Span Int64

/-- What an instruction does: from which state, how it ends, and which state it leaves. -/
abbrev Effect : Type :=
  State → Ending → State → Prop

namespace Effect

/-- Does nothing. -/
inductive Skip : Effect
  | mk (s : State) : Skip s .done s

/-- Gives a name a value. -/
inductive Assign (name : String) (v : Int64) : Effect
  | mk (s : State) :
      Assign name v s .done { s with env := fun x ↦ if x = name then v else s.env x }

/-- Shows a line. -/
inductive Show (line : String) : Effect
  | mk (s : State) : Show line s .done { s with lines := s.lines ++ [line] }

/-- One effect after the other. A division by zero in the first one ends both. -/
inductive Then (first second : Effect) : Effect
  | stop {s s' : State} {span : Span} (h : first s (.divisionByZero span) s') :
      Then first second s (.divisionByZero span) s'
  | next {s s' s'' : State} {ending : Ending} (h : first s .done s')
      (h' : second s' ending s'') : Then first second s ending s''

/-- Goes on with the value of an expression. -/
inductive With (value : Value) (next : Int64 → Effect) : Effect
  | stop {s : State} {span : Span} (h : value s.env = .error span) :
      With value next s (.divisionByZero span) s
  | next {s s' : State} {v : Int64} {ending : Ending} (h : value s.env = .ok v)
      (h' : next v s ending s') : With value next s ending s'

/-- Does the first effect if the test holds, and the second one if not. -/
def test (value : Value) (yes no : Effect) : Effect :=
  With value fun v ↦ if truthy v then yes else no

/-- Repeats the body as long as the test holds, which is looked at before each round. -/
inductive While (value : Value) (body : Effect) : Effect
  | fault {s : State} {span : Span} (h : value s.env = .error span) :
      While value body s (.divisionByZero span) s
  | finish {s : State} {v : Int64} (h : value s.env = .ok v) (hv : truthy v = false) :
      While value body s .done s
  | stop {s s' : State} {v : Int64} {span : Span} (h : value s.env = .ok v) (hv : truthy v = true)
      (h' : body s (.divisionByZero span) s') : While value body s (.divisionByZero span) s'
  | again {s s' s'' : State} {v : Int64} {ending : Ending} (h : value s.env = .ok v)
      (hv : truthy v = true) (h' : body s .done s') (h'' : While value body s' ending s'') :
      While value body s ending s''

/-- Repeats the body until the test holds, which is looked at behind each round. -/
inductive Until (body : Effect) (value : Value) : Effect
  | stop {s s' : State} {span : Span} (h : body s (.divisionByZero span) s') :
      Until body value s (.divisionByZero span) s'
  | fault {s s' : State} {span : Span} (h : body s .done s') (h' : value s'.env = .error span) :
      Until body value s (.divisionByZero span) s'
  | finish {s s' : State} {v : Int64} (h : body s .done s') (h' : value s'.env = .ok v)
      (hv : truthy v = true) : Until body value s .done s'
  | again {s s' s'' : State} {v : Int64} {ending : Ending} (h : body s .done s')
      (h' : value s'.env = .ok v) (hv : truthy v = false)
      (h'' : Until body value s' ending s'') : Until body value s ending s''

end Effect

end Reference

namespace Derivation

open Reference Effect

/-! ### Expressions -/

mutual

/-- The value of a factor. -/
def Factor.denote (env : Env) : Factor → Except Span Int64
  | .var x => .ok (env x.value)
  | .number x => .ok (Int64.ofNat (Decimal.value x.value.1.toList))
  | .negative _ operand =>
    match operand.denote env with
    | .ok v => .ok (-v)
    | .error span => .error span
  | .negated _ operand =>
    match operand.denote env with
    | .ok v => .ok (ofTruth (!truthy v))
    | .error span => .error span
  | .group _ inner _ => inner.denote env

/-- The value of an expression: its factors from left to right, each operator as soon as its right
operand is known. -/
def Expression.denote (env : Env) : Expression → Except Span Int64
  | .chain first links =>
    match first.denote env with
    | .ok v => Link.denoteAll env v links
    | .error span => .error span

/-- The value of an operator on what stands before it and the factor behind it. -/
def Link.denote (env : Env) (lhs : Int64) : Link → Except Span Int64
  | .mk op operand =>
    match operand.denote env with
    | .ok v =>
      match op.value.value? lhs v with
      | some result => .ok result
      | none => .error op.span
    | .error span => .error span

/-- The value of links in order. -/
def Link.denoteAll (env : Env) (lhs : Int64) : List Link → Except Span Int64
  | [] => .ok lhs
  | link :: links =>
    match link.denote env lhs with
    | .ok v => Link.denoteAll env v links
    | .error span => .error span

end

/-! ### Instructions -/

/-- Gives the target the value of the expression. -/
def Assignment.effect (a : Assignment) : Effect :=
  With (a.value.denote ·) (Assign a.target.value)

/-- The effect of an assignment that may be absent. -/
def Assignment.effect? : Option Assignment → Effect
  | none => Skip
  | some a => a.effect

/-- Shows an item. -/
def Item.effect : Item → Effect
  | .text contents => Show contents.value
  | .value expression => With (expression.denote ·) fun v ↦ Show (Decimal.ofInt64 v)

/-- Shows items in order. -/
def Item.effectAll : List Item → Effect
  | [] => Skip
  | item :: items => Then item.effect (Item.effectAll items)

/-- Shows the values of variables in order. -/
def Variable.effectAll : List Variable → Effect
  | [] => Skip
  | x :: xs => Then (With (fun env ↦ .ok (env x.value)) fun v ↦ Show (Decimal.ofInt64 v))
    (Variable.effectAll xs)

mutual

/-- The effect of an instruction. -/
def Instruction.effect : Instruction → Effect
  | .assignment a _ => a.effect
  | .ifThen _ condition body _ => test (condition.inner.denote ·) body.effect Skip
  | .choice _ condition body tail => test (condition.inner.denote ·) body.effect tail.effect
  | .repeatUntil _ body _ condition => Until body.effect (condition.inner.denote ·)
  | .whileDo _ condition body _ => While (condition.inner.denote ·) body.effect
  | .forLoop _ _ init _ condition _ step _ body _ =>
    Then (Assignment.effect? init)
      (While (condition.denote ·) (Then body.effect (Assignment.effect? step)))
  | .write _ items => Item.effectAll items.inner.toList
  | .read _ cells => Variable.effectAll cells.inner.toList

/-- The effect of a sequence. -/
def Sequence.effect : Sequence → Effect
  | .mk first others => Then first.effect (Instruction.effectAll others)

/-- The effect of instructions in order. -/
def Instruction.effectAll : List Instruction → Effect
  | [] => Skip
  | i :: is => Then i.effect (Instruction.effectAll is)

/-- The effect of an arm with a condition, and of what comes behind it if the condition fails. -/
def Guarded.effect (behind : Effect) : Guarded → Effect
  | .mk _ condition body => test (condition.inner.denote ·) body.effect behind

/-- The effect of arms in order: at most one of them is taken. -/
def Guarded.effectAll (behind : Effect) : List Guarded → Effect
  | [] => behind
  | arm :: arms => arm.effect (Guarded.effectAll behind arms)

/-- The effect of the arm without a condition. -/
def Otherwise.effect : Otherwise → Effect
  | .mk _ body => body.effect

/-- The effect of an arm without a condition that may be absent. -/
def Otherwise.effect? : Option Otherwise → Effect
  | none => Skip
  | some arm => arm.effect

/-- The effect of a tail. -/
def Tail.effect : Tail → Effect
  | .guarded first others last _ =>
    first.effect (Guarded.effectAll (Otherwise.effect? last) others)
  | .otherwise last _ => last.effect

end

/-- The effect of a program. -/
def Program.effect (p : Program) : Effect :=
  p.body.effect

end Derivation

end Pseudocode

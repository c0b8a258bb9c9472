import Pseudocode.Grammar.Expression

/-!
# Grammar of instructions

```text
sequence    := instruction { instruction }
instruction := assignment ";"
             | "si" condition sequence { "sinonsi" condition sequence } [ "sinon" sequence ] "finsi"
             | "repeter" sequence "jusqua" condition
             | "tantque" condition sequence "fintantque"
             | "pour" "(" [assignment] ";" expression ";" [assignment] ")" sequence "finpour"
             | "ecrire" "(" item { "," item } ")"
             | "lire" "(" VARIABLE { "," VARIABLE } ")"
assignment  := VARIABLE "=" expression
condition   := "(" expression ")"
item        := STRING | expression
```

An instruction that cannot be read is given up: the reader notes the error, skips the token that it
stopped at and everything up to the next token that can start an instruction, and tries again from
there. Only when no such token is left does the error reach whoever asked for the instruction.

## Main definitions

* `Grammar.Form`: the forms of instructions, told apart by their first token.
* `Grammar.instruction`: one instruction, with recovery.
* `Grammar.sequence`: instructions one after the other.
-/

namespace Pseudocode.Grammar

open Rule

/-- The forms of instructions. -/
inductive Form where
  | assignment
  | ifThen
  | repeatUntil
  | whileDo
  | forLoop
  | write
  | read
deriving DecidableEq

/-- The form of the instructions that start with a token of this kind. -/
def Form.ofKind? : Token.Kind → Option Form
  | .var _ => some .assignment
  | .keyword .si => some .ifThen
  | .keyword .repeter => some .repeatUntil
  | .keyword .tantque => some .whileDo
  | .keyword .pour => some .forLoop
  | .keyword .ecrire => some .write
  | .keyword .lire => some .read
  | _ => none

/-- Whether an instruction can start with the token. -/
def startsInstruction (t : Token) : Bool :=
  (Form.ofKind? t.kind).isSome

/-! ### The parts of instructions -/

/-- A variable. -/
def variableName : Rule Symbol := do
  match (← peek).kind.name? with
  | some name =>
    advance
    meet (.var name)
  | none => fail (.token .var)

/-- A variable, the assignment mark and an expression. -/
def assignment : Rule (Symbol × Tree Symbol) := do
  let target ← variableName
  mark .assign
  let value ← expression
  pure (target, value)

/-- An assignment, unless the mark that closes its place comes next. -/
def clauseBefore (closing : Punctuator) : Rule (Clause Symbol) := do
  if (← peek).kind = .punctuator closing then
    pure .absent
  else
    let (target, value) ← assignment
    pure (.assign target value)

/-- An expression in parentheses. -/
def condition : Rule (Tree Symbol) :=
  parenthesized expression

/-- A text or an expression to show. -/
def item : Rule (Item Symbol) := do
  match (← peek).kind.contents? with
  | some contents =>
    advance
    pure (.text contents)
  | none => pure (.value (← expression))

/-- Instructions one after the other, at least one. -/
def sequenceOf (instruction : Rule (Tree Symbol)) : Rule (Tree Symbol) := do
  let first ← instruction
  let others ← many Form.ofKind? fun _ ↦ instruction
  pure (.sequence (first :: others))

/-- A further arm with a condition. -/
def guardedArm (instruction : Rule (Tree Symbol)) : Rule (Arm Symbol) := do
  keyword .sinonsi
  let test ← condition
  let body ← sequenceOf instruction
  pure (.guarded test body)

/-- The arm without a condition, if there is one. -/
def lastArm (instruction : Rule (Tree Symbol)) : Rule (List (Arm Symbol)) := do
  if (← peek).kind = .keyword .sinon then
    advance
    let body ← sequenceOf instruction
    pure [.otherwise body]
  else
    pure []

/-- The arms behind the first one. -/
def furtherArms (instruction : Rule (Tree Symbol)) : Rule (List (Arm Symbol)) := do
  let guarded ← many (fun kind ↦ if kind = .keyword .sinonsi then some () else none) fun _ ↦
    guardedArm instruction
  let last ← lastArm instruction
  pure (guarded ++ last)

/-! ### The forms -/

/-- A condition with its instructions. With no further arm it stands alone, else it opens a
choice. -/
def ifThen (instruction : Rule (Tree Symbol)) : Rule (Tree Symbol) := do
  keyword .si
  let test ← condition
  let body ← sequenceOf instruction
  let arms ← furtherArms instruction
  keyword .finsi
  pure (if arms.isEmpty then .ifThen test body else .choice (.guarded test body :: arms))

/-- Instructions that run until a condition holds. -/
def repeatUntil (instruction : Rule (Tree Symbol)) : Rule (Tree Symbol) := do
  keyword .repeter
  let body ← sequenceOf instruction
  keyword .jusqua
  let test ← condition
  pure (.repeatUntil body test)

/-- Instructions that run as long as a condition holds. -/
def whileDo (instruction : Rule (Tree Symbol)) : Rule (Tree Symbol) := do
  keyword .tantque
  let test ← condition
  let body ← sequenceOf instruction
  keyword .fintantque
  pure (.whileDo test body)

/-- A counted loop. -/
def forLoop (instruction : Rule (Tree Symbol)) : Rule (Tree Symbol) := do
  keyword .pour
  mark .leftParenthesis
  let init ← clauseBefore .semicolon
  mark .semicolon
  let test ← expression
  mark .semicolon
  let step ← clauseBefore .rightParenthesis
  mark .rightParenthesis
  let body ← sequenceOf instruction
  keyword .finpour
  pure (.forLoop init test step body)

/-- One instruction of a given form. -/
def formRule (instruction : Rule (Tree Symbol)) : Form → Rule (Tree Symbol)
  | .assignment => do
    let (target, value) ← assignment
    mark .semicolon
    pure (.assignment target value)
  | .ifThen => ifThen instruction
  | .repeatUntil => repeatUntil instruction
  | .whileDo => whileDo instruction
  | .forLoop => forLoop instruction
  | .write => do
    keyword .ecrire
    let items ← parenthesized (list item)
    pure (.write items)
  | .read => do
    keyword .lire
    let cells ← parenthesized (list variableName)
    pure (.read cells)

/-- One instruction without recovery, when `self` reads the instructions inside it. -/
def bareInstruction (self : Rule (Tree Symbol)) : Rule (Tree Symbol) := do
  match Form.ofKind? (← peek).kind with
  | some form => formRule self form
  | none => fail .instruction

/-- One instruction with recovery, when `self` reads the instructions inside it and those that are
tried after an error. -/
def instructionRule (self : Rule (Tree Symbol)) : Rule (Tree Symbol) := do
  match ← attempt (bareInstruction self) with
  | .ok tree =>
    leave (.understood tree.name)
    pure tree
  | .error e =>
    leave (.discarded e)
    advance
    skipUntil startsInstruction
    if ← atEnd then stop (.syntactic e) else self

/-- One instruction, or the first one behind those that were given up. -/
def instruction : Rule (Tree Symbol) :=
  nest (fail .instruction) instructionRule

/-- Instructions one after the other, at least one. -/
def sequence : Rule (Tree Symbol) :=
  sequenceOf instruction

end Pseudocode.Grammar

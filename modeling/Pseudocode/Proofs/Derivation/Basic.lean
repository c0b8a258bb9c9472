import Pseudocode.Grammar.Program

/-!
# Derivations of the grammar

A derivation says how a list of tokens comes from the productions of the grammar. It keeps every
token that it derives, so its tokens in order are the list, and what it derives is told by the
types: there is one type of derivations for each production, with one constructor for each of its
alternatives.

```text
program    := "procedure" "principale" "(" ")" seqInst "finproc"
seqInst    := inst { inst }
inst       := assignment ";" | ifInst | repeatInst | whileInst | forInst | writeInst | readInst
assignment := VARIABLE "=" expression
expression := factor { binOp factor }
factor     := VARIABLE | INTEGER | "-" factor | "non" factor | "(" expression ")"
ifInst     := "si" "(" expression ")" seqInst ( richIfTail | "finsi" )
richIfTail := { "sinonsi" "(" expression ")" seqInst } [ "sinon" seqInst ] "finsi"
repeatInst := "repeter" seqInst "jusqua" "(" expression ")"
whileInst  := "tantque" "(" expression ")" seqInst "fintantque"
forInst    := "pour" "(" [assignment] ";" expression ";" [assignment] ")" seqInst "finpour"
readInst   := "lire" "(" VARIABLE { "," VARIABLE } ")"
writeInst  := "ecrire" "(" (expression|STRING) { "," (expression|STRING) } ")"
```

A tail of arms has at least one arm, so that it does not overlap with `"finsi"` alone.

## Main definitions

* `Derivation.Terminal`: a token of a given class.
* `Derivation.Factor`, `Derivation.Expression`, `Derivation.Instruction`, `Derivation.Sequence`,
  `Derivation.Program`: derivations from the productions.
* `Derivation.Program.tokens`: the tokens that a derivation derives.
* `Derivation.Program.tree`: the tree that a derivation stands for.
-/

namespace Pseudocode

namespace Token.Kind

/-- The digits of an integer literal and its value, and nothing for every other kind. -/
def number? : Kind → Option (String × Int64)
  | integer digits value => some (digits, value)
  | _ => none

/-- Whether the kind is of the given class, as an answer without further contents. -/
def ofClass? (c : Category) (kind : Kind) : Option Unit :=
  if kind.category = c then some () else none

end Token.Kind

namespace Derivation

open Token (Kind Category)

/-! ### Terminals -/

/-- A token that `read` has an answer for, with its locations in order. -/
structure Terminal {α : Type} (read : Kind → Option α) where
  /-- The token. -/
  token : Token
  /-- What is read from it. -/
  value : α
  /-- The token is of the right kind. -/
  read_kind : read token.kind = some value
  /-- The token does not run backwards. -/
  ordered : token.Ordered

/-- A token of a class that has only one spelling: a keyword or a mark. -/
abbrev Fixed (c : Category) : Type :=
  Terminal (Kind.ofClass? c)

/-- A given keyword. -/
abbrev Word (k : Keyword) : Type :=
  Fixed (.keyword k)

/-- A given mark. -/
abbrev Mark (p : Punctuator) : Type :=
  Fixed (.punctuator p)

/-- A variable. -/
abbrev Variable : Type :=
  Terminal Kind.name?

/-- An integer literal. -/
abbrev Number : Type :=
  Terminal Kind.number?

/-- A string literal. -/
abbrev Quotation : Type :=
  Terminal Kind.contents?

/-- An infix operator. -/
abbrev Infix : Type :=
  Terminal Operator.ofKind?

/-- The stretch of text that a terminal covers. -/
def Terminal.span {α : Type} {read : Kind → Option α} (t : Terminal read) : Span :=
  { start := t.token.start, stop := t.token.stop, ordered := t.ordered }

/-- The symbol of a variable. -/
def Variable.symbol (x : Variable) : Symbol :=
  .var x.value

/-- The symbol of an integer literal. -/
def Number.symbol (x : Number) : Symbol :=
  .literal x.value.1 x.value.2

/-! ### Expressions -/

mutual

/-- A derivation from `factor`. -/
inductive Factor where
  | var (x : Variable)
  | number (x : Number)
  | negative (sign : Mark .minus) (operand : Factor)
  | negated (word : Word .non) (operand : Factor)
  | group (opening : Mark .leftParenthesis) (inner : Expression)
      (closing : Mark .rightParenthesis)

/-- A derivation from `expression`. -/
inductive Expression where
  | chain (first : Factor) (links : List Link)

/-- One round of the repetition in `expression`. -/
inductive Link where
  | mk (op : Infix) (operand : Factor)

end

/-- Something between parentheses. -/
structure Enclosed (D : Type) where
  opening : Mark .leftParenthesis
  inner : D
  closing : Mark .rightParenthesis

/-- Something, and more of it, each behind a comma. -/
structure Listed (D : Type) where
  first : D
  others : List (Mark .comma × D)

/-- An expression between parentheses. -/
abbrev Condition : Type :=
  Enclosed Expression

/-! ### Instructions -/

/-- A derivation from `assignment`. -/
structure Assignment where
  target : Variable
  mark : Mark .assign
  value : Expression

/-- One item of `writeInst`. -/
inductive Item where
  | text (contents : Quotation)
  | value (expression : Expression)

mutual

/-- A derivation from `inst`. -/
inductive Instruction where
  | assignment (a : Assignment) (semicolon : Mark .semicolon)
  | ifThen (si : Word .si) (test : Condition) (body : Sequence) (finsi : Word .finsi)
  | choice (si : Word .si) (test : Condition) (body : Sequence) (tail : Tail)
  | repeatUntil (repeter : Word .repeter) (body : Sequence) (jusqua : Word .jusqua)
      (test : Condition)
  | whileDo (tantque : Word .tantque) (test : Condition) (body : Sequence)
      (fintantque : Word .fintantque)
  | forLoop (pour : Word .pour) (opening : Mark .leftParenthesis) (init : Option Assignment)
      (semicolon : Mark .semicolon) (test : Expression) (semicolon' : Mark .semicolon)
      (step : Option Assignment) (closing : Mark .rightParenthesis) (body : Sequence)
      (finpour : Word .finpour)
  | write (ecrire : Word .ecrire) (items : Enclosed (Listed Item))
  | read (lire : Word .lire) (cells : Enclosed (Listed Variable))

/-- A derivation from `seqInst`. -/
inductive Sequence where
  | mk (first : Instruction) (others : List Instruction)

/-- One round of the repetition in `richIfTail`. -/
inductive Guarded where
  | mk (sinonsi : Word .sinonsi) (test : Condition) (body : Sequence)

/-- The option in `richIfTail`. -/
inductive Otherwise where
  | mk (sinon : Word .sinon) (body : Sequence)

/-- A derivation from `richIfTail` with at least one arm. -/
inductive Tail where
  | guarded (first : Guarded) (others : List Guarded) (last : Option Otherwise)
      (finsi : Word .finsi)
  | otherwise (last : Otherwise) (finsi : Word .finsi)

end

/-- A derivation from `program`. -/
structure Program where
  procedure : Word .procedure
  principale : Word .principale
  opening : Mark .leftParenthesis
  closing : Mark .rightParenthesis
  body : Sequence
  finproc : Word .finproc

/-! ### The tokens of a derivation -/

mutual

/-- The tokens of a factor. -/
def Factor.tokens : Factor → List Token
  | .var x => [x.token]
  | .number x => [x.token]
  | .negative sign operand => sign.token :: operand.tokens
  | .negated word operand => word.token :: operand.tokens
  | .group opening inner closing => opening.token :: (inner.tokens ++ [closing.token])

/-- The tokens of an expression. -/
def Expression.tokens : Expression → List Token
  | .chain first links => first.tokens ++ Link.tokensAll links

/-- The tokens of an operator and its operand. -/
def Link.tokens : Link → List Token
  | .mk op operand => op.token :: operand.tokens

/-- The tokens of links in order. -/
def Link.tokensAll : List Link → List Token
  | [] => []
  | link :: links => link.tokens ++ Link.tokensAll links

end

/-- The tokens between two parentheses, and the parentheses. -/
def Enclosed.tokens {D : Type} (inner : D → List Token) (e : Enclosed D) : List Token :=
  e.opening.token :: (inner e.inner ++ [e.closing.token])

/-- The tokens of a list, and its commas. -/
def Listed.tokens {D : Type} (item : D → List Token) (l : Listed D) : List Token :=
  item l.first ++ l.others.flatMap fun other ↦ other.1.token :: item other.2

/-- The tokens of a condition. -/
def Condition.tokens (test : Condition) : List Token :=
  Enclosed.tokens Expression.tokens test

/-- The tokens of an assignment. -/
def Assignment.tokens (a : Assignment) : List Token :=
  a.target.token :: a.mark.token :: a.value.tokens

/-- The tokens of an assignment that may be absent. -/
def Assignment.tokens? : Option Assignment → List Token
  | none => []
  | some a => a.tokens

/-- The tokens of an item. -/
def Item.tokens : Item → List Token
  | .text contents => [contents.token]
  | .value expression => expression.tokens

mutual

/-- The tokens of an instruction. -/
def Instruction.tokens : Instruction → List Token
  | .assignment a semicolon => a.tokens ++ [semicolon.token]
  | .ifThen si test body finsi => si.token :: (test.tokens ++ (body.tokens ++ [finsi.token]))
  | .choice si test body tail => si.token :: (test.tokens ++ (body.tokens ++ tail.tokens))
  | .repeatUntil repeter body jusqua test =>
    repeter.token :: (body.tokens ++ (jusqua.token :: test.tokens))
  | .whileDo tantque test body fintantque =>
    tantque.token :: (test.tokens ++ (body.tokens ++ [fintantque.token]))
  | .forLoop pour opening init semicolon test semicolon' step closing body finpour =>
    pour.token :: opening.token :: (Assignment.tokens? init ++ (semicolon.token ::
      (test.tokens ++ (semicolon'.token :: (Assignment.tokens? step ++ (closing.token ::
        (body.tokens ++ [finpour.token])))))))
  | .write ecrire items => ecrire.token :: items.tokens (Listed.tokens Item.tokens)
  | .read lire cells => lire.token :: cells.tokens (Listed.tokens fun x ↦ [x.token])

/-- The tokens of a sequence. -/
def Sequence.tokens : Sequence → List Token
  | .mk first others => first.tokens ++ Instruction.tokensAll others

/-- The tokens of instructions in order. -/
def Instruction.tokensAll : List Instruction → List Token
  | [] => []
  | i :: is => i.tokens ++ Instruction.tokensAll is

/-- The tokens of an arm with a condition. -/
def Guarded.tokens : Guarded → List Token
  | .mk sinonsi test body => sinonsi.token :: (test.tokens ++ body.tokens)

/-- The tokens of arms in order. -/
def Guarded.tokensAll : List Guarded → List Token
  | [] => []
  | arm :: arms => arm.tokens ++ Guarded.tokensAll arms

/-- The tokens of the arm without a condition. -/
def Otherwise.tokens : Otherwise → List Token
  | .mk sinon body => sinon.token :: body.tokens

/-- The tokens of an arm without a condition that may be absent. -/
def Otherwise.tokens? : Option Otherwise → List Token
  | none => []
  | some arm => arm.tokens

/-- The tokens of a tail. -/
def Tail.tokens : Tail → List Token
  | .guarded first others last finsi =>
    first.tokens ++ (Guarded.tokensAll others ++ (Otherwise.tokens? last ++ [finsi.token]))
  | .otherwise last finsi => last.tokens ++ [finsi.token]

end

/-- The tokens of a program. -/
def Program.tokens (p : Program) : List Token :=
  p.procedure.token :: p.principale.token :: p.opening.token :: p.closing.token ::
    (p.body.tokens ++ [p.finproc.token])

/-! ### The tree of a derivation -/

mutual

/-- The tree of a factor: a minus sign subtracts from the literal `0`, and `non` has no right
operand. -/
def Factor.tree : Factor → Tree Symbol
  | .var x => .cell x.symbol
  | .number x => .cell x.symbol
  | .negative sign operand => .binary .subtract sign.span (.cell (.literal "0" 0)) operand.tree
  | .negated word operand => .unary .not word.span operand.tree
  | .group _ inner _ => inner.tree

/-- The tree of an expression. -/
def Expression.tree : Expression → Tree Symbol
  | .chain first links => Link.attachAll first.tree links

/-- What stands before a link becomes the left operand of its operator. -/
def Link.attach (lhs : Tree Symbol) : Link → Tree Symbol
  | .mk op operand => .binary op.value op.span lhs operand.tree

/-- Links are attached one after the other, so a chain leans to the left. -/
def Link.attachAll (lhs : Tree Symbol) : List Link → Tree Symbol
  | [] => lhs
  | link :: links => Link.attachAll (link.attach lhs) links

end

/-- The items of a list in order. -/
def Listed.toList {D : Type} (l : Listed D) : List D :=
  l.first :: l.others.map (·.2)

/-- The clause of an assignment that may be absent. -/
def Assignment.clause : Option Assignment → Clause Symbol
  | none => .absent
  | some a => .assign a.target.symbol a.value.tree

/-- An item as a part of a tree. -/
def Item.part : Item → Pseudocode.Item Symbol
  | .text contents => .text contents.value
  | .value expression => .value expression.tree

mutual

/-- The tree of an instruction. A condition with no further arm stands alone; otherwise it opens a
choice. -/
def Instruction.tree : Instruction → Tree Symbol
  | .assignment a _ => .assignment a.target.symbol a.value.tree
  | .ifThen _ test body _ => .ifThen test.inner.tree body.tree
  | .choice _ test body tail => .choice (.guarded test.inner.tree body.tree :: tail.arms)
  | .repeatUntil _ body _ test => .repeatUntil body.tree test.inner.tree
  | .whileDo _ test body _ => .whileDo test.inner.tree body.tree
  | .forLoop _ _ init _ test _ step _ body _ =>
    .forLoop (Assignment.clause init) test.tree (Assignment.clause step) body.tree
  | .write _ items => .write (items.inner.toList.map Item.part)
  | .read _ cells => .read (cells.inner.toList.map Variable.symbol)

/-- The tree of a sequence. -/
def Sequence.tree : Sequence → Tree Symbol
  | .mk first others => .sequence (first.tree :: Instruction.treeAll others)

/-- The trees of instructions in order. -/
def Instruction.treeAll : List Instruction → List (Tree Symbol)
  | [] => []
  | i :: is => i.tree :: Instruction.treeAll is

/-- An arm with a condition. -/
def Guarded.arm : Guarded → Arm Symbol
  | .mk _ test body => .guarded test.inner.tree body.tree

/-- Arms in order. -/
def Guarded.arms : List Guarded → List (Arm Symbol)
  | [] => []
  | arm :: arms => arm.arm :: Guarded.arms arms

/-- The arm without a condition. -/
def Otherwise.arm : Otherwise → Arm Symbol
  | .mk _ body => .otherwise body.tree

/-- The arm without a condition, if there is one. -/
def Otherwise.arms : Option Otherwise → List (Arm Symbol)
  | none => []
  | some arm => [arm.arm]

/-- The arms of a tail in order, the one without a condition last. -/
def Tail.arms : Tail → List (Arm Symbol)
  | .guarded first others last _ => first.arm :: (Guarded.arms others ++ Otherwise.arms last)
  | .otherwise last _ => [last.arm]

end

/-- The tree of a program. -/
def Program.tree (p : Program) : Tree Symbol :=
  p.body.tree

end Derivation

end Pseudocode

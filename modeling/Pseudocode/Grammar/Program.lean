import Pseudocode.Grammar.Instruction

/-!
# Grammar of programs

```text
program := "procedure" "principale" "(" ")" sequence "finproc" END_OF_INPUT
```

## Main definitions

* `Grammar.program`: the rule of a whole program.
* `Reading`: a reader in the middle of its work: what is ahead of it, and its trail so far.
* `Reading.program`, `Reading.expression`: reads a program or an expression.
* `Tree.resolve`: puts cells in the place of symbols.
-/

namespace Pseudocode

/-- Puts the indices of cells in the place of symbols. -/
def Tree.resolve (t : Table) (tree : Tree Symbol) : Tree Nat :=
  tree.map fun s ↦ t.indexOf s.text

/-- A whole program, up to the end of input. -/
def Grammar.program : Rule (Tree Symbol) := do
  Rule.keyword .procedure
  Rule.keyword .principale
  Rule.mark .leftParenthesis
  Rule.mark .rightParenthesis
  let body ← Grammar.sequence
  Rule.keyword .finproc
  Rule.expect .endOfInput
  pure body

/-- What a reader has ahead and the trail it left. -/
structure Reading where
  /-- The tokens ahead. -/
  stream : Stream
  /-- The trail so far. -/
  trail : List Event := []

namespace Reading

/-- The reader at the start of a list of tokens. -/
def ofTokens (tokens : List Token) : Reading :=
  { stream := Stream.ofTokens tokens }

/-- The cells of all symbols met so far. -/
def table (r : Reading) : Table :=
  Trail.table r.trail

/-- The errors noted so far. -/
def diagnostics (r : Reading) : List SyntaxError :=
  Trail.diagnostics r.trail

/-- Runs a rule and goes on behind it. -/
def run {α : Type} (r : Reading) (rule : Rule α) : Except Failure α × Reading :=
  let o := rule r.stream
  (o.result, { stream := o.rest, trail := r.trail ++ o.events })

/-- Puts the cells of this reading in the place of the symbols of a tree. -/
def resolve (r : Reading) (tree : Tree Symbol) : Tree Nat :=
  tree.resolve r.table

/-- Reads an expression. -/
def expression (r : Reading) : Except Failure (Tree Symbol) × Reading :=
  r.run Grammar.expression

/-- Notes that the program as a whole is given up, if that is how a rule ended. -/
def noteFailure {α : Type} (r : Reading) (result : Except Failure α) : Reading :=
  match result with
  | .error (.syntactic e) => { r with trail := r.trail ++ [Event.rejected e] }
  | _ => r

/-- Reads a program. A program that cannot be read is noted as an error, and any error noted so far,
in this program or before, makes the reading fail with the first of them. -/
def program (r : Reading) : Except Failure (Tree Symbol) × Reading :=
  let (result, after) := r.run Grammar.program
  let after := after.noteFailure result
  match result, after.diagnostics with
  | .error (.unordered t), _ => (.error (.unordered t), after)
  | _, first :: _ => (.error (.syntactic first), after)
  | _, [] => (result, after)

end Reading

end Pseudocode

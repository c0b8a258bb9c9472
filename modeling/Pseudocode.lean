import Pseudocode.Main
import Pseudocode.Proofs.CorrectPrefix
import Pseudocode.Proofs.Refinement
import Pseudocode.Proofs.Tokenization
import Pseudocode.Proofs.Positions
import Pseudocode.Proofs.Closure
import Pseudocode.Proofs.Diagnostics
import Pseudocode.Proofs.Domain
import Pseudocode.Proofs.History
import Pseudocode.Proofs.Numbering
import Pseudocode.Proofs.Termination
import Pseudocode.Proofs.Relocation.Evaluation
import Pseudocode.Proofs.Translation.Reading
import Pseudocode.Proofs.Layout
import Pseudocode.Proofs.AllOrNothing
import Pseudocode.Proofs.Nodes
import Pseudocode.Proofs.Division
import Pseudocode.Proofs.Chain
import Pseudocode.Proofs.Isolation
import Pseudocode.Proofs.Footprint
import Pseudocode.Proofs.Arithmetic
import Pseudocode.Proofs.Endings
import Pseudocode.Proofs.Iterations
import Pseudocode.Proofs.Desugaring
import Pseudocode.Proofs.Delimiters
import Pseudocode.Proofs.LineBreaks
import Pseudocode.Proofs.Flaws
import Pseudocode.Proofs.Printing
import Pseudocode.Proofs.Numerals
import Pseudocode.Proofs.Calculation
import Pseudocode.Proofs.Derivation.Substitution
import Pseudocode.Proofs.Substitution
import Pseudocode.Proofs.Excerpts
import Pseudocode.Proofs.Replay
import Pseudocode.Proofs.Renaming

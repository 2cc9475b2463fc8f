import EvalOrder.Checked.Report
import EvalOrder.Checked.Stages
import EvalOrder.Journal
import EvalOrder.Main
import EvalOrder.Proofs.Command
import EvalOrder.Proofs.Dependencies
import EvalOrder.Proofs.Faultless.Planning
import EvalOrder.Proofs.Locality
import EvalOrder.Proofs.Pairs
import EvalOrder.Proofs.Pointing
import EvalOrder.Proofs.Slices
import EvalOrder.Theory.Decomposition
import EvalOrder.Theory.Direct
import EvalOrder.Theory.Grammar
import EvalOrder.Theory.Placement
import EvalOrder.Theory.Substitution
import EvalOrder.Proofs.Binding
import EvalOrder.Proofs.Tree
import EvalOrder.Proofs.Placement
import EvalOrder.Proofs.RoundTrip
import EvalOrder.Theory.Nesting
import EvalOrder.Theory.Imbalance
import EvalOrder.Theory.Unresolved
import EvalOrder.Proofs.Substitution
import EvalOrder.Proofs.Nesting
import EvalOrder.Proofs.Imbalance
import EvalOrder.Proofs.Unresolved
import EvalOrder.Theory.Ownership
import EvalOrder.Proofs.Ownership
import EvalOrder.Proofs.Decomposition
import EvalOrder.Proofs.Tokenization
import EvalOrder.Proofs.Aliases
import EvalOrder.Proofs.Repetition
import EvalOrder.Proofs.Adjoining
import EvalOrder.Proofs.Regions
import EvalOrder.Proofs.Cutting
import EvalOrder.Proofs.Walking

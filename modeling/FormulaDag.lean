import FormulaDag.Formula
import FormulaDag.Registry
import FormulaDag.Proofs.Branches
import FormulaDag.Proofs.Contexts.Expansion
import FormulaDag.Proofs.Formula.History
import FormulaDag.Proofs.Formula.Reconfiguration
import FormulaDag.Proofs.Evaluation.Recursion
import FormulaDag.Proofs.Formula.Renumbering
import FormulaDag.Proofs.Formula.Reloading
import FormulaDag.Proofs.Formula.Overflow
import FormulaDag.Proofs.Formula.Permutation
import FormulaDag.Proofs.Expression.Compilation
import FormulaDag.Proofs.Rule.Numerals
import FormulaDag.Proofs.Formula.Faults
import FormulaDag.Proofs.Evaluation.Insertion
import FormulaDag.Proofs.Formula.Insertion
import FormulaDag.Proofs.Contexts.Doubling
import FormulaDag.Proofs.Contexts.Calls
import FormulaDag.Proofs.Pool.Brackets
import FormulaDag.Proofs.Leaf.Grammar
import FormulaDag.Proofs.Leaf.Product
import FormulaDag.Proofs.Pool.Hygiene
import FormulaDag.Proofs.Pool.Termination
import FormulaDag.Proofs.Evaluation.Search
import FormulaDag.Proofs.Source.Acceptance
import FormulaDag.Proofs.Source.Spacing
import FormulaDag.Proofs.Rule.Classification
import FormulaDag.Proofs.Evaluation.NormalForm
import FormulaDag.Proofs.Formula.Splitting
import FormulaDag.Proofs.Formula.Outline
import FormulaDag.Proofs.Formula.Coverage
import FormulaDag.Proofs.Formula.Arguments
import FormulaDag.Proofs.Registration
import FormulaDag.Proofs.Pool.Freezing
import FormulaDag.Proofs.Scanning
import FormulaDag.Proofs.Rule.Leftmost
import FormulaDag.Proofs.Enumeration
import FormulaDag.Proofs.Source.Parentheses
import FormulaDag.Proofs.Dag.Closure

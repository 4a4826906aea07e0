import DependencyResolution.Command.Arguments
import DependencyResolution.Command.Output
import DependencyResolution.Command.Verdict
import DependencyResolution.Data.Datum
import DependencyResolution.Data.Json.Reader
import DependencyResolution.Data.Json.Writer
import DependencyResolution.Data.Yaml.Cursor
import DependencyResolution.Data.Yaml.Reader
import DependencyResolution.Data.Yaml.Scalar
import DependencyResolution.Data.Yaml.Token
import DependencyResolution.Explanation.Basic
import DependencyResolution.Explanation.Collapse
import DependencyResolution.Explanation.Outline
import DependencyResolution.Index.Basic
import DependencyResolution.Index.File
import DependencyResolution.Main
import DependencyResolution.Number.Double
import DependencyResolution.Number.Shortest
import DependencyResolution.OrderedMap
import DependencyResolution.PackageTable
import DependencyResolution.Proofs.Explanation.Building
import DependencyResolution.Proofs.Explanation.Collapse
import DependencyResolution.Proofs.Explanation.Folding
import DependencyResolution.Proofs.Explanation.Graph
import DependencyResolution.Proofs.Explanation.Outline
import DependencyResolution.Proofs.Explanation.Preorder
import DependencyResolution.Proofs.Explanation.Recursion
import DependencyResolution.Proofs.Explanation.Refutation
import DependencyResolution.Proofs.Explanation.Repetition
import DependencyResolution.Proofs.Explanation.Sharing
import DependencyResolution.Proofs.Explanation.Shortening
import DependencyResolution.Proofs.Explanation.Stack
import DependencyResolution.Proofs.Explanation.Unfolding
import DependencyResolution.Proofs.Index.Entries
import DependencyResolution.Proofs.OrderedMap
import DependencyResolution.Proofs.Outcome
import DependencyResolution.Proofs.PackageTable
import DependencyResolution.Proofs.PackageTable.EntryOrder
import DependencyResolution.Proofs.Solver.Admitted
import DependencyResolution.Proofs.Solver.Analysis
import DependencyResolution.Proofs.Solver.Answer
import DependencyResolution.Proofs.Solver.Backtrack
import DependencyResolution.Proofs.Solver.Breaking
import DependencyResolution.Proofs.Solver.Catalogue
import DependencyResolution.Proofs.Solver.Closure
import DependencyResolution.Proofs.Solver.Coherence
import DependencyResolution.Proofs.Solver.Completeness
import DependencyResolution.Proofs.Solver.Composition
import DependencyResolution.Proofs.Solver.Conflict
import DependencyResolution.Proofs.Solver.Dependency
import DependencyResolution.Proofs.Solver.Derivation
import DependencyResolution.Proofs.Solver.Discipline
import DependencyResolution.Proofs.Solver.Fact
import DependencyResolution.Proofs.Solver.FirstSatisfied
import DependencyResolution.Proofs.Solver.History
import DependencyResolution.Proofs.Solver.Incompatibility
import DependencyResolution.Proofs.Solver.Index
import DependencyResolution.Proofs.Solver.Insertion
import DependencyResolution.Proofs.Solver.Invariant
import DependencyResolution.Proofs.Solver.Joining
import DependencyResolution.Proofs.Solver.Justification
import DependencyResolution.Proofs.Solver.Knowledge
import DependencyResolution.Proofs.Solver.Listing
import DependencyResolution.Proofs.Solver.Marks
import DependencyResolution.Proofs.Solver.Moment
import DependencyResolution.Proofs.Solver.Operation
import DependencyResolution.Proofs.Solver.Picking
import DependencyResolution.Proofs.Solver.Potential
import DependencyResolution.Proofs.Solver.Preservation
import DependencyResolution.Proofs.Solver.PreviousSatisfier
import DependencyResolution.Proofs.Solver.Provenance
import DependencyResolution.Proofs.Solver.Quiescence
import DependencyResolution.Proofs.Solver.Registration
import DependencyResolution.Proofs.Solver.Resolution
import DependencyResolution.Proofs.Solver.Run
import DependencyResolution.Proofs.Solver.Safety
import DependencyResolution.Proofs.Solver.Satisfier
import DependencyResolution.Proofs.Solver.Session
import DependencyResolution.Proofs.Solver.Soundness
import DependencyResolution.Proofs.Solver.Standing
import DependencyResolution.Proofs.Solver.Step
import DependencyResolution.Proofs.Solver.Stopping
import DependencyResolution.Proofs.Solver.Store
import DependencyResolution.Proofs.Solver.Term
import DependencyResolution.Proofs.Solver.Termination
import DependencyResolution.Proofs.Solver.Trail
import DependencyResolution.Proofs.Solver.Vocabulary
import DependencyResolution.Proofs.Text.Blank
import DependencyResolution.Proofs.Text.Joined
import DependencyResolution.Proofs.Version.Algebra
import DependencyResolution.Proofs.Version.Built
import DependencyResolution.Proofs.Version.Constraint
import DependencyResolution.Proofs.Version.Discrete
import DependencyResolution.Proofs.Version.Fewest
import DependencyResolution.Proofs.Version.Grammar
import DependencyResolution.Proofs.Version.Lawful
import DependencyResolution.Proofs.Version.Printing
import DependencyResolution.Proofs.Version.Ranges
import DependencyResolution.Proofs.Version.Semantic
import DependencyResolution.Proofs.Version.Simplify
import DependencyResolution.Provider
import DependencyResolution.Solver.Incompatibility
import DependencyResolution.Solver.PartialSolution
import DependencyResolution.Solver.Priority
import DependencyResolution.Solver.Propagation
import DependencyResolution.Solver.Resolve
import DependencyResolution.Solver.Satisfier
import DependencyResolution.Solver.Session
import DependencyResolution.Solver.State
import DependencyResolution.Solver.Store
import DependencyResolution.Solver.Term
import DependencyResolution.Solver.Text
import DependencyResolution.Solver.Violation
import DependencyResolution.Text.Blank
import DependencyResolution.Text.Digit
import DependencyResolution.Text.Layout
import DependencyResolution.Text.Printable
import DependencyResolution.Text.Shown
import DependencyResolution.Text.Table
import DependencyResolution.Text.Width
import DependencyResolution.Version.Bound
import DependencyResolution.Version.Constraint
import DependencyResolution.Version.Ranges.Basic
import DependencyResolution.Version.Ranges.Text
import DependencyResolution.Version.Semantic
import DependencyResolution.Version.Set

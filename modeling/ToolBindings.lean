import ToolBindings.Main
import ToolBindings.Tree.Equality
import ToolBindings.Proofs.Arena
import ToolBindings.Proofs.Record
import ToolBindings.Proofs.Sweep
import ToolBindings.Proofs.Flatten
import ToolBindings.Proofs.Prune
import ToolBindings.Proofs.Simplify
import ToolBindings.Proofs.Canonical
import ToolBindings.Proofs.Pass
import ToolBindings.Proofs.Round
import ToolBindings.Proofs.NormalForm
import ToolBindings.Proofs.Size
import ToolBindings.Proofs.Reorder
import ToolBindings.Proofs.Convergence
import ToolBindings.Proofs.Places
import ToolBindings.Proofs.CopyOnWrite
import ToolBindings.Proofs.Postorder
import ToolBindings.Proofs.Outline
import ToolBindings.Proofs.Registry
import ToolBindings.Proofs.Coverage
import ToolBindings.Proofs.Scalars
import ToolBindings.Proofs.Arguments
import ToolBindings.Proofs.PlainText
import ToolBindings.Proofs.SimplifyArguments
import ToolBindings.Proofs.Yield
import ToolBindings.Proofs.Choice
import ToolBindings.Proofs.Variants
import ToolBindings.Proofs.Lexemes
import ToolBindings.Proofs.Blanks
import ToolBindings.Proofs.Quoting
import ToolBindings.Proofs.Fragments
import ToolBindings.Proofs.KeyOrder
import ToolBindings.Proofs.Building
import ToolBindings.Proofs.Unplaced
import ToolBindings.Proofs.Image
import ToolBindings.Proofs.Shuffled
import ToolBindings.Proofs.Equality
import ToolBindings.Proofs.ChoiceOrder
import ToolBindings.Proofs.Labels
import ToolBindings.Proofs.Locations
import ToolBindings.Proofs.Shortest
import ToolBindings.Proofs.NumberText
import ToolBindings.Proofs.Skeleton
import ToolBindings.Proofs.Duplicates
import ToolBindings.Proofs.Preserve
import ToolBindings.Proofs.Formed
import ToolBindings.Proofs.Bounds
import ToolBindings.Proofs.Unions
import ToolBindings.Proofs.Lasting
import ToolBindings.Proofs.Exclusive
import ToolBindings.Proofs.Like
import ToolBindings.Proofs.Together
import ToolBindings.Proofs.SameResults
import ToolBindings.Proofs.FlattenArguments
import ToolBindings.Proofs.PruneArguments
import ToolBindings.Proofs.OneSweep
import ToolBindings.Proofs.Flags
import ToolBindings.Proofs.Fields
import ToolBindings.Proofs.Findings
import ToolBindings.Proofs.Accepted
import ToolBindings.Proofs.References
import ToolBindings.Proofs.Dropped
import ToolBindings.Proofs.DoubleValue
import ToolBindings.Proofs.IntegerBounds
import ToolBindings.Proofs.Gathered
import ToolBindings.Proofs.Insertions
import ToolBindings.Proofs.Imports
import ToolBindings.Proofs.Traversal
import ToolBindings.Proofs.Equivalence
import ToolBindings.Proofs.Merging

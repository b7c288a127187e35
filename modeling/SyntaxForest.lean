import SyntaxForest.Builder
import SyntaxForest.Proofs.Links
import SyntaxForest.Proofs.Relisting
import SyntaxForest.Proofs.Ensures
import SyntaxForest.Proofs.LinkSteps
import SyntaxForest.Proofs.Ancestors
import SyntaxForest.Proofs.Attaching
import SyntaxForest.Proofs.Growth
import SyntaxForest.Proofs.Rearranging
import SyntaxForest.Proofs.RangeReplacement
import SyntaxForest.Proofs.Subtrees
import SyntaxForest.Proofs.Copies
import SyntaxForest.Proofs.Edits
import SyntaxForest.Proofs.Refusals
import SyntaxForest.Proofs.Runs
import SyntaxForest.Proofs.Soundness
import SyntaxForest.Proofs.Faults
import SyntaxForest.Proofs.Outcomes
import SyntaxForest.Proofs.CycleCheck
import SyntaxForest.Proofs.Filtering
import SyntaxForest.Proofs.Confinement
import SyntaxForest.Proofs.Footprints
import SyntaxForest.Proofs.Readings
import SyntaxForest.Proofs.Commutation
import SyntaxForest.Proofs.OperatorChains
import SyntaxForest.Proofs.Serials
import SyntaxForest.Proofs.Persistence
import SyntaxForest.Proofs.Transfers
import SyntaxForest.Proofs.Replacement
import SyntaxForest.Proofs.RootChange
import SyntaxForest.Proofs.LinkCheck
import SyntaxForest.Proofs.SlotEdits
import SyntaxForest.Proofs.Splicing
import SyntaxForest.Proofs.TreeCopies
import SyntaxForest.Proofs.AttachingPaths
import SyntaxForest.Proofs.SiblingMoves
import SyntaxForest.Proofs.RangeExchange
import SyntaxForest.Proofs.Spelling
import SyntaxForest.Proofs.WrittenForms
import SyntaxForest.Proofs.Lineages
import SyntaxForest.Proofs.StreamText
import SyntaxForest.Proofs.Unwrapping
import SyntaxForest.Proofs.ErrorSpans

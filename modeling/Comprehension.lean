import Comprehension.Normalize.Pass
import Comprehension.Proofs.Assembly
import Comprehension.Proofs.Canonical
import Comprehension.Proofs.CanonicalForm
import Comprehension.Proofs.Captures
import Comprehension.Proofs.ClauseOrder
import Comprehension.Proofs.CleanForm
import Comprehension.Proofs.Cleaning
import Comprehension.Proofs.Collection
import Comprehension.Proofs.Construction
import Comprehension.Proofs.Desugaring
import Comprehension.Proofs.ElementTypes
import Comprehension.Proofs.EliminationOutcome
import Comprehension.Proofs.Evaluation
import Comprehension.Proofs.FailurePoint
import Comprehension.Proofs.Footprint
import Comprehension.Proofs.FreeNames
import Comprehension.Proofs.Grammar
import Comprehension.Proofs.Growth
import Comprehension.Proofs.Idempotence
import Comprehension.Proofs.Interning
import Comprehension.Proofs.Layer
import Comprehension.Proofs.Layout
import Comprehension.Proofs.Ledger
import Comprehension.Proofs.Legibility
import Comprehension.Proofs.Locality
import Comprehension.Proofs.Matching
import Comprehension.Proofs.MeaningPreservation
import Comprehension.Proofs.Numbering
import Comprehension.Proofs.Operands
import Comprehension.Proofs.Program
import Comprehension.Proofs.Ranking
import Comprehension.Proofs.Readability
import Comprehension.Proofs.Reading
import Comprehension.Proofs.Recognition
import Comprehension.Proofs.Records
import Comprehension.Proofs.ReferenceSafety
import Comprehension.Proofs.Refinement
import Comprehension.Proofs.Relabelling
import Comprehension.Proofs.Resolution
import Comprehension.Proofs.Scoping
import Comprehension.Proofs.Sessions
import Comprehension.Proofs.Shape
import Comprehension.Proofs.SharedReferences
import Comprehension.Proofs.Simulation
import Comprehension.Proofs.Spelling
import Comprehension.Proofs.Step
import Comprehension.Proofs.Subtree
import Comprehension.Proofs.TreePass
import Comprehension.Proofs.Walk
import Comprehension.Store.Preorder
import Comprehension.Term
import Comprehension.Tree.Printer

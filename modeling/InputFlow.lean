import InputFlow.Check.Spec
import InputFlow.Folder
import InputFlow.Main
import InputFlow.Proofs.Block.Confluence
import InputFlow.Proofs.Block.ExactOutcome
import InputFlow.Proofs.Block.Passage
import InputFlow.Proofs.Check.Matching
import InputFlow.Proofs.Check.Stripping
import InputFlow.Proofs.Graph.Condensation
import InputFlow.Proofs.Graph.CutVertices
import InputFlow.Proofs.LeastSeeding
import InputFlow.Proofs.Procedure.CircularAddresses
import InputFlow.Proofs.Procedure.Completeness
import InputFlow.Proofs.Procedure.Convergence
import InputFlow.Proofs.Procedure.ElementLoads
import InputFlow.Proofs.Procedure.MoreAliases
import InputFlow.Proofs.Procedure.ParameterFacts
import InputFlow.Proofs.Procedure.Provenance
import InputFlow.Proofs.Procedure.ReachingWrites
import InputFlow.Proofs.Procedure.TargetOrder
import InputFlow.Proofs.Source.Listing
import InputFlow.Proofs.Source.Names
import InputFlow.Proofs.Source.Numbering

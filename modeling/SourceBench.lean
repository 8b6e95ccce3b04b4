import SourceBench.Main
import SourceBench.Proofs.Layout.Stability
import SourceBench.Proofs.Patch.Reading
import SourceBench.Proofs.Workspace.History
import SourceBench.Proofs.Snippet.DocComment
import SourceBench.Proofs.Scaffold.Files
import SourceBench.Proofs.Scaffold.TypedNames
import SourceBench.Proofs.Snippet.Exports
import SourceBench.Proofs.Declaration.Walk
import SourceBench.Proofs.Comparison
import SourceBench.Proofs.Command.Reach
import SourceBench.Proofs.Workspace.Settings
import SourceBench.Proofs.Workspace.Restoring
import SourceBench.Proofs.Edit.RenamingBack
import SourceBench.Proofs.Edit.ImportRemoval
import SourceBench.Proofs.Edit.ImportUnion
import SourceBench.Proofs.Edit.MethodBodies
import SourceBench.Proofs.Edit.ParameterLists
import SourceBench.Proofs.Review
import SourceBench.Proofs.Edit.KeyStyles
import SourceBench.Proofs.Layout.Canonical
import SourceBench.Proofs.Outline.Exported
import SourceBench.Proofs.Workspace.Delivery
import SourceBench.Proofs.Workspace.Listing

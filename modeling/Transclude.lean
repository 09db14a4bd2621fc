import Transclude.Render.Markup
import Transclude.Render.Plain
import Transclude.Run.Walk
import Transclude.Tree.Edit
import Transclude.Tree.Search
import Transclude.Tree.Kind
import Transclude.Value.Display
import Transclude.Proofs.Run.Steps
import Transclude.Proofs.Link.Cut
import Transclude.Proofs.Link.Resolve
import Transclude.Proofs.Walk.Settle
import Transclude.Proofs.Walk.Failure
import Transclude.Proofs.Tree.Encoding
import Transclude.Proofs.Tree.Roundtrip
import Transclude.Proofs.Walk.Carry
import Transclude.Proofs.Template.Leftmost
import Transclude.Proofs.Walk.Lockstep
import Transclude.Proofs.Walk.Decode
import Transclude.Proofs.Walk.Blocks
import Transclude.Proofs.Walk.Repeat
import Transclude.Proofs.Walk.Macro
import Transclude.Proofs.Walk.Inert
import Transclude.Proofs.Walk.Recut
import Transclude.Proofs.Walk.Journal
import Transclude.Proofs.Walk.Reference
import Transclude.Proofs.Walk.Ledger
import Transclude.Proofs.Link.Display
import Transclude.Proofs.Render.Legible
import Transclude.Proofs.Tree.Completion
import Transclude.Proofs.Walk.Lossless
import Transclude.Proofs.Link.Partition
import Transclude.Proofs.Tree.Canonical
import Transclude.Proofs.Render.Agreement
import Transclude.Proofs.Render.Frame
import Transclude.Proofs.Template.Parameter

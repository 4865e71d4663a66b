import Stencil.Datum.Errors
import Stencil.Datum.Templates
import Stencil.Parser.Progress
import Stencil.Proofs.Completion
import Stencil.Proofs.ConflictPlace
import Stencil.Proofs.Conformance
import Stencil.Proofs.DeclarationForm
import Stencil.Proofs.Descent
import Stencil.Proofs.DocumentOrder
import Stencil.Proofs.Escaping
import Stencil.Proofs.FirstClash
import Stencil.Proofs.FormOrder
import Stencil.Proofs.IndexNames
import Stencil.Proofs.Inferred
import Stencil.Proofs.LoggedConflicts
import Stencil.Proofs.MergeLub
import Stencil.Proofs.Nesting
import Stencil.Proofs.NormalForm
import Stencil.Proofs.Positions
import Stencil.Proofs.Pruning
import Stencil.Proofs.Reading
import Stencil.Proofs.Repetition
import Stencil.Proofs.RootOrder
import Stencil.Proofs.SecondPass
import Stencil.Proofs.Unambiguous
import Stencil.Proofs.Unescaping

import Frankengit.Reference.Decisions
import Frankengit.Reference.Policy
import Frankengit.Pack.EntryHeader
import Frankengit.Pack.ResolverAgreement
import Frankengit.Merge.Symmetry
import Frankengit.Merge.Pathwise
import Frankengit.Crypto.Absence
import Frankengit.GitObject.RoundTrip
import Frankengit.Wire.Advertisement
import Frankengit.Wire.SignedPush
import Frankengit.Wire.Visibility
import Frankengit.Wire.ClosureHistory
import Frankengit.Policy.Canonical
import Frankengit.Policy.ProtectedRef
import Frankengit.Graph.Reduction
import Frankengit.Resource.Delegation
import Frankengit.TreeFs.IntentLedger
import Frankengit.TreeFs.Journal
import Frankengit.Reference.Evaluate
import Frankengit.Reference.StageOrder

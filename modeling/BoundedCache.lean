import BoundedCache.Clock.Cache
import BoundedCache.Key
import BoundedCache.Round.Cache
import BoundedCache.Slab.Lemmas
import BoundedCache.Proofs.Access.Operations
import BoundedCache.Proofs.Clock.BoundedMap
import BoundedCache.Proofs.Clock.Progress
import BoundedCache.Proofs.Clock.Newcomers
import BoundedCache.Proofs.Clock.Overflow
import BoundedCache.Proofs.ExactCounters
import BoundedCache.Proofs.Safety
import BoundedCache.Proofs.Clock.Settlement
import BoundedCache.Proofs.Clock.Turning
import BoundedCache.Proofs.Round.LastUse
import BoundedCache.Proofs.Round.Representation
import BoundedCache.Proofs.Round.Search
import BoundedCache.Proofs.Clock.Safety
import BoundedCache.Proofs.Round.Safety
import BoundedCache.Proofs.PlainStore
import BoundedCache.Proofs.BelowCapacity
import BoundedCache.Proofs.Round.Progress
import BoundedCache.Proofs.Access.Sequence
import BoundedCache.Proofs.Clock.Geometry
import BoundedCache.Proofs.Sizing
import BoundedCache.Proofs.Economy
import BoundedCache.Proofs.HashCode
import BoundedCache.Proofs.SlabRequests

import Peam.Laws.Aggregate
import Peam.Laws.Answers
import Peam.Laws.Backfill
import Peam.Laws.Batching
import Peam.Laws.Compat
import Peam.Laws.Intervals
import Peam.Laws.JustifiedSet
import Peam.Laws.LatestVotes
import Peam.Laws.LengthPrefix
import Peam.Laws.Locks
import Peam.Laws.PeerManager
import Peam.Laws.Pending
import Peam.Laws.Preview
import Peam.Laws.RateLimiter
import Peam.Laws.Reorg
import Peam.Laws.Slot
import Peam.Laws.SlotIndex
import Peam.Laws.StateCodec
import Peam.Laws.Subnet
import Peam.Laws.Supermajority
import Peam.Laws.Sync

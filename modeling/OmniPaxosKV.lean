import OmniPaxosKV.Machine
import OmniPaxosKV.KeyMap
import OmniPaxosKV.BinaryHeap
import OmniPaxosKV.Tally
import OmniPaxosKV.SipHash
import OmniPaxosKV.Cluster
import OmniPaxosKV.ReleaseOrder
import OmniPaxosKV.Votes
import OmniPaxosKV.Transitions
import OmniPaxosKV.History
import OmniPaxosKV.Requests
import OmniPaxosKV.Network
import OmniPaxosKV.Agreement
import OmniPaxosKV.Numbering
import OmniPaxosKV.Replay
import OmniPaxosKV.Speculation
import OmniPaxosKV.Leadership
import OmniPaxosKV.Decided
import OmniPaxosKV.Custody
import OmniPaxosKV.Appending
import OmniPaxosKV.Routing
import OmniPaxosKV.Identity
import OmniPaxosKV.LogSync
import OmniPaxosKV.Coherence
import OmniPaxosKV.Compaction
import OmniPaxosKV.Reads
import OmniPaxosKV.Synchronization
import OmniPaxosKV.Ballots
import OmniPaxosKV.Takeover
import OmniPaxosKV.Recovery
import OmniPaxosKV.Deadlines
import OmniPaxosKV.OrderedMap
import OmniPaxosKV.Persistent
import OmniPaxosKV.Backends
import OmniPaxosKV.Delaying
import OmniPaxosKV.Atomicity
import OmniPaxosKV.Codebook
import OmniPaxosKV.UniCache
import OmniPaxosKV.LruCache
import OmniPaxosKV.LfuCache
import OmniPaxosKV.HandOver
import OmniPaxosKV.Serialization
import OmniPaxosKV.Timekeeping
import OmniPaxosKV.Firing
import OmniPaxosKV.ClockSync
import OmniPaxosKV.Arrival
import OmniPaxosKV.Batching
import OmniPaxosKV.Client
import OmniPaxosKV.Acceptance
import OmniPaxosKV.Intervals
import OmniPaxosKV.Convergence
import OmniPaxosKV.LfuPolicy
import OmniPaxosKV.LfuSerialization
import OmniPaxosKV.UniCacheEntry
import OmniPaxosKV.Connections
import OmniPaxosKV.KvStore
import OmniPaxosKV.Bootstrap
import OmniPaxosKV.Recency
import OmniPaxosKV.Partition
import OmniPaxosKV.Launch

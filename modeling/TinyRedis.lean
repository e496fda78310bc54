import TinyRedis.Lib.Chain
import TinyRedis.Lib.Run
import TinyRedis.Lib.Runs
import TinyRedis.Lib.Words
import TinyRedis.Lib.LittleEndian
import TinyRedis.Lib.SipHash
import TinyRedis.Lib.Lru
import TinyRedis.Lib.BitReversal
import TinyRedis.Lib.Decimal
import TinyRedis.Lib.Stream
import TinyRedis.Lib.Exec
import TinyRedis.Lib.Plan
import TinyRedis.Lib.Ledger
import TinyRedis.Lib.Driven
import TinyRedis.Core.Bits
import TinyRedis.Core.Hash
import TinyRedis.Core.Entry
import TinyRedis.Core.Pool
import TinyRedis.Core.Table
import TinyRedis.Core.Store
import TinyRedis.Core.Buffer
import TinyRedis.Core.Resp
import TinyRedis.Core.Command
import TinyRedis.Core.Checked
import TinyRedis.Net.System
import TinyRedis.Net.EventLoop
import TinyRedis.Net.Connection
import TinyRedis.Net.Server
import TinyRedis.Net.UniqueFd
import TinyRedis.Net.Process
import TinyRedis.Proofs.Hash
import TinyRedis.Proofs.Entry
import TinyRedis.Proofs.Cursor
import TinyRedis.Proofs.Buffer
import TinyRedis.Proofs.Table.Linked
import TinyRedis.Proofs.Table.Inv
import TinyRedis.Proofs.Table.Insert
import TinyRedis.Proofs.Table.Remove
import TinyRedis.Proofs.Table.Walks
import TinyRedis.Proofs.Table.Runs
import TinyRedis.Proofs.Table.View
import TinyRedis.Proofs.Table.Storage
import TinyRedis.Proofs.Table.ScanCycle
import TinyRedis.Proofs.Store.Keyed
import TinyRedis.Proofs.Store.Ops
import TinyRedis.Proofs.Store.Reference
import TinyRedis.Proofs.Store.Sample
import TinyRedis.Proofs.Store.Evict
import TinyRedis.Proofs.Store.Cycle
import TinyRedis.Proofs.Store.Capacity
import TinyRedis.Proofs.Store.Quiet
import TinyRedis.Proofs.Store.Recency
import TinyRedis.Proofs.Store.Outcomes
import TinyRedis.Proofs.Store.Sweep
import TinyRedis.Proofs.Store.Reclaim
import TinyRedis.Proofs.Store.Full
import TinyRedis.Proofs.Store.Ledger
import TinyRedis.Proofs.Store.Cache
import TinyRedis.Proofs.Resp.Lines
import TinyRedis.Proofs.Resp.Final
import TinyRedis.Proofs.Resp.Canonical
import TinyRedis.Proofs.Resp.Inline
import TinyRedis.Proofs.Resp.Slots
import TinyRedis.Proofs.Resp.Bounds
import TinyRedis.Proofs.Resp.Replies
import TinyRedis.Proofs.Command.Emits
import TinyRedis.Proofs.Command.Sync
import TinyRedis.Proofs.Resp.Session
import TinyRedis.Proofs.Command.Failures
import TinyRedis.Proofs.Command.Expiry
import TinyRedis.Proofs.Command.Options
import TinyRedis.Proofs.Command.Keys
import TinyRedis.Proofs.Command.Exhaustion
import TinyRedis.Proofs.Command.Plans
import TinyRedis.Proofs.Command.Apart
import TinyRedis.Proofs.Command.Checked
import TinyRedis.Proofs.Command.Meaning
import TinyRedis.Proofs.Net.Session
import TinyRedis.Proofs.Net.Owned
import TinyRedis.Proofs.Net.Polled
import TinyRedis.Proofs.Net.Invariant
import TinyRedis.Proofs.Net.Connection
import TinyRedis.Proofs.Net.Server
import TinyRedis.Proofs.Net.Streams
import TinyRedis.Proofs.Net.Points
import TinyRedis.Proofs.Net.Lifetime
import TinyRedis.Proofs.Net.Interest
import TinyRedis.Proofs.Net.Listener
import TinyRedis.Proofs.Net.Actions
import TinyRedis.Proofs.Net.Serial
import TinyRedis.Proofs.Net.Clock
import TinyRedis.Proofs.Net.Reference
import TinyRedis.Proofs.Net.Isolation
import TinyRedis.Proofs.Net.Reclaim
import TinyRedis.Proofs.Net.Memory
import TinyRedis.Proofs.Net.UniqueFd
import TinyRedis.Proofs.Net.Descriptors
import TinyRedis.Proofs.Net.Process
import TinyRedis.Proofs.Net.Shutdown

import BcosSync.Protocol.StatusMessage
import BcosSync.Commit.Window
import BcosSync.Commit.Verified
import BcosSync.Commit.Once
import BcosSync.Commit.Gap
import BcosSync.Commit.Rollback
import BcosSync.Commit.InFlight
import BcosSync.Commit.Stale
import BcosSync.Download.Execution
import BcosSync.Download.Timer
import BcosSync.Download.Requests
import BcosSync.Download.Sharding
import BcosSync.Download.Buffer
import BcosSync.Download.Capacity
import BcosSync.Download.Expiry
import BcosSync.Peers.KnownHighest
import BcosSync.Peers.Traversal
import BcosSync.Peers.Admission
import BcosSync.Serving.Union
import BcosSync.Serving.Malformed
import BcosSync.Interleaving.Config
import BcosSync.Interleaving.BlockQueue
import BcosSync.Interleaving.CommitLock
import BcosSync.Interleaving.LostRequest
import BcosSync.Serving.Confluence
import BcosSync.Network.Solicited
import BcosSync.Network.Convergence
import BcosSync.Network.Statuses
import BcosSync.Network.Exclusive

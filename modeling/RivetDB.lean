import RivetDB.Consensus.History
import RivetDB.Consensus.Record
import RivetDB.Consensus.Invariant
import RivetDB.Consensus.Majority
import RivetDB.Program.Prog
import RivetDB.Program.Relate
import RivetDB.Program.Dict
import RivetDB.Codec.Bytes
import RivetDB.Codec.Decoder
import RivetDB.Wal.Log
import RivetDB.Wal.Recovery
import RivetDB.Raft.Types
import RivetDB.Raft.Membership
import RivetDB.Raft.Node
import RivetDB.Raft.Protocol
import RivetDB.Raft.Regime
import RivetDB.Raft.Cluster
import RivetDB.Raft.Invariant
import RivetDB.Raft.Log
import RivetDB.Raft.Conduct
import RivetDB.Raft.Footprint
import RivetDB.Raft.Commitment
import RivetDB.Raft.Replication
import RivetDB.Raft.Elections
import RivetDB.Raft.Snapshots
import RivetDB.Raft.Calls
import RivetDB.Raft.Safety
import RivetDB.Raft.FileStore
import RivetDB.Raft.Limits
import RivetDB.Raft.Reopen
import RivetDB.Txn.Types
import RivetDB.Txn.Codec
import RivetDB.Storage.Versions
import RivetDB.Storage.Engine
import RivetDB.Storage.Reads
import RivetDB.Order.Merge
import RivetDB.Order.Search
import RivetDB.Order.Grouping
import RivetDB.Storage.Tables
import RivetDB.Storage.Bloom
import RivetDB.Storage.Manifest
import RivetDB.Storage.Lsm
import RivetDB.Storage.LsmReads
import RivetDB.Storage.LsmScans
import RivetDB.Storage.LsmLayout
import RivetDB.Storage.LsmRuns
import RivetDB.Storage.LsmSteps
import RivetDB.Storage.LsmFlush
import RivetDB.Storage.LsmRecovery
import RivetDB.Storage.Export
import RivetDB.Storage.Memtable
import RivetDB.Storage.MemtableCalls
import RivetDB.Manifest.Edit
import RivetDB.Manifest.Version
import RivetDB.Manifest.Rewrite
import RivetDB.Mvcc.Clock
import RivetDB.Range.Command
import RivetDB.Range.Machine
import RivetDB.Range.Image
import RivetDB.Range.Agreement
import RivetDB.Range.Replica
import RivetDB.Range.Restore
import RivetDB.Range.Decisions
import RivetDB.Range.Fidelity
import RivetDB.Multiraft.Catalog
import RivetDB.Order.Tiling
import RivetDB.Order.Keyed
import RivetDB.Order.Forest
import RivetDB.Order.Links
import RivetDB.Order.SortedMap
import RivetDB.Multiraft.Metadata
import RivetDB.Multiraft.Partition
import RivetDB.Multiraft.Steps
import RivetDB.Multiraft.Invariant
import RivetDB.Multiraft.Evolution
import RivetDB.Multiraft.Lineage
import RivetDB.Multiraft.Resolution
import RivetDB.Multiraft.Rebalance
import RivetDB.Multiraft.Cutover
import RivetDB.Multiraft.Node
import RivetDB.Multiraft.Hosting
import RivetDB.Multiraft.Planner
import RivetDB.Multiraft.Plans
import RivetDB.Multiraft.Convergence
import RivetDB.Multiraft.Decode
import RivetDB.Multiraft.MetaRange
import RivetDB.Multiraft.ReadBack
import RivetDB.Multiraft.RoundTrip
import RivetDB.Multiraft.Produced
import RivetDB.Multiraft.Terminal
import RivetDB.Multiraft.Transport
import RivetDB.Multiraft.Routing

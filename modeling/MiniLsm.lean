import MiniLsm.Machine.Runs
import MiniLsm.Machine.Reach
import MiniLsm.Machine.Dialogue
import MiniLsm.Machine.Codec
import MiniLsm.Bits.ShiftRegister
import MiniLsm.Consensus.Quorum
import MiniLsm.Consensus.Protocol
import MiniLsm.Consensus.Invariant
import MiniLsm.Consensus.Preservation
import MiniLsm.Consensus.Safety
import MiniLsm.Consensus.Salvage
import MiniLsm.Env.Bytes
import MiniLsm.Env.Files
import MiniLsm.Wal.Crc32c
import MiniLsm.Wal.Writer
import MiniLsm.Wal.Reference
import MiniLsm.Wal.Reader
import MiniLsm.Wal.Layout
import MiniLsm.Wal.RoundTrip
import MiniLsm.Wal.Chain
import MiniLsm.Wal.Block
import MiniLsm.Wal.Seam
import MiniLsm.Wal.Faults
import MiniLsm.Wal.ReadFaults
import MiniLsm.Wal.Positions
import MiniLsm.Wal.EndOfInput
import MiniLsm.Wal.Damage
import MiniLsm.Wal.Resync
import MiniLsm.Wal.Rounds
import MiniLsm.Wal.Burst
import MiniLsm.Wal.Window
import MiniLsm.Wal.Checksum
import MiniLsm.Wal.Accounting
import MiniLsm.Db.Record
import MiniLsm.Db.Core
import MiniLsm.Db.Recovery
import MiniLsm.Db.Torn
import MiniLsm.Env.Posix
import MiniLsm.Wal.Posix
import MiniLsm.Db.Posix
import MiniLsm.Db.Surviving
import MiniLsm.Db.Refinement
import MiniLsm.Db.Acknowledged
import MiniLsm.Db.Format
import MiniLsm.Raft.Messages
import MiniLsm.Raft.Core
import MiniLsm.Raft.Cluster
import MiniLsm.Raft.Loops
import MiniLsm.Raft.Simulation
import MiniLsm.Raft.Handlers
import MiniLsm.Raft.Refinement
import MiniLsm.Raft.Safety
import MiniLsm.Raft.Persistence
import MiniLsm.Raft.Storage
import MiniLsm.Raft.Replay
import MiniLsm.Raft.Journal
import MiniLsm.Raft.Format
import MiniLsm.Raft.Process
import MiniLsm.Raft.Durability
import MiniLsm.Raft.Voting
import MiniLsm.Raft.ReadErrors
import MiniLsm.Raft.Crash
import MiniLsm.Raft.Holes
import MiniLsm.Raft.ReplicatedDb
import MiniLsm.Raft.Lengths
import MiniLsm.Raft.Replicas
import MiniLsm.Raft.SingleNode
import MiniLsm.Raft.Merge
import MiniLsm.Raft.Repair
import MiniLsm.Raft.Cursor
import MiniLsm.Raft.FailedSync
import MiniLsm.Raft.Leadership
import MiniLsm.Raft.Progress
import MiniLsm.Raft.Heartbeats
import MiniLsm.Raft.Availability
import MiniLsm.Raft.Commitment
import MiniLsm.Raft.Interrupted
import MiniLsm.Raft.DurableCluster
import MiniLsm.Raft.DurableSafety
import MiniLsm.Raft.DurableStores

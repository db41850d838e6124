import RdmaPaxos.Lib.BitSet
import RdmaPaxos.Lib.ByteMemory
import RdmaPaxos.Lib.Crc
import RdmaPaxos.Lib.DoublyLinked
import RdmaPaxos.Lib.FileTree
import RdmaPaxos.Lib.Progress
import RdmaPaxos.Lib.ReplicatedLog
import RdmaPaxos.Lib.Run
import RdmaPaxos.Lib.SendQueue
import RdmaPaxos.Lib.Ticket
import RdmaPaxos.Lib.Votes
import RdmaPaxos.ViewStamp
import RdmaPaxos.Log.DareLog
import RdmaPaxos.Log.Allocation
import RdmaPaxos.Consensus.Entry
import RdmaPaxos.Consensus.World
import RdmaPaxos.Consensus.Steps
import RdmaPaxos.Consensus.Layout
import RdmaPaxos.Consensus.Invariant
import RdmaPaxos.Consensus.Membership
import RdmaPaxos.Consensus.LeaderSteps
import RdmaPaxos.Consensus.ReplicaSteps
import RdmaPaxos.Consensus.Safety
import RdmaPaxos.Consensus.Quorum
import RdmaPaxos.Consensus.Simulation
import RdmaPaxos.Consensus.Delivery
import RdmaPaxos.Consensus.Agreement
import RdmaPaxos.Consensus.Progress
import RdmaPaxos.Consensus.Completion
import RdmaPaxos.Consensus.CatchUp
import RdmaPaxos.Consensus.WrapAround
import RdmaPaxos.Consensus.CommitOrder
import RdmaPaxos.Consensus.Propagation
import RdmaPaxos.Consensus.Join
import RdmaPaxos.Consensus.Keys
import RdmaPaxos.Consensus.FollowerStore
import RdmaPaxos.Consensus.FailedSubmit
import RdmaPaxos.Consensus.QuorumCount
import RdmaPaxos.Consensus.RecordNumber
import RdmaPaxos.Election.Sid
import RdmaPaxos.Election.SidFields
import RdmaPaxos.Election.Protocol
import RdmaPaxos.Election.Steps
import RdmaPaxos.Election.Invariant
import RdmaPaxos.Election.Support
import RdmaPaxos.Election.Safety
import RdmaPaxos.Election.VoteSelection
import RdmaPaxos.Election.VoteCount
import RdmaPaxos.Output.Crc64
import RdmaPaxos.Output.Store
import RdmaPaxos.Output.AdList
import RdmaPaxos.Output.HeapStore
import RdmaPaxos.Output.Decision
import RdmaPaxos.Output.Chain
import RdmaPaxos.Output.Proposals
import RdmaPaxos.EvMgr.UtHash
import RdmaPaxos.EvMgr.UtHashChains
import RdmaPaxos.EvMgr.UtHashMap
import RdmaPaxos.EvMgr.UtHashRuns
import RdmaPaxos.EvMgr.Receive
import RdmaPaxos.EvMgr.Replay
import RdmaPaxos.EvMgr.ShortWrite
import RdmaPaxos.EvMgr.Hooks
import RdmaPaxos.Consensus.Wire
import RdmaPaxos.EvMgr.HookSteps
import RdmaPaxos.EvMgr.Close
import RdmaPaxos.EvMgr.Serial
import RdmaPaxos.EvMgr.Lookup
import RdmaPaxos.EvMgr.Follower
import RdmaPaxos.EvMgr.Refinement
import RdmaPaxos.EvMgr.Identity
import RdmaPaxos.EvMgr.Proposal
import RdmaPaxos.Rc.Send
import RdmaPaxos.Rc.Control
import RdmaPaxos.Ud.Event
import RdmaPaxos.Ud.Connection
import RdmaPaxos.Ud.Usable
import RdmaPaxos.Config.Tables
import RdmaPaxos.Checkpoint.Handshake
import RdmaPaxos.Checkpoint.Guard
import RdmaPaxos.Checkpoint.ExtRes
import RdmaPaxos.Checkpoint.Store
import RdmaPaxos.Checkpoint.Command
import RdmaPaxos.SharedMemory.RsmOp
import RdmaPaxos.SharedMemory.Mutex
import RdmaPaxos.SharedMemory.Invariant
import RdmaPaxos.SharedMemory.Commit

import Mathlib.Data.UInt
import RivetDB.Codec.Bytes

/-!
# Values of the Raft core

The data the single-group Raft core works on: log entries, the durable state of
a node, the messages nodes exchange and the errors they return.

Indexes and terms are natural numbers; the places where the code could leave the
range of `uint64` compare with `maxUint64` (or wrap) explicitly.  Node
identifiers and configuration versions are stored in binary form inside log
entries, so they keep their machine type.
-/

namespace RivetDB.Raft

/-- `math.MaxUint64`. -/
def maxUint64 : ℕ := 2 ^ 64 - 1

/-- `MaxCommandBytes`. -/
def maxCommandBytes : ℕ := 16 <<< 20

abbrev NodeID := UInt64

inductive Role where
  | follower
  | candidate
  | leader
deriving DecidableEq, Repr

inductive EntryType where
  | noOp
  | command
  | config
deriving DecidableEq, Repr

structure Entry where
  index : ℕ
  term : ℕ
  kind : EntryType
  command : Bytes := []
deriving DecidableEq, Repr

structure HardState where
  term : ℕ := 0
  votedFor : NodeID := 0
deriving DecidableEq, Repr

/-- The last committed membership value.  `newVoters` is empty for a stable
configuration and non-empty for joint consensus. -/
structure Configuration where
  version : UInt64 := 0
  oldVoters : List NodeID := []
  newVoters : List NodeID := []
  learners : List NodeID := []
deriving DecidableEq, Repr

structure Snapshot where
  index : ℕ := 0
  term : ℕ := 0
  data : Bytes := []
  config : Configuration := {}
deriving DecidableEq, Repr

/-- What a node keeps on disk. -/
structure PersistentState where
  hardState : HardState := {}
  snapshot : Snapshot := {}
  config : Configuration := {}
  entries : List Entry := []
deriving DecidableEq, Repr

inductive MessageType where
  | requestVote
  | requestVoteResponse
  | appendEntries
  | appendEntriesResponse
  | installSnapshot
  | installSnapshotResponse
  | timeoutNow
deriving DecidableEq, Repr

/-- One message; the fields a message type does not use keep their zero value. -/
structure Message where
  kind : MessageType
  fromID : NodeID
  toID : NodeID
  term : ℕ
  candidateLastIndex : ℕ := 0
  candidateLastTerm : ℕ := 0
  voteGranted : Bool := false
  prevLogIndex : ℕ := 0
  prevLogTerm : ℕ := 0
  entries : List Entry := []
  leaderCommit : ℕ := 0
  success : Bool := false
  matchIndex : ℕ := 0
  rejectHint : ℕ := 0
  snapshot : Snapshot := {}
deriving DecidableEq, Repr

/-- The errors of the core.  The constant constructors are its sentinel values;
`wrap` is `fmt.Errorf` around a cause, `join` is `errors.Join`. -/
inductive Error where
  | invalidConfig
  | invalidMessage
  | invalidState
  | notLeader
  | stopped
  | persistence
  | apply
  | compacted
  | unavailable
  | resourceLimit
  | leadershipTransfer
  | configTransition
  /-- A failed assertion of the `invariant` package: the process panics. -/
  | violation (name : String)
  /-- An error that comes from the store's medium or from the state machine. -/
  | foreign (text : String)
  | wrap (text : String) (cause : Error)
  | join (left right : Error)
deriving DecidableEq, Repr

/-- `errors.Is`. -/
def Error.is : Error → Error → Bool
  | .wrap text cause, target => .wrap text cause == target || cause.is target
  | .join left right, target =>
    .join left right == target || left.is target || right.is target
  | err, target => err == target

/-- `Quorum`: how many of `nodes` voters make a majority. -/
def quorum (nodes : ℕ) : ℕ :=
  if nodes = 0 then 0 else nodes / 2 + 1

/-- The replicated state machine a node drives.  A failed call may still have
changed the machine, so every operation returns the machine it leaves. -/
structure StateMachine (σ : Type) where
  apply : σ → Entry → Option Error × σ
  snapshot : σ → Except Error Bytes × σ
  restore : σ → Bytes → Option Error × σ

end RivetDB.Raft

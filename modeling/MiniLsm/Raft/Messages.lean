import MiniLsm.Env.Bytes

/-! # Raft log entries and messages

The data of `mlsm/raft/messages.h`. Terms, indices and node ids are unbounded
naturals here; where a bound of the 64-bit types matters (the storage format),
it is a hypothesis of the statement.
-/

namespace MiniLsm

/-- 1-based; 0 means "none". -/
abbrev NodeId := Nat

/-- One replicated entry. The Raft core never looks into `data`. -/
structure LogEntry where
  term : Nat := 0
  index : Nat := 0
  data : Bytes := []
  deriving Repr, DecidableEq, Inhabited

inductive MessageType where
  | requestVote
  | requestVoteResp
  | appendEntries
  | appendEntriesResp
  deriving Repr, DecidableEq

/-- One Raft message. A field that the message's type does not use keeps its
    default. -/
structure Message where
  type : MessageType
  fromNode : NodeId := 0
  toNode : NodeId := 0
  term : Nat := 0
  voteGranted : Bool := false
  success : Bool := false
  lastLogIndex : Nat := 0
  lastLogTerm : Nat := 0
  prevLogIndex : Nat := 0
  prevLogTerm : Nat := 0
  entries : List LogEntry := []
  leaderCommit : Nat := 0
  matchIndex : Nat := 0
  deriving Repr, DecidableEq

end MiniLsm

import MiniLsm.Raft.Messages

/-! # The Raft state machine

`src/raft/raft.cc`, one definition a member function. A member function is a
function of the state before to the state after; `Send` queues a message in
`outMsgs`, and `TakeMessages` hands the queue over.
-/

namespace MiniLsm

inductive Role where
  | follower
  | candidate
  | leader
  deriving Repr, DecidableEq

structure Config where
  id : NodeId := 0
  /-- The full membership, this node included. -/
  peers : List NodeId := []
  electionTimeout : Int := 10
  heartbeatTimeout : Int := 1
  deriving Repr, DecidableEq

/-- The members of `class Raft`. The maps `next_index_` and `match_index_` are
    only read through `operator[]`, which inserts 0, so they are total. -/
structure Raft where
  config : Config
  role : Role := .follower
  currentTerm : Nat := 0
  /-- 0 when no vote was given in `currentTerm`. -/
  votedFor : NodeId := 0
  /-- Entry `i` is at position `i`; position 0 holds a sentinel. -/
  log : List LogEntry
  commitIndex : Nat := 0
  lastApplied : Nat := 0
  stableIndex : Nat := 0
  leader : NodeId := 0
  electionElapsed : Int := 0
  heartbeatElapsed : Int := 0
  votesGranted : List NodeId := []
  nextIndex : NodeId → Nat := fun _ => 0
  matchIndex : NodeId → Nat := fun _ => 0
  hardStateDirty : Bool := false
  outMsgs : List Message := []

/-- `x - 1` on `uint64_t`. -/
def predU64 (x : Nat) : Nat := if x = 0 then UInt64.size - 1 else x - 1

/-- `map[key] = value`. -/
def assign (map : NodeId → Nat) (key : NodeId) (value : Nat) : NodeId → Nat :=
  fun k => if k = key then value else map k

namespace Raft

/-- The constructor: only the sentinel is in the log. -/
def new (config : Config) : Raft := { config, log := [{ term := 0, index := 0, data := [] }] }

def lastIndex (r : Raft) : Nat := r.log.length - 1

def lastTerm (r : Raft) : Nat := (r.log.getLastD default).term

/-- `log_[index]`. -/
def entryAt (r : Raft) (index : Nat) : LogEntry := r.log.getD index default

def termAt (r : Raft) (index : Nat) : Nat :=
  if index > r.lastIndex then 0 else (r.entryAt index).term

def quorumSize (r : Raft) : Nat := r.config.peers.length / 2 + 1

def send (r : Raft) (msg : Message) : Raft := { r with outMsgs := r.outMsgs ++ [msg] }

def takeMessages (r : Raft) : List Message × Raft := (r.outMsgs, { r with outMsgs := [] })

/-- The message built by `SendAppendEntries`. -/
def appendEntriesTo (r : Raft) (peer : NodeId) : Message :=
  let next := r.nextIndex peer
  let prev := predU64 next
  { type := .appendEntries
    fromNode := r.config.id
    toNode := peer
    term := r.currentTerm
    prevLogIndex := prev
    prevLogTerm := r.termAt prev
    leaderCommit := r.commitIndex
    entries := r.log.drop next }

def sendAppendEntries (r : Raft) (peer : NodeId) : Raft := r.send (r.appendEntriesTo peer)

def broadcastAppendEntries (r : Raft) : Raft :=
  r.config.peers.foldl
    (fun r peer => if peer = r.config.id then r else r.sendAppendEntries peer) r

/-- The replication state `BecomeLeader` installs for every other peer. -/
def resetProgress (r : Raft) : Raft :=
  r.config.peers.foldl
    (fun r peer =>
      if peer = r.config.id then r
      else { r with
        nextIndex := assign r.nextIndex peer (r.lastIndex + 1)
        matchIndex := assign r.matchIndex peer 0 })
    { r with nextIndex := fun _ => 0, matchIndex := fun _ => 0 }

def becomeLeader (r : Raft) : Raft :=
  let r := { r with role := .leader, leader := r.config.id, heartbeatElapsed := 0 }
  r.resetProgress.broadcastAppendEntries

def becomeFollower (r : Raft) (term : Nat) (leader : NodeId) : Raft :=
  let r :=
    if term > r.currentTerm then
      { r with currentTerm := term, votedFor := 0, hardStateDirty := true }
    else r
  { r with role := .follower, leader := leader, electionElapsed := 0 }

/-- The message `BecomeCandidate` sends to every other peer. -/
def requestVoteTo (r : Raft) (peer : NodeId) : Message :=
  { type := .requestVote
    fromNode := r.config.id
    toNode := peer
    term := r.currentTerm
    lastLogIndex := r.lastIndex
    lastLogTerm := r.lastTerm }

def becomeCandidate (r : Raft) : Raft :=
  let r := { r with
    currentTerm := r.currentTerm + 1
    votedFor := r.config.id
    hardStateDirty := true
    role := .candidate
    leader := 0
    electionElapsed := 0
    votesGranted := [r.config.id] }
  -- a single-node cluster is its own majority
  if r.votesGranted.length ≥ r.quorumSize then r.becomeLeader
  else
    r.config.peers.foldl
      (fun r peer => if peer = r.config.id then r else r.send (r.requestVoteTo peer)) r

def tick (r : Raft) : Raft :=
  if r.role = .leader then
    let r := { r with heartbeatElapsed := r.heartbeatElapsed + 1 }
    if r.heartbeatElapsed ≥ r.config.heartbeatTimeout then
      { r with heartbeatElapsed := 0 }.broadcastAppendEntries
    else r
  else
    let r := { r with electionElapsed := r.electionElapsed + 1 }
    if r.electionElapsed ≥ r.config.electionTimeout then r.becomeCandidate else r

/-- How many nodes hold index `n` as far as the leader knows, itself included. -/
def replicas (r : Raft) (n : Nat) : Nat :=
  r.config.peers.foldl
    (fun count peer =>
      if peer = r.config.id then count
      else if r.matchIndex peer ≥ n then count + 1 else count) 1

/-- The loop of `MaybeCommit`, from index `n` downwards. -/
def maybeCommitFrom (r : Raft) : Nat → Raft
  | 0 => r
  | n + 1 =>
      if n + 1 > r.commitIndex then
        if r.termAt (n + 1) ≠ r.currentTerm then r.maybeCommitFrom n
        else if r.replicas (n + 1) ≥ r.quorumSize then { r with commitIndex := n + 1 }
        else r.maybeCommitFrom n
      else r

def maybeCommit (r : Raft) : Raft := r.maybeCommitFrom r.lastIndex

def handleRequestVote (r : Raft) (msg : Message) : Raft :=
  let canVote : Bool := r.votedFor == 0 || r.votedFor == msg.fromNode
  let upToDate : Bool := decide (msg.lastLogTerm > r.lastTerm) ||
    (msg.lastLogTerm == r.lastTerm && decide (msg.lastLogIndex ≥ r.lastIndex))
  let resp : Message :=
    { type := .requestVoteResp
      fromNode := r.config.id
      toNode := msg.fromNode
      term := r.currentTerm
      voteGranted := canVote && upToDate }
  let r :=
    if resp.voteGranted then
      { r with votedFor := msg.fromNode, hardStateDirty := true, electionElapsed := 0 }
    else r
  r.send resp

/-- One iteration of the entry loop of `HandleAppendEntries`. -/
def appendEntry (r : Raft) (e : LogEntry) : Raft :=
  if e.index ≤ r.lastIndex then
    if r.termAt e.index = e.term then r
    else
      { r with
        log := r.log.take e.index ++ [e]
        stableIndex := if r.stableIndex ≥ e.index then predU64 e.index else r.stableIndex }
  else { r with log := r.log ++ [e] }

def handleAppendEntries (r : Raft) (msg : Message) : Raft :=
  let r := { r with leader := msg.fromNode, electionElapsed := 0 }
  let resp : Message :=
    { type := .appendEntriesResp
      fromNode := r.config.id
      toNode := msg.fromNode
      term := r.currentTerm }
  if msg.prevLogIndex > r.lastIndex ∨ r.termAt msg.prevLogIndex ≠ msg.prevLogTerm then
    r.send { resp with success := false }
  else
    let r := msg.entries.foldl appendEntry r
    let r :=
      if msg.leaderCommit > r.commitIndex then
        { r with commitIndex := min msg.leaderCommit r.lastIndex }
      else r
    r.send { resp with success := true, matchIndex := msg.prevLogIndex + msg.entries.length }

def handleAppendEntriesResp (r : Raft) (msg : Message) : Raft :=
  if msg.success then
    { r with
      matchIndex := assign r.matchIndex msg.fromNode msg.matchIndex
      nextIndex := assign r.nextIndex msg.fromNode (msg.matchIndex + 1) }.maybeCommit
  else if r.nextIndex msg.fromNode > 1 then
    { r with nextIndex := assign r.nextIndex msg.fromNode (r.nextIndex msg.fromNode - 1) }
  else r

def stepFollower (r : Raft) (msg : Message) : Raft :=
  match msg.type with
  | .requestVote => r.handleRequestVote msg
  | .appendEntries => r.handleAppendEntries msg
  | _ => r

def stepCandidate (r : Raft) (msg : Message) : Raft :=
  match msg.type with
  | .requestVoteResp =>
      if msg.voteGranted then
        let r :=
          if msg.fromNode ∈ r.votesGranted then r
          else { r with votesGranted := r.votesGranted ++ [msg.fromNode] }
        if r.votesGranted.length ≥ r.quorumSize then r.becomeLeader else r
      else r
  | .appendEntries => (r.becomeFollower msg.term msg.fromNode).handleAppendEntries msg
  | .requestVote => r.handleRequestVote msg
  | .appendEntriesResp => r

def stepLeader (r : Raft) (msg : Message) : Raft :=
  match msg.type with
  | .requestVote => r.handleRequestVote msg
  | .appendEntriesResp => r.handleAppendEntriesResp msg
  | _ => r

/-- The dispatch on the role that ends `Step`. -/
def stepRole (r : Raft) (msg : Message) : Raft :=
  match r.role with
  | .follower => r.stepFollower msg
  | .candidate => r.stepCandidate msg
  | .leader => r.stepLeader msg

/-- The answer to a message of an older term. -/
def rejectStale (r : Raft) (msg : Message) : Raft :=
  let resp (type : MessageType) : Message :=
    { type, fromNode := r.config.id, toNode := msg.fromNode, term := r.currentTerm }
  match msg.type with
  | .requestVote => r.send { resp .requestVoteResp with voteGranted := false }
  | .appendEntries => r.send { resp .appendEntriesResp with success := false }
  | _ => r

def step (r : Raft) (msg : Message) : Raft :=
  if msg.term > r.currentTerm then
    let lead := if msg.type = .appendEntries then msg.fromNode else 0
    (r.becomeFollower msg.term lead).stepRole msg
  else if msg.term < r.currentTerm then r.rejectStale msg
  else r.stepRole msg

def propose (r : Raft) (data : Bytes) : Bool × Raft :=
  if r.role ≠ .leader then (false, r)
  else
    let entry : LogEntry := { term := r.currentTerm, index := r.lastIndex + 1, data }
    (true, { r with log := r.log ++ [entry] }.maybeCommit)

def takeCommitted (r : Raft) : List LogEntry × Raft :=
  ((List.range' (r.lastApplied + 1) (r.commitIndex - r.lastApplied)).map r.entryAt,
    { r with lastApplied := r.commitIndex })

def restore (r : Raft) (term : Nat) (vote : NodeId) (entries : List LogEntry) : Raft :=
  let log := r.log ++ entries
  { r with
    currentTerm := term
    votedFor := vote
    log
    stableIndex := log.length - 1
    hardStateDirty := false }

end Raft

end MiniLsm

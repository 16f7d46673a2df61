import MiniLsm.Raft.Core
import Mathlib.Data.List.Nodup
import Mathlib.Data.List.Induction

/-! # A cluster of Raft nodes over an unreliable network

Each node runs the state machine of `Raft.Core`. After every operation the
node's messages join the set of all messages ever emitted, from which the
network may deliver any one, at any time and any number of times; a message
that is never delivered is lost. A crash and restart rebuilds a node from what
was persisted before its messages left: term, vote and log.
-/

namespace MiniLsm

/-- One membership list shared by all nodes. Timeouts may differ. -/
structure Membership where
  peers : List NodeId
  distinct : peers.Nodup
  nonzero : ∀ id ∈ peers, id ≠ 0
  electionTimeout : NodeId → Int
  heartbeatTimeout : NodeId → Int

def Membership.config (M : Membership) (id : NodeId) : Config :=
  { id
    peers := M.peers
    electionTimeout := M.electionTimeout id
    heartbeatTimeout := M.heartbeatTimeout id }

structure Cluster where
  node : NodeId → Raft
  /-- Every message ever emitted. -/
  sent : List Message
  /-- What `TakeCommitted` returned on a node since its last restart. -/
  taken : NodeId → List LogEntry

inductive Event where
  | tick (id : NodeId)
  | propose (id : NodeId) (data : Bytes)
  | deliver (msg : Message)
  | takeCommitted (id : NodeId)
  | restart (id : NodeId)
  deriving Repr, DecidableEq

/-- The node at which an event happens. -/
def Event.at : Event → NodeId
  | .tick id | .propose id _ | .takeCommitted id | .restart id => id
  | .deliver msg => msg.toNode

namespace Cluster

/-- Install the state after an operation and emit what it queued. -/
def update (c : Cluster) (id : NodeId) (r : Raft) : Cluster :=
  { c with
    node := fun n => if n = id then r.takeMessages.2 else c.node n
    sent := c.sent ++ r.takeMessages.1 }

/-- A fresh node that got back its term, its vote and entries `1..LastIndex`. -/
def restarted (r : Raft) : Raft :=
  (Raft.new r.config).restore r.currentTerm r.votedFor (r.log.drop 1)

/-- An event at a member. Delivering a message that was never emitted does
    nothing. -/
def next (c : Cluster) : Event → Cluster
  | .tick id => c.update id (c.node id).tick
  | .propose id data => c.update id ((c.node id).propose data).2
  | .deliver msg =>
      if msg ∈ c.sent then c.update msg.toNode ((c.node msg.toNode).step msg) else c
  | .takeCommitted id =>
      let (entries, r) := (c.node id).takeCommitted
      { c with
        node := fun n => if n = id then r else c.node n
        taken := fun n => if n = id then c.taken n ++ entries else c.taken n }
  | .restart id =>
      { c with
        node := fun n => if n = id then restarted (c.node id) else c.node n
        taken := fun n => if n = id then [] else c.taken n }

end Cluster

namespace Membership

variable (M : Membership)

def initial : Cluster where
  node := fun id => Raft.new (M.config id)
  sent := []
  taken := fun _ => []

/-- One step: an event at an id outside the membership does nothing. -/
def step (c : Cluster) (e : Event) : Cluster := if e.at ∈ M.peers then c.next e else c

/-- The state after a sequence of events. -/
def run (events : List Event) : Cluster := events.foldl M.step M.initial

/-- The state after the first `k` events of a run. -/
def moment (events : List Event) (k : Nat) : Cluster := M.run (events.take k)

end Membership

end MiniLsm

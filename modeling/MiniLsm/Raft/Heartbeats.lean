import MiniLsm.Raft.Leadership
import MiniLsm.Machine.Runs
import Mathlib.Data.List.Perm.Basic

/-! # A leader that heartbeats

Synchronous rounds over a network that loses nothing: proposals at the leader,
one tick of every node in any order, and then the messages in flight delivered
one by one, in any order, with their replies, until none is left.
-/

namespace MiniLsm

/-- The nodes, the messages in flight, and all that were ever emitted. -/
structure Network where
  node : NodeId → Raft
  flight : List Message := []
  emitted : List Message := []

namespace Network

/-- An operation at a node; what it queues is in flight at once. -/
def act (s : Network) (id : NodeId) (op : Raft → Raft) : Network where
  node := fun n => if n = id then (op (s.node id)).takeMessages.2 else s.node n
  flight := s.flight ++ (op (s.node id)).takeMessages.1
  emitted := s.emitted ++ (op (s.node id)).takeMessages.1

def propose (s : Network) (id : NodeId) (data : Bytes) : Network :=
  s.act id fun r => (r.propose data).2

def tick (s : Network) (id : NodeId) : Network := s.act id Raft.tick

/-- Deliver the message at a place in flight. -/
def deliver (s : Network) (i : Nat) : Network :=
  match s.flight[i]? with
  | some msg => { s with flight := s.flight.eraseIdx i }.act msg.toNode fun r => r.step msg
  | none => s

/-- One round: what is proposed, who ticks in which order, and which of the
    messages in flight is delivered next. -/
structure Round where
  proposals : List Bytes
  order : List NodeId
  picks : List Nat

/-- The proposals and the ticks of a round. -/
def ticked (leader : NodeId) (s : Network) (round : Round) : Network :=
  round.order.foldl tick (round.proposals.foldl (fun s data => s.propose leader data) s)

def round (leader : NodeId) (s : Network) (round : Round) : Network :=
  round.picks.foldl deliver (s.ticked leader round)

def rounds (leader : NodeId) (s : Network) (all : List Round) : Network :=
  all.foldl (fun s r => s.round leader r) s

/-- A round in which every node ticks once and no message is left. -/
structure Complete (peers : List NodeId) (leader : NodeId) (s : Network) (round : Round) : Prop where
  order : round.order.Perm peers
  delivered : (s.round leader round).flight = []

variable {peers : List NodeId} {leader : NodeId} {term : Nat} {s s' : Network}

/-- The leader of a term and its followers. -/
structure Led (peers : List NodeId) (leader : NodeId) (term : Nat) (s : Network) : Prop where
  leads : (s.node leader).role = .leader
  current : (s.node leader).currentTerm = term
  follows : ∀ n ∈ peers, n ≠ leader →
    (s.node n).role = .follower ∧ (s.node n).currentTerm = term

/-- Every node has the membership, and the leader heartbeats before any election
    timer is due. -/
structure Timing (config : NodeId → Config) (peers : List NodeId) (leader : NodeId) : Prop where
  ids : ∀ n ∈ peers, (config n).id = n
  members : ∀ n ∈ peers, (config n).peers = peers
  positive : 1 ≤ (config leader).heartbeatTimeout
  sooner : ∀ n ∈ peers, (config leader).heartbeatTimeout < (config n).electionTimeout

/-- No message is in flight or waiting to be. -/
structure Silent (peers : List NodeId) (s : Network) : Prop where
  flight : s.flight = []
  queues : ∀ n ∈ peers, (s.node n).outMsgs = []

/-! ## The invariant -/

variable {config : NodeId → Config} {elapsed : Int}

/-- One node, with the timer of a follower where the leader's stands unless a
    heartbeat is awaited. -/
structure Beats (config : NodeId → Config) (leader : NodeId) (term : Nat) (elapsed : Int)
    (awaited : Prop) (n : NodeId) (r : Raft) : Prop where
  config : r.config = config n
  queue : r.outMsgs = []
  current : r.currentTerm = term
  leads : n = leader → r.role = .leader ∧ r.heartbeatElapsed = elapsed
  follows : n ≠ leader → r.role = .follower ∧ (r.electionElapsed = elapsed ∨ awaited)

/-- A heartbeat to a node is in flight. -/
def Awaits (s : Network) (n : NodeId) : Prop :=
  ∃ msg ∈ s.flight, msg.type = .appendEntries ∧ msg.toNode = n

/-- The messages of a round: heartbeats just sent, and their answers. -/
def Expected (peers : List NodeId) (leader : NodeId) (term : Nat) (elapsed : Int)
    (msg : Message) : Prop :=
  msg.term = term ∧
    ((msg.type = .appendEntries ∧ msg.fromNode = leader ∧ msg.toNode ∈ peers ∧
        msg.toNode ≠ leader ∧ elapsed = 0) ∨
      (msg.type = .appendEntriesResp ∧ msg.toNode = leader))

structure Beating (config : NodeId → Config) (peers : List NodeId) (leader : NodeId) (term : Nat)
    (elapsed : Int) (s : Network) : Prop where
  nodes : ∀ n ∈ peers, Beats config leader term elapsed (s.Awaits n) n (s.node n)
  flight : ∀ msg ∈ s.flight, Expected peers leader term elapsed msg
  noVotes : ∀ msg ∈ s.emitted, msg.type ≠ .requestVote

theorem Expected.noVote {msg : Message} (h : Expected peers leader term elapsed msg) :
    msg.type ≠ .requestVote := by
  rcases h.2 with ⟨type, -⟩ | ⟨type, -⟩
  · simp [type]
  · simp [type]

/-- An operation at one node that leaves it on time and queues what is expected,
    where the others are on time. -/
theorem Beating.of_act {id : NodeId} {op : Raft → Raft}
    (others : ∀ n ∈ peers, n ≠ id → Beats config leader term elapsed (s.Awaits n) n (s.node n))
    (flight : ∀ msg ∈ s.flight, Expected peers leader term elapsed msg)
    (noVotes : ∀ msg ∈ s.emitted, msg.type ≠ .requestVote)
    (beats : Beats config leader term elapsed ((s.act id op).Awaits id) id
      (op (s.node id)).takeMessages.2)
    (out : ∀ msg ∈ (op (s.node id)).outMsgs, Expected peers leader term elapsed msg) :
    Beating config peers leader term elapsed (s.act id op) where
  nodes := by
    intro n member
    by_cases here : n = id
    · subst here
      simpa [Network.act] using beats
    · have same : (s.act id op).node n = s.node n := if_neg here
      have node := others n member here
      rw [same]
      refine ⟨node.config, node.queue, node.current, node.leads, fun other => ?_⟩
      refine (node.follows other).imp_right (Or.imp_right ?_)
      rintro ⟨msg, inFlight, heartbeat⟩
      exact ⟨msg, List.mem_append_left _ inFlight, heartbeat⟩
  flight := by
    intro msg member
    rcases List.mem_append.mp member with old | new
    · exact flight msg old
    · exact out msg new
  noVotes := by
    intro msg member
    rcases List.mem_append.mp member with old | new
    · exact noVotes msg old
    · exact (out msg new).noVote

/-- The role, the term, the timers and the queue of a node are left alone. -/
structure SameTime (r r' : Raft) : Prop where
  config : r'.config = r.config
  role : r'.role = r.role
  term : r'.currentTerm = r.currentTerm
  election : r'.electionElapsed = r.electionElapsed
  heartbeat : r'.heartbeatElapsed = r.heartbeatElapsed
  queue : r'.outMsgs = r.outMsgs

theorem propose_sameTime (r : Raft) (data : Bytes) : SameTime r (r.propose data).2 := by
  rw [Raft.propose]
  split
  · exact ⟨rfl, rfl, rfl, rfl, rfl, rfl⟩
  · dsimp only
    rw [Raft.maybeCommit_eq]
    exact ⟨rfl, rfl, rfl, rfl, rfl, rfl⟩

theorem handleAppendEntriesResp_sameTime (r : Raft) (msg : Message) :
    SameTime r (r.handleAppendEntriesResp msg) := by
  rw [Raft.handleAppendEntriesResp]
  split
  · rw [Raft.maybeCommit_eq]
    exact ⟨rfl, rfl, rfl, rfl, rfl, rfl⟩
  · split <;> exact ⟨rfl, rfl, rfl, rfl, rfl, rfl⟩

theorem Beats.sameTime {awaited awaited' : Prop} {n : NodeId} {r r' : Raft}
    (h : Beats config leader term elapsed awaited n r) (same : SameTime r r')
    (still : awaited → awaited') : Beats config leader term elapsed awaited' n r' where
  config := same.config.trans h.config
  queue := same.queue.trans h.queue
  current := same.term.trans h.current
  leads := fun here => ⟨same.role.trans (h.leads here).1, same.heartbeat.trans (h.leads here).2⟩
  follows := fun other => ⟨same.role.trans (h.follows other).1,
    (h.follows other).2.imp (fun on => same.election.trans on) still⟩

/-- An operation that keeps a node's time queues nothing. -/
theorem Beating.act_sameTime {id : NodeId} (op : Raft → Raft)
    (nodes : ∀ n ∈ peers, Beats config leader term elapsed (s.Awaits n) n (s.node n))
    (flight : ∀ msg ∈ s.flight, Expected peers leader term elapsed msg)
    (noVotes : ∀ msg ∈ s.emitted, msg.type ≠ .requestVote) (member : id ∈ peers)
    (same : SameTime (s.node id) (op (s.node id))) :
    Beating config peers leader term elapsed (s.act id op) ∧
      (s.act id op).flight = s.flight := by
  have nothing : (op (s.node id)).outMsgs = [] := same.queue.trans (nodes id member).queue
  have sameFlight : (s.act id op).flight = s.flight := by
    show s.flight ++ (op (s.node id)).outMsgs = _
    rw [nothing, List.append_nil]
  refine ⟨of_act (fun n isPeer _ => nodes n isPeer) flight noVotes ?_ ?_, sameFlight⟩
  · refine (nodes id member).sameTime ⟨same.config, same.role, same.term, same.election,
      same.heartbeat, (nodes id member).queue.symm⟩ ?_
    rw [Awaits, Awaits, sameFlight]
    exact fun awaited => awaited
  · simp [nothing]

/-! ## Deliveries -/

/-- How many deliveries are still to come: a heartbeat will be answered. -/
def load : List Message → Nat
  | [] => 0
  | msg :: flight => load flight + if msg.type = .appendEntries then 2 else 1

theorem load_le (flight : List Message) : load flight ≤ 2 * flight.length := by
  induction flight with
  | nil => exact Nat.le_refl 0
  | cons msg flight ih =>
      rw [load, List.length_cons]
      split <;> omega

theorem load_append (left right : List Message) : load (left ++ right) = load left + load right := by
  induction left with
  | nil => simp [load]
  | cons msg left ih =>
      rw [List.cons_append, load, load, ih]
      omega

/-- The message at a place and the others. -/
theorem flight_split {i : Nat} {msg : Message} (found : s.flight[i]? = some msg) :
    ∃ before after, s.flight = before ++ msg :: after ∧ s.flight.eraseIdx i = before ++ after := by
  obtain ⟨inside, rfl⟩ := List.getElem?_eq_some_iff.mp found
  refine ⟨s.flight.take i, s.flight.drop (i + 1), ?_, List.eraseIdx_eq_take_drop_succ _ _⟩
  rw [List.getElem_cons_drop, List.take_append_drop]

/-- Taking a message out of flight, when nobody awaits it or its node is on time. -/
theorem Beating.without {before after : List Message} {msg : Message}
    (h : Beating config peers leader term elapsed s) (split : s.flight = before ++ msg :: after)
    {n : NodeId} (here : msg.type = .appendEntries → msg.toNode = n) :
    (∀ m ∈ peers, m ≠ n → Beats config leader term elapsed
        (Awaits { s with flight := before ++ after } m) m (s.node m)) ∧
      ∀ m ∈ before ++ after, Expected peers leader term elapsed m := by
  constructor
  · intro m member other
    have node := h.nodes m member
    refine ⟨node.config, node.queue, node.current, node.leads, fun notLeader => ?_⟩
    refine (node.follows notLeader).imp_right (Or.imp_right ?_)
    rintro ⟨awaited, inFlight, type, arrives⟩
    refine ⟨awaited, ?_, type, arrives⟩
    rw [split] at inFlight
    simp only [List.mem_append, List.mem_cons] at inFlight ⊢
    rcases inFlight with left | rfl | right
    · exact Or.inl left
    · exact absurd (arrives.symm.trans (here type)) other
    · exact Or.inr right
  · intro m member
    refine h.flight m ?_
    rw [split]
    simp only [List.mem_append, List.mem_cons] at member ⊢
    exact member.imp_right Or.inr

/-- A follower that hears from the leader of its term starts its timer again and
    answers, whatever it makes of the entries. -/
theorem follower_heard {r : Raft} {msg : Message} (role : r.role = .follower)
    (type : msg.type = .appendEntries) (current : msg.term = r.currentTerm) :
    ∃ reply, (r.step msg).outMsgs = r.outMsgs ++ [reply] ∧ reply.type = .appendEntriesResp ∧
      reply.toNode = msg.fromNode ∧ reply.term = r.currentTerm ∧
      (r.step msg).config = r.config ∧ (r.step msg).role = .follower ∧
      (r.step msg).currentTerm = r.currentTerm ∧ (r.step msg).electionElapsed = 0 := by
  have steps : r.step msg = r.handleAppendEntries msg := by
    rw [Raft.step, if_neg (by omega), if_neg (by omega), Raft.stepRole]
    simp only [role, Raft.stepFollower, type]
  obtain ⟨_, _, _, success, matchIndex, handled⟩ := r.handleAppendEntries_shape msg
  rw [steps, handled]
  exact ⟨r.appendReply msg success matchIndex, rfl, rfl, rfl, rfl, rfl, role, rfl, rfl⟩

/-- A leader takes an answer of its term and says nothing. -/
theorem leader_answered {r : Raft} {msg : Message} (role : r.role = .leader)
    (type : msg.type = .appendEntriesResp) (current : msg.term = r.currentTerm) :
    SameTime r (r.step msg) := by
  rw [Raft.step, if_neg (by omega), if_neg (by omega), Raft.stepRole]
  simp only [role, Raft.stepLeader, type]
  exact handleAppendEntriesResp_sameTime r msg

/-- A heartbeat resets the timer of its node and is answered. -/
theorem Beating.heartbeat_delivered {before after : List Message} {msg : Message}
    (h : Beating config peers leader term elapsed s) (split : s.flight = before ++ msg :: after)
    (term' : msg.term = term) (type : msg.type = .appendEntries) (sender : msg.fromNode = leader)
    (arrives : msg.toNode ∈ peers) (notLeader : msg.toNode ≠ leader) (zero : elapsed = 0) :
    Beating config peers leader term elapsed
        (act { s with flight := before ++ after } msg.toNode fun r => r.step msg) ∧
      load (act { s with flight := before ++ after } msg.toNode fun r => r.step msg).flight =
        load (before ++ after) + 1 := by
  obtain ⟨nodes, flight⟩ := h.without split (n := msg.toNode) fun _ => rfl
  have node := h.nodes msg.toNode arrives
  obtain ⟨reply, queue, replyType, replyTo, replyTerm, sameConfig, role, current, reset⟩ :=
    follower_heard (node.follows notLeader).1 type (term'.trans node.current.symm)
  rw [node.queue, List.nil_append] at queue
  refine ⟨of_act nodes flight h.noVotes ?_ ?_, ?_⟩
  · exact ⟨sameConfig.trans node.config, rfl, current.trans node.current,
      fun here => absurd here notLeader, fun _ => ⟨role, Or.inl (reset.trans zero.symm)⟩⟩
  · intro m member
    simp only [queue, List.mem_singleton] at member
    rw [member]
    exact ⟨replyTerm.trans node.current, Or.inr ⟨replyType, replyTo.trans sender⟩⟩
  · show load ((before ++ after) ++ ((s.node msg.toNode).step msg).outMsgs) = _
    rw [queue, load_append]
    simp [load, replyType]

/-- The leader takes an answer and says nothing. -/
theorem Beating.answer_delivered {before after : List Message} {msg : Message}
    (h : Beating config peers leader term elapsed s) (split : s.flight = before ++ msg :: after)
    (isLeader : leader ∈ peers) (term' : msg.term = term) (type : msg.type = .appendEntriesResp) :
    Beating config peers leader term elapsed
        (act { s with flight := before ++ after } leader fun r => r.step msg) ∧
      (act { s with flight := before ++ after } leader fun r => r.step msg).flight =
        before ++ after := by
  obtain ⟨others, flight⟩ := h.without split (n := leader) fun other => by
    cases type.symm.trans other
  have node := h.nodes leader isLeader
  have nodes : ∀ n ∈ peers, Beats config leader term elapsed
      (Awaits { s with flight := before ++ after } n) n (s.node n) := by
    intro n isPeer
    by_cases here : n = leader
    · subst here
      exact ⟨node.config, node.queue, node.current, node.leads, fun other => absurd rfl other⟩
    · exact others n isPeer here
  exact act_sameTime (s := { s with flight := before ++ after }) (fun r => r.step msg) nodes flight
    h.noVotes isLeader
    (leader_answered (node.leads rfl).1 type (term'.trans node.current.symm))

/-- One delivery keeps the beat, and is one less to come. -/
theorem Beating.deliver (h : Beating config peers leader term elapsed s) (isLeader : leader ∈ peers)
    (i : Nat) :
    Beating config peers leader term elapsed (s.deliver i) ∧
      (i < s.flight.length → load (s.deliver i).flight + 1 = load s.flight) := by
  rw [Network.deliver]
  cases found : s.flight[i]? with
  | none =>
      refine ⟨h, fun inside => ?_⟩
      rw [List.getElem?_eq_getElem inside] at found
      cases found
  | some msg =>
      obtain ⟨before, after, split, rest⟩ := flight_split found
      have size : load s.flight = load (before ++ after) +
          if msg.type = .appendEntries then 2 else 1 := by
        rw [split, load_append, load_append, load]
        omega
      simp only [rest]
      rcases h.flight msg (by simp [split]) with
        ⟨term', ⟨type, sender, arrives, notLeader, zero⟩ | ⟨type, arrives⟩⟩
      · obtain ⟨beating, answered⟩ :=
          h.heartbeat_delivered split term' type sender arrives notLeader zero
        refine ⟨beating, fun _ => ?_⟩
        rw [size, if_pos type, answered]
      · obtain ⟨beating, sameFlight⟩ := h.answer_delivered split isLeader term' type
        rw [arrives]
        refine ⟨beating, fun _ => ?_⟩
        rw [sameFlight, size, if_neg (by simp [type])]

/-- Picks of messages that are there. -/
def InRange (s : Network) : List Nat → Prop
  | [] => True
  | i :: later => i < s.flight.length ∧ InRange (s.deliver i) later

theorem Beating.deliveries (isLeader : leader ∈ peers) (picks : List Nat)
    (h : Beating config peers leader term elapsed s) :
    Beating config peers leader term elapsed (picks.foldl Network.deliver s) ∧
      (s.InRange picks →
        load (picks.foldl Network.deliver s).flight + picks.length = load s.flight) := by
  induction picks generalizing s with
  | nil => exact ⟨h, fun _ => rfl⟩
  | cons i picks ih =>
      obtain ⟨once, less⟩ := h.deliver isLeader i
      obtain ⟨beating, size⟩ := ih once
      refine ⟨beating, fun inRange => ?_⟩
      have := less inRange.1
      have := size inRange.2
      simp only [List.foldl_cons, List.length_cons]
      omega

/-- Whatever is in flight can be delivered until nothing is left. -/
theorem Beating.settles (isLeader : leader ∈ peers)
    (h : Beating config peers leader term elapsed s) :
    ∃ picks : List Nat, (picks.foldl Network.deliver s).flight = [] := by
  obtain ⟨n, size⟩ : ∃ n, load s.flight = n := ⟨_, rfl⟩
  induction n generalizing s with
  | zero =>
      refine ⟨[], ?_⟩
      cases flight : s.flight with
      | nil => exact flight
      | cons msg rest =>
          rw [flight, load] at size
          split at size <;> omega
  | succ n ih =>
      have inside : 0 < s.flight.length := by
        cases flight : s.flight with
        | nil => simp [flight, load] at size
        | cons msg rest => simp
      obtain ⟨once, less⟩ := h.deliver isLeader 0
      obtain ⟨picks, settled⟩ := ih once (by have := less inside; omega)
      exact ⟨0 :: picks, settled⟩

/-! ## Ticks -/

/-- Every node of the order ticks once, on its own. -/
theorem ticks_eq (order : List NodeId) (distinct : order.Nodup) (s : Network) :
    (∀ n, (order.foldl Network.tick s).node n =
      if n ∈ order then (s.node n).tick.takeMessages.2 else s.node n) ∧
    (order.foldl Network.tick s).flight =
      s.flight ++ order.flatMap (fun n => (s.node n).tick.outMsgs) ∧
    (order.foldl Network.tick s).emitted =
      s.emitted ++ order.flatMap (fun n => (s.node n).tick.outMsgs) := by
  induction order generalizing s with
  | nil => simp
  | cons id order ih =>
      obtain ⟨fresh, distinct'⟩ := List.nodup_cons.mp distinct
      obtain ⟨nodes, flight, emitted⟩ := ih distinct' (s.tick id)
      have later : order.flatMap (fun n => ((s.tick id).node n).tick.outMsgs) =
          order.flatMap (fun n => (s.node n).tick.outMsgs) := by
        refine List.flatMap_congr fun n member => ?_
        have other : n ≠ id := fun same => fresh (same ▸ member)
        simp only [Network.tick, act, if_neg other]
      rw [later] at flight emitted
      refine ⟨fun n => ?_, ?_, ?_⟩
      · rw [List.foldl_cons, nodes]
        by_cases here : n = id
        · subst here
          simp [fresh, Network.tick, act]
        · simp [here, Network.tick, act]
      · rw [List.foldl_cons, flight, List.flatMap_cons, ← List.append_assoc]
        rfl
      · rw [List.foldl_cons, emitted, List.flatMap_cons, ← List.append_assoc]
        rfl

/-- When only one element contributes, its share is all there is. -/
theorem flatMap_only {α β : Type*} {f : α → List β} {order : List α} {a : α}
    (distinct : order.Nodup) (member : a ∈ order) (others : ∀ x ∈ order, x ≠ a → f x = []) :
    order.flatMap f = f a := by
  induction order with
  | nil => cases member
  | cons first order ih =>
      obtain ⟨fresh, distinct'⟩ := List.nodup_cons.mp distinct
      rw [List.flatMap_cons]
      rcases List.mem_cons.mp member with rfl | later
      · have rest : order.flatMap f = [] := by
          refine List.flatMap_eq_nil_iff.mpr fun x isLater => ?_
          exact others x (List.mem_cons_of_mem _ isLater) fun same => fresh (same ▸ isLater)
        rw [rest, List.append_nil]
      · rw [others first List.mem_cons_self fun same => fresh (same ▸ later), List.nil_append]
        exact ih distinct' later fun x isLater => others x (List.mem_cons_of_mem _ isLater)

theorem follower_ticks {r : Raft} (role : r.role = .follower)
    (early : r.electionElapsed + 1 < r.config.electionTimeout) :
    r.tick = { r with electionElapsed := r.electionElapsed + 1 } := by
  rw [Raft.tick, if_neg (by simp [role])]
  exact if_neg (by simpa using early)

/-- The leader's timer after a tick. -/
def beat (config : Config) (elapsed : Int) : Int :=
  if elapsed + 1 ≥ config.heartbeatTimeout then 0 else elapsed + 1

theorem leader_ticks {r : Raft} (role : r.role = .leader) :
    ∃ out, r.tick = { r with
        heartbeatElapsed := beat r.config r.heartbeatElapsed
        outMsgs := r.outMsgs ++ out } ∧
      (r.heartbeatElapsed + 1 ≥ r.config.heartbeatTimeout → out = r.others.map r.appendEntriesTo) ∧
      (¬ r.heartbeatElapsed + 1 ≥ r.config.heartbeatTimeout → out = []) := by
  rw [Raft.tick, if_pos role, beat]
  dsimp only
  split
  · rename_i due
    rw [Raft.broadcastAppendEntries_eq]
    exact ⟨_, rfl, fun _ => rfl, fun early => absurd due early⟩
  · rename_i early
    exact ⟨[], by simp, fun due => absurd due early, fun _ => rfl⟩

/-- What the leader sends when its timer starts again. -/
theorem Beats.heartbeats {awaited : Prop} {r : Raft}
    (h : Beats config leader term elapsed awaited leader r) (timing : Timing config peers leader)
    (isLeader : leader ∈ peers) {restarted : Int}
    (zero : restarted = 0) :
    ∀ msg ∈ r.others.map r.appendEntriesTo, Expected peers leader term restarted msg := by
  have id : r.config.id = leader := by rw [h.config, timing.ids leader isLeader]
  intro msg member
  obtain ⟨p, isPeer, rfl⟩ := List.mem_map.mp member
  obtain ⟨inPeers, other⟩ := Raft.mem_others.mp isPeer
  rw [h.config, timing.members leader isLeader] at inPeers
  rw [id] at other
  exact ⟨h.current, Or.inl ⟨rfl, id, inPeers, other, zero⟩⟩

/-- Only the leader sends at a tick, to every other node, and only when its timer
    is due. -/
theorem Beating.ticks_out (h : Beating config peers leader term elapsed s)
    (timing : Timing config peers leader) (isLeader : leader ∈ peers)
    (early : elapsed < (config leader).heartbeatTimeout) (flight : s.flight = []) :
    (∀ n ∈ peers, n ≠ leader →
      (s.node n).tick = { s.node n with electionElapsed := elapsed + 1 }) ∧
    ∃ out, (s.node leader).tick = { s.node leader with
        heartbeatElapsed := beat (config leader) elapsed
        outMsgs := out } ∧
      (elapsed + 1 ≥ (config leader).heartbeatTimeout →
        out = (s.node leader).others.map (s.node leader).appendEntriesTo) ∧
      (¬ elapsed + 1 ≥ (config leader).heartbeatTimeout → out = []) := by
  constructor
  · intro n member other
    have node := h.nodes n member
    obtain ⟨role, timer | ⟨msg, inFlight, -⟩⟩ := node.follows other
    · rw [follower_ticks role, timer]
      have := timing.sooner n member
      rw [timer, node.config]
      omega
    · simp [flight] at inFlight
  · have node := h.nodes leader isLeader
    obtain ⟨role, heart⟩ := node.leads rfl
    obtain ⟨out, ticks, due, notDue⟩ := leader_ticks role
    have timer : beat (s.node leader).config (s.node leader).heartbeatElapsed =
        beat (config leader) elapsed := by rw [heart, node.config]
    rw [timer, node.queue, List.nil_append] at ticks
    rw [heart, node.config] at due notDue
    exact ⟨out, ticks, due, notDue⟩

/-- The ticks of a round. -/
theorem Beating.ticks (h : Beating config peers leader term elapsed s)
    (timing : Timing config peers leader) (isLeader : leader ∈ peers) (distinct : peers.Nodup)
    (early : elapsed < (config leader).heartbeatTimeout) (flight : s.flight = [])
    {order : List NodeId} (perm : order.Perm peers) :
    Beating config peers leader term (beat (config leader) elapsed) (order.foldl Network.tick s) ∧
      load (order.foldl Network.tick s).flight ≤ 2 * peers.length := by
  obtain ⟨followers, out, leaderTicks, due, notDue⟩ := h.ticks_out timing isLeader early flight
  obtain ⟨nodes, isFlight, emitted⟩ := ticks_eq order (perm.nodup_iff.mpr distinct) s
  have node := h.nodes leader isLeader
  -- what is in flight is what the leader sent
  have sent : order.flatMap (fun n => (s.node n).tick.outMsgs) = out := by
    have silent : ∀ n ∈ order, n ≠ leader → (s.node n).tick.outMsgs = [] := by
      intro n member other
      have isPeer := perm.mem_iff.mp member
      rw [followers n isPeer other]
      exact (h.nodes n isPeer).queue
    rw [flatMap_only (perm.nodup_iff.mpr distinct) (perm.mem_iff.mpr isLeader) silent, leaderTicks]
  rw [sent, flight, List.nil_append] at isFlight
  rw [sent] at emitted
  -- and it is what is expected
  have expected : ∀ msg ∈ out,
      Expected peers leader term (beat (config leader) elapsed) msg := by
    intro msg member
    by_cases isDue : elapsed + 1 ≥ (config leader).heartbeatTimeout
    · rw [due isDue] at member
      exact node.heartbeats timing isLeader (if_pos isDue) msg member
    · rw [notDue isDue] at member
      cases member
  refine ⟨⟨?_, ?_, ?_⟩, ?_⟩
  · intro n member
    rw [nodes, if_pos (perm.mem_iff.mpr member)]
    have before := h.nodes n member
    by_cases here : n = leader
    · subst here
      rw [leaderTicks]
      exact ⟨before.config, rfl, before.current, fun _ => ⟨(before.leads rfl).1, rfl⟩,
        fun other => absurd rfl other⟩
    · rw [followers n member here]
      refine ⟨before.config, rfl, before.current, fun same => absurd same here, fun _ => ?_⟩
      refine ⟨(before.follows here).1, ?_⟩
      by_cases isDue : elapsed + 1 ≥ (config leader).heartbeatTimeout
      · -- the heartbeat that will reset this timer
        refine Or.inr ⟨(s.node leader).appendEntriesTo n, ?_, rfl, rfl⟩
        rw [isFlight, due isDue]
        refine List.mem_map_of_mem (Raft.mem_others.mpr ?_)
        rw [node.config, timing.members leader isLeader, timing.ids leader isLeader]
        exact ⟨member, here⟩
      · exact Or.inl (if_neg isDue).symm
  · rw [isFlight]
    exact expected
  · rw [emitted]
    intro msg member
    rcases List.mem_append.mp member with old | new
    · exact h.noVotes msg old
    · exact (expected msg new).noVote
  · rw [isFlight]
    by_cases isDue : elapsed + 1 ≥ (config leader).heartbeatTimeout
    · refine (load_le out).trans ?_
      rw [due isDue, List.length_map, Raft.others, node.config, timing.members leader isLeader]
      exact Nat.mul_le_mul_left 2 (List.length_filter_le _ _)
    · rw [notDue isDue]
      exact Nat.zero_le _

/-! ## Rounds -/

/-- Proposals leave the timers and the network alone. -/
theorem Beating.proposals (isLeader : leader ∈ peers) (all : List Bytes)
    (h : Beating config peers leader term elapsed s) :
    Beating config peers leader term elapsed (all.foldl (fun s data => s.propose leader data) s) ∧
      (all.foldl (fun s data => s.propose leader data) s).flight = s.flight := by
  induction all generalizing s with
  | nil => exact ⟨h, rfl⟩
  | cons data all ih =>
      obtain ⟨once, sameFlight⟩ := act_sameTime (fun r => (r.propose data).2) h.nodes
        h.flight h.noVotes isLeader (propose_sameTime (s.node leader) data)
      obtain ⟨beating, same⟩ := ih once
      exact ⟨beating, same.trans sameFlight⟩

theorem beat_bounds {config : Config} {elapsed : Int} (positive : 1 ≤ config.heartbeatTimeout) :
    beat config elapsed < config.heartbeatTimeout := by
  rw [beat]
  split <;> omega

/-- Between two rounds the network is quiet and no heartbeat is due. -/
structure Rested (config : NodeId → Config) (peers : List NodeId) (leader : NodeId) (term : Nat)
    (s : Network) : Prop where
  beating : ∃ elapsed : Int, elapsed < (config leader).heartbeatTimeout ∧
    Beating config peers leader term elapsed s
  flight : s.flight = []

/-- What the deliveries of a round start from. -/
theorem Rested.ticked (h : Rested config peers leader term s) (timing : Timing config peers leader)
    (isLeader : leader ∈ peers) (distinct : peers.Nodup) (round : Round)
    (perm : round.order.Perm peers) :
    ∃ elapsed : Int, elapsed < (config leader).heartbeatTimeout ∧
      Beating config peers leader term elapsed (s.ticked leader round) ∧
      load (s.ticked leader round).flight ≤ 2 * peers.length := by
  obtain ⟨elapsed, early, beating⟩ := h.beating
  obtain ⟨proposed, sameFlight⟩ := beating.proposals isLeader round.proposals
  obtain ⟨ticked, size⟩ :=
    proposed.ticks timing isLeader distinct early (sameFlight.trans h.flight) perm
  exact ⟨_, beat_bounds timing.positive, ticked, size⟩

theorem Rested.round (h : Rested config peers leader term s) (timing : Timing config peers leader)
    (isLeader : leader ∈ peers) (distinct : peers.Nodup) {round : Round}
    (complete : Complete peers leader s round) :
    Rested config peers leader term (s.round leader round) := by
  obtain ⟨elapsed, early, beating, -⟩ := h.ticked timing isLeader distinct round complete.order
  exact ⟨⟨elapsed, early, (beating.deliveries isLeader round.picks).1⟩, complete.delivered⟩

/-- The rounds of a run, each complete where it starts. -/
theorem Rested.rounds (timing : Timing config peers leader) (isLeader : leader ∈ peers)
    (distinct : peers.Nodup) (all : List Round)
    (complete : ∀ before round, before ++ [round] <+: all →
      Complete peers leader (s.rounds leader before) round)
    (h : Rested config peers leader term s) :
    Rested config peers leader term (s.rounds leader all) :=
  run_invariant (fun (s : Network) r => s.round leader r) s (Rested config peers leader term) h
    fun before round inside rested =>
      rested.round timing isLeader distinct (complete before round inside)

theorem Rested.led (h : Rested config peers leader term s) (isLeader : leader ∈ peers) :
    s.Led peers leader term := by
  obtain ⟨elapsed, -, beating⟩ := h.beating
  have node := beating.nodes leader isLeader
  refine ⟨(node.leads rfl).1, node.current, fun n member other => ?_⟩
  have follower := beating.nodes n member
  exact ⟨(follower.follows other).1, follower.current⟩

/-- With the heartbeat timeout below every election timeout, a leader whose timer
    and whose followers' timers have just started leads its term through any number
    of rounds: nobody ever asks for a vote. The rounds themselves always end: whatever
    is delivered first, two deliveries for each node are all there can be. -/
theorem heartbeats_keep_leader (peers : List NodeId) (leader : NodeId) (term : Nat) (s : Network)
    (distinct : peers.Nodup) (isLeader : leader ∈ peers)
    (timing : Timing (fun n => (s.node n).config) peers leader) (led : s.Led peers leader term)
    (heartbeat : (s.node leader).heartbeatElapsed = 0)
    (elections : ∀ n ∈ peers, n ≠ leader → (s.node n).electionElapsed = 0)
    (silent : s.Silent peers) (unsent : s.emitted = [])
    (all : List Round)
    (complete : ∀ before round, before ++ [round] <+: all →
      Complete peers leader (s.rounds leader before) round) :
    (s.rounds leader all).Led peers leader term ∧
      (∀ msg ∈ (s.rounds leader all).emitted, msg.type ≠ .requestVote) ∧
      ∀ (proposals : List Bytes) (order : List NodeId), order.Perm peers →
        (∀ picks, ((s.rounds leader all).ticked leader ⟨proposals, order, []⟩).InRange picks →
          picks.length ≤ 2 * peers.length) ∧
        ∃ picks, Complete peers leader (s.rounds leader all) ⟨proposals, order, picks⟩ := by
  have starts : Rested (fun n => (s.node n).config) peers leader term s := by
    refine ⟨⟨0, by have := timing.positive; omega, ?_, ?_, ?_⟩, silent.flight⟩
    · intro n member
      refine ⟨rfl, silent.queues n member, ?_, fun here => ?_, fun other => ?_⟩
      · by_cases here : n = leader
        · rw [here]
          exact led.current
        · exact (led.follows n member here).2
      · rw [here]
        exact ⟨led.leads, heartbeat⟩
      · exact ⟨(led.follows n member other).1, Or.inl (elections n member other)⟩
    · simp [silent.flight]
    · simp [unsent]
  have rested := starts.rounds timing isLeader distinct all complete
  refine ⟨rested.led isLeader, ?_, fun proposals order perm => ?_⟩
  · obtain ⟨_, -, beating⟩ := rested.beating
    exact beating.noVotes
  · obtain ⟨elapsed, -, beating, size⟩ :=
      rested.ticked timing isLeader distinct ⟨proposals, order, []⟩ perm
    refine ⟨fun picks inRange => ?_, ?_⟩
    · have := (beating.deliveries isLeader picks).2 inRange
      omega
    · obtain ⟨picks, settled⟩ := beating.settles isLeader
      exact ⟨picks, perm, settled⟩

/-- A leader at the tightest timeouts, with a follower whose log does not match. -/
def tight : Network where
  node := fun n =>
    { config := { id := n, peers := [1, 2, 3], electionTimeout := 3, heartbeatTimeout := 2 }
      role := if n = 1 then .leader else .follower
      currentTerm := 2
      log := if n = 2 then [{ index := 0, term := 0 }]
        else [{ index := 0, term := 0 }, { index := 1, term := 1, data := [5] }]
      nextIndex := fun _ => 2 }

/-- Two rounds to each heartbeat. -/
def tightRounds : List Round :=
  [⟨[[7], [8]], [3, 1, 2], []⟩, ⟨[], [2, 3, 1], [1, 0, 1, 0]⟩,
    ⟨[[9]], [1, 2, 3], []⟩, ⟨[], [1, 3, 2], [0, 0, 0, 0]⟩]

theorem heartbeats_keep_leader_tight :
    (tight.rounds 1 tightRounds).Led [1, 2, 3] 1 2 ∧
      ∀ msg ∈ (tight.rounds 1 tightRounds).emitted, msg.type ≠ .requestVote := by
  have complete : ∀ before round, before ++ [round] <+: tightRounds →
      Complete [1, 2, 3] 1 (tight.rounds 1 before) round := by
    refine forall_steps _ (fun before round => Complete [1, 2, 3] 1 (tight.rounds 1 before) round) ?_
    have orders : ∀ i < 4, ∀ round ∈ tightRounds[i]?, round.order.Perm [1, 2, 3] := by decide
    have delivered : ∀ i < 4, ∀ round ∈ tightRounds[i]?,
        ((tight.rounds 1 (tightRounds.take i)).round 1 round).flight = [] := by decide
    exact fun i inside round here => ⟨orders i inside round here, delivered i inside round here⟩
  have kept := heartbeats_keep_leader [1, 2, 3] 1 2 tight (by decide) (by decide)
    ⟨by decide, by decide, by decide, by decide⟩ ⟨by decide, by decide, by decide⟩ (by decide)
    (by decide) ⟨by decide, by decide⟩ rfl tightRounds complete
  exact ⟨kept.1, kept.2.1⟩

end Network

end MiniLsm

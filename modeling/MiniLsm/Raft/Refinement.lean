import MiniLsm.Raft.Handlers

/-! # The cluster refines the protocol

Every event of a cluster is matched by protocol actions of the node it happens
at, so a run of the code is a run of the protocol: the history of a later
moment extends the history of an earlier one.
-/

namespace MiniLsm

open Consensus

/-- A cluster and the protocol history it has gone through. -/
structure ClusterSim (M : Membership) (c : Cluster) (s : History) : Prop where
  inv : M.protocol.Inv s
  ledgers : ∀ t, Contiguous 1 (s.ledger t)
  node : ∀ n ∈ M.peers, NodeSim M s n (c.node n)
  sent : ∀ msg ∈ c.sent, MsgSim M s msg
  taken : ∀ n ∈ M.peers, c.taken n = (s.log n).take (c.node n).lastApplied

variable {M : Membership} {c : Cluster} {s s' : History} {n : NodeId} {r : Raft}

theorem ClusterSim.at (h : ClusterSim M c s) (member : n ∈ M.peers) : Local M s n (c.node n) :=
  ⟨member, h.inv, h.ledgers, h.node n member⟩

/-- A longer start of a list is a shorter one and what lies between. -/
theorem take_append_between {α : Type*} (l : List α) {i j : Nat} (le : i ≤ j) :
    l.take i ++ (l.take j).drop i = l.take j := by
  have short : l.take i = (l.take j).take i := by rw [List.take_take, Nat.min_eq_left le]
  rw [short, List.take_append_drop]

/-! ## The first state -/

theorem new_sim (id : NodeId) : NodeSim M (Protocol.initial NodeId LogEntry) id
    (Raft.new (M.config id)) where
  config := rfl
  term := rfl
  log := rfl
  numbered := trivial
  commit := rfl
  applied := le_rfl
  stable := le_rfl
  vote := rfl
  candidate := by simp [Raft.new]
  leader := by simp [Raft.new]
  out := by simp [Raft.new]

theorem initial_sim (M : Membership) :
    ClusterSim M M.initial (Protocol.initial NodeId LogEntry) where
  inv := Protocol.initial_inv
  ledgers := fun _ => trivial
  node := fun id _ => new_sim id
  sent := by simp [Membership.initial]
  taken := fun _ _ => rfl

/-! ## One event -/

theorem takeMessages_sim (h : NodeSim M s n r) : NodeSim M s n r.takeMessages.2 :=
  h.unseen rfl h.applied h.stable (by simp [Raft.takeMessages])

/-- What was handed out lies below the commit index, so it is still there. -/
theorem applied_kept (inv : M.protocol.Inv s) (kept : Protocol.Kept n s s') {k : Nat}
    (applied : k ≤ s.commit n) : (s'.log n).take k = (s.log n).take k := by
  have held := inv.commitHeld n
  have short := (List.take_prefix_take_left applied).trans kept.log
  rw [List.prefix_iff_eq_take.mp short, List.length_take, Nat.min_eq_left (by omega)]

theorem ClusterSim.update (h : ClusterSim M c s) (member : n ∈ M.peers)
    (reaches : Reaches M s n r) (applied : r.lastApplied = (c.node n).lastApplied) :
    ∃ s', M.protocol.Acts n s s' ∧ ClusterSim M (c.update n r) s' := by
  obtain ⟨s', acts, there⟩ := reaches
  obtain ⟨inv, ext, frame, kept⟩ := Protocol.acts_sound h.inv acts
  refine ⟨s', acts, inv, there.ledgers, ?_, ?_, ?_⟩
  · intro m isPeer
    by_cases here : m = n
    · subst here
      simpa [Cluster.update] using takeMessages_sim there.node
    · simpa [Cluster.update, here] using (h.node m isPeer).frame here ext frame
  · intro msg isSent
    rcases List.mem_append.mp isSent with old | new
    · exact (h.sent msg old).mono ext
    · exact there.node.out msg new
  · intro m isPeer
    by_cases here : m = n
    · subst here
      have before := h.node m isPeer
      have below := before.applied
      rw [before.commit] at below
      simp only [Cluster.update, if_true, Raft.takeMessages, applied]
      rw [applied_kept h.inv (kept m) below, h.taken m isPeer]
    · simpa [Cluster.update, here, frame.log m here] using h.taken m isPeer

/-- The entries at a range of indices. -/
theorem NodeSim.entryAt_range (h : NodeSim M s n r) {applied upto : Nat} (le : applied ≤ upto)
    (held : upto ≤ (s.log n).length) :
    (List.range' (applied + 1) (upto - applied)).map r.entryAt =
      ((s.log n).take upto).drop applied := by
  apply List.ext_getElem
  · simp only [List.length_map, List.length_range', List.length_drop, List.length_take]
    omega
  · intro i inside _
    simp only [List.length_map, List.length_range'] at inside
    have bound : applied + i < (s.log n).length := by omega
    have position : applied + 1 + i = applied + i + 1 := by omega
    simp [Raft.entryAt, h.log, position, bound]

/-- What `TakeCommitted` returns is the part of the log it moves over. -/
theorem takeCommitted_entries (h : NodeSim M s n r) (held : s.commit n ≤ (s.log n).length) :
    r.takeCommitted.1 = ((s.log n).take r.commitIndex).drop r.lastApplied :=
  h.entryAt_range h.applied (h.commit.trans_le held)

theorem ClusterSim.takeCommitted (h : ClusterSim M c s) (member : n ∈ M.peers) :
    ClusterSim M (c.next (.takeCommitted n)) s where
  inv := h.inv
  ledgers := h.ledgers
  node := by
    intro m isPeer
    by_cases here : m = n
    · subst here
      have node := h.node m isPeer
      simp only [Cluster.next, if_true, Raft.takeCommitted]
      exact node.unseen rfl le_rfl node.stable node.out
    · simpa [Cluster.next, here] using h.node m isPeer
  sent := h.sent
  taken := by
    intro m isPeer
    by_cases here : m = n
    · subst here
      have node := h.node m isPeer
      have entries := takeCommitted_entries node (h.inv.commitHeld m)
      simp only [Cluster.next, if_true, h.taken m isPeer, entries]
      exact take_append_between _ node.applied
    · simpa [Cluster.next, here] using h.taken m isPeer

/-- A restart loses the role and the commit index, not the log or the vote. -/
theorem restarted_sim (h : NodeSim M s n r) :
    NodeSim M { s with commit := Function.update s.commit n 0 } n (Cluster.restarted r) where
  config := h.config
  term := h.term
  log := by
    rw [Cluster.restarted, Raft.restore, h.log]
    rfl
  numbered := h.numbered
  commit := by simp [Cluster.restarted, Raft.restore, Raft.new]
  applied := le_rfl
  stable := by simp [Cluster.restarted, Raft.restore, Raft.new, h.log]
  vote := h.vote
  candidate := by simp [Cluster.restarted, Raft.restore, Raft.new]
  leader := by simp [Cluster.restarted, Raft.restore, Raft.new]
  out := by simp [Cluster.restarted, Raft.restore, Raft.new]

theorem ClusterSim.restart (h : ClusterSim M c s) (member : n ∈ M.peers) :
    ClusterSim M (c.next (.restart n))
      { s with commit := Function.update s.commit n 0 } := by
  have step : M.protocol.Step n s { s with commit := Function.update s.commit n 0 } := .restart
  have ext := Protocol.step_extends h.inv step
  refine ⟨Protocol.inv_step h.inv step, h.ledgers, ?_, fun msg isSent => (h.sent msg isSent).mono ext,
    ?_⟩
  · intro m isPeer
    by_cases here : m = n
    · subst here
      simpa [Cluster.next] using restarted_sim (h.node m isPeer)
    · simpa [Cluster.next, here] using
        (h.node m isPeer).frame here ext (Protocol.step_frame step)
  · intro m isPeer
    by_cases here : m = n
    · subst here
      simp [Cluster.next, Cluster.restarted, Raft.restore, Raft.new]
    · simpa [Cluster.next, here] using h.taken m isPeer

/-- The history after an event extends the one before, and a node that does
    not restart keeps what it counts as chosen. -/
theorem ClusterSim.next (h : ClusterSim M c s) (e : Event) (member : e.at ∈ M.peers) :
    ∃ s', M.protocol.Extends s s' ∧ (∀ a, e ≠ .restart a → Protocol.Kept a s s') ∧
      ClusterSim M (c.next e) s' := by
  have acting : ∀ {n r}, n ∈ M.peers → Reaches M s n r →
      r.lastApplied = (c.node n).lastApplied →
      ∃ s', M.protocol.Extends s s' ∧ (∀ a, e ≠ .restart a → Protocol.Kept a s s') ∧
        ClusterSim M (c.update n r) s' := by
    intro n r isPeer reaches applied
    obtain ⟨s', acts, after⟩ := h.update isPeer reaches applied
    obtain ⟨-, ext, -, kept⟩ := Protocol.acts_sound h.inv acts
    exact ⟨s', ext, fun a _ => kept a, after⟩
  have still : ∀ {c' : Cluster}, ClusterSim M c' s →
      ∃ s', M.protocol.Extends s s' ∧ (∀ a, e ≠ .restart a → Protocol.Kept a s s') ∧
        ClusterSim M c' s' :=
    fun after => ⟨s, Protocol.Extends.refl s, fun a _ => Protocol.Kept.refl a s, after⟩
  cases e with
  | tick id => exact acting member (tick_sim (h.at member)) (by simp)
  | propose id data => exact acting member (propose_sim (h.at member) data) (by simp)
  | deliver msg =>
      rw [Cluster.next]
      split
      · exact acting member (step_sim (h.at member) rfl (h.sent msg ‹_›)) (by simp)
      · exact still h
  | takeCommitted id => exact still (h.takeCommitted member)
  | restart id =>
      have step : M.protocol.Step id s { s with commit := Function.update s.commit id 0 } := .restart
      refine ⟨_, Protocol.step_extends h.inv step, ?_, h.restart member⟩
      intro a other
      refine Protocol.step_kept h.inv step (fun here => ?_)
      exact absurd (congrArg Event.restart here.symm) other

/-! ## Whole runs -/

/-- Events that follow a state with a history lead to a state with a longer
    history. -/
theorem ClusterSim.run (h : ClusterSim M c s) (events : List Event) :
    ∃ s', M.protocol.Extends s s' ∧
      (∀ a, Event.restart a ∉ events → Protocol.Kept a s s') ∧
      ClusterSim M (events.foldl M.step c) s' := by
  induction events generalizing c s with
  | nil => exact ⟨s, Protocol.Extends.refl s, fun a _ => Protocol.Kept.refl a s, h⟩
  | cons e events ih =>
      have one : ∃ s', M.protocol.Extends s s' ∧ (∀ a, e ≠ .restart a → Protocol.Kept a s s') ∧
          ClusterSim M (M.step c e) s' := by
        rw [Membership.step]
        split
        · exact h.next e ‹_›
        · exact ⟨s, Protocol.Extends.refl s, fun a _ => Protocol.Kept.refl a s, h⟩
      obtain ⟨s', ext, kept, after⟩ := one
      obtain ⟨s'', ext', kept', last⟩ := ih after
      refine ⟨s'', ext.trans ext', ?_, last⟩
      intro a never
      rw [List.mem_cons, not_or] at never
      exact (kept a (Ne.symm never.1)).trans (kept' a never.2)

theorem run_sim (M : Membership) (events : List Event) : ∃ s, ClusterSim M (M.run events) s := by
  obtain ⟨s, -, -, h⟩ := (initial_sim M).run events
  exact ⟨s, h⟩

/-- Two moments of one run and their histories. -/
theorem moments_sim (M : Membership) (events : List Event) {k l : Nat} (le : k ≤ l) :
    ∃ s s', ClusterSim M (M.moment events k) s ∧ ClusterSim M (M.moment events l) s' ∧
      M.protocol.Extends s s' ∧
      ∀ a, Event.restart a ∉ (events.take l).drop k → Protocol.Kept a s s' := by
  obtain ⟨s, early⟩ := run_sim M (events.take k)
  obtain ⟨s', ext, kept, late⟩ := early.run ((events.take l).drop k)
  refine ⟨s, s', early, ?_, ext, kept⟩
  rw [Membership.moment, Membership.run, ← take_append_between events le, List.foldl_append]
  exact late

end MiniLsm

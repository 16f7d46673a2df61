import MiniLsm.Consensus.Quorum
import Mathlib.Logic.Function.Basic
import Mathlib.Logic.Relation
import Mathlib.Data.List.Infix

/-! # Leader-based log replication, without messages

The protocol behind a replicated log: terms, votes, one leader a term, and
followers that copy prefixes of the leader's log. The state carries its own
history (who voted for whom, with which log a node stood, what each term's
leader wrote, what each follower stored), so a message that may arrive late,
twice or never is an action that reads the history at any later moment.

Nothing here depends on how a node is implemented. Entries are opaque apart
from the term they were created in.
-/

namespace Consensus

/-- A quorum system together with the term of an entry. -/
structure Protocol (N E : Type) extends QuorumSystem N where
  termOf : E → ℕ

/-- Node states and the history of all terms. -/
structure State (N E : Type) where
  term : N → ℕ
  log : N → List E
  /-- How many entries of its log a node knows to be chosen. -/
  commit : N → ℕ
  /-- Whom a node voted for in each term. -/
  vote : N → ℕ → Option N
  /-- The log with which a node stood for election in a term. -/
  standing : N → ℕ → Option (List E)
  /-- The winner of each term. -/
  leader : ℕ → Option N
  /-- Everything the winner of a term has had in its log while leading. -/
  ledger : ℕ → List E
  /-- How much of a term's ledger a node stored while it was in that term. -/
  acked : N → ℕ → ℕ

namespace Protocol

variable {N E : Type} (P : Protocol N E)

/-- The term of the last entry. -/
def tip (log : List E) : Option ℕ := log.getLast?.map P.termOf

/-- The term of the last entry, zero for the empty log. -/
def lastTerm (log : List E) : ℕ := (P.tip log).getD 0

/-- Logs are compared by last term and then by length. -/
def UpToDate (log other : List E) : Prop :=
  P.lastTerm other < P.lastTerm log ∨
    (P.lastTerm log = P.lastTerm other ∧ other.length ≤ log.length)

/-- A log keeps what it has when that extends the incoming prefix, and is
    replaced by the incoming prefix otherwise. -/
def Merged (log incoming result : List E) : Prop :=
  (incoming <+: log ∧ result = log) ∨ (¬ incoming <+: log ∧ result = incoming)

/-- A prefix of the term's ledger ending in an entry of the term itself. -/
structure Own (s : State N E) (t : ℕ) (entries : List E) : Prop where
  inLedger : entries <+: s.ledger t
  ends : P.tip entries = some t

/-- A quorum stored the prefix while in its term. -/
structure Chosen (s : State N E) (t : ℕ) (entries : List E) : Prop extends P.Own s t entries where
  stored : P.IsQuorum {q | entries.length ≤ s.acked q t}

/-- Enough nodes stored `size` entries of the term's ledger, or still can. -/
def Choosable (s : State N E) (t size : ℕ) : Prop :=
  P.IsQuorum {q | size ≤ s.acked q t ∨ s.term q ≤ t}

/-- The entries lie inside a prefix chosen in a term up to `bound`. -/
def Decided (s : State N E) (bound : ℕ) (entries : List E) : Prop :=
  entries = [] ∨ ∃ t chosen, P.Chosen s t chosen ∧ t ≤ bound ∧ entries <+: chosen

/-- Every prefix of the log is a prefix of the ledger of its last term. -/
def Backed (s : State N E) (log : List E) : Prop :=
  ∀ entries t, entries <+: log → P.tip entries = some t → entries <+: s.ledger t

variable [DecidableEq N]

/-- Enter one value of a table indexed by node and term. -/
def record {β : Type} (table : N → ℕ → β) (n : N) (t : ℕ) (value : β) : N → ℕ → β :=
  fun m u => if m = n ∧ u = t then value else table m u

omit P in
@[simp] theorem record_here {β : Type} (table : N → ℕ → β) (n : N) (t : ℕ) (value : β) :
    record table n t value n t = value := by
  simp [record]

omit P in
theorem record_elsewhere {β : Type} {table : N → ℕ → β} {n m : N} {t u : ℕ} {value : β}
    (other : ¬ (m = n ∧ u = t)) : record table n t value m u = table m u := by
  simp [record, other]

/-- One action of node `n`. -/
inductive Step (n : N) : State N E → State N E → Prop where
  /-- Learn of a later term. -/
  | observe {s} (t : ℕ) (later : s.term n < t) :
      Step n s { s with term := Function.update s.term n t }
  /-- Move to the next term and ask for votes, starting with the own one. -/
  | stand {s} :
      Step n s { s with
        term := Function.update s.term n (s.term n + 1)
        vote := record s.vote n (s.term n + 1) (some n)
        standing := record s.standing n (s.term n + 1) (some (s.log n)) }
  /-- Vote for a node that stood in the current term with a good enough log. -/
  | grant {s} (candidate : N) (log : List E)
      (free : s.vote n (s.term n) = none)
      (stood : s.standing candidate (s.term n) = some log)
      (upToDate : P.UpToDate log (s.log n)) :
      Step n s { s with vote := record s.vote n (s.term n) (some candidate) }
  /-- Win the current term with the log the node stood with. -/
  | win {s}
      (stood : s.standing n (s.term n) = some (s.log n))
      (vacant : s.leader (s.term n) = none)
      (elected : P.IsQuorum {v | s.vote v (s.term n) = some n}) :
      Step n s { s with
        leader := Function.update s.leader (s.term n) (some n)
        ledger := Function.update s.ledger (s.term n) (s.log n) }
  /-- Write a new entry as the leader of the current term. -/
  | append {s} (entry : E)
      (leads : s.leader (s.term n) = some n)
      (same : s.log n = s.ledger (s.term n))
      (current : P.termOf entry = s.term n) :
      Step n s { s with
        log := Function.update s.log n (s.log n ++ [entry])
        ledger := Function.update s.ledger (s.term n) (s.log n ++ [entry]) }
  /-- Store a prefix of the ledger of the current term. -/
  | accept {s} (size : ℕ) (result : List E)
      (led : s.leader (s.term n) ≠ none)
      (written : size ≤ (s.ledger (s.term n)).length)
      (merged : Merged (s.log n) ((s.ledger (s.term n)).take size) result) :
      Step n s { s with
        log := Function.update s.log n result
        acked := record s.acked n (s.term n) (max (s.acked n (s.term n)) size) }
  /-- Learn that more of the own log is chosen. -/
  | advance {s} (size : ℕ)
      (further : s.commit n ≤ size)
      (held : size ≤ (s.log n).length)
      (decided : P.Decided s (s.term n) ((s.log n).take size)) :
      Step n s { s with commit := Function.update s.commit n size }
  /-- Forget what is known to be chosen, and nothing else. -/
  | restart {s} :
      Step n s { s with commit := Function.update s.commit n 0 }

/-- Before the first step: term zero everywhere, nothing written. -/
def initial (N E : Type) : State N E where
  term := fun _ => 0
  log := fun _ => []
  commit := fun _ => 0
  vote := fun _ _ => none
  standing := fun _ _ => none
  leader := fun _ => none
  ledger := fun _ => []
  acked := fun _ _ => 0

end Protocol

end Consensus

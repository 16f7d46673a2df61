import MiniLsm.Db.Recovery
import MiniLsm.Machine.Runs

/-! # The store as a map

What a client of the store sees over all its sessions is a map from keys to
values. The state of the map is the history of the operations; a lookup is
answered from the last operation on its key.
-/

namespace MiniLsm

open Wal

/-- What a client asks for. `reopen` closes the store and opens it again. -/
inductive Request where
  | put (key value : Bytes)
  | delete (key : Bytes)
  | get (key : Bytes)
  | reopen
  deriving Repr, DecidableEq

inductive Answer where
  | status (s : Status)
  | value (result : Except Status Bytes)

namespace Request

/-- The operation that the request adds to the history. -/
def ops : Request → List Op
  | .put key value => [.put key value]
  | .delete key => [.delete key]
  | .get _ | .reopen => []

/-- Keys and values are shorter than 2^32 bytes. -/
def Small (request : Request) : Prop := ∀ op ∈ request.ops, op.Small

instance (request : Request) : Decidable request.Small := inferInstanceAs (Decidable (∀ _ ∈ _, _))

end Request

/-- The value of the last Put of a key, unless a Delete of it came later. -/
def lastPut (ops : List Op) (key : Bytes) : Option Bytes :=
  match (ops.filter fun op => op.key = key).getLast? with
  | some (.put _ value) => some value
  | some (.delete _) | none => none

/-- The answer of `Get` for what is found at a key. -/
def lookup (key : Bytes) : Option Bytes → Except Status Bytes
  | some value => .ok value
  | none => .error (.notFound (String.ofList (key.map fun b => Char.ofNat b.toNat)))

/-- The map that the store implements. -/
def mapServe (history : List Op) (request : Request) : Answer × List Op :=
  match request with
  | .get key => (.value (lookup key (lastPut history key)), history)
  | .put _ _ | .delete _ | .reopen => (.status .ok, history ++ request.ops)

/-! ## Tables and histories -/

theorem effect_key (op : Op) (table : Table) (key : Bytes) :
    op.effect table key =
      if op.key = key then (match op with | .put _ value => some value | .delete _ => none)
      else table key := by
  by_cases here : op.key = key
  · subst here
    cases op with
    | put k value => simp [Op.effect, DB.apply, Op.type, Op.value]
    | delete k => simp [Op.effect, DB.apply, Op.type, kTypeDelete, kTypePut]
  · rw [Op.effect, DB.apply, if_neg here]
    split
    · exact if_neg (Ne.symm here)
    · exact if_neg (Ne.symm here)

/-- A table holds at a key what the last operation on it says. -/
theorem foldl_effect (ops : List Op) (table : Table) (key : Bytes) :
    ops.foldl Op.effect table key =
      if ∃ op ∈ ops, op.key = key then lastPut ops key else table key := by
  induction ops using List.reverseRecOn with
  | nil => simp
  | append_singleton ops op ih =>
      rw [List.foldl_append, List.foldl_cons, List.foldl_nil, effect_key, lastPut,
        List.filter_append]
      by_cases here : op.key = key
      · cases op <;> simp_all
      · rw [if_neg here, ih, lastPut]
        simp [here]

theorem tableOf_key (ops : List Op) (key : Bytes) : tableOf ops key = lastPut ops key := by
  rw [tableOf, foldl_effect]
  split
  · rfl
  · rename_i untouched
    have none : (ops.filter fun op => op.key = key) = [] := by
      rw [List.filter_eq_nil_iff]
      exact fun op member here => untouched ⟨op, member, by simpa using here⟩
    rw [lastPut, none]
    rfl

/-! ## The database -/

namespace DB

/-- The path of the log. -/
def place (db : DB) : Place := { file := some db.wal.dest }

/-- Close the database and open it again. -/
def reopen (db : DB) : Status × DB :=
  match openAt {} { wal := db.place } with
  | .ok db' => (.ok, db')
  | .error s => (s, db)

def serve (db : DB) (request : Request) : Answer × DB :=
  match request with
  | .put key value => (.status (db.put key value).1, (db.put key value).2)
  | .delete key => (.status (db.delete key).1, (db.delete key).2)
  | .get key => (.value (db.get key), db)
  | .reopen => (.status db.reopen.1, db.reopen.2)

end DB

/-- A database whose log holds the records of a history. -/
structure Follows (db : DB) (history : List Op) : Prop where
  aligned : db.wal.Aligned
  sound : db.wal.dest.Sound
  contents : db.wal.dest.contents = encodedAll 0 (history.map Op.record)
  table : db.table = tableOf history
  small : ∀ op ∈ history, op.Small

namespace Follows

variable {db : DB} {history : List Op}

/-- `Open` rebuilds the table from the log. -/
theorem openAt (h : Follows db history) :
    ∃ db', DB.openAt {} { wal := db.place } = .ok db' ∧ Follows db' history := by
  have sound : db.place.Sound := ⟨rfl, rfl, rfl, rfl, rfl, h.sound⟩
  obtain ⟨db', opened⟩ := sound.opened
  have contents : db.place.contents = encodedAll 0 (history.map Op.record) := h.contents
  have records : recordsOf db.place.contents = history.map Op.record := by
    rw [contents]
    exact records_encodedAll_whole _
  refine ⟨db', opened.opened, opened.aligned, opened.sound, opened.contents.trans contents, ?_,
    h.small⟩
  rw [opened.table, records, replay_records h.small]
  rfl

theorem write (h : Follows db history) {op : Op} (small : op.Small) :
    (op.call db).1 = .ok ∧ Follows (op.call db).2 (history ++ [op]) := by
  obtain ⟨db', call, wrote⟩ := call_eq h.aligned h.sound op
  rw [call]
  refine ⟨rfl, wrote.aligned, wrote.sound, ?_, ?_, ?_⟩
  · rw [wrote.contents, h.contents, List.map_append, encodedAll_append, Nat.zero_add]
    simp [encodedAll]
  · rw [wrote.table, h.table, tableOf, tableOf, List.foldl_append]
    rfl
  · intro o member
    rcases List.mem_append.mp member with old | new
    · exact h.small o old
    · rwa [List.mem_singleton.mp new]

/-- One request is answered as the map answers it. -/
theorem serve (h : Follows db history) {request : Request} (small : request.Small) :
    (db.serve request).1 = (mapServe history request).1 ∧
      Follows (db.serve request).2 (mapServe history request).2 := by
  cases request with
  | put key value =>
      obtain ⟨ok, follows⟩ := h.write (small _ List.mem_cons_self)
      exact ⟨congrArg Answer.status ok, follows⟩
  | delete key =>
      obtain ⟨ok, follows⟩ := h.write (small _ List.mem_cons_self)
      exact ⟨congrArg Answer.status ok, follows⟩
  | get key =>
      refine ⟨?_, h⟩
      simp only [DB.serve, DB.get, mapServe, h.table, tableOf_key]
      cases lastPut history key <;> rfl
  | reopen =>
      obtain ⟨db', opened, follows⟩ := h.openAt
      have reopened : db.reopen = (.ok, db') := by rw [DB.reopen, opened]
      simp only [DB.serve, reopened, mapServe, Request.ops, List.append_nil]
      exact ⟨trivial, follows⟩

end Follows

/-- Over any sessions the database answers as the map does, and its table is
    the one that `Open` would rebuild from its log. -/
theorem db_refines_map (requests : List Request) (small : ∀ request ∈ requests, request.Small) :
    ∃ db, DB.openAt {} {} = .ok db ∧
      (answers DB.serve db requests).1 = (answers mapServe [] requests).1 ∧
      ∃ db', DB.openAt {} { wal := (answers DB.serve db requests).2.place } = .ok db' ∧
        db'.table = (answers DB.serve db requests).2.table := by
  have fresh : Place.Sound {} := ⟨rfl, rfl, rfl, rfl, rfl, rfl, rfl⟩
  obtain ⟨db, opened⟩ := fresh.opened
  have table : db.table = tableOf [] := by
    rw [opened.table]
    simp [Place.contents, recordsOf_nil, tableOf]
  have empty : Follows db [] := ⟨opened.aligned, opened.sound, opened.contents, table, by simp⟩
  obtain ⟨same, follows⟩ := answers_sim DB.serve mapServe Follows empty
    fun before request inside h => h.serve (small request (mem_of_step inside))
  obtain ⟨db', reopened, follows'⟩ := follows.openAt
  exact ⟨db, opened.opened, same, db', reopened, follows'.table.trans follows.table.symm⟩

/-- A key that is put, deleted and put again over three sessions. -/
def threeSessions : List Request :=
  [.put [1] [2], .put [] [3], .reopen, .get [1], .delete [1], .reopen, .get [1], .put [1] [],
    .get [1], .get []]

theorem db_refines_map_threeSessions :
    ∃ db, DB.openAt {} {} = .ok db ∧
      (answers DB.serve db threeSessions).1 =
        [.status .ok, .status .ok, .status .ok, .value (.ok [2]), .status .ok, .status .ok,
          .value (lookup [1] none), .status .ok, .value (.ok []), .value (.ok [3])] := by
  obtain ⟨db, opened, same, -⟩ := db_refines_map threeSessions (by decide)
  exact ⟨db, opened, same⟩

end MiniLsm

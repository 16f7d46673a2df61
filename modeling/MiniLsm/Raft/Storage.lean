import MiniLsm.Raft.Core
import MiniLsm.Db.Record
import MiniLsm.Wal.Reader
import Mathlib.Data.List.DropRight

/-! # Durable storage of a node

`src/raft/storage.cc`: hard states, truncations and entries as records of one
append-only log, which is replayed when the storage is opened.
-/

namespace MiniLsm

/-- A `uint64_t` as its low and its high half. -/
def putU64 (v : Nat) : Bytes :=
  encodeFixed32 (UInt32.ofNat v) ++ encodeFixed32 (UInt32.ofNat (v / UInt32.size))

/-- `kHardState = 1`. -/
def hardStateRecord (term : Nat) (vote : NodeId) : Bytes := [1] ++ putU64 term ++ putU64 vote

/-- `kEntry = 2`. -/
def entryRecord (e : LogEntry) : Bytes :=
  [2] ++ putU64 e.term ++ putU64 e.index ++ encodeSize e.data.length ++ e.data

/-- `kTruncate = 3`. -/
def truncateRecord (start : Nat) : Bytes := [3] ++ putU64 start

/-- A cursor over a payload; `ok` turns false when a read runs over its end. -/
structure Decoder where
  rest : Bytes
  ok : Bool := true
  deriving Repr, DecidableEq

namespace Decoder

def u32 (d : Decoder) : Nat × Decoder :=
  if d.rest.length < 4 then (0, { d with ok := false })
  else ((decodeFixed32 d.rest).toNat, { d with rest := d.rest.drop 4 })

def u64 (d : Decoder) : Nat × Decoder :=
  let (lo, d) := d.u32
  let (hi, d) := d.u32
  (lo + hi * UInt32.size, d)

def bytes (d : Decoder) (n : Nat) : Bytes × Decoder :=
  if d.rest.length < n then ([], { d with ok := false })
  else (d.rest.take n, { d with rest := d.rest.drop n })

end Decoder

structure HardState where
  term : Nat := 0
  vote : NodeId := 0
  deriving Repr, DecidableEq

/-- `recovered_hs_` and `recovered_entries_`. -/
structure Recovered where
  hs : HardState := {}
  entries : List LogEntry := []
  deriving Repr, DecidableEq

/-- One iteration of the loop of `ReplayFile`. -/
def Recovered.replay (state : Recovered) (record : Bytes) : Recovered :=
  match record with
  | [] => state
  | tag :: payload =>
      let d : Decoder := { rest := payload }
      if tag = 1 then
        let (term, d) := d.u64
        let (vote, d) := d.u64
        if d.ok then { state with hs := { term, vote } } else state
      else if tag = 2 then
        let (term, d) := d.u64
        let (index, d) := d.u64
        let (len, d) := d.u32
        let (data, d) := d.bytes len
        if d.ok then { state with entries := state.entries ++ [{ term, index, data }] } else state
      else if tag = 3 then
        let (start, d) := d.u64
        if d.ok then
          { state with entries := state.entries.rdropWhile fun e => e.index ≥ start }
        else state
      else state

structure RaftStorage where
  /-- `writer_`, whose destination is `file_`. -/
  writer : Wal.Writer
  /-- Highest entry index written to disk. -/
  persistedIndex : Nat := 0
  recovered : Recovered := {}
  deriving Repr, DecidableEq

namespace RaftStorage

/-- `ReplayFile`: what the records of a file amount to. -/
def replayFile (p : Place) : Except Status Recovered := do
  let file ← p.newSequentialFile
  return (Wal.Reader.records { file }).1.foldl Recovered.replay {}

/-- `RaftStorage::Open`. -/
def openAt (p : Place) : Except Status RaftStorage := do
  p.makeDir
  let recovered ← if p.fileExists then replayFile p else pure {}
  let size ← if p.fileExists then p.getFileSize else pure 0
  let file ← p.newAppendableFile
  return {
    writer := Wal.Writer.new file size
    persistedIndex := (recovered.entries.getLast?.map LogEntry.index).getD 0
    recovered }

def recover (st : RaftStorage) : HardState × List LogEntry :=
  (st.recovered.hs, st.recovered.entries)

/-- The records of step 3 of `Save`, up to the first that fails. -/
def saveEntries (w : Wal.Writer) : List LogEntry → Status × Wal.Writer
  | [] => (.ok, w)
  | e :: later =>
      let (s, w) := w.addRecord (entryRecord e)
      if s.isOk then saveEntries w later else (s, w)

/-- Step 1 of `Save`: the hard state, if it changed. -/
def saveHardState (st : RaftStorage) (raft : Raft) : Status × RaftStorage × Raft :=
  if raft.hardStateDirty then
    let (s, writer) := st.writer.addRecord (hardStateRecord raft.currentTerm raft.votedFor)
    if s.isOk then (.ok, { st with writer }, { raft with hardStateDirty := false })
    else (s, { st with writer }, raft)
  else (.ok, st, raft)

/-- Step 2: a truncation, if the watermark fell below what is stored. -/
def saveTruncation (st : RaftStorage) (raft : Raft) : Status × RaftStorage :=
  if raft.stableIndex < st.persistedIndex then
    let (s, writer) := st.writer.addRecord (truncateRecord (raft.stableIndex + 1))
    if s.isOk then (.ok, { st with writer, persistedIndex := raft.stableIndex })
    else (s, { st with writer })
  else (.ok, st)

/-- The entries of a node from an index on. -/
def entriesFrom (raft : Raft) (start : Nat) : List LogEntry :=
  (List.range' start (raft.lastIndex + 1 - start)).map raft.entryAt

/-- `RaftStorage::Save`: one `Sync` covers all records, and only then do the
    watermarks advance. -/
def save (st : RaftStorage) (raft : Raft) : Status × RaftStorage × Raft :=
  let (s, st, raft) := st.saveHardState raft
  if s.isOk then
    let (s, st) := st.saveTruncation raft
    if s.isOk then
      let (s, writer) := saveEntries st.writer (entriesFrom raft (st.persistedIndex + 1))
      let st := { st with writer }
      if s.isOk then
        let (s, dest) := writer.dest.sync
        let st := { st with writer := { writer with dest } }
        if s.isOk then
          (.ok, { st with persistedIndex := raft.lastIndex },
            { raft with stableIndex := raft.lastIndex })
        else (s, st, raft)
      else (s, st, raft)
    else (s, st, raft)
  else (s, st, raft)

end RaftStorage

end MiniLsm

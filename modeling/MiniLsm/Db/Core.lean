import MiniLsm.Db.Record
import MiniLsm.Wal.Reader

/-! # The key-value store

`src/db.cc`: a table in memory behind a write-ahead log. `table_` is a
`std::map`, of which only lookup, assignment and erasure are used.
-/

namespace MiniLsm

abbrev Table := Bytes → Option Bytes

def Table.empty : Table := fun _ => none

structure Options where
  createIfMissing : Bool := true

structure DB where
  table : Table
  /-- `wal_writer_`, whose destination is `wal_file_`. -/
  wal : Wal.Writer

/-- The directory of a database: whether it exists, and its `wal.log`. -/
structure DbDir where
  path : String := ""
  present : Bool := true
  wal : Place := {}

namespace DB

def apply (table : Table) (type : UInt8) (key value : Bytes) : Table :=
  if type = kTypePut then fun k => if k = key then some value else table k
  else fun k => if k = key then none else table k

/-- One iteration of the loop of `ReplayWal`. -/
def applyRecord (table : Table) (record : Bytes) : Table :=
  match decodeRecord record with
  | some (type, key, value) => apply table type key value
  | none => table

def replayWal (p : Place) : Except Status Table := do
  let file ← p.newSequentialFile
  return (Wal.Reader.records { file }).1.foldl applyRecord Table.empty

def recover (p : Place) : Except Status DB := do
  let table ← if p.fileExists then replayWal p else pure Table.empty
  let walSize ← if p.fileExists then p.getFileSize else pure 0
  let file ← p.newAppendableFile
  return { table, wal := Wal.Writer.new file walSize }

/-- `DB::Open`. -/
def openAt (options : Options) (dir : DbDir) : Except Status DB := do
  if options.createIfMissing then dir.wal.makeDir
  else if !dir.present then
    throw { code := .invalidArgument, msg := dir.path ++ " does not exist" }
  recover dir.wal

/-- The record is in the log and synced before the table changes. -/
def write (db : DB) (type : UInt8) (key value : Bytes) : Status × DB :=
  let (s, wal) := db.wal.addRecord (encodeRecord type key value)
  if s.isOk then
    let (s, dest) := wal.dest.sync
    let wal := { wal with dest }
    if s.isOk then (.ok, { table := apply db.table type key value, wal })
    else (s, { db with wal })
  else (s, { db with wal })

def put (db : DB) (key value : Bytes) : Status × DB := db.write kTypePut key value

def delete (db : DB) (key : Bytes) : Status × DB := db.write kTypeDelete key []

def get (db : DB) (key : Bytes) : Except Status Bytes :=
  match db.table key with
  | some value => .ok value
  | none => .error (.notFound (String.ofList (key.map fun b => Char.ofNat b.toNat)))

end DB

/-! ## Sequences of operations -/

inductive Op where
  | put (key value : Bytes)
  | delete (key : Bytes)
  deriving Repr, DecidableEq

namespace Op

def type : Op → UInt8
  | .put _ _ => kTypePut
  | .delete _ => kTypeDelete

def key : Op → Bytes
  | .put key _ | .delete key => key

def value : Op → Bytes
  | .put _ value => value
  | .delete _ => []

/-- Keys and values are shorter than 2^32 bytes. -/
def Small (op : Op) : Prop := op.key.length < UInt32.size ∧ op.value.length < UInt32.size

instance (op : Op) : Decidable op.Small := inferInstanceAs (Decidable (_ ∧ _))

def record (op : Op) : Bytes := encodeRecord op.type op.key op.value

def call (op : Op) (db : DB) : Status × DB :=
  match op with
  | .put key value => db.put key value
  | .delete key => db.delete key

def effect (table : Table) (op : Op) : Table := DB.apply table op.type op.key op.value

end Op

/-- The table that operations build, in order. -/
def tableOf (ops : List Op) : Table := ops.foldl Op.effect Table.empty

namespace DB

/-- Operations one after the other, with what each returned. -/
def run (db : DB) : List Op → List Status × DB
  | [] => ([], db)
  | op :: later =>
      let (s, db') := op.call db
      let (statuses, last) := db'.run later
      (s :: statuses, last)

/-- Sessions at one path: open, operations, close. -/
def sessions (p : Place) : List (List Op) → Place
  | [] => p
  | ops :: later =>
      match openAt {} { wal := p } with
      | .ok db => sessions { p with file := some (db.run ops).2.wal.dest } later
      | .error _ => p

end DB

/-- The path after a crash that left the first `n` bytes of the log. -/
def Place.cut (p : Place) (n : Nat) : Place :=
  { p with file := p.file.map fun f =>
      { f with contents := f.contents.take n, synced := min f.synced n } }

end MiniLsm

import MiniLsm.Env.Bytes

/-! # Files

The two file interfaces of the environment, `mlsm/writable_file.h` and
`mlsm/sequential_file.h`. Which calls fail is data of the file: a list with one
item for each coming call, after which all calls succeed.
-/

namespace MiniLsm

/-- An `Append` that fails after a part of its bytes reached the file. -/
structure AppendFault where
  written : Nat
  msg : String
  deriving Repr, DecidableEq

structure WritableFile where
  contents : Bytes := []
  /-- The length at the last successful `Sync`. -/
  synced : Nat := 0
  appendFaults : List (Option AppendFault) := []
  syncFaults : List (Option String) := []
  deriving Repr, DecidableEq

namespace WritableFile

def append (f : WritableFile) (data : Bytes) : Status × WritableFile :=
  let next := { f with appendFaults := f.appendFaults.tail }
  match f.appendFaults.head? with
  | some (some fault) =>
      (.ioError fault.msg, { next with contents := f.contents ++ data.take fault.written })
  | _ => (.ok, { next with contents := f.contents ++ data })

/-- Nothing is buffered, so there is nothing to push. -/
def flush (f : WritableFile) : Status × WritableFile := (.ok, f)

def sync (f : WritableFile) : Status × WritableFile :=
  let next := { f with syncFaults := f.syncFaults.tail }
  match f.syncFaults.head? with
  | some (some msg) => (.ioError msg, next)
  | _ => (.ok, { next with synced := f.contents.length })

/-- Every coming `Append` succeeds. -/
def Appends (f : WritableFile) : Prop := f.appendFaults = []

/-- No coming call fails. -/
structure Sound (f : WritableFile) : Prop where
  appends : f.Appends
  syncs : f.syncFaults = []

theorem Sound.sync {f : WritableFile} (h : f.Sound) :
    f.sync = (.ok, { f with synced := f.contents.length }) := by
  obtain ⟨contents, synced, appendFaults, syncFaults⟩ := f
  obtain ⟨-, syncs⟩ := h
  subst syncs
  rfl

@[simp] theorem sync_contents (f : WritableFile) : f.sync.2.contents = f.contents := by
  rw [sync]
  split <;> rfl

/-- The file after a successful `Append`. -/
def extended (f : WritableFile) (data : Bytes) : WritableFile :=
  { f with contents := f.contents ++ data }

@[simp] theorem extended_contents (f : WritableFile) (data : Bytes) :
    (f.extended data).contents = f.contents ++ data := rfl

@[simp] theorem extended_extended (f : WritableFile) (a b : Bytes) :
    (f.extended a).extended b = f.extended (a ++ b) := by
  simp [extended]

@[simp] theorem extended_nil (f : WritableFile) : f.extended [] = f := by
  simp [extended]

theorem Appends.extended {f : WritableFile} (h : f.Appends) (data : Bytes) :
    (f.extended data).Appends := h

theorem Appends.append {f : WritableFile} (h : f.Appends) (data : Bytes) :
    f.append data = (.ok, f.extended data) := by
  obtain ⟨contents, synced, faults, syncFaults⟩ := f
  subst h
  rfl

end WritableFile

structure SequentialFile where
  /-- The bytes not read yet. -/
  rest : Bytes
  faults : List (Option String) := []
  deriving Repr, DecidableEq

namespace SequentialFile

/-- Up to `n` bytes; fewer than `n` only at the end of the file. -/
def read (f : SequentialFile) (n : Nat) : Status × Bytes × SequentialFile :=
  let next := { f with faults := f.faults.tail }
  match f.faults.head? with
  | some (some msg) => (.ioError msg, [], next)
  | _ => (.ok, f.rest.take n, { next with rest := f.rest.drop n })

theorem read_cases (f : SequentialFile) (n : Nat) :
    (∃ msg, f.read n = (.ioError msg, [], { f with faults := f.faults.tail })) ∨
      f.read n = (.ok, f.rest.take n, { rest := f.rest.drop n, faults := f.faults.tail }) := by
  rw [read]
  split
  · exact Or.inl ⟨_, rfl⟩
  · exact Or.inr rfl

end SequentialFile

/-! ## Paths

What is at a path, and which of the calls that open it fail. -/

structure Place where
  file : Option WritableFile := none
  makeDirFault : Option String := none
  openFault : Option String := none
  readFaults : List (Option String) := []
  sizeFault : Option String := none
  appendableFault : Option String := none
  deriving Repr, DecidableEq

namespace Place

/-- Fail with an `IOError` if the call is to fail. -/
def unlessFault (fault : Option String) {α : Type} (result : α) : Except Status α :=
  match fault with
  | some msg => .error (.ioError msg)
  | none => .ok result

def fileExists (p : Place) : Bool := p.file.isSome

/-- The bytes at the path; a missing file has none. -/
def contents (p : Place) : Bytes := (p.file.getD {}).contents

/-- An existing directory is a success. -/
def makeDir (p : Place) : Except Status Unit := unlessFault p.makeDirFault ()

def newSequentialFile (p : Place) : Except Status SequentialFile :=
  unlessFault p.openFault { rest := p.contents, faults := p.readFaults }

def getFileSize (p : Place) : Except Status Nat := unlessFault p.sizeFault p.contents.length

/-- The file keeps its contents, and is created if it is missing. -/
def newAppendableFile (p : Place) : Except Status WritableFile :=
  unlessFault p.appendableFault (p.file.getD {})

/-- No call at the path fails. -/
structure Sound (p : Place) : Prop where
  makeDir : p.makeDirFault = none
  openRead : p.openFault = none
  reads : p.readFaults = []
  size : p.sizeFault = none
  appendable : p.appendableFault = none
  file : (p.file.getD {}).Sound

end Place

end MiniLsm

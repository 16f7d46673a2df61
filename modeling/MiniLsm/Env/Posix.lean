import MiniLsm.Env.Files
import MiniLsm.Machine.Dialogue

/-! # Files over system calls

`src/env_posix.cc`: the file interfaces over `write(2)`, `read(2)` and `fsync(2)`,
which may move less than they were asked to, be interrupted, or fail. What they
do is data of the file: a list with one item for each coming call, after which
all calls do what they were asked to. One file is open once at a time, so that
an append is behind all that was written.
-/

namespace MiniLsm

inductive Errno where
  | eintr
  | eexist
  | enoent
  | ebadf
  | einval
  | eoverflow
  /-- Any other error, by its description. -/
  | other (description : String)
  deriving Repr, DecidableEq

def strerror : Errno → String
  | .eintr => "Interrupted system call"
  | .eexist => "File exists"
  | .enoent => "No such file or directory"
  | .ebadf => "Bad file descriptor"
  | .einval => "Invalid argument"
  | .eoverflow => "Value too large for defined data type"
  | .other description => description

def posixError (context : String) (errno : Errno) : Status :=
  .ioError (context ++ ": " ++ strerror errno)

/-- What a `write(2)` or a `read(2)` does. -/
inductive Transfer where
  /-- It moves at most `k + 1` bytes: a regular file takes or gives at least one
      unless there is none. -/
  | upTo (k : Nat)
  | failed (errno : Errno)
  deriving Repr, DecidableEq

/-- A failure is one that is repeated. -/
def Transfer.Gentle : Transfer → Prop
  | .upTo _ => True
  | .failed errno => errno = .eintr

instance (transfer : Transfer) : Decidable transfer.Gentle :=
  match transfer with
  | .upTo _ => inferInstanceAs (Decidable True)
  | .failed errno => inferInstanceAs (Decidable (errno = .eintr))

/-- No call fails for good. -/
def Gentle (transfers : List Transfer) : Prop := ∀ transfer ∈ transfers, transfer.Gentle

instance (transfers : List Transfer) : Decidable (Gentle transfers) :=
  inferInstanceAs (Decidable (∀ transfer ∈ transfers, transfer.Gentle))

theorem Gentle.suffix {transfers later : List Transfer} (h : Gentle transfers)
    (rest : later <:+ transfers) : Gentle later :=
  fun transfer member => h transfer (rest.mem member)

/-! ## Writing -/

structure PosixWritableFile where
  path : String
  /-- `fd_ >= 0`. -/
  isOpen : Bool := true
  contents : Bytes := []
  /-- The length at the last successful `fsync(2)`. -/
  synced : Nat := 0
  writes : List Transfer := []
  fsyncs : List (Option Errno) := []
  closes : Option Errno := none
  deriving Repr, DecidableEq

namespace PosixWritableFile

/-- The loop of `Append` over the coming calls. -/
def appendLoop (f : PosixWritableFile) (left : Bytes) : List Transfer → Status × PosixWritableFile
  | [] => (.ok, { f with contents := f.contents ++ left, writes := [] })
  | transfer :: later =>
      if left = [] then (.ok, { f with writes := transfer :: later })
      else match transfer with
        | .upTo k =>
            { f with contents := f.contents ++ left.take (k + 1) }.appendLoop
              (left.drop (k + 1)) later
        | .failed errno =>
            if errno = .eintr then f.appendLoop left later
            else (posixError ("write " ++ f.path) errno, { f with writes := later })

def append (f : PosixWritableFile) (data : Bytes) : Status × PosixWritableFile :=
  if f.isOpen then f.appendLoop data f.writes
  else if data = [] then (.ok, f)
  else (posixError ("write " ++ f.path) .ebadf, f)

/-- Nothing is buffered. -/
def flush (f : PosixWritableFile) : Status × PosixWritableFile := (.ok, f)

/-- An interrupted `fsync(2)` is not repeated. -/
def sync (f : PosixWritableFile) : Status × PosixWritableFile :=
  if f.isOpen then
    let next := { f with fsyncs := f.fsyncs.tail }
    match f.fsyncs.head? with
    | some (some errno) => (posixError ("fsync " ++ f.path) errno, next)
    | _ => (.ok, { next with synced := f.contents.length })
  else (posixError ("fsync " ++ f.path) .ebadf, f)

/-- The descriptor is gone whether `close(2)` fails or not; closing again does
    nothing. -/
def close (f : PosixWritableFile) : Status × PosixWritableFile :=
  if f.isOpen then
    let closed := { f with isOpen := false }
    match f.closes with
    | some errno => (posixError ("close " ++ f.path) errno, closed)
    | none => (.ok, closed)
  else (.ok, f)

/-- An `Append` leaves a prefix of its bytes, all of them if it returns OK. -/
theorem appendLoop_cases (f : PosixWritableFile) (left : Bytes) (transfers : List Transfer) :
    ∃ later, later <:+ transfers ∧
      (f.appendLoop left transfers =
          (.ok, { f with contents := f.contents ++ left, writes := later }) ∨
        ∃ errno k, errno ≠ .eintr ∧ .failed errno ∈ transfers ∧
          f.appendLoop left transfers = (posixError ("write " ++ f.path) errno,
            { f with contents := f.contents ++ left.take k, writes := later })) := by
  induction transfers generalizing f left with
  | nil => exact ⟨[], List.suffix_rfl, Or.inl rfl⟩
  | cons transfer later ih =>
      rw [appendLoop.eq_def]
      dsimp only
      by_cases finished : left = []
      · refine ⟨transfer :: later, List.suffix_rfl, Or.inl ?_⟩
        rw [if_pos finished, finished, List.append_nil]
      rw [if_neg finished]
      cases transfer with
      | upTo k =>
          obtain ⟨last, rest, cases⟩ :=
            ih { f with contents := f.contents ++ left.take (k + 1) } (left.drop (k + 1))
          refine ⟨last, rest.trans (List.suffix_cons _ _), ?_⟩
          dsimp only
          rcases cases with written | ⟨errno, j, hard, member, written⟩
          · left
            rw [written, List.append_assoc, List.take_append_drop]
          · refine Or.inr ⟨errno, k + 1 + j, hard, List.mem_cons_of_mem _ member, ?_⟩
            rw [written, List.append_assoc, ← List.take_add]
      | failed errno =>
          by_cases interrupted : errno = .eintr
          · obtain ⟨last, rest, cases⟩ := ih f left
            dsimp only
            rw [if_pos interrupted]
            refine ⟨last, rest.trans (List.suffix_cons _ _), cases.imp_right ?_⟩
            rintro ⟨errno, k, hard, member, written⟩
            exact ⟨errno, k, hard, List.mem_cons_of_mem _ member, written⟩
          · refine ⟨later, List.suffix_cons _ _, Or.inr ⟨errno, 0, interrupted, List.mem_cons_self, ?_⟩⟩
            dsimp only
            rw [if_neg interrupted, List.take_zero, List.append_nil]

theorem append_cases (f : PosixWritableFile) (data : Bytes) :
    ∃ later, later <:+ f.writes ∧
      (f.append data = (.ok, { f with contents := f.contents ++ data, writes := later }) ∨
        ∃ errno k, (f.isOpen = true → errno ≠ .eintr ∧ .failed errno ∈ f.writes) ∧
          f.append data = (posixError ("write " ++ f.path) errno,
            { f with contents := f.contents ++ data.take k, writes := later })) := by
  rw [append]
  split
  · obtain ⟨later, rest, cases⟩ := f.appendLoop_cases data f.writes
    refine ⟨later, rest, cases.imp_right ?_⟩
    rintro ⟨errno, k, hard, member, written⟩
    exact ⟨errno, k, fun _ => ⟨hard, member⟩, written⟩
  · refine ⟨f.writes, List.suffix_rfl, ?_⟩
    split
    · rename_i nothing
      exact Or.inl (by rw [nothing, List.append_nil])
    · exact Or.inr ⟨.ebadf, 0, fun isOpen => absurd isOpen ‹_›, by simp⟩

theorem sync_cases (f : PosixWritableFile) :
    f.sync = (.ok, { f with fsyncs := f.fsyncs.tail, synced := f.contents.length }) ∨
      ∃ errno fsyncs, (f.isOpen = true → some errno ∈ f.fsyncs) ∧
        f.sync = (posixError ("fsync " ++ f.path) errno, { f with fsyncs }) := by
  rw [sync]
  split
  · split
    · rename_i errno first
      exact Or.inr ⟨errno, f.fsyncs.tail, fun _ => List.mem_of_mem_head? first, rfl⟩
    · exact Or.inl rfl
  · exact Or.inr ⟨.ebadf, f.fsyncs, fun isOpen => absurd isOpen ‹_›, rfl⟩

end PosixWritableFile

/-! ## One interface -/

/-- The calls that a program makes to a file it writes. -/
inductive FileCall where
  | append (data : Bytes)
  | flush
  | sync
  deriving Repr, DecidableEq

def WritableFile.serve (f : WritableFile) : FileCall → Status × WritableFile
  | .append data => f.append data
  | .flush => f.flush
  | .sync => f.sync

def PosixWritableFile.serve (f : PosixWritableFile) : FileCall → Status × PosixWritableFile
  | .append data => f.append data
  | .flush => f.flush
  | .sync => f.sync

namespace PosixWritableFile

variable {f : PosixWritableFile} {g g' : WritableFile}

/-- The same bytes on disk, and as many of them known to be there. -/
structure Shows (f : PosixWritableFile) (g : WritableFile) : Prop where
  contents : g.contents = f.contents
  synced : g.synced = f.synced

/-- Whatever a call does over system calls, a file that does so is one whose
    faults are chosen for it. -/
theorem Shows.back (call : FileCall) (after : (f.serve call).2.Shows g') :
    ∃ g, f.Shows g ∧ g.serve call = ((f.serve call).1, g') := by
  obtain ⟨contents, synced, appendFaults, syncFaults⟩ := g'
  obtain ⟨sameContents, sameSynced⟩ := after
  dsimp only at sameContents sameSynced
  subst sameContents sameSynced
  cases call with
  | append data =>
      simp only [serve]
      obtain ⟨later, -, written | ⟨errno, k, -, written⟩⟩ := f.append_cases data
      · rw [written]
        exact ⟨⟨f.contents, f.synced, none :: appendFaults, syncFaults⟩, ⟨rfl, rfl⟩, rfl⟩
      · rw [written]
        exact ⟨⟨f.contents, f.synced,
          some ⟨k, "write " ++ f.path ++ ": " ++ strerror errno⟩ :: appendFaults, syncFaults⟩,
          ⟨rfl, rfl⟩, rfl⟩
  | flush => exact ⟨_, ⟨rfl, rfl⟩, rfl⟩
  | sync =>
      simp only [serve]
      rcases f.sync_cases with synced | ⟨errno, fsyncs, -, synced⟩
      · rw [synced]
        exact ⟨⟨f.contents, f.synced, appendFaults, none :: syncFaults⟩, ⟨rfl, rfl⟩, rfl⟩
      · rw [synced]
        exact ⟨⟨f.contents, f.synced, appendFaults,
          some ("fsync " ++ f.path ++ ": " ++ strerror errno) :: syncFaults⟩, ⟨rfl, rfl⟩, rfl⟩

/-- Files are written through whatever calls are repeated or split up. -/
structure Unfailing (f : PosixWritableFile) : Prop where
  isOpen : f.isOpen = true
  writes : Gentle f.writes
  fsyncs : ∀ fsync ∈ f.fsyncs, fsync = none

theorem Unfailing.serve (h : f.Unfailing) (sound : g.Sound) (shows : f.Shows g) (call : FileCall) :
    (g.serve call).1 = (f.serve call).1 ∧ (f.serve call).2.Unfailing ∧ (g.serve call).2.Sound ∧
      (f.serve call).2.Shows (g.serve call).2 := by
  cases call with
  | append data =>
      simp only [PosixWritableFile.serve, WritableFile.serve, sound.appends.append data]
      obtain ⟨later, rest, written | ⟨errno, k, hard, -⟩⟩ := f.append_cases data
      · rw [written]
        exact ⟨rfl, ⟨h.isOpen, h.writes.suffix rest, h.fsyncs⟩, ⟨sound.appends, sound.syncs⟩,
          by rw [WritableFile.extended_contents, shows.contents], shows.synced⟩
      · obtain ⟨lasting, member⟩ := hard h.isOpen
        exact absurd (h.writes _ member) lasting
  | flush => exact ⟨rfl, h, sound, shows⟩
  | sync =>
      simp only [PosixWritableFile.serve, WritableFile.serve, sound.sync]
      rcases f.sync_cases with synced | ⟨errno, fsyncs, failed, -⟩
      · rw [synced]
        exact ⟨rfl, ⟨h.isOpen, h.writes, fun _ member => h.fsyncs _ (List.mem_of_mem_tail member)⟩,
          ⟨sound.appends, sound.syncs⟩, shows.contents, by rw [shows.contents]⟩
      · exact absurd (h.fsyncs _ (failed h.isOpen)) (by simp)

end PosixWritableFile

/-! ## Reading -/

structure PosixSequentialFile where
  path : String
  contents : Bytes
  offset : Nat := 0
  reads : List Transfer := []
  deriving Repr, DecidableEq

namespace PosixSequentialFile

/-- The bytes behind the offset. -/
def rest (f : PosixSequentialFile) : Bytes := f.contents.drop f.offset

/-- The loop of `Read` over the coming calls, with the bytes it has. On a failure
    the result is left alone, which is empty here. -/
def readLoop (f : PosixSequentialFile) (n : Nat) (done : Bytes) :
    List Transfer → Status × Bytes × PosixSequentialFile
  | [] =>
      let data := f.rest.take (n - done.length)
      (.ok, done ++ data, { f with offset := f.offset + data.length, reads := [] })
  | transfer :: later =>
      if n ≤ done.length then (.ok, done, { f with reads := transfer :: later })
      else match transfer with
        | .upTo k =>
            let data := f.rest.take (min (k + 1) (n - done.length))
            if data = [] then (.ok, done, { f with reads := later })
            else { f with offset := f.offset + data.length }.readLoop n (done ++ data) later
        | .failed errno =>
            if errno = .eintr then f.readLoop n done later
            else (posixError ("read " ++ f.path) errno, [], { f with reads := later })

def read (f : PosixSequentialFile) (n : Nat) : Status × Bytes × PosixSequentialFile :=
  f.readLoop n [] f.reads

/-- Taking some and then what is missing is taking all at once. -/
theorem take_then {l : Bytes} {m n : Nat} (le : m ≤ n) :
    l.take m ++ (l.drop m).take (n - (l.take m).length) = l.take n ∧
      (l.drop m).drop (n - (l.take m).length) = l.drop n := by
  rw [List.length_take]
  rcases Nat.le_total m l.length with inside | beyond
  · rw [Nat.min_eq_left inside, ← List.take_add, List.drop_drop, Nat.add_sub_cancel' le]
    exact ⟨rfl, rfl⟩
  · rw [List.drop_of_length_le beyond, List.take_of_length_le beyond, List.take_nil, List.drop_nil,
      List.append_nil, List.take_of_length_le (beyond.trans le), List.drop_of_length_le (beyond.trans le)]
    exact ⟨rfl, rfl⟩

/-- A `Read` puts short reads together: less than it was asked for is the end of
    the file. -/
theorem readLoop_cases (f : PosixSequentialFile) (n : Nat) (done : Bytes)
    (transfers : List Transfer) :
    ∃ later offset, later <:+ transfers ∧ f.offset ≤ offset ∧
      (transfers ≠ [] → done.length < n → later.length < transfers.length) ∧
      (f.readLoop n done transfers = (.ok, done ++ f.rest.take (n - done.length),
            { f with offset, reads := later }) ∧
          f.contents.drop offset = f.rest.drop (n - done.length) ∨
        ∃ errno, errno ≠ .eintr ∧ .failed errno ∈ transfers ∧
          f.readLoop n done transfers =
            (posixError ("read " ++ f.path) errno, [], { f with offset, reads := later })) := by
  have ahead (f : PosixSequentialFile) (k : Nat) :
      f.contents.drop (f.offset + (f.rest.take k).length) = f.rest.drop k := by
    rw [rest, ← List.drop_drop, List.length_take]
    rcases Nat.le_total k (f.contents.drop f.offset).length with inside | beyond
    · rw [Nat.min_eq_left inside]
    · rw [Nat.min_eq_right beyond, List.drop_length, List.drop_of_length_le beyond]
  induction transfers generalizing f done with
  | nil => exact ⟨[], _, List.suffix_rfl, Nat.le_add_right _ _, fun some => absurd rfl some, Or.inl ⟨rfl, ahead f _⟩⟩
  | cons transfer later ih =>
      rw [readLoop.eq_def]
      dsimp only
      by_cases full : n ≤ done.length
      · rw [if_pos full]
        refine ⟨transfer :: later, f.offset, List.suffix_rfl, le_rfl, fun _ short => by omega, Or.inl ?_⟩
        rw [Nat.sub_eq_zero_of_le full, List.take_zero, List.append_nil]
        exact ⟨rfl, rfl⟩
      rw [if_neg full]
      have shorter {last : List Transfer} (rest : last <:+ later) :
          last.length < (transfer :: later).length := Nat.lt_succ_of_le rest.length_le
      cases transfer with
      | upTo k =>
          dsimp only
          by_cases ended : f.rest.take (min (k + 1) (n - done.length)) = []
          · rw [if_pos ended]
            have nothing : f.rest = [] := by
              rcases List.take_eq_nil_iff.mp ended with none | empty
              · omega
              · exact empty
            refine ⟨later, f.offset, List.suffix_cons _ _, le_rfl, fun _ _ => shorter List.suffix_rfl,
              Or.inl ?_⟩
            rw [nothing, List.take_nil, List.drop_nil, List.append_nil]
            exact ⟨rfl, nothing⟩
          rw [if_neg ended]
          obtain ⟨last, offset, rest, ahead', -, cases⟩ := ih { f with
            offset := f.offset + (f.rest.take (min (k + 1) (n - done.length))).length }
            (done ++ f.rest.take (min (k + 1) (n - done.length)))
          refine ⟨last, offset, rest.trans (List.suffix_cons _ _),
            (Nat.le_add_right _ _).trans ahead', fun _ _ => shorter rest, ?_⟩
          rcases cases with ⟨got, behind⟩ | ⟨errno, hard, member, got⟩
          · left
            have next : PosixSequentialFile.rest { f with
                offset := f.offset + (f.rest.take (min (k + 1) (n - done.length))).length } =
                f.rest.drop (min (k + 1) (n - done.length)) := ahead f _
            obtain ⟨all, beyond⟩ := @take_then f.rest _ _ (Nat.min_le_right (k + 1) (n - done.length))
            rw [next, List.length_append, Nat.sub_add_eq] at got behind
            rw [beyond] at behind
            rw [List.append_assoc, all] at got
            exact ⟨got, behind⟩
          · exact Or.inr ⟨errno, hard, List.mem_cons_of_mem _ member, got⟩
      | failed errno =>
          by_cases interrupted : errno = .eintr
          · obtain ⟨last, offset, rest, ahead', -, cases⟩ := ih f done
            dsimp only
            rw [if_pos interrupted]
            refine ⟨last, offset, rest.trans (List.suffix_cons _ _), ahead', fun _ _ => shorter rest,
              cases.imp_right ?_⟩
            rintro ⟨errno, hard, member, got⟩
            exact ⟨errno, hard, List.mem_cons_of_mem _ member, got⟩
          · dsimp only
            rw [if_neg interrupted]
            exact ⟨later, f.offset, List.suffix_cons _ _, le_rfl, fun _ _ => shorter List.suffix_rfl,
              Or.inr ⟨errno, interrupted, List.mem_cons_self, rfl⟩⟩

theorem read_cases (f : PosixSequentialFile) (n : Nat) :
    ∃ f' : PosixSequentialFile, f'.reads <:+ f.reads ∧ f'.rest.length ≤ f.rest.length ∧
      (f.reads ≠ [] → 0 < n → f'.reads.length < f.reads.length) ∧
      (f.read n = (.ok, f.rest.take n, f') ∧ f'.rest = f.rest.drop n ∨
        ∃ errno, errno ≠ .eintr ∧ .failed errno ∈ f.reads ∧
          f.read n = (posixError ("read " ++ f.path) errno, [], f')) := by
  obtain ⟨later, offset, suffix, ahead, shorter, cases⟩ := f.readLoop_cases n [] f.reads
  refine ⟨{ f with offset, reads := later }, suffix, ?_, shorter, ?_⟩
  · rw [rest, rest, List.length_drop, List.length_drop]
    exact Nat.sub_le_sub_left ahead _
  rcases cases with ⟨got, behind⟩ | ⟨errno, hard, member, got⟩
  · exact Or.inl ⟨got, behind⟩
  · exact Or.inr ⟨errno, hard, member, got⟩

/-- The faults, foretold, of the coming reads of `n` bytes up to the first that
    fails. -/
inductive Foretold (n : Nat) : PosixSequentialFile → List (Option String) → Prop where
  | none {f : PosixSequentialFile} (quiet : f.reads = []) : Foretold n f []
  | succeeds {f f' : PosixSequentialFile} {data : Bytes} {faults : List (Option String)}
      (got : f.read n = (.ok, data, f')) (later : Foretold n f' faults) :
      Foretold n f (Option.none :: faults)
  | fails {f f' : PosixSequentialFile} {data : Bytes} {msg : String}
      (got : f.read n = (.ioError msg, data, f')) : Foretold n f [some msg]

/-- Reads of one size can be foretold. -/
theorem foretold {n : Nat} (positive : 0 < n) (f : PosixSequentialFile) :
    ∃ faults, Foretold n f faults ∧ (Gentle f.reads → ∀ fault ∈ faults, fault = none) := by
  induction size : f.reads.length using Nat.strong_induction_on generalizing f with
  | _ k ih =>
      by_cases quiet : f.reads = []
      · exact ⟨[], .none quiet, by simp⟩
      obtain ⟨f', suffix, -, shorter, ⟨got, -⟩ | ⟨errno, hard, member, got⟩⟩ := f.read_cases n
      · obtain ⟨faults, later, gentle⟩ := ih _ (size ▸ shorter quiet positive) f' rfl
        refine ⟨none :: faults, .succeeds got later, fun calls => ?_⟩
        exact List.forall_mem_cons.mpr ⟨rfl, gentle (calls.suffix suffix)⟩
      · exact ⟨_, .fails got, fun calls => absurd (calls _ member) hard⟩

/-- A file whose faults are foretold gives the same answers, until one fails. -/
theorem Foretold.read {n : Nat} {f : PosixSequentialFile} {faults : List (Option String)}
    (h : Foretold n f faults) :
    ∃ g, SequentialFile.read { rest := f.rest, faults } n = ((f.read n).1, (f.read n).2.1, g) ∧
      ((f.read n).1.isOk = true →
        g.rest = (f.read n).2.2.rest ∧ Foretold n (f.read n).2.2 g.faults) := by
  obtain ⟨f', suffix, -, -, ⟨got, behind⟩ | ⟨errno, -, member, got⟩⟩ := f.read_cases n
  · rw [got]
    cases h with
    | none quiet =>
        rw [quiet, List.suffix_nil] at suffix
        exact ⟨_, rfl, fun _ => ⟨behind.symm, .none suffix⟩⟩
    | succeeds got' later =>
        obtain ⟨-, same⟩ := Prod.mk.inj (got.symm.trans got')
        obtain ⟨-, rfl⟩ := Prod.mk.inj same
        exact ⟨_, rfl, fun _ => ⟨behind.symm, later⟩⟩
    | fails got' =>
        have failed := congrArg (fun read => read.1.code) (got.symm.trans got')
        cases failed
  · rw [got]
    cases h with
    | none quiet => simp [quiet] at member
    | succeeds got' later =>
        have failed := congrArg (fun read => read.1.code) (got.symm.trans got')
        cases failed
    | fails got' =>
        obtain ⟨same, -⟩ := Prod.mk.inj (got.symm.trans got')
        rw [same]
        exact ⟨_, rfl, fun ok => by simp at ok⟩

end PosixSequentialFile

/-! ## Paths -/

/-- A file while nobody has it open. -/
structure DiskFile where
  contents : Bytes := []
  synced : Nat := 0
  deriving Repr, DecidableEq

/-- What the coming system calls at a path do. -/
structure Syscalls where
  mkdir : Option Errno := none
  openRead : Option Errno := none
  reads : List Transfer := []
  stat : Option Errno := none
  openWrite : Option Errno := none
  writes : List Transfer := []
  fsyncs : List (Option Errno) := []
  closes : Option Errno := none
  deriving Repr, DecidableEq

structure PosixPlace where
  path : String
  file : Option DiskFile := none
  calls : Syscalls := {}
  deriving Repr, DecidableEq

namespace PosixPlace

/-- `access(2)` sees whether there is a file. -/
def fileExists (p : PosixPlace) : Bool := p.file.isSome

/-- A directory that is there already is a success. -/
def makeDir (path : String) (mkdir : Option Errno) : Except Status Unit :=
  match mkdir with
  | some errno => if errno = .eexist then .ok () else .error (posixError ("mkdir " ++ path) errno)
  | none => .ok ()

def newSequentialFile (p : PosixPlace) : Except Status PosixSequentialFile :=
  match p.calls.openRead, p.file with
  | some errno, _ => .error (posixError ("open " ++ p.path) errno)
  | none, none => .error (posixError ("open " ++ p.path) .enoent)
  | none, some file => .ok { path := p.path, contents := file.contents, reads := p.calls.reads }

def getFileSize (p : PosixPlace) : Except Status Nat :=
  match p.calls.stat, p.file with
  | some errno, _ => .error (posixError ("stat " ++ p.path) errno)
  | none, none => .error (posixError ("stat " ++ p.path) .enoent)
  | none, some file => .ok file.contents.length

/-- A new descriptor for the bytes that `open(2)` leaves. -/
def opened (p : PosixPlace) (file : DiskFile) : Except Status PosixWritableFile :=
  match p.calls.openWrite with
  | some errno => .error (posixError ("open " ++ p.path) errno)
  | none => .ok {
      path := p.path, contents := file.contents, synced := file.synced, writes := p.calls.writes
      fsyncs := p.calls.fsyncs, closes := p.calls.closes }

/-- `O_CREAT | O_APPEND`. -/
def newAppendableFile (p : PosixPlace) : Except Status PosixWritableFile := p.opened (p.file.getD {})

/-- `O_CREAT | O_TRUNC`. -/
def newWritableFile (p : PosixPlace) : Except Status PosixWritableFile := p.opened {}

end PosixPlace

end MiniLsm

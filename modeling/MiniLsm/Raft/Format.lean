import MiniLsm.Machine.Codec
import MiniLsm.Raft.Journal
import MiniLsm.Wal.RoundTrip

/-! # What a storage file may hold

The records that `ReplayFile` takes are those that begin with a record `Save`
writes. Whatever is in a file, it replays to what a file of such records does.
-/

namespace MiniLsm

open Wal

namespace Decoder

variable (d : Decoder) {d₁ d₂ d₃ d₄ : Decoder} {v w len : Nat} {data : Bytes}

def hardState : Option Item :=
  let term := d.u64
  let vote := term.2.u64
  if vote.2.ok then some (.hardState term.1 vote.1) else none

def entry : Option Item :=
  let term := d.u64
  let index := term.2.u64
  let len := index.2.u32
  let data := len.2.bytes len.1
  if data.2.ok then some (.entry { term := term.1, index := index.1, data := data.1 }) else none

def truncation : Option Item :=
  let start := d.u64
  if start.2.ok then some (.truncate start.1) else none

variable {d}

theorem hardState_eq (first : d.u64 = (v, d₁)) (second : d₁.u64 = (w, d₂)) :
    d.hardState = if d₂.ok then some (.hardState v w) else none := by
  rw [hardState, first, second]

theorem entry_eq (first : d.u64 = (v, d₁)) (second : d₁.u64 = (w, d₂))
    (third : d₂.u32 = (len, d₃)) (fourth : d₃.bytes len = (data, d₄)) :
    d.entry = if d₄.ok then some (.entry { term := v, index := w, data }) else none := by
  rw [entry, first, second, third, fourth]

theorem truncation_eq (first : d.u64 = (v, d₁)) :
    d.truncation = if d₁.ok then some (.truncate v) else none := by
  rw [truncation, first]

end Decoder

/-- The item that a record of the file stands for. -/
def Item.decode (record : Bytes) : Option Item :=
  match record with
  | [] => none
  | tag :: payload =>
      let d : Decoder := { rest := payload }
      if tag = 1 then d.hardState
      else if tag = 2 then d.entry
      else if tag = 3 then d.truncation
      else none

/-- Replay applies what a record decodes to. -/
theorem replay_decode (state : Recovered) (record : Bytes) :
    state.replay record = (Item.decode record).elim state fun item => item.apply state := by
  cases record with
  | nil => rfl
  | cons tag payload =>
      rw [Recovered.replay, Item.decode]
      by_cases hard : tag = 1
      · rw [if_pos hard, if_pos hard]
        split
        next term d₁ first =>
        split
        next vote d₂ second =>
        rw [Decoder.hardState_eq first second]
        cases d₂.ok with
        | true => rfl
        | false => rfl
      rw [if_neg hard, if_neg hard]
      by_cases entry : tag = 2
      · rw [if_pos entry, if_pos entry]
        split
        next term d₁ first =>
        split
        next index d₂ second =>
        split
        next len d₃ third =>
        split
        next data d₄ fourth =>
        rw [Decoder.entry_eq first second third fourth]
        cases d₄.ok with
        | true => rfl
        | false => rfl
      rw [if_neg entry, if_neg entry]
      by_cases truncation : tag = 3
      · rw [if_pos truncation, if_pos truncation]
        split
        next start d₁ first =>
        rw [Decoder.truncation_eq first]
        cases d₁.ok with
        | true => rfl
        | false => rfl
      · rw [if_neg truncation, if_neg truncation]
        rfl

/-! ## Reading a field -/

namespace Decoder

variable {d d₁ d₂ d₃ d₄ : Decoder} {v lo hi n : Nat} {data : Bytes} {item : Item}

/-- A field that is read in time is at the front of what is left. -/
theorem u32_ok (read : d.u32 = (v, d₁)) (ok : d₁.ok = true) :
    d.ok = true ∧ v < UInt32.size ∧ d.rest = encodeSize v ++ d₁.rest := by
  rw [u32] at read
  by_cases short : d.rest.length < 4
  · rw [if_pos short] at read
    cases read
    cases ok
  · rw [if_neg short] at read
    cases read
    refine ⟨ok, (decodeFixed32 d.rest).toNat_lt, ?_⟩
    rw [encodeSize, UInt32.ofNat_toNat]
    exact (encodeFixed32_decodeFixed32 (Nat.le_of_not_lt short)).symm

theorem putU64_halves (low : lo < UInt32.size) :
    putU64 (lo + hi * UInt32.size) = encodeSize lo ++ encodeSize hi := by
  have first := encodeSize_mod (lo + hi * UInt32.size)
  rw [Nat.add_mul_mod_self_right, Nat.mod_eq_of_lt low] at first
  have second : (lo + hi * UInt32.size) / UInt32.size = hi := by
    rw [Nat.add_mul_div_right _ _ (by decide), Nat.div_eq_of_lt low, Nat.zero_add]
  rw [putU64, second, first]
  rfl

theorem halves_lt (low : lo < UInt32.size) (high : hi < UInt32.size) :
    lo + hi * UInt32.size < UInt64.size := by
  have sizes : UInt64.size = UInt32.size * UInt32.size := by decide
  rw [sizes]
  calc lo + hi * UInt32.size
      < UInt32.size + hi * UInt32.size := Nat.add_lt_add_right low _
    _ = (hi + 1) * UInt32.size := by rw [Nat.succ_mul, Nat.add_comm]
    _ ≤ UInt32.size * UInt32.size := Nat.mul_le_mul_right _ high

theorem u64_ok (read : d.u64 = (v, d₁)) (ok : d₁.ok = true) :
    d.ok = true ∧ v < UInt64.size ∧ d.rest = putU64 v ++ d₁.rest := by
  rcases first : d.u32 with ⟨lo, d₀⟩
  rcases second : d₀.u32 with ⟨hi, d₂⟩
  rw [u64, first] at read
  dsimp only at read
  rw [second] at read
  cases read
  obtain ⟨ok', high, isHigh⟩ := u32_ok second ok
  obtain ⟨ok'', low, isLow⟩ := u32_ok first ok'
  refine ⟨ok'', halves_lt low high, ?_⟩
  rw [putU64_halves low, List.append_assoc, ← isHigh, ← isLow]

theorem bytes_ok (read : d.bytes n = (data, d₁)) (ok : d₁.ok = true) :
    d.ok = true ∧ data.length = n ∧ d.rest = data ++ d₁.rest := by
  rw [bytes] at read
  by_cases short : d.rest.length < n
  · rw [if_pos short] at read
    cases read
    cases ok
  · rw [if_neg short] at read
    cases read
    exact ⟨ok, List.length_take_of_le (Nat.le_of_not_lt short), (List.take_append_drop _ _).symm⟩

theorem bytes_append (data rest : Bytes) {ok : Bool} :
    bytes { rest := data ++ rest, ok } data.length = (data, { rest, ok }) := by
  have long : ¬ (data ++ rest).length < data.length := by simp
  rw [bytes, if_neg long, List.take_left, List.drop_left]

theorem hardState_some (taken : d.hardState = some item) :
    item.Fits ∧ item.record <+: 1 :: d.rest := by
  rcases first : d.u64 with ⟨term, d₁⟩
  rcases second : d₁.u64 with ⟨vote, d₂⟩
  rw [hardState_eq first second, Option.ite_none_right_eq_some] at taken
  obtain ⟨ok, same⟩ := taken
  obtain ⟨ok', voteFits, isVote⟩ := u64_ok second ok
  obtain ⟨-, termFits, isTerm⟩ := u64_ok first ok'
  cases same
  refine ⟨⟨termFits, voteFits⟩, d₂.rest, ?_⟩
  rw [isTerm, isVote]
  simp [Item.record, hardStateRecord]

theorem entry_some (taken : d.entry = some item) : item.Fits ∧ item.record <+: 2 :: d.rest := by
  rcases first : d.u64 with ⟨term, d₁⟩
  rcases second : d₁.u64 with ⟨index, d₂⟩
  rcases third : d₂.u32 with ⟨len, d₃⟩
  rcases fourth : d₃.bytes len with ⟨data, d₄⟩
  rw [entry_eq first second third fourth, Option.ite_none_right_eq_some] at taken
  obtain ⟨ok₄, same⟩ := taken
  obtain ⟨ok₃, length, isData⟩ := bytes_ok fourth ok₄
  obtain ⟨ok₂, lenFits, isLen⟩ := u32_ok third ok₃
  obtain ⟨ok₁, indexFits, isIndex⟩ := u64_ok second ok₂
  obtain ⟨-, termFits, isTerm⟩ := u64_ok first ok₁
  cases same
  refine ⟨⟨termFits, indexFits, length.trans_lt lenFits⟩, d₄.rest, ?_⟩
  rw [isTerm, isIndex, isLen, isData, ← length]
  simp [Item.record, entryRecord]

theorem truncation_some (taken : d.truncation = some item) :
    item.Fits ∧ item.record <+: 3 :: d.rest := by
  rcases first : d.u64 with ⟨start, d₁⟩
  rw [truncation_eq first, Option.ite_none_right_eq_some] at taken
  obtain ⟨ok, same⟩ := taken
  obtain ⟨-, startFits, isStart⟩ := u64_ok first ok
  cases same
  refine ⟨startFits, d₁.rest, ?_⟩
  rw [isStart]
  simp [Item.record, truncateRecord]

end Decoder

namespace Item

/-- The record of an item is read as the item, whatever comes behind it. -/
theorem decode_record {item : Item} (fits : item.Fits) (rest : Bytes) :
    Item.decode (item.record ++ rest) = some item := by
  cases item with
  | hardState term vote =>
      have whole : hardStateRecord term vote ++ rest =
          1 :: (putU64 term ++ (putU64 vote ++ rest)) := by simp [hardStateRecord]
      rw [record, whole, Item.decode, if_pos rfl,
        Decoder.hardState_eq (u64_putU64 fits.1) (u64_putU64 fits.2), if_pos rfl]
  | entry e =>
      have whole : entryRecord e ++ rest = 2 :: (putU64 e.term ++ (putU64 e.index ++
          (encodeSize e.data.length ++ (e.data ++ rest)))) := by simp [entryRecord]
      rw [record, whole, Item.decode, if_neg (by decide), if_pos rfl,
        Decoder.entry_eq (u64_putU64 fits.term) (u64_putU64 fits.index) (u32_encodeSize fits.data)
          (Decoder.bytes_append e.data rest), if_pos rfl]
  | truncate start =>
      have whole : truncateRecord start ++ rest = 3 :: (putU64 start ++ rest) := by
        simp [truncateRecord]
      rw [record, whole, Item.decode, if_neg (by decide), if_neg (by decide), if_pos rfl,
        Decoder.truncation_eq (u64_putU64 fits), if_pos rfl]

/-- A record is taken for an item exactly if it begins with the record of it. -/
theorem decode_eq_some_iff {bytes : Bytes} {item : Item} :
    Item.decode bytes = some item ↔ item.Fits ∧ item.record <+: bytes := by
  constructor
  · intro taken
    cases bytes with
    | nil => cases taken
    | cons tag payload =>
        rw [Item.decode] at taken
        by_cases hard : tag = 1
        · rw [if_pos hard] at taken
          rw [hard]
          exact Decoder.hardState_some taken
        rw [if_neg hard] at taken
        by_cases entry : tag = 2
        · rw [if_pos entry] at taken
          rw [entry]
          exact Decoder.entry_some taken
        rw [if_neg entry] at taken
        by_cases truncation : tag = 3
        · rw [if_pos truncation] at taken
          rw [truncation]
          exact Decoder.truncation_some taken
        · rw [if_neg truncation] at taken
          cases taken
  · rintro ⟨fits, rest, rfl⟩
    exact decode_record fits rest

end Item

/-! ## Whole files -/

def itemCodec : Codec UInt8 Item where
  Fits := Item.Fits
  encode := Item.record
  decode := Item.decode
  accepts := Item.decode_eq_some_iff

theorem replay_eq_itemCodec : Recovered.replay = itemCodec.replay Item.apply := by
  funext state record
  exact replay_decode state record

/-- The items that `ReplayFile` takes from a file, which may be any bytes and may
    fail to be read. -/
def itemsOf (file : SequentialFile) : List Item :=
  (Reader.records { file }).1.filterMap Item.decode

/-- The file that a writer makes of items. -/
def fileOf (items : List Item) : WritableFile :=
  ((Writer.new {} 0).addRecords (items.map Item.record)).1.dest

theorem records_fileOf (items : List Item) :
    (Reader.records { file := { rest := (fileOf items).contents } }).1 = items.map Item.record := by
  have aligned : (Writer.new {} 0).Aligned := @Writer.new_aligned {} rfl
  obtain ⟨-, dest, -⟩ := aligned.addRecords (items.map Item.record)
  rw [fileOf, dest]
  exact records_encodedAll_whole _

theorem replayFile_itemsOf (p : Place) :
    RaftStorage.replayFile p = p.newSequentialFile.map fun file => journalState (itemsOf file) := by
  rw [RaftStorage.replayFile]
  cases p.newSequentialFile with
  | error s => rfl
  | ok file =>
      show Except.ok _ = Except.ok _
      rw [replay_eq_itemCodec, itemCodec.foldl_replay]
      rfl

theorem replayFile_fileOf {items : List Item} (fits : ∀ item ∈ items, item.Fits) :
    RaftStorage.replayFile { file := some (fileOf items) } = .ok (journalState items) := by
  have read : itemsOf { rest := (fileOf items).contents } = items := by
    rw [itemsOf, records_fileOf]
    exact itemCodec.filterMap_encode fits
  rw [replayFile_itemsOf]
  show Except.ok (journalState (itemsOf { rest := (fileOf items).contents })) = _
  rw [read]

/-- `ReplayFile` takes exactly the records that begin with one `Save` writes and
    skips all others; a file of nothing but those replays to the same. -/
theorem storage_file_normal :
    (∀ record item, Item.decode record = some item ↔ item.Fits ∧ item.record <+: record) ∧
      (∀ p : Place, RaftStorage.replayFile p =
        p.newSequentialFile.map fun file => journalState (itemsOf file)) ∧
      ∀ file, (∀ item ∈ itemsOf file, item.Fits) ∧
        RaftStorage.replayFile { file := some (fileOf (itemsOf file)) } =
          .ok (journalState (itemsOf file)) := by
  refine ⟨fun _ _ => Item.decode_eq_some_iff, replayFile_itemsOf, fun file => ?_⟩
  have fits : ∀ item ∈ itemsOf file, item.Fits := fun item member => itemCodec.decoded_fits member
  exact ⟨fits, replayFile_fileOf fits⟩

end MiniLsm

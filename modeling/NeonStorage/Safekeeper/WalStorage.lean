import Mathlib
import NeonStorage.Safekeeper.State

/-!
# The safekeeper's WAL storage

`PhysicalStorage` (`safekeeper/src/wal_storage.rs`) writes the WAL into segment files and keeps
three LSNs: `write_lsn`, the end of what was written; `write_record_lsn`, the end of the last
complete record written; and `flush_record_lsn`, the end of the last complete record flushed.
`flush_lsn` is the last of them.

The files themselves are not modelled, only these LSNs.  The disk and the WAL decoder are the
environment of the model: whether a file operation succeeds, how far a failed segment write
got, and which record ends the decoder reports are arguments of the operations.  The decoder
reports the LSN that follows each record it completes; on every path of `write_wal` it is fed
the bytes just written, so a record it completes there ends past the last record end already
reported (`Decoded`).
-/

namespace NeonStorage

/-- The LSN a variable holds after being set to each reported record end in turn, starting
from `lsn`: the decoding loops of `write_wal` and of `find_end_of_wal`. -/
def followRecords (lsn : Nat) (records : List Nat) : Nat :=
  records.foldl (fun _ r => r) lsn

/-- The decoder reports only records that end past `lsn`. -/
def Decoded (lsn : Nat) (records : List Nat) : Prop :=
  ∀ r ∈ records, lsn < r

instance (lsn : Nat) (records : List Nat) : Decidable (Decoded lsn records) :=
  inferInstanceAs (Decidable (∀ r ∈ records, lsn < r))

theorem followRecords_eq_or_mem (lsn : Nat) (records : List Nat) :
    followRecords lsn records = lsn ∨ followRecords lsn records ∈ records := by
  induction records generalizing lsn with
  | nil => exact .inl rfl
  | cons r rs ih =>
    rcases ih r with h | h
    · exact .inr (by simp [followRecords, List.foldl_cons] at h ⊢; simp [h])
    · exact .inr (List.mem_cons_of_mem _ h)

theorem le_followRecords {lsn : Nat} {records : List Nat} (h : Decoded lsn records) :
    lsn ≤ followRecords lsn records := by
  rcases followRecords_eq_or_mem lsn records with heq | hmem
  · exact heq.ge
  · exact (h _ hmem).le

/-- `find_end_of_wal`: the end of the last record the decoder completes when it reads the WAL
on disk from `startLsn` on. -/
def findEndOfWal (startLsn : Nat) (records : List Nat) : Nat :=
  followRecords startLsn records

/-- The LSNs of `PhysicalStorage`; the open file, the decoder and the metrics are left out. -/
structure PhysicalStorage where
  writeLsn : Nat
  writeRecordLsn : Nat
  flushRecordLsn : Nat
  isTruncatedAfterRestart : Bool
deriving DecidableEq, Repr

namespace PhysicalStorage

/-- `PhysicalStorage::new`: with WAL on disk (a nonzero `commit_lsn`), the LSNs start at the end
of WAL that `find_end_of_wal` finds from `commit_lsn`, with `records` the record ends it decodes;
without, at zero. -/
def new (state : TimelinePersistentState) (records : List Nat) : PhysicalStorage :=
  let writeLsn := if state.commitLsn = 0 then 0 else findEndOfWal state.commitLsn records
  let flushLsn := writeLsn
  { writeLsn
    writeRecordLsn := writeLsn
    flushRecordLsn := flushLsn
    isTruncatedAfterRestart := false }

/-- `Storage::flush_lsn`. -/
def flushLsn (self : PhysicalStorage) : Nat :=
  self.flushRecordLsn

/-- `PhysicalStorage::write_exact`: write `len` bytes at `pos`.  The segment writes either all
succeed (`failedAfter = none`) or fail after some bytes (`some n`), with `write_lsn` moved past
the bytes written before the failure. -/
def writeExact (pos : Nat) (len : Nat) (failedAfter : Option Nat) :
    EStateM SkError PhysicalStorage Unit := do
  modify fun self => { self with writeLsn := pos }
  match failedAfter with
  | none => modify fun self => { self with writeLsn := self.writeLsn + len }
  | some n =>
    modify fun self => { self with writeLsn := self.writeLsn + min n len }
    throw .io

/-- `Storage::write_wal`: a write must start where the last one ended (or anywhere on an empty
storage); the decoder then reports the records the bytes complete, possibly failing after
some of them. -/
def writeWal (startpos : Nat) (buf : List UInt8) (failedAfter : Option Nat)
    (decoded : List Nat) (decodeOk : Bool) : EStateM SkError PhysicalStorage Unit := do
  let self ← get
  if self.writeLsn > startpos then
    throw (.bail "write_wal rewrites WAL written before")
  if self.writeLsn < startpos ∧ self.writeLsn ≠ 0 then
    throw (.bail "write_wal creates gap in written WAL")
  writeExact startpos buf.length failedAfter
  modify fun self => { self with writeRecordLsn := followRecords self.writeRecordLsn decoded }
  if !decodeOk then throw .walDecode

/-- `Storage::flush_wal`: nothing to do when everything is flushed; otherwise the `fdatasync`
of the open segment (or the check made when none is open) may fail, and on success
`flush_record_lsn` catches up with `write_record_lsn`. -/
def flushWal (ok : Bool) : EStateM SkError PhysicalStorage Unit := do
  let self ← get
  if self.flushRecordLsn = self.writeRecordLsn then return
  if !ok then throw .io
  set { self with flushRecordLsn := self.writeRecordLsn }

/-- `Storage::truncate_wal`: drop the WAL after `endPos`.  It refuses to create a hole, returns
early when nothing is to be done, and otherwise does file operations that may fail before any
LSN is changed. -/
def truncateWal (endPos : Nat) (ok : Bool) : EStateM SkError PhysicalStorage Unit := do
  let self ← get
  if self.writeLsn ≠ 0 ∧ endPos > self.writeLsn then
    throw (.bail "truncate_wal called on non-written WAL")
  if self.isTruncatedAfterRestart ∧ endPos = self.writeLsn ∧ endPos = self.flushRecordLsn then
    return
  if !ok then throw .io
  set { writeLsn := endPos
        writeRecordLsn := endPos
        flushRecordLsn := endPos
        isTruncatedAfterRestart := true : PhysicalStorage }

/-! ## What the operations do to the record LSNs -/

/-- The relationship of the LSNs that the safekeeper relies on: nothing is flushed beyond the
last complete record written. -/
def Inv (self : PhysicalStorage) : Prop :=
  self.flushRecordLsn ≤ self.writeRecordLsn

theorem new_inv (state : TimelinePersistentState) (records : List Nat) :
    (new state records).Inv :=
  le_refl _

/-- A fresh storage starts at or past `commit_lsn`: `find_end_of_wal` starts its scan there. -/
theorem commitLsn_le_new_flushLsn {state : TimelinePersistentState} {records : List Nat}
    (h : Decoded state.commitLsn records) : state.commitLsn ≤ (new state records).flushLsn := by
  simp only [new, flushLsn]
  split
  · omega
  · exact le_followRecords h


/-- What `flush_wal` does. -/
theorem flushWal_apply (ok : Bool) (self : PhysicalStorage) :
    flushWal ok self =
      if self.flushRecordLsn = self.writeRecordLsn then .ok () self
      else if ok then .ok () { self with flushRecordLsn := self.writeRecordLsn }
      else .error .io self := by
  by_cases h : self.flushRecordLsn = self.writeRecordLsn
  · simp [flushWal, h]
  · cases ok <;> simp [flushWal, h]

/-- The state `truncate_wal` leaves when it truncates. -/
def truncated (endPos : Nat) : PhysicalStorage where
  writeLsn := endPos
  writeRecordLsn := endPos
  flushRecordLsn := endPos
  isTruncatedAfterRestart := true

/-- What `truncate_wal` does. -/
theorem truncateWal_apply (endPos : Nat) (ok : Bool) (self : PhysicalStorage) :
    truncateWal endPos ok self =
      if self.writeLsn ≠ 0 ∧ endPos > self.writeLsn then
        .error (.bail "truncate_wal called on non-written WAL") self
      else if self.isTruncatedAfterRestart ∧ endPos = self.writeLsn ∧
          endPos = self.flushRecordLsn then .ok () self
      else if ok then .ok () (truncated endPos)
      else .error .io self := by
  by_cases h₁ : self.writeLsn ≠ 0 ∧ endPos > self.writeLsn
  · simp [truncateWal, h₁]
  · by_cases h₂ : self.isTruncatedAfterRestart ∧ endPos = self.writeLsn ∧
        endPos = self.flushRecordLsn
    · obtain ⟨ht, rfl, hf⟩ := h₂
      simp [truncateWal, ht, hf]
    · cases ok <;> simp [truncateWal, h₁, h₂, truncated]

/-- `write_wal` leaves `flush_record_lsn`, and `write_record_lsn` is either left or set by the
decoder's reports; it fails with a bail, an I/O error or a decoder error. -/
theorem writeWal_spec (startpos : Nat) (buf : List UInt8) (failedAfter : Option Nat)
    (decoded : List Nat) (decodeOk : Bool) (self : PhysicalStorage) :
    (writeWal startpos buf failedAfter decoded decodeOk self).state.flushRecordLsn =
        self.flushRecordLsn ∧
      ((writeWal startpos buf failedAfter decoded decodeOk self).state.writeRecordLsn =
          self.writeRecordLsn ∨
        (writeWal startpos buf failedAfter decoded decodeOk self).state.writeRecordLsn =
          followRecords self.writeRecordLsn decoded) ∧
      ∀ e w, writeWal startpos buf failedAfter decoded decodeOk self = .error e w →
        ∀ msg, e ≠ .panic msg := by
  simp only [writeWal, EStateM.get_bind_apply]
  split
  · simp
  split
  · simp
  cases failedAfter <;> cases decodeOk <;> simp [writeExact]

end PhysicalStorage

end NeonStorage

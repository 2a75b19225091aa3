import NeonStorage.Lib.Wrapping
/-!
# Advancing the next transaction id of a checkpoint

The pageserver keeps PostgreSQL's checkpoint record for each timeline and moves its
`nextXid` past every transaction id the WAL names, so that a compute started from the
checkpoint hands out no id already in use.  `nextXid` is a `FullTransactionId`: a 64-bit value
whose high half counts the wraparounds of the 32-bit id (the epoch) and whose low half is the
32-bit id.  `CheckPoint::update_next_xid` (`postgres_ffi/src/xlog_utils.rs`) takes the id after
the one seen, at least `FIRST_NORMAL_TRANSACTION_ID`, rounds it up to a multiple of
`XID_CHECKPOINT_INTERVAL` and stores it if it follows the stored id in PostgreSQL's modular
order, adding one to the epoch when the 32-bit id went down.

`updateNextXid_of_follows` says what a call does when the rounded id is ahead of the stored
one.  An id within one interval of `2 ^ 32` rounds up to `0`, which is stored although it is
not a normal id (`updateNextXid_rounds_to_invalid`).
-/

namespace NeonStorage

namespace PostgresFfi

open Wrapping

/-- `pg_constants::FIRST_NORMAL_TRANSACTION_ID`: ids below it are reserved. -/
def firstNormalTransactionId : UInt32 := 3

/-- `XID_CHECKPOINT_INTERVAL`: `nextXid` is kept at a multiple of it, so that the checkpoint
changes once in that many transactions. -/
def xidCheckpointInterval : UInt32 := 1024

/-- A 64-bit transaction id: the epoch in the high half, the 32-bit id in the low half. -/
structure FullTransactionId where
  value : UInt64
deriving DecidableEq, Repr

namespace FullTransactionId

/-- The 32-bit id, `full_xid as u32`. -/
def xid (t : FullTransactionId) : UInt32 := t.value.toUInt32

/-- The number of wraparounds, `full_xid >> 32`. -/
def epoch (t : FullTransactionId) : ℕ := t.value.toNat / 2 ^ 32

theorem toNat_value (t : FullTransactionId) : t.value.toNat = t.epoch * 2 ^ 32 + t.xid.toNat := by
  rw [epoch, xid, UInt64.toNat_toUInt32]
  omega

theorem epoch_lt (t : FullTransactionId) : t.epoch < 2 ^ 32 := by
  have hv := t.value.toNat_lt
  rw [epoch]
  omega

/-- A full id is its epoch and its 32-bit id. -/
theorem ext_iff' {t u : FullTransactionId} : t = u ↔ t.epoch = u.epoch ∧ t.xid = u.xid := by
  constructor
  · rintro rfl
    exact ⟨rfl, rfl⟩
  · rintro ⟨he, hx⟩
    cases t with | mk v =>
    cases u with | mk w =>
    have hv : v.toNat = w.toNat := by
      rw [toNat_value ⟨v⟩, toNat_value ⟨w⟩, he, hx]
    rw [UInt64.toNat_inj.1 hv]

end FullTransactionId

/-- The fields of PostgreSQL's `CheckPoint` that the pageserver's WAL ingestion advances. -/
structure CheckPoint where
  nextXid : FullTransactionId
  nextMulti : UInt32
  nextMultiOffset : UInt32
deriving DecidableEq, Repr

/-- The first two statements of `update_next_xid`: the id after `xid`, at least the first
normal one, rounded up to a multiple of `XID_CHECKPOINT_INTERVAL`, all in wrapping `u32`
arithmetic. -/
def alignedNextXid (xid : UInt32) : UInt32 :=
  let newXid := max (xid + 1) firstNormalTransactionId
  (newXid + (xidCheckpointInterval - 1)) &&& ~~~(xidCheckpointInterval - 1)

namespace CheckPoint

/-- `CheckPoint::update_next_xid`: the checkpoint afterwards, and whether `nextXid` changed. -/
def updateNextXid (self : CheckPoint) (xid : UInt32) : CheckPoint × Bool :=
  let newXid := alignedNextXid xid
  let fullXid := self.nextXid.value
  let oldXid := fullXid.toUInt32
  if 0 < (newXid - oldXid).toInt32 then
    let epoch := fullXid >>> 32
    -- wrap-around
    let epoch := if newXid < oldXid then epoch + 1 else epoch
    let nextXid := (epoch <<< 32) ||| newXid.toUInt64
    if nextXid ≠ self.nextXid.value then
      ({ self with nextXid := { value := nextXid } }, true)
    else (self, false)
  else (self, false)

/-! ## One call -/

variable (c : CheckPoint) (xid : UInt32)

/-- A call that finds the rounded id ahead of the stored one stores it, with the epoch raised
by one when the 32-bit id went down. -/
theorem updateNextXid_of_follows (h : Follows (alignedNextXid xid) c.nextXid.xid) :
    ∃ t : FullTransactionId, c.updateNextXid xid = ({ c with nextXid := t }, true) ∧
      t.xid = alignedNextXid xid ∧
      t.epoch = (c.nextXid.epoch +
        if alignedNextXid xid < c.nextXid.xid then 1 else 0) % 2 ^ 32 := by
  set e : UInt64 := if alignedNextXid xid < c.nextXid.xid then (c.nextXid.value >>> 32) + 1
    else c.nextXid.value >>> 32 with he
  let t : FullTransactionId := ⟨(e <<< 32) ||| (alignedNextXid xid).toUInt64⟩
  have htx : t.xid = alignedNextXid xid := toUInt32_shiftLeft_32_or _ _
  have hte : t.epoch = (c.nextXid.epoch +
      if alignedNextXid xid < c.nextXid.xid then 1 else 0) % 2 ^ 32 := by
    have hel := c.nextXid.epoch_lt
    have hshift : (c.nextXid.value >>> 32).toNat = c.nextXid.epoch := toNat_shiftRight_32 _
    rw [FullTransactionId.epoch, ← toNat_shiftRight_32, shiftRight_32_shiftLeft_32_or, he]
    split
    · rw [UInt64.toNat_add, hshift, UInt64.toNat_one]
      omega
    · rw [hshift, Nat.add_zero]
  -- the new value differs from the old one in its low half
  have hne : t.value ≠ c.nextXid.value := by
    intro heq
    have hx : t.xid = c.nextXid.xid := by rw [FullTransactionId.xid, heq]; rfl
    rw [htx] at hx
    rw [hx] at h
    exact not_follows_self _ h
  refine ⟨t, ?_, htx, hte⟩
  rw [follows_iff_toInt32_pos] at h
  simp only [updateNextXid, FullTransactionId.xid] at h ⊢
  rw [if_pos h]
  exact if_pos hne

/-- From the last normal multiple of the interval below `2 ^ 32`, the id seen there rounds up
to `0`: the checkpoint stores the invalid id `0` in the next epoch and reports a change. -/
theorem updateNextXid_rounds_to_invalid (m o : UInt32) :
    (CheckPoint.mk ⟨0xFFFFFC00⟩ m o).updateNextXid 0xFFFFFC00 =
      (CheckPoint.mk ⟨0x100000000⟩ m o, true) ∧
    ¬firstNormalTransactionId ≤ FullTransactionId.xid ⟨0x100000000⟩ := by
  have hf : Follows (alignedNextXid 0xFFFFFC00) (FullTransactionId.xid ⟨0xFFFFFC00⟩) := by
    decide
  obtain ⟨t, heq, htx, hte⟩ :=
    (CheckPoint.mk ⟨0xFFFFFC00⟩ m o).updateNextXid_of_follows 0xFFFFFC00 hf
  have hwrap : alignedNextXid 0xFFFFFC00 < FullTransactionId.xid ⟨0xFFFFFC00⟩ := by decide
  have hepoch : FullTransactionId.epoch ⟨0xFFFFFC00⟩ = 0 := by decide
  have ht : t = ⟨0x100000000⟩ := by
    rw [FullTransactionId.ext_iff', htx, hte]
    dsimp only
    rw [if_pos hwrap, hepoch]
    constructor <;> decide
  rw [heq, ht]
  exact ⟨rfl, by decide⟩

end CheckPoint

end PostgresFfi

end NeonStorage

import NeonStorage.PostgresFfi.Multixact
import NeonStorage.PostgresFfi.CheckPoint
import NeonStorage.Pageserver.Key
import NeonStorage.Lib.Slice

/-!
# Multixact records in the pageserver

WAL ingestion turns PostgreSQL's `XLOG_MULTIXACT_CREATE_ID` record into page updates of the two
multixact SLRUs (`WalIngest::ingest_multixact_create_record`, `pageserver/src/walingest.rs`): one
`MultixactOffsetCreate` for the offsets page of the new multixact, and one
`MultixactMembersCreate` for each members page its members fall on, cut by the number of
members left on the page.  WAL redo applies them to the pages of their keys
(`apply_in_neon`, `pageserver/src/walredo/apply_neon.rs`); it recomputes each member's offset as
`moff + i` and asserts that it lies on the page of the key.  Ingestion also advances the
checkpoint's `nextMulti`, `nextMultiOffset` and `nextXid`.

A members page holds `1636` offsets and `2 ^ 32` is not a multiple of `1636`: the last page,
`2625285`, holds only `1036`.  The ingest loop still sizes a record on that page as if the page
were full, so a multixact whose members wrap around `2 ^ 32` gets one record that runs past
`u32::MAX`, and `apply_in_neon` panics on it (`ingestMultixactCreateRecord_wraparound_panics`).
PostgreSQL's `RecordNewMultiXact` stores the members past the wrap at offset `0` and on, on page
`0` (`recordNewMultiXactMembers`).

Plain `u32` arithmetic (`moff + i`, `mid + 1`, `moff + nmembers`) is modelled as the release
build computes it, wrapping; a build with overflow checks panics there instead.
-/

namespace NeonStorage

namespace Multixact

open PostgresFfi Bytes Text

/-- `SlruKind`. -/
inductive SlruKind
  | clog
  | multiXactMembers
  | multiXactOffsets
deriving DecidableEq, Repr

/-- `#[derive(Debug)]` of `SlruKind`. -/
def SlruKind.debug : SlruKind → String
  | .clog => "Clog"
  | .multiXactMembers => "MultiXactMembers"
  | .multiXactOffsets => "MultiXactOffsets"

/-- `slru_block_to_key`. -/
def slruBlockToKey (kind : SlruKind) (segno blknum : UInt32) : Key where
  field1 := 0x01
  field2 := match kind with
    | .clog => 0x00
    | .multiXactMembers => 0x01
    | .multiXactOffsets => 0x02
  field3 := 1
  field4 := segno
  field5 := 0
  field6 := blknum

/-- `{:02x}`. -/
def lowerHex2 (n : ℕ) : String :=
  String.ofList ((Hex.hexDigits 2 n).map Char.toLower)

/-- `key_to_slru_block`. -/
def keyToSlruBlock (key : Key) : Except String (SlruKind × UInt32 × UInt32) :=
  match key.field1 with
  | 0x01 =>
    let kind : Except String SlruKind := match key.field2 with
      | 0x00 => .ok .clog
      | 0x01 => .ok .multiXactMembers
      | 0x02 => .ok .multiXactOffsets
      | _ => .error ("unrecognized slru kind 0x" ++ lowerHex2 key.field2.toNat)
    kind.map fun kind => (kind, key.field4, key.field6)
  | _ => .error ("unexpected value kind 0x" ++ lowerHex2 key.field1.toNat)

theorem keyToSlruBlock_slruBlockToKey (kind : SlruKind) (segno blknum : UInt32) :
    keyToSlruBlock (slruBlockToKey kind segno blknum) = .ok (kind, segno, blknum) := by
  cases kind <;> rfl

/-- The two variants of `NeonWalRecord` that multixact creation emits. -/
inductive NeonWalRecord
  | multixactOffsetCreate (mid moff : UInt32)
  | multixactMembersCreate (moff : UInt32) (members : List MultiXactMember)
deriving DecidableEq, Repr

/-- `XlMultiXactCreate`. -/
structure XlMultiXactCreate where
  mid : UInt32
  moff : UInt32
  nmembers : UInt32
  members : List MultiXactMember
deriving DecidableEq, Repr

/-! ## Ingestion -/

/-- `MULTIXACT_MEMBERS_PER_PAGE - offset % MULTIXACT_MEMBERS_PER_PAGE`: the members the loop puts
on the page of `offset`. -/
def pageRemain (offset : UInt32) : UInt32 :=
  multixactMembersPerPage.toUInt32 - offset % multixactMembersPerPage.toUInt32

theorem toNat_pageRemain (offset : UInt32) :
    (pageRemain offset).toNat = 1636 - offset.toNat % 1636 := by
  have hlt : offset.toNat % 1636 < 1636 := Nat.mod_lt _ (by decide)
  rw [pageRemain, multixactMembersPerPage_eq, UInt32.toNat_sub_of_le _ _ (by
    rw [UInt32.le_iff_toNat_le, UInt32.toNat_mod]
    exact hlt.le), UInt32.toNat_mod]
  rfl

/-- The member loop of `ingest_multixact_create_record`: the members that fit on the page of
`offset` make one `MultixactMembersCreate` for that page, and the loop goes on at
`offset.wrapping_add(n_this_page)`. -/
def membersRecords (offset : UInt32) (members : List MultiXactMember) :
    List (Key × NeonWalRecord) :=
  let pageno := offset / multixactMembersPerPage.toUInt32
  let thisPageMembers := members.take (pageRemain offset).toNat
  if _h : thisPageMembers.isEmpty then []
  else
    (slruBlockToKey .multiXactMembers (pageno / slruPagesPerSegment)
        (pageno % slruPagesPerSegment), .multixactMembersCreate offset thisPageMembers) ::
      membersRecords (offset + UInt32.ofNat thisPageMembers.length)
        (members.drop (pageRemain offset).toNat)
termination_by members.length
decreasing_by
  have hpos : 0 < (pageRemain offset).toNat := by rw [toNat_pageRemain]; omega
  have hne : members ≠ [] := by
    rintro rfl
    simp [thisPageMembers] at _h
  have hlen : 0 < members.length := List.length_pos_iff.2 hne
  simp only [List.length_drop]
  omega

/-- `WalIngest::ingest_multixact_create_record`: the records put into the modification, by key,
the checkpoint afterwards, and whether it was modified. -/
def ingestMultixactCreateRecord (checkpoint : CheckPoint) (xlrec : XlMultiXactCreate) :
    List (Key × NeonWalRecord) × CheckPoint × Bool :=
  let pageno := xlrec.mid / multixactOffsetsPerPage.toUInt32
  let segno := pageno / slruPagesPerSegment
  let rpageno := pageno % slruPagesPerSegment
  let records := (slruBlockToKey .multiXactOffsets segno rpageno,
      NeonWalRecord.multixactOffsetCreate xlrec.mid xlrec.moff) ::
    membersRecords xlrec.moff xlrec.members
  let (checkpoint, modified) :=
    if xlrec.mid ≥ checkpoint.nextMulti then ({ checkpoint with nextMulti := xlrec.mid + 1 }, true)
    else (checkpoint, false)
  let (checkpoint, modified) :=
    if xlrec.moff + xlrec.nmembers > checkpoint.nextMultiOffset then
      ({ checkpoint with nextMultiOffset := xlrec.moff + xlrec.nmembers }, true)
    else (checkpoint, modified)
  let maxMbrXid := xlrec.members.foldl (fun acc mbr =>
      match acc with
      | some maxXid => if 0 < (mbr.xid - maxXid).toInt32 then some mbr.xid else acc
      | none => some mbr.xid) none
  match maxMbrXid with
  | some maxXid =>
    let (checkpoint, changed) := checkpoint.updateNextXid maxXid
    (records, checkpoint, modified || changed)
  | none => (records, checkpoint, modified)

theorem membersRecords_nil (offset : UInt32) : membersRecords offset [] = [] := by
  unfold membersRecords
  simp

theorem ingestMultixactCreateRecord_records (checkpoint : CheckPoint) (xlrec : XlMultiXactCreate) :
    (ingestMultixactCreateRecord checkpoint xlrec).1 =
      (slruBlockToKey .multiXactOffsets (xlrec.mid / multixactOffsetsPerPage.toUInt32 /
          slruPagesPerSegment) (xlrec.mid / multixactOffsetsPerPage.toUInt32 % slruPagesPerSegment),
        .multixactOffsetCreate xlrec.mid xlrec.moff) :: membersRecords xlrec.moff xlrec.members := by
  unfold ingestMultixactCreateRecord
  dsimp only
  repeat' split
  all_goals rfl

/-! ## Redo -/

/-- `&page[a..b]`, which panics out of range. -/
def slicePanic (page : List UInt8) (a b : ℕ) : Except Panic (List UInt8) :=
  match Slice.index page a b with
  | .ok s => .ok s
  | .error msg => .error ⟨msg⟩

/-- The message of the two `assert!`s of the member loop. -/
def unexpectedMembersKey (moff : UInt32) (key : Key) : Panic :=
  ⟨"MultiXactMembersCreate record for offset " ++ toString moff ++ " with unexpected key " ++
    String.ofList key.display⟩

/-- The member loop of `apply_in_neon` for `MultixactMembersCreate`, from member `i` on: each
member's offset is `moff + i as u32`, which must lie on the page of the key; the status goes
into its bits of the flag word, then the transaction id into its slot. -/
def applyMembers (key : Key) (segno blknum moff : UInt32) :
    ℕ → List MultiXactMember → List UInt8 → Except Panic (List UInt8)
  | _, [], page => .ok page
  | i, member :: rest, page => do
    let offset := moff + UInt32.ofNat i
    let pageno := offset / multixactMembersPerPage.toUInt32
    let memberoff := mxOffsetToMemberOffset offset
    let flagsoff := mxOffsetToFlagsOffset offset
    let bshift := (mxOffsetToFlagsBitshift offset).toUInt32
    let expectedSegno := pageno / slruPagesPerSegment
    let expectedBlknum := pageno % slruPagesPerSegment
    if segno ≠ expectedSegno then throw (unexpectedMembersKey moff key)
    if blknum ≠ expectedBlknum then throw (unexpectedMembersKey moff key)
    let flagsval := UInt32.ofNat (ofLeBytes (← slicePanic page flagsoff (flagsoff + 4)))
    let flagsval := flagsval &&& ~~~(((1 <<< mxactMemberBitsPerXact.toUInt32) - 1) <<< bshift)
    let flagsval := flagsval ||| member.status <<< bshift
    let page := setLe page flagsoff 4 flagsval.toNat
    let _ ← slicePanic page memberoff (memberoff + 4)
    applyMembers key segno blknum moff (i + 1) rest (setLe page memberoff 4 member.xid.toNat)

/-- The message of a failed `assert_eq!` on the SLRU kind of the key. -/
def unexpectedKind (what : String) (key : Key) (kind expected : SlruKind) : Panic :=
  ⟨"assertion `left == right` failed: " ++ what ++ " record with unexpected key " ++
    String.ofList key.display ++ "\n  left: " ++ kind.debug ++ "\n right: " ++ expected.debug⟩

/-- `apply_in_neon` for the two multixact records: the page afterwards, an error for a key that
is not an SLRU block, or a panic. -/
def applyInNeon (key : Key) (record : NeonWalRecord) (page : List UInt8) :
    Except Panic (Except String (List UInt8)) :=
  match record with
  | .multixactOffsetCreate mid moff =>
    match keyToSlruBlock key with
    | .error _ => .ok (.error "invalid record")
    | .ok (slruKind, segno, blknum) => do
      if slruKind ≠ .multiXactOffsets then
        throw (unexpectedKind "MultixactOffsetCreate" key slruKind .multiXactOffsets)
      let pageno := mid / multixactOffsetsPerPage.toUInt32
      let entryno := mid % multixactOffsetsPerPage.toUInt32
      let offset := (entryno * 4).toNat
      let expectedSegno := pageno / slruPagesPerSegment
      let expectedBlknum := pageno % slruPagesPerSegment
      let msg : Panic := ⟨"MultiXactOffsetsCreate record for multi-xid " ++ toString mid ++
        " with unexpected key " ++ String.ofList key.display⟩
      if segno ≠ expectedSegno then throw msg
      if blknum ≠ expectedBlknum then throw msg
      let _ ← slicePanic page offset (offset + 4)
      pure (.ok (setLe page offset 4 moff.toNat))
  | .multixactMembersCreate moff members =>
    match keyToSlruBlock key with
    | .error _ => .ok (.error "invalid record")
    | .ok (slruKind, segno, blknum) => do
      if slruKind ≠ .multiXactMembers then
        throw (unexpectedKind "MultixactMembersCreate" key slruKind .multiXactMembers)
      Except.ok <$> applyMembers key segno blknum moff 0 members page

/-! ## Past `u32::MAX` -/

theorem slicePanic_eq_ok {page s : List UInt8} {a b : ℕ} (h : slicePanic page a b = .ok s) :
    b ≤ page.length := by
  unfold slicePanic Slice.index at h
  split_ifs at h with h1 h2
  omega

/-- A member whose offset is off the page of the key stops the loop with the assertion. -/
theorem applyMembers_cons_of_ne {key : Key} {segno blknum moff : UInt32} {i : ℕ}
    {member : MultiXactMember} {rest : List MultiXactMember} {page : List UInt8}
    (h : segno ≠ (moff + UInt32.ofNat i) / multixactMembersPerPage.toUInt32 / slruPagesPerSegment ∨
      blknum ≠ (moff + UInt32.ofNat i) / multixactMembersPerPage.toUInt32 % slruPagesPerSegment) :
    applyMembers key segno blknum moff i (member :: rest) page =
      .error (unexpectedMembersKey moff key) := by
  rcases h with h | h
  · simp only [applyMembers, if_pos h]
    rfl
  · by_cases hs : segno = (moff + UInt32.ofNat i) / multixactMembersPerPage.toUInt32 /
        slruPagesPerSegment
    · simp only [applyMembers, hs, ne_eq, not_true_eq_false, if_false, if_pos h]
      rfl
    · simp only [applyMembers, if_pos hs]
      rfl

/-- A member on the page of the key is written, unless the page is too short for it, and the
loop goes on with a page of the same length. -/
theorem applyMembers_cons_of_eq {key : Key} {segno blknum moff : UInt32} {i : ℕ}
    {member : MultiXactMember} {rest : List MultiXactMember} {page : List UInt8}
    (hs : segno = (moff + UInt32.ofNat i) / multixactMembersPerPage.toUInt32 / slruPagesPerSegment)
    (hb : blknum = (moff + UInt32.ofNat i) / multixactMembersPerPage.toUInt32 %
      slruPagesPerSegment) :
    (∃ p, applyMembers key segno blknum moff i (member :: rest) page = .error p) ∨
      ∃ page', page'.length = page.length ∧ applyMembers key segno blknum moff i (member :: rest) page =
        applyMembers key segno blknum moff (i + 1) rest page' := by
  simp only [applyMembers, hs, hb, ne_eq, not_true_eq_false, if_false]
  cases h1 : slicePanic page (mxOffsetToFlagsOffset (moff + UInt32.ofNat i))
      (mxOffsetToFlagsOffset (moff + UInt32.ofNat i) + 4) with
  | error p => exact .inl ⟨p, rfl⟩
  | ok flags =>
    have hf := slicePanic_eq_ok h1
    rw [Except.ok_bind]
    simp only [bind, Except.bind]
    split
    · exact .inl ⟨_, rfl⟩
    · rename_i hm
      refine .inr ⟨_, ?_, rfl⟩
      have hm' := slicePanic_eq_ok hm
      rw [length_setLe hm', length_setLe hf]

/-- The members of a multixact at offset `u32::MAX` wrap around to offset `0`, but ingestion
puts both of them in one record for the last page, and redo panics on that record whatever
the page holds: the second member's offset `u32::MAX + 1` is not on the page of the key. -/
theorem ingestMultixactCreateRecord_wraparound_panics (checkpoint : CheckPoint) (mid : UInt32)
    (m₀ m₁ : MultiXactMember) :
    (ingestMultixactCreateRecord checkpoint ⟨mid, 0xFFFFFFFF, 2, [m₀, m₁]⟩).1.tail =
        [(slruBlockToKey .multiXactMembers 82040 5, .multixactMembersCreate 0xFFFFFFFF [m₀, m₁])] ∧
      ∀ page, ∃ p, applyInNeon (slruBlockToKey .multiXactMembers 82040 5)
        (.multixactMembersCreate 0xFFFFFFFF [m₀, m₁]) page = .error p := by
  refine ⟨?_, fun page => ?_⟩
  · rw [ingestMultixactCreateRecord_records, List.tail_cons]
    unfold membersRecords
    have hrem : (pageRemain 0xFFFFFFFF).toNat = 601 := by decide
    simp [hrem, membersRecords_nil]
    decide
  · have happly : applyInNeon (slruBlockToKey .multiXactMembers 82040 5)
        (.multixactMembersCreate 0xFFFFFFFF [m₀, m₁]) page =
        Except.ok <$> applyMembers (slruBlockToKey .multiXactMembers 82040 5) 82040 5 0xFFFFFFFF 0
          [m₀, m₁] page := by
      simp [applyInNeon, keyToSlruBlock_slruBlockToKey]
    -- the first member is on the page of the key, the second, at offset `0`, is not
    rcases @applyMembers_cons_of_eq (slruBlockToKey .multiXactMembers 82040 5) 82040 5 0xFFFFFFFF 0
      m₀ [m₁] page (by decide) (by decide) with ⟨p, hp⟩ | ⟨page', -, hnext⟩
    · exact ⟨p, by rw [happly, hp]; rfl⟩
    · rw [@applyMembers_cons_of_ne (slruBlockToKey .multiXactMembers 82040 5) 82040 5 0xFFFFFFFF
        (0 + 1) m₁ [] page' (.inl (by decide))] at hnext
      exact ⟨_, by rw [happly, hnext]; rfl⟩

end Multixact

end NeonStorage

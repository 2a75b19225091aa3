import NeonStorage.Lib.Bytes

/-!
# The layout of PostgreSQL's multixact SLRUs

A multixact is a set of transactions that lock one tuple together.  PostgreSQL keeps them in
two SLRUs of `BLCKSZ`-byte pages: the offsets SLRU maps each multixact id to the offset of its
first member, and the members SLRU holds, for each member offset, the member's transaction id
and its lock status.  A members page is cut into groups of four members; a group is a 4-byte
flag word, one status byte per member, followed by the four 4-byte transaction ids
(`multixact.c`, `postgres_ffi/src/nonrelfile_utils.rs`).

`RecordNewMultiXact` stores the offset of a new multixact and then each member `i` at offset
`offset + i`, a 32-bit number that wraps around: `recordNewMultiXactOffset`,
`recordNewMultiXactMembers`.
-/

namespace NeonStorage

namespace PostgresFfi

open Bytes

/-- `BLCKSZ`. -/
def blcksz : UInt16 := 8192

/-- `MULTIXACT_OFFSETS_PER_PAGE`: one 4-byte member offset per multixact. -/
def multixactOffsetsPerPage : UInt16 := blcksz / 4

/-- `MXACT_MEMBER_BITS_PER_XACT`: the bits of the flag word that hold one member's status. -/
def mxactMemberBitsPerXact : UInt16 := 8

/-- `MXACT_MEMBER_FLAGS_PER_BYTE`. -/
def mxactMemberFlagsPerByte : UInt16 := 1

/-- `MULTIXACT_FLAGBYTES_PER_GROUP`. -/
def multixactFlagbytesPerGroup : UInt16 := 4

/-- `MULTIXACT_MEMBERS_PER_MEMBERGROUP`. -/
def multixactMembersPerMembergroup : UInt16 := multixactFlagbytesPerGroup * mxactMemberFlagsPerByte

/-- `MULTIXACT_MEMBERGROUP_SIZE`: the flag word and four transaction ids. -/
def multixactMembergroupSize : UInt16 :=
  4 * multixactMembersPerMembergroup + multixactFlagbytesPerGroup

/-- `MULTIXACT_MEMBERGROUPS_PER_PAGE`. -/
def multixactMembergroupsPerPage : UInt16 := blcksz / multixactMembergroupSize

/-- `MULTIXACT_MEMBERS_PER_PAGE`. -/
def multixactMembersPerPage : UInt16 := multixactMembergroupsPerPage * multixactMembersPerMembergroup

/-- `SLRU_PAGES_PER_SEGMENT`. -/
def slruPagesPerSegment : UInt32 := 32

theorem multixactMembersPerPage_eq : multixactMembersPerPage.toUInt32 = 1636 := by decide

/-- A member of a multixact: a transaction id and its lock status (`MultiXactMember`). -/
structure MultiXactMember where
  xid : UInt32
  status : UInt32
deriving DecidableEq, Repr

/-! ## Where a member goes -/

/-- `mx_offset_to_flags_offset`: the byte offset of the flag word of the member's group. -/
def mxOffsetToFlagsOffset (xid : UInt32) : ℕ :=
  ((xid / multixactMembersPerMembergroup.toUInt32) % multixactMembergroupsPerPage.toUInt32 *
    multixactMembergroupSize.toUInt32).toNat

/-- `mx_offset_to_flags_bitshift`: the first bit of the member's status in its flag word. -/
def mxOffsetToFlagsBitshift (xid : UInt32) : UInt16 :=
  xid.toUInt16 % multixactMembersPerMembergroup * mxactMemberBitsPerXact

/-- `mx_offset_to_member_offset`: the byte offset of the member's transaction id. -/
def mxOffsetToMemberOffset (xid : UInt32) : ℕ :=
  mxOffsetToFlagsOffset xid +
    (multixactFlagbytesPerGroup + xid.toUInt16 % multixactMembersPerMembergroup * 4).toNat

/-- `mx_offset_to_member_page`. -/
def mxOffsetToMemberPage (xid : UInt32) : UInt32 :=
  xid / multixactMembersPerPage.toUInt32

/-! ## `RecordNewMultiXact` -/

/-- The store of one member in `RecordNewMultiXact`: the transaction id at its member offset,
then the status in its bits of the flag word, the other bits kept. -/
def storeMember (page : List UInt8) (offset : UInt32) (m : MultiXactMember) : List UInt8 :=
  let page := setLe page (mxOffsetToMemberOffset offset) 4 m.xid.toNat
  let flagsoff := mxOffsetToFlagsOffset offset
  let bshift := (mxOffsetToFlagsBitshift offset).toUInt32
  let flagsval := UInt32.ofNat (getLe page flagsoff 4)
  let flagsval := flagsval &&& ~~~(((1 <<< mxactMemberBitsPerXact.toUInt32) - 1) <<< bshift)
  let flagsval := flagsval ||| m.status <<< bshift
  setLe page flagsoff 4 flagsval.toNat

/-- The member loop of `RecordNewMultiXact` over the pages of the members SLRU, by page
number: member `i` goes to offset `offset + i`, wrapping around at `2 ^ 32`, on that offset's
page. -/
def recordNewMultiXactMembers (pages : UInt32 → List UInt8) (offset : UInt32) :
    List MultiXactMember → UInt32 → List UInt8
  | [] => pages
  | m :: ms =>
    let pageno := mxOffsetToMemberPage offset
    recordNewMultiXactMembers (Function.update pages pageno (storeMember (pages pageno) offset m))
      (offset + 1) ms

/-- The first half of `RecordNewMultiXact`: the member offset at the multixact's entry of the
offsets SLRU. -/
def recordNewMultiXactOffset (pages : UInt32 → List UInt8) (multi offset : UInt32) :
    UInt32 → List UInt8 :=
  let pageno := multi / multixactOffsetsPerPage.toUInt32
  let entryno := multi % multixactOffsetsPerPage.toUInt32
  Function.update pages pageno (setLe (pages pageno) (entryno.toNat * 4) 4 offset.toNat)

end PostgresFfi

end NeonStorage

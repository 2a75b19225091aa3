import NeonStorage.Lib.Bytes
import NeonStorage.Lib.EStateM

/-!
# Blobs in layer files

Layer files store values as blobs (`pageserver/src/tenant/blob_io.rs`): a length header of one
byte below 128, else of four big-endian bytes with the high bit set, followed by the bytes of
the blob.  `BlobWriter::<BUFFERED>::write_blob` writes the header and the blob through a
page-sized buffer when `BUFFERED` and straight to the file otherwise, and returns the offset of
the header; `BlockCursor::read_blob` reads a blob back from the file's pages, with a header or a
blob that may run over any number of page boundaries.

The file is a list of bytes.  `VirtualFile::write_all` appends what it is given at the file's
position and succeeds; `read_blk` returns the bytes of a page.  A failed assertion is an
error of the run, as is the error `write_blob` returns for a blob of `2^31` bytes or more.

`writeBlob_readBlob` proves that for every start offset and sequence of blobs below `2^31`
bytes, in both modes, the writes succeed at the offsets the headers and blobs add up to, the
bytes in the file are the blobs' encodings one after the other (so the same in both modes), and
reading at each offset gives the blob back, when the blobs lie in the first `2^32` pages of the
file: `read_blob` numbers pages with a `u32` and truncates `offset / PAGE_SZ` to it, so past
these pages it reads another page (`readBlob_past_u32_pages`).
-/

namespace NeonStorage

open Bytes EStateM

/-- `PAGE_SZ`, PostgreSQL's `BLCKSZ`. -/
def pageSz : Nat := 8192

/-! ## The format -/

/-- The four-byte header of a long blob: `(len as u32).to_be_bytes()` with `len_buf[0] |= 0x80`. -/
def longHeader (len : Nat) : List UInt8 :=
  match beBytes 4 len with
  | b :: rest => (b ||| 0x80) :: rest
  | [] => []

/-- The length a four-byte header spells: `len_buf[0] &= 0x7f`, then `u32::from_be_bytes`. -/
def headerLen (lenBuf : List UInt8) : Nat :=
  match lenBuf with
  | b :: rest => ofBeBytes ((b &&& 0x7f) :: rest)
  | [] => 0

/-- A blob as `write_blob` lays it out in the file. -/
def encodeBlob (blob : List UInt8) : List UInt8 :=
  (if blob.length < 128 then [blob.length.toUInt8] else longHeader blob.length) ++ blob

/-- The offsets of blobs written one after the other from `o`: each follows the previous header
(one byte below 128 bytes, else four) and blob. -/
def blobOffsets (o : UInt64) : List (List UInt8) → List UInt64
  | [] => []
  | b :: bs => o :: blobOffsets (o + UInt64.ofNat ((if b.length < 128 then 1 else 4) + b.length)) bs

@[simp] theorem length_longHeader (len : Nat) : (longHeader len).length = 4 := by
  have h := length_beBytes 4 len
  unfold longHeader
  split <;> simp_all

theorem longHeader_eq (len : Nat) : ∃ b rest, beBytes 4 len = b :: rest ∧ rest.length = 3 ∧
    longHeader len = (b ||| 0x80) :: rest := by
  have hlen := length_beBytes 4 len
  match hbe : beBytes 4 len, hlen with
  | b :: rest, hlen => exact ⟨b, rest, rfl, by simpa using hlen, by simp [longHeader, hbe]⟩

/-- A long header starts with its high bit set. -/
theorem head_longHeader (len : Nat) : ∃ b rest, longHeader len = b :: rest ∧ 128 ≤ b.toNat := by
  obtain ⟨b, rest, -, -, hlong⟩ := longHeader_eq len
  exact ⟨_, _, hlong, le_toNat_or_0x80 b⟩

/-- Clearing the high bit gives back a length below `2^31`. -/
theorem headerLen_longHeader {len : Nat} (h : len < 2 ^ 31) : headerLen (longHeader len) = len := by
  obtain ⟨b, rest, hbe, hrest, hlong⟩ := longHeader_eq len
  have hval : b.toNat * 256 ^ 3 + ofBeBytes rest = len := by
    rw [← hrest, ← ofBeBytes_cons, ← hbe, ofBeBytes_beBytes_of_lt (by omega)]
  have hlow := ofBeBytes_lt rest
  rw [hrest] at hlow
  -- so the first byte is below `0x80`, and the mask keeps it
  have hb : b.toNat < 128 := by omega
  rw [hlong, headerLen, ofBeBytes_cons, hrest, toNat_and_0x7f, toNat_or_0x80_mod,
    Nat.mod_eq_of_lt hb]
  exact hval

theorem length_encodeBlob (blob : List UInt8) :
    (encodeBlob blob).length = (if blob.length < 128 then 1 else 4) + blob.length := by
  unfold encodeBlob
  split <;> simp [Nat.add_comm]

/-! ## Reading -/

/-- `read_blk` on the file: page `blknum` holds the bytes `blknum * PAGE_SZ .. (blknum + 1) *
PAGE_SZ`. -/
def readBlk (file : List UInt8) (blknum : UInt32) : List UInt8 :=
  (file.drop (blknum.toNat * pageSz)).take pageSz

namespace BlockCursor

/-- The length header of `read_blob_into_buf`: the page, the position after the header and the
length of the blob. -/
def readHeader (file : List UInt8) (offset : UInt64) :
    Except String (UInt32 × List UInt8 × Nat × Nat) := do
  let blknum := (offset / UInt64.ofNat pageSz).toUInt32
  let off := (offset % UInt64.ofNat pageSz).toNat
  let buf := readBlk file blknum
  -- peek at the first byte, to determine if it's a 1- or 4-byte length
  let firstLenByte ← index buf off
  if firstLenByte < 0x80 then pure (blknum, buf, off + 1, firstLenByte.toNat)
  else
    let thislen := pageSz - off
    if thislen < 4 then do
      -- the header is split across two pages
      let head ← slice buf off pageSz
      let blknum := blknum + 1
      let buf := readBlk file blknum
      let tail ← slice buf 0 (4 - thislen)
      pure (blknum, buf, 4 - thislen, headerLen (head ++ tail))
    else do
      let lenBuf ← slice buf off (off + 4)
      pure (blknum, buf, off + 4, headerLen lenBuf)

/-- The payload loop of `read_blob_into_buf`: `remain` more bytes from position `off` of page
`blknum`, whose bytes are `buf`, appended to `dst`. -/
def readPayload (file : List UInt8) (blknum : UInt32) (buf : List UInt8) (off remain : Nat)
    (dst : List UInt8) : Except String (List UInt8) :=
  if remain = 0 then .ok dst
  else
    -- at the end of a page, continue on the next one
    let next := pageSz - off = 0
    let blknum := if next then blknum + 1 else blknum
    let buf := if next then readBlk file blknum else buf
    let off := if next then 0 else off
    let thisBlkLen := min remain (pageSz - off)
    match slice buf off (off + thisBlkLen) with
    | .error e => .error e
    | .ok bytes => readPayload file blknum buf (off + thisBlkLen) (remain - thisBlkLen) (dst ++ bytes)
termination_by remain
decreasing_by
  -- after a switch to the next page the whole page is left, so at least one byte is copied
  split <;> simp only [pageSz] at * <;> omega

/-- `BlockCursor::read_blob`. -/
def readBlob (file : List UInt8) (offset : UInt64) : Except String (List UInt8) := do
  let (blknum, buf, off, len) ← readHeader file offset
  readPayload file blknum buf off len []

/-- The byte at `a` in page `blk` is the byte at `blk * PAGE_SZ + a` of the file. -/
theorem index_readBlk {file rest : List UInt8} {blk : UInt32} {a : Nat} {x : UInt8}
    (ha : a < pageSz) (h : file.drop (blk.toNat * pageSz + a) = x :: rest) :
    index (readBlk file blk) a = .ok x := by
  obtain ⟨k, hk⟩ : ∃ k, pageSz - a = k + 1 := ⟨pageSz - a - 1, by omega⟩
  refine index_eq_of_drop_eq_cons (?_ : _ = x :: rest.take k)
  rw [readBlk, List.drop_take, List.drop_drop, h, hk, List.take_succ_cons]

/-- A slice of page `blk` is the bytes of the file from `blk * PAGE_SZ + a` on. -/
theorem slice_readBlk {file : List UInt8} {blk : UInt32} {a b : Nat} (hab : a ≤ b) (hb : b ≤ pageSz)
    (hend : blk.toNat * pageSz + b ≤ file.length) :
    slice (readBlk file blk) a b = .ok ((file.drop (blk.toNat * pageSz + a)).take (b - a)) := by
  have hlen : b ≤ (readBlk file blk).length := by simp [readBlk]; omega
  unfold slice
  rw [if_pos ⟨hab, hlen⟩]
  simp only [readBlk, List.drop_take, List.drop_drop, List.take_take]
  congr 2
  omega

/-- Bytes read at `p` and then at `p + t` are the bytes read at `p`. -/
theorem take_drop_append {file : List UInt8} {p t r : Nat} (ht : t ≤ r) :
    (file.drop p).take t ++ (file.drop (p + t)).take (r - t) = (file.drop p).take r := by
  rw [← List.drop_drop, ← List.take_add]
  congr 1
  omega

/-- The payload loop reads the next `remain` bytes of the file, across as many pages as they
span. -/
theorem readPayload_eq (file : List UInt8) (remain : Nat) : ∀ (blk : UInt32) (off : Nat)
    (dst : List UInt8), off ≤ pageSz → blk.toNat * pageSz + off + remain ≤ file.length →
    blk.toNat * pageSz + off + remain ≤ 2 ^ 32 * pageSz →
    readPayload file blk (readBlk file blk) off remain dst =
      .ok (dst ++ (file.drop (blk.toNat * pageSz + off)).take remain) := by
  -- each round copies at least one byte, so the induction is on what is left to read
  induction remain using Nat.strong_induction_on with
  | _ remain ih =>
  intro blk off dst hoff hend hblk
  rw [readPayload]
  by_cases h0 : remain = 0
  · simp [h0]
  by_cases hnext : pageSz - off = 0
  · -- the page is used up: go on at the start of the next one
    have hoffP : off = pageSz := by simp only [pageSz] at *; omega
    have hsucc : (blk + 1).toNat = blk.toNat + 1 := by
      have : blk.toNat + 1 < 2 ^ 32 := by
        have : (blk.toNat + 1) * pageSz < 2 ^ 32 * pageSz := by rw [Nat.add_mul]; omega
        exact Nat.lt_of_mul_lt_mul_right this
      rw [UInt32.toNat_add, UInt32.toNat_one, Nat.mod_eq_of_lt this]
    have hpos : (blk + 1).toNat * pageSz = blk.toNat * pageSz + off := by rw [hsucc, hoffP, Nat.add_mul, one_mul]
    have ht : min remain pageSz ≤ pageSz := by omega
    simp only [h0, hnext, ↓reduceIte, Nat.zero_add, Nat.sub_zero]
    rw [slice_readBlk (Nat.zero_le _) ht (by omega)]
    simp only
    rw [ih _ (by omega) _ _ _ ht (by omega) (by omega), hpos, Nat.add_zero, Nat.sub_zero,
      List.append_assoc, take_drop_append (by omega)]
  · -- the rest of this page, or of the blob
    have ht : off + min remain (pageSz - off) ≤ pageSz := by omega
    simp only [h0, hnext, ↓reduceIte]
    rw [slice_readBlk (Nat.le_add_right _ _) ht (by omega)]
    simp only
    rw [ih _ (by omega) _ _ _ ht (by omega) (by omega), List.append_assoc, Nat.add_sub_cancel_left,
      ← Nat.add_assoc, take_drop_append (by omega)]


/-- The bytes of a file from the start of a blob written in it. -/
theorem drop_encodeBlob (pre blob post : List UInt8) :
    (pre ++ encodeBlob blob ++ post).drop pre.length = encodeBlob blob ++ post := by
  rw [List.append_assoc, List.drop_left]

/-- The header of a blob written at `pre.length` reads as the blob's length, and leaves the
reader at the first byte of the blob. -/
theorem readHeader_encodeBlob {pre blob : List UInt8} (post : List UInt8) (hlen : blob.length ≤ 0x7fffffff)
    (hbound : pre.length + (encodeBlob blob).length ≤ 2 ^ 32 * pageSz) :
    ∃ blk off, readHeader (pre ++ encodeBlob blob ++ post) (UInt64.ofNat pre.length) =
        .ok (blk, readBlk (pre ++ encodeBlob blob ++ post) blk, off, blob.length) ∧
      off ≤ pageSz ∧ blk.toNat * pageSz + off + blob.length = pre.length + (encodeBlob blob).length := by
  have hdrop := drop_encodeBlob pre blob post
  set file := pre ++ encodeBlob blob ++ post with hfile
  set p := pre.length with hp
  have hflen : p + (encodeBlob blob).length ≤ file.length := by simp [hfile, hp]
  have henc := length_encodeBlob blob
  -- the header takes one to four bytes
  have hencpos : 1 + blob.length ≤ (encodeBlob blob).length := by split at henc <;> omega
  have hencle : (encodeBlob blob).length ≤ 4 + blob.length := by split at henc <;> omega
  have hP : pageSz = 8192 := rfl
  have hbound' : p + (encodeBlob blob).length ≤ 2 ^ 32 * 8192 := hbound
  -- the page and the position in it that the offset names
  have hp64 : p < 2 ^ 64 := by omega
  have hblk : ((UInt64.ofNat p / UInt64.ofNat pageSz).toUInt32).toNat = p / pageSz := by
    simp [UInt64.toNat_ofNat_of_lt' hp64, hP]
    omega
  have hoff : (UInt64.ofNat p % UInt64.ofNat pageSz).toNat = p % pageSz := by
    simp [UInt64.toNat_ofNat_of_lt' hp64, hP]
  set blk := (UInt64.ofNat p / UInt64.ofNat pageSz).toUInt32 with hblkdef
  have hpos : blk.toNat * pageSz + p % pageSz = p := by rw [hblk]; exact Nat.div_add_mod' p pageSz
  have hoffP : p % pageSz < pageSz := Nat.mod_lt _ (by simp [hP])
  have hfirst {x : UInt8} {rest : List UInt8} (h : file.drop p = x :: rest) :
      index (readBlk file blk) (p % pageSz) = .ok x :=
    index_readBlk hoffP (by rw [hpos]; exact h)
  by_cases hshort : blob.length < 128
  · -- a 1-byte header
    have henc' : encodeBlob blob = blob.length.toUInt8 :: blob := by simp [encodeBlob, hshort]
    have htoNat : blob.length.toUInt8.toNat = blob.length := by simp; omega
    have hbyte : blob.length.toUInt8 < 0x80 := by
      rw [UInt8.lt_iff_toNat_lt, htoNat]
      exact hshort
    refine ⟨blk, p % pageSz + 1, ?_, by omega, by rw [henc', List.length_cons]; omega⟩
    simp only [readHeader, hoff, ← hblkdef, hfirst (by rw [hdrop, henc', List.cons_append]), bind,
      Except.bind, hbyte, if_true, htoNat]
    rfl
  · -- a 4-byte header, which may run over the end of the page
    obtain ⟨b, rest, hlong, hb⟩ := head_longHeader blob.length
    have henc' : encodeBlob blob = longHeader blob.length ++ blob := by simp [encodeBlob, hshort]
    have hbyte : ¬b < 0x80 := by
      rw [UInt8.lt_iff_toNat_lt]
      simp only [UInt8.reduceToNat]
      omega
    have hfour : (file.drop p).take 4 = longHeader blob.length := by
      rw [hdrop, henc', List.append_assoc]
      exact List.take_left' (length_longHeader _)
    have hlenval : headerLen (longHeader blob.length) = blob.length := headerLen_longHeader (by omega)
    have hfirst' := hfirst (by rw [hdrop, henc', hlong, List.cons_append, List.cons_append])
    by_cases hsplit : pageSz - p % pageSz < 4
    · -- split across two pages
      have hnext : (blk + 1).toNat = blk.toNat + 1 := by
        have hlt : blk.toNat + 1 < 2 ^ 32 := by
          have : (blk.toNat + 1) * pageSz < 2 ^ 32 * pageSz := by
            rw [Nat.add_mul, one_mul]; omega
          exact Nat.lt_of_mul_lt_mul_right this
        rw [UInt32.toNat_add, UInt32.toNat_one, Nat.mod_eq_of_lt hlt]
      have hhead : slice (readBlk file blk) (p % pageSz) pageSz =
          .ok ((file.drop p).take (pageSz - p % pageSz)) := by
        rw [slice_readBlk (le_of_lt hoffP) le_rfl (by omega), hpos]
      have htail : slice (readBlk file (blk + 1)) 0 (4 - (pageSz - p % pageSz)) =
          .ok ((file.drop (p + (pageSz - p % pageSz))).take (4 - (pageSz - p % pageSz))) := by
        have hstart : (blk + 1).toNat * pageSz = p + (pageSz - p % pageSz) := by
          rw [hnext, Nat.add_mul, one_mul]
          omega
        rw [slice_readBlk (Nat.zero_le _) (by omega) (by rw [hstart]; omega), hstart,
          Nat.add_zero, Nat.sub_zero]
      refine ⟨blk + 1, 4 - (pageSz - p % pageSz), ?_, by omega, ?_⟩
      · have hbytes : (file.drop p).take (pageSz - p % pageSz) ++
            (file.drop (p + (pageSz - p % pageSz))).take (4 - (pageSz - p % pageSz)) =
            longHeader blob.length := by
          rw [take_drop_append (by omega), hfour]
        simp only [readHeader, hoff, ← hblkdef, hfirst', bind, Except.bind, hbyte, if_false, hsplit,
          if_true, hhead, htail, hbytes, hlenval]
        rfl
      · rw [henc', List.length_append, length_longHeader, hnext, Nat.add_mul, one_mul]
        omega
    · -- within one page
      have hhead : slice (readBlk file blk) (p % pageSz) (p % pageSz + 4) =
          .ok ((file.drop p).take 4) := by
        rw [slice_readBlk (by omega) (by omega) (by omega), hpos,
          Nat.add_sub_cancel_left]
      refine ⟨blk, p % pageSz + 4, ?_, by omega, ?_⟩
      · simp only [readHeader, hoff, ← hblkdef, hfirst', bind, Except.bind, hbyte, if_false, hsplit,
          hhead, hfour, hlenval]
        rfl
      · rw [henc', List.length_append, length_longHeader]
        omega

/-- `read_blob` at the offset of a blob written in the file gives the blob back, when the blob
lies in the first `2^32` pages. -/
theorem readBlob_encodeBlob {pre blob : List UInt8} (post : List UInt8) (hlen : blob.length ≤ 0x7fffffff)
    (hbound : pre.length + (encodeBlob blob).length ≤ 2 ^ 32 * pageSz) :
    readBlob (pre ++ encodeBlob blob ++ post) (UInt64.ofNat pre.length) = .ok blob := by
  obtain ⟨blk, off, hhdr, hoff, hend⟩ := readHeader_encodeBlob post hlen hbound
  -- the blob's bytes follow its header
  have hblob : (pre ++ encodeBlob blob ++ post).drop (blk.toNat * pageSz + off) = blob ++ post := by
    have hge : blob.length ≤ (encodeBlob blob).length := by rw [length_encodeBlob]; omega
    have hhdr_len : blk.toNat * pageSz + off = pre.length + ((encodeBlob blob).length - blob.length) := by
      omega
    have henc : encodeBlob blob = (encodeBlob blob).take ((encodeBlob blob).length - blob.length) ++ blob := by
      unfold encodeBlob
      simp
    rw [hhdr_len, ← List.drop_drop, drop_encodeBlob]
    conv => lhs; rw [henc]
    simp
  have hfile : blk.toNat * pageSz + off + blob.length ≤ (pre ++ encodeBlob blob ++ post).length := by
    simp only [List.length_append]
    omega
  simp only [readBlob, hhdr, bind, Except.bind]
  rw [readPayload_eq _ _ _ _ _ hoff hfile (by omega), hblob, List.nil_append, List.take_left]

end BlockCursor

/-! ## Writing -/

/-- A `BlobWriter<BUFFERED>`: the bytes it has written to its `VirtualFile`, its offset and its
buffer. -/
structure BlobWriter (buffered : Bool) where
  inner : List UInt8
  offset : UInt64
  buf : List UInt8
deriving DecidableEq, Repr

namespace BlobWriter

variable {buffered : Bool}

/-- `CAPACITY`. -/
def capacity (buffered : Bool) : Nat := if buffered then pageSz else 0

/-- `BlobWriter::new`, on a file whose position is `start_offset`. -/
def new (startOffset : UInt64) : BlobWriter buffered := ⟨[], startOffset, []⟩

/-- `size`. -/
def size (self : BlobWriter buffered) : UInt64 := self.offset

/-- `write_all_unbuffered`. -/
def writeAllUnbuffered (src : List UInt8) : EStateM String (BlobWriter buffered) Unit :=
  modify fun self =>
    { self with inner := self.inner ++ src, offset := self.offset + UInt64.ofNat src.length }

/-- `flush_buffer`. -/
def flushBuffer : EStateM String (BlobWriter buffered) Unit :=
  modify fun self => { self with inner := self.inner ++ self.buf, buf := [] }

/-- `write_into_buffer`: as much of `src` as fits into the buffer. -/
def writeIntoBuffer (src : List UInt8) : EStateM String (BlobWriter buffered) Nat := do
  let self : BlobWriter buffered ← get
  let remaining := capacity buffered - self.buf.length
  let toCopy := min src.length remaining
  set ({ self with buf := self.buf ++ src.take toCopy, offset := self.offset + UInt64.ofNat toCopy } :
    BlobWriter buffered)
  pure toCopy

/-- `write_all`. -/
def writeAll (src : List UInt8) : EStateM String (BlobWriter buffered) Unit := do
  if !buffered then
    let self : BlobWriter buffered ← get
    if !self.buf.isEmpty then throw "assertion failed: self.buf.is_empty()"
    else writeAllUnbuffered src
  else if src.length = 0 then pure ()
  else do
    let self : BlobWriter buffered ← get
    let remaining := capacity buffered - self.buf.length
    -- first copy as much as fits into the buffer
    let src ← if remaining > 0 then do
        let copied ← writeIntoBuffer src
        pure (src.drop copied)
      else pure src
    -- then flush the buffer if it is full
    let self : BlobWriter buffered ← get
    if self.buf.length = capacity buffered then flushBuffer else pure ()
    -- the tail goes to the buffer if it fits without filling it, else straight to the file
    if src.isEmpty then pure ()
    else do
      let self : BlobWriter buffered ← get
      if self.buf.length ≠ 0 then throw "assertion failed: self.buf.len() == 0"
      else if src.length < capacity buffered then do
        let copied ← writeIntoBuffer src
        if copied ≠ src.length then throw "assertion failed: copied == src_buf.len()"
        else pure ()
      else writeAllUnbuffered src

/-- `write_blob`: the offset of the blob's header. -/
def writeBlob (src : List UInt8) : EStateM String (BlobWriter buffered) UInt64 := do
  let offset := (← get).offset
  let len := src.length
  if len < 128 then
    -- short blob: a 1-byte length header
    writeAll [len.toUInt8]
  else if len > 0x7fffffff then throw s!"blob too large ({len} bytes)"
  else
    writeAll (longHeader len)
  writeAll src
  pure offset

@[simp] theorem writeAllUnbuffered_apply (src : List UInt8) (self : BlobWriter buffered) :
    writeAllUnbuffered src self =
      .ok () { self with inner := self.inner ++ src, offset := self.offset + UInt64.ofNat src.length } :=
  rfl

@[simp] theorem flushBuffer_apply (self : BlobWriter buffered) :
    flushBuffer self = .ok () { self with inner := self.inner ++ self.buf, buf := [] } := rfl

@[simp] theorem writeIntoBuffer_apply (src : List UInt8) (self : BlobWriter buffered) :
    writeIntoBuffer src self =
      .ok (min src.length (capacity buffered - self.buf.length))
        { self with
          buf := self.buf ++ src.take (min src.length (capacity buffered - self.buf.length))
          offset := self.offset + UInt64.ofNat (min src.length (capacity buffered - self.buf.length)) } :=
  rfl

/-- What the writer keeps from `new start` on: its offset counts, as a `u64`, the bytes written
to the file and to the buffer, and the buffer stays below a page, empty when not `BUFFERED`. -/
structure Inv (start : UInt64) (w : BlobWriter buffered) : Prop where
  offset_eq : w.offset = start + UInt64.ofNat (w.inner ++ w.buf).length
  buf_lt : w.buf.length < pageSz
  buf_nil : buffered = false → w.buf = []

theorem Inv.init (start : UInt64) : Inv start (BlobWriter.new start : BlobWriter buffered) where
  offset_eq := by simp [BlobWriter.new]
  buf_lt := by simp [BlobWriter.new, pageSz]
  buf_nil _ := rfl

/-- `Inv` after bytes are appended to those written and counted in the offset. -/
theorem Inv.appended {start : UInt64} {w w' : BlobWriter buffered} (hinv : Inv start w) {src : List UInt8}
    (hbytes : w'.inner ++ w'.buf = w.inner ++ w.buf ++ src)
    (hoffset : w'.offset = w.offset + UInt64.ofNat src.length) (hlt : w'.buf.length < pageSz)
    (hnil : buffered = false → w'.buf = []) : Inv start w' where
  offset_eq := by
    have hlen : (w.inner ++ w.buf ++ src).length = (w.inner ++ w.buf).length + src.length :=
      List.length_append
    rw [hoffset, hinv.offset_eq, hbytes, hlen, UInt64.ofNat_add, UInt64.add_assoc]
  buf_lt := hlt
  buf_nil := hnil

/-- `write_all` with a buffer: it succeeds, appends `src` to the bytes written and keeps
`Inv`. -/
theorem writeAll_buffered {start : UInt64} {self : BlobWriter true} (hinv : Inv start self)
    (src : List UInt8) :
    ∃ self', writeAll src self = .ok () self' ∧
      self'.inner ++ self'.buf = self.inner ++ self.buf ++ src ∧ Inv start self' := by
  have hlt := hinv.buf_lt
  by_cases hsrc : src.length = 0
  · exact ⟨self, by simp [writeAll, hsrc], by simp [List.length_eq_zero_iff.mp hsrc], hinv⟩
  by_cases hfit : src.length < pageSz - self.buf.length
  · -- everything goes to the buffer, which does not fill up
    have hmin : min src.length (pageSz - self.buf.length) = src.length := by omega
    have hfull : self.buf.length + src.length ≠ pageSz := by omega
    refine ⟨{ self with buf := self.buf ++ src, offset := self.offset + UInt64.ofNat src.length },
      ?_, by simp, hinv.appended (by simp) rfl (by simp; omega) (by simp)⟩
    simp [writeAll, hsrc, capacity, hlt, hmin, hfull, bind_apply, get_apply]
  · -- the buffer fills up and goes to the file with the head of `src`
    have hmin : min src.length (pageSz - self.buf.length) = pageSz - self.buf.length := by omega
    have hfull : self.buf.length + (pageSz - self.buf.length) = pageSz := by omega
    by_cases hrest : src.length = pageSz - self.buf.length
    · -- `src` fills the buffer exactly
      have hfull : self.buf.length + src.length = pageSz := by omega
      refine ⟨⟨self.inner ++ self.buf ++ src, self.offset + UInt64.ofNat src.length, []⟩, ?_, by simp,
        hinv.appended (by simp) rfl (by simp [pageSz]) (by simp)⟩
      have hpos : 0 < src.length := Nat.pos_of_ne_zero hsrc
      simp [writeAll, hsrc, capacity, hlt, ← hrest, hfull, bind_apply, get_apply]
    · -- the buffer fills up and goes to the file, then the rest of `src` follows
      have hnot : ¬src.length ≤ pageSz - self.buf.length := by omega
      have hmin2 : min (pageSz - self.buf.length) src.length = pageSz - self.buf.length := by omega
      have hoffset : self.offset + UInt64.ofNat (pageSz - self.buf.length) +
          UInt64.ofNat (src.length - (pageSz - self.buf.length)) =
          self.offset + UInt64.ofNat src.length := by
        rw [UInt64.add_assoc, ← UInt64.ofNat_add]
        congr 2
        omega
      have hsplit : src.take (pageSz - self.buf.length) ++ src.drop (pageSz - self.buf.length) = src :=
        List.take_append_drop _ _
      by_cases hsmall : src.length - (pageSz - self.buf.length) < pageSz
      · -- the rest fits into the emptied buffer
        have hmin' : min (src.length - (pageSz - self.buf.length)) pageSz =
            src.length - (pageSz - self.buf.length) := by omega
        refine ⟨⟨self.inner ++ (self.buf ++ src.take (pageSz - self.buf.length)),
          self.offset + UInt64.ofNat (pageSz - self.buf.length) +
            UInt64.ofNat (src.length - (pageSz - self.buf.length)),
          src.drop (pageSz - self.buf.length)⟩, ?_, ?_, hinv.appended ?_ hoffset ?_ (by simp)⟩
        · simp [writeAll, hsrc, hlt, capacity, hmin, hmin2, hfull, hnot, hsmall, hmin', bind_apply, get_apply]
        · simp [hsplit]
        · simp [hsplit]
        · simpa using hsmall
      · -- the rest is a page or more: it goes straight to the file
        refine ⟨⟨self.inner ++ (self.buf ++ src.take (pageSz - self.buf.length)) ++
            src.drop (pageSz - self.buf.length),
          self.offset + UInt64.ofNat (pageSz - self.buf.length) +
            UInt64.ofNat (src.length - (pageSz - self.buf.length)), []⟩, ?_, ?_,
          hinv.appended ?_ hoffset (by simp [pageSz]) (by simp)⟩
        · simp [writeAll, hsrc, hlt, capacity, hmin, hmin2, hfull, hnot, hsmall, bind_apply, get_apply]
        · simp [hsplit]
        · simp [hsplit]

theorem writeAll_unbuffered {start : UInt64} {self : BlobWriter false} (hinv : Inv start self)
    (src : List UInt8) :
    ∃ self', writeAll src self = .ok () self' ∧
      self'.inner ++ self'.buf = self.inner ++ self.buf ++ src ∧ Inv start self' := by
  have hnil := hinv.buf_nil rfl
  refine ⟨⟨self.inner ++ src, self.offset + UInt64.ofNat src.length, []⟩, ?_, by simp [hnil],
    hinv.appended (by simp [hnil]) rfl (by simp [pageSz]) (by simp)⟩
  simp [writeAll, hnil, bind_apply, get_apply]

/-- `write_all` succeeds from a state of `Inv`, appends `src` and keeps `Inv`; the two modes
differ only in how the bytes are split between the file and the buffer. -/
theorem writeAll_spec {start : UInt64} {self : BlobWriter buffered} (hinv : Inv start self)
    (src : List UInt8) :
    ∃ self', writeAll src self = .ok () self' ∧
      self'.inner ++ self'.buf = self.inner ++ self.buf ++ src ∧ Inv start self' := by
  cases buffered with
  | false => exact writeAll_unbuffered hinv src
  | true => exact writeAll_buffered hinv src

/-- Between two states of `Inv`, the offset grows by the bytes appended. -/
theorem Inv.offset_of_append {start : UInt64} {w w' : BlobWriter buffered} (hinv : Inv start w)
    (hinv' : Inv start w') {src : List UInt8} (hbytes : w'.inner ++ w'.buf = w.inner ++ w.buf ++ src) :
    w'.offset = w.offset + UInt64.ofNat src.length := by
  rw [hinv'.offset_eq, hinv.offset_eq, hbytes, List.length_append, UInt64.ofNat_add, UInt64.add_assoc]

/-- `write_blob` of a blob below `2^31` bytes succeeds at the current offset and appends the
blob's encoding. -/
theorem writeBlob_spec {start : UInt64} {self : BlobWriter buffered} (hinv : Inv start self)
    {src : List UInt8} (hlen : src.length ≤ 0x7fffffff) :
    ∃ self', writeBlob src self = .ok self.offset self' ∧
      self'.inner ++ self'.buf = self.inner ++ self.buf ++ encodeBlob src ∧ Inv start self' := by
  have hlarge : ¬src.length > 0x7fffffff := by omega
  -- the header, then the blob
  obtain ⟨s1, h1, hbytes1, hinv1⟩ := writeAll_spec hinv
    (if src.length < 128 then [src.length.toUInt8] else longHeader src.length)
  obtain ⟨s2, h2, hbytes2, hinv2⟩ := writeAll_spec hinv1 src
  refine ⟨s2, ?_, by rw [hbytes2, hbytes1, encodeBlob, List.append_assoc], hinv2⟩
  by_cases hshort : src.length < 128
  · simp only [hshort, if_true] at h1
    simp [writeBlob, bind_apply, get_apply, map_apply, hshort, h1, h2]
  · simp only [hshort, if_false] at h1
    simp [writeBlob, bind_apply, get_apply, map_apply, hshort, hlarge, h1,
      h2]

/-- A blob of `2^31` bytes or more is refused before anything is written. -/
theorem writeBlob_too_large (self : BlobWriter buffered) {src : List UInt8}
    (hlen : 0x7fffffff < src.length) :
    let len := src.length
    writeBlob src self = .error s!"blob too large ({len} bytes)" self := by
  have hshort : ¬src.length < 128 := by omega
  simp [writeBlob, bind_apply, get_apply, hshort, hlen]

/-- Writing blobs one after the other returns the offsets `blobOffsets` adds up. -/
theorem mapM_writeBlob {start : UInt64} {self : BlobWriter buffered} (hinv : Inv start self)
    (blobs : List (List UInt8)) (hlen : ∀ b ∈ blobs, b.length ≤ 0x7fffffff) :
    ∃ self', blobs.mapM writeBlob self = .ok (blobOffsets self.offset blobs) self' ∧
      self'.inner ++ self'.buf = self.inner ++ self.buf ++ (blobs.map encodeBlob).flatten ∧
      Inv start self' := by
  induction blobs generalizing self with
  | nil => exact ⟨self, rfl, by simp, hinv⟩
  | cons b bs ih =>
    obtain ⟨s1, h1, hbytes1, hinv1⟩ := writeBlob_spec hinv (hlen b List.mem_cons_self)
    obtain ⟨s2, h2, hbytes2, hinv2⟩ := ih hinv1 (fun b' hb' => hlen b' (List.mem_cons_of_mem _ hb'))
    -- the next blob starts where this one's header and bytes end
    have hoffset : s1.offset = self.offset + UInt64.ofNat ((if b.length < 128 then 1 else 4) + b.length) := by
      rw [hinv.offset_of_append hinv1 hbytes1, length_encodeBlob]
    refine ⟨s2, ?_, by simp [hbytes2, hbytes1], hinv2⟩
    simp only [List.mapM_cons, bind_apply, h1, h2, pure_apply]
    rw [blobOffsets, hoffset]
end BlobWriter

/-! ## Blobs written and read back -/

/-- The blobs in the file after a flush. -/
theorem flushBuffer_mapM_writeBlob (buffered : Bool) (start : UInt64) (blobs : List (List UInt8))
    (hlen : ∀ b ∈ blobs, b.length ≤ 0x7fffffff) :
    ∃ w : BlobWriter buffered,
      blobs.mapM BlobWriter.writeBlob (BlobWriter.new start) = .ok (blobOffsets start blobs) w ∧
      w.size = start + UInt64.ofNat (blobs.map encodeBlob).flatten.length ∧
      BlobWriter.flushBuffer w = .ok () ⟨(blobs.map encodeBlob).flatten, w.size, []⟩ := by
  obtain ⟨w, hrun, hbytes, hinv⟩ := BlobWriter.mapM_writeBlob (BlobWriter.Inv.init start) blobs hlen
  simp only [BlobWriter.new, List.nil_append] at hrun hbytes
  refine ⟨w, hrun, ?_, ?_⟩
  · rw [BlobWriter.size, hinv.offset_eq, hbytes]
  · rw [BlobWriter.flushBuffer_apply, hbytes]
    rfl

/-- The offset of the `i`-th blob is the length of the blobs before it, from `start`. -/
theorem blobOffsets_getElem (start : UInt64) (blobs : List (List UInt8)) (i : Nat)
    (hi : i < blobs.length) :
    (blobOffsets start blobs)[i]! =
      start + UInt64.ofNat ((blobs.take i).map encodeBlob).flatten.length := by
  induction blobs generalizing start i with
  | nil => simp at hi
  | cons b bs ih =>
    cases i with
    | zero => simp [blobOffsets]
    | succ i =>
      have hstep := ih (start + UInt64.ofNat ((if b.length < 128 then 1 else 4) + b.length)) i
        (by simpa using hi)
      rw [blobOffsets, List.getElem!_cons_succ, hstep, List.take_succ_cons, List.map_cons,
        List.flatten_cons, List.length_append, length_encodeBlob,
        UInt64.ofNat_add ((if b.length < 128 then 1 else 4) + b.length), UInt64.add_assoc]

/-- For every start offset and sequence of blobs below `2^31` bytes, in both modes:
`write_blob` returns the offsets `blobOffsets` adds up and `size` is the offset after the last
blob; after `flush_buffer` the file holds the blobs' encodings one after the other, whatever
the mode; and, when the blobs lie in the first `2^32` pages of the file, `read_blob` at each
offset gives the blob back, whatever the file holds before `start_offset` and after the blobs.
A blob of `2^31` bytes or more is refused and leaves the writer as it was. -/
theorem writeBlob_readBlob (buffered : Bool) (start : UInt64) (blobs : List (List UInt8))
    (hlen : ∀ b ∈ blobs, b.length ≤ 0x7fffffff) :
    (∃ w : BlobWriter buffered,
      blobs.mapM BlobWriter.writeBlob (BlobWriter.new start) = .ok (blobOffsets start blobs) w ∧
      w.size = start + UInt64.ofNat (blobs.map encodeBlob).flatten.length ∧
      BlobWriter.flushBuffer w = .ok () ⟨(blobs.map encodeBlob).flatten, w.size, []⟩) ∧
    (∀ pre post : List UInt8, pre.length = start.toNat →
      start.toNat + (blobs.map encodeBlob).flatten.length ≤ 2 ^ 32 * pageSz →
      ∀ i (hi : i < blobs.length),
        BlockCursor.readBlob (pre ++ (blobs.map encodeBlob).flatten ++ post)
          (blobOffsets start blobs)[i]! = .ok blobs[i]) ∧
    ∀ (w : BlobWriter buffered) (src : List UInt8), 0x7fffffff < src.length →
      let len := src.length
      BlobWriter.writeBlob src w = .error s!"blob too large ({len} bytes)" w := by
  refine ⟨flushBuffer_mapM_writeBlob buffered start blobs hlen, ?_,
    fun w src h => BlobWriter.writeBlob_too_large w h⟩
  intro pre post hpre hbound i hi
  -- the file around the `i`-th blob: what comes before it and what after
  have hsplit : (blobs.map encodeBlob).flatten = ((blobs.take i).map encodeBlob).flatten ++
      encodeBlob blobs[i] ++ ((blobs.drop (i + 1)).map encodeBlob).flatten := by
    have hblobs := List.take_append_drop i blobs
    rw [List.drop_eq_getElem_cons hi] at hblobs
    conv => lhs; rw [← hblobs]
    rw [List.map_append, List.map_cons, List.flatten_append, List.flatten_cons, List.append_assoc]
  have hat : (blobOffsets start blobs)[i]! =
      UInt64.ofNat (pre ++ ((blobs.take i).map encodeBlob).flatten).length := by
    rw [blobOffsets_getElem start blobs i hi, List.length_append, UInt64.ofNat_add, hpre,
      UInt64.ofNat_toNat]
  have hlenb : (blobs.map encodeBlob).flatten.length = ((blobs.take i).map encodeBlob).flatten.length +
      (encodeBlob blobs[i]).length + ((blobs.drop (i + 1)).map encodeBlob).flatten.length := by
    rw [hsplit, List.length_append, List.length_append]
  rw [hsplit, hat, ← List.append_assoc, ← List.append_assoc, List.append_assoc _ _ post]
  exact BlockCursor.readBlob_encodeBlob _ (hlen _ (List.getElem_mem hi))
    (by simp only [List.length_append]; omega)

/-- A blob of 200 bytes written by a buffered writer two bytes before the end of the first
page, so that its header runs over into the second. -/
theorem writeBlob_readBlob_straddling :
    (∀ b ∈ [List.replicate 200 (7 : UInt8)], b.length ≤ 0x7fffffff) ∧
    (∃ w : BlobWriter true,
      [List.replicate 200 (7 : UInt8)].mapM BlobWriter.writeBlob (BlobWriter.new 8190) =
        .ok (blobOffsets 8190 [List.replicate 200 7]) w ∧
      w.size = 8190 + UInt64.ofNat ([List.replicate 200 7].map encodeBlob).flatten.length ∧
      BlobWriter.flushBuffer w = .ok () ⟨([List.replicate 200 7].map encodeBlob).flatten, w.size, []⟩) ∧
    (∀ pre post : List UInt8, pre.length = (8190 : UInt64).toNat →
      (8190 : UInt64).toNat + ([List.replicate 200 7].map encodeBlob).flatten.length ≤ 2 ^ 32 * pageSz →
      ∀ i (hi : i < [List.replicate 200 (7 : UInt8)].length),
        BlockCursor.readBlob (pre ++ ([List.replicate 200 7].map encodeBlob).flatten ++ post)
          (blobOffsets 8190 [List.replicate 200 7])[i]! = .ok [List.replicate 200 (7 : UInt8)][i]) ∧
    ∀ (w : BlobWriter true) (src : List UInt8), 0x7fffffff < src.length →
      let len := src.length
      BlobWriter.writeBlob src w = .error s!"blob too large ({len} bytes)" w :=
  have hlen : ∀ b ∈ [List.replicate 200 (7 : UInt8)], b.length ≤ 0x7fffffff := fun b hb => by
    rw [List.mem_singleton.mp hb, List.length_replicate]
    decide
  ⟨hlen, writeBlob_readBlob true 8190 [List.replicate 200 7] hlen⟩

/-- The page of the first blob written at `2^32 * PAGE_SZ` is numbered `2^32`, which `as u32`
truncates to 0: `read_blob` reads the first page of the file, here zeros, and returns an empty
blob where `[1]` was written. -/
theorem readBlob_past_u32_pages :
    let start : UInt64 := UInt64.ofNat (2 ^ 32 * pageSz)
    ∃ w : BlobWriter true,
      [[(1 : UInt8)]].mapM BlobWriter.writeBlob (BlobWriter.new start) = .ok [start] w ∧
      BlobWriter.flushBuffer w = .ok () ⟨[1, 1], w.size, []⟩ ∧
      BlockCursor.readBlob (List.replicate (2 ^ 32 * pageSz) 0 ++ [1, 1]) start = .ok [] := by
  intro start
  obtain ⟨w, hrun, -, hflush⟩ := flushBuffer_mapM_writeBlob true start [[1]] (by decide)
  refine ⟨w, hrun, hflush, ?_⟩
  -- the page number `2^32` wraps to page 0, which starts with a zero byte
  have hblk : (start / UInt64.ofNat pageSz).toUInt32 = 0 := by decide
  have hoff : (start % UInt64.ofNat pageSz).toNat = 0 := by decide
  have hpage : (List.replicate (2 ^ 32 * pageSz) (0 : UInt8) ++ [1, 1]).drop
      ((0 : UInt32).toNat * pageSz + 0) = 0 :: (List.replicate (2 ^ 32 * pageSz - 1) 0 ++ [1, 1]) := by
    have hpos : 2 ^ 32 * pageSz = (2 ^ 32 * pageSz - 1) + 1 := by simp [pageSz]
    rw [UInt32.toNat_zero, Nat.zero_mul, Nat.add_zero, List.drop_zero, hpos, List.replicate_succ,
      List.cons_append, Nat.add_sub_cancel]
  have hfirst := BlockCursor.index_readBlk (by simp [pageSz]) hpage
  simp only [BlockCursor.readBlob, BlockCursor.readHeader, hblk, hoff, hfirst, bind, Except.bind,
    UInt8.reduceLT, ↓reduceIte, pure, Except.pure, UInt8.reduceToNat]
  rw [BlockCursor.readPayload]
  rfl

end NeonStorage

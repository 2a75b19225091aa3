import NeonStorage.Pageserver.SlruStore

/-!
# WAL ingestion of the commit log

`WalIngest::ingest_record` (`pageserver/src/walingest.rs`) handles three kinds of WAL records
of PostgreSQL's commit log:

* `CLOG_ZEROPAGE` of `RM_CLOG_ID` puts a page of zeros at its place; `handle_slru_extend` first
  creates the segment if the directory does not list it, and when the page is past the end of
  the segment stores the larger size and fills the pages skipped with zeros;
* a commit or an abort of `RM_XACT_ID` puts one `ClogSetCommitted` or `ClogSetAborted` record
  for each page of the transaction tree (`ingest_xact_record`, `Xact.xactClogRecords`);
* `CLOG_TRUNCATE` of `RM_CLOG_ID` drops every segment whose pages all precede the cutoff page,
  unless the latest page, that of the checkpoint's `nextXid`, precedes it
  (`ingest_clog_truncate_record`).

Before each record, `ingest_record` moves the modification to the record's LSN and advances
the checkpoint's `nextXid` past the record's transaction.  The WAL receiver ingests the records
of a message into one modification and commits it every `ingest_batch_size` records and at the
end (`walreceiver_connection.rs`); it stops with `LSN not aligned` at a record whose LSN is not
a multiple of 8.  A commit advances the last record LSN through each LSN the modification moved
past and its own, and `finish_write` asserts that each is aligned; the decoder only hands out
aligned LSNs, so the loop's theorem takes the start and every record aligned.

What the pageserver keeps is related to `PostgresFfi.Clog`, the commit log as PostgreSQL keeps
it, by `Refines`: the directory lists the segments, each segment's size is its number of pages,
and each page of a segment reads as a page of `BLCKSZ` bytes, or one with a commit timestamp
after it, that holds the status of each transaction of the page.  Each of the three records
keeps the relation, with the log changed as PostgreSQL's redo changes it (`ClogWalRecord.redo`:
`Clog.zeroPage`, `Clog.setTreeStatus`, `Clog.truncate`; `ingestClogZeroPage_refines`,
`ingestXactClog_refines`, `ingestClogTruncateRecord_refines`, `ingestRecord_refines`).  Between
records the invariant is `BatchInv`; a commit keeps it.  So every run of the WAL receiver's loop
does not fail on these records, and the timeline it leaves refines the log that the records,
replayed, give (`walReceiverLoop_refines`).  A truncation never drops the segment of the
latest page (`ingestClogTruncateRecord_keeps_latest`).

A commit or an abort needs one thing PostgreSQL guarantees: its records are for distinct pages
(`ClogWalRecord.PagesDistinct`).  Two records for one page go under one key at one LSN, and
`DatadirModification::put` keeps only the second.  The ids of a tree increase, so each page is
one run of them (`Xact.nodup_pages_xactClogRecords`).
-/

namespace NeonStorage

namespace Slru

open PostgresFfi Versions Xact Text

/-- `ZERO_PAGE`. -/
def zeroPage : List UInt8 := List.replicate 8192 0

/-- `XlClogTruncate`. -/
structure XlClogTruncate where
  pageno : UInt32
  oldestXid : UInt32
  oldestXidDb : UInt32
deriving DecidableEq, Repr

/-- The records of the commit log that `ingest_record` handles, decoded. -/
inductive ClogWalRecord
  /-- `CLOG_ZEROPAGE` of `RM_CLOG_ID`. -/
  | zeroPage (pageno : UInt32)
  /-- `CLOG_TRUNCATE` of `RM_CLOG_ID`. -/
  | truncate (xlrec : XlClogTruncate)
  /-- `XLOG_XACT_COMMIT` or `XLOG_XACT_ABORT` of `RM_XACT_ID`. -/
  | xact (parsed : XlXactParsedRecord) (isCommit : Bool)
deriving DecidableEq, Repr

namespace DatadirModification

/-- `WalIngest::handle_slru_extend` for the CLOG: a segment missing from the directory is
created empty; a page past the end of its segment extends it, and the pages skipped are filled
with zeros. -/
def handleSlruExtend (m : DatadirModification) (tl : Timeline) (segno blknum : UInt32) :
    Except String DatadirModification := do
  let newNblocks := blknum + 1
  let segmentExists ← getSlruSegmentExists tl segno (.modified m)
  let (m, oldNblocks) ← if !segmentExists then do
      let m ← m.putSlruSegmentCreation tl segno 0
      pure (m, 0)
    else do
      let oldNblocks ← getSlruSegmentSize tl segno (.modified m)
      pure (m, oldNblocks)
  if newNblocks > oldNblocks then
    let m := m.putSlruExtend segno newNblocks
    -- fill the gap with zeros
    pure ((List.range' oldNblocks.toNat (blknum.toNat - oldNblocks.toNat)).foldl
      (fun m gapBlknum => m.putSlruPageImage segno (UInt32.ofNat gapBlknum) zeroPage) m)
  else pure m

/-- `WalIngest::put_slru_page_image` for the CLOG. -/
def walIngestPutSlruPageImage (m : DatadirModification) (tl : Timeline) (segno blknum : UInt32)
    (img : List UInt8) : Except String DatadirModification := do
  let m ← m.handleSlruExtend tl segno blknum
  pure (m.putSlruPageImage segno blknum img)

/-- The `CLOG_ZEROPAGE` branch of `ingest_record`. -/
def ingestClogZeroPage (m : DatadirModification) (tl : Timeline) (pageno : UInt32) :
    Except String DatadirModification :=
  m.walIngestPutSlruPageImage tl (pageno / slruPagesPerSegment) (pageno % slruPagesPerSegment)
    zeroPage

/-- The CLOG loop of `WalIngest::ingest_xact_record`: the records of the tree put in order. -/
def ingestXactClog (m : DatadirModification) (parsed : XlXactParsedRecord) (isCommit : Bool) :
    DatadirModification :=
  (xactClogRecords parsed isCommit).foldl (fun m e =>
    m.putSlruWalRecord (e.1 / slruPagesPerSegment) (e.1 % slruPagesPerSegment) e.2) m

/-- The loop of `ingest_clog_truncate_record` over the segments the directory listed. -/
def dropClogSegments (tl : Timeline) (cutoffPage : UInt32) :
    DatadirModification → List UInt32 → Except Panic (Except String DatadirModification)
  | m, [] => .ok (.ok m)
  | m, segno :: rest => do
    let segpage := segno * slruPagesPerSegment
    if ← slruMayDeleteClogsegment segpage cutoffPage then
      match m.dropSlruSegment tl segno with
      | .ok m => dropClogSegments tl cutoffPage m rest
      | .error e => pure (.error e)
    else dropClogSegments tl cutoffPage m rest

/-- `WalIngest::ingest_clog_truncate_record`, after it has set the checkpoint's `oldestXid` and
`oldestXidDB` from the record: no segment is dropped when the latest page precedes the cutoff,
an apparent wraparound. -/
def ingestClogTruncateRecord (m : DatadirModification) (tl : Timeline) (checkpoint : CheckPoint)
    (xlrec : XlClogTruncate) : Except Panic (Except String DatadirModification) :=
  let latestPageNumber := checkpoint.nextXid.value.toUInt32 / clogXactsPerPage
  if clogpagePrecedes latestPageNumber xlrec.pageno then .ok (.ok m)
  else
    match listSlruSegments tl (.modified m) with
    | .ok segments => dropClogSegments tl xlrec.pageno m segments
    | .error e => .ok (.error e)

end DatadirModification

/-! ## The relation to the commit log -/

/-- The status of `xid` is kept on block `blknum` of segment `segno`. -/
def OnPage (segno blknum xid : UInt32) : Prop :=
  transactionIdToPage xid / slruPagesPerSegment = segno ∧
    transactionIdToPage xid % slruPagesPerSegment = blknum

namespace Timeline

/-- The directory, as the last version of its key holds it. -/
def latestDir (tl : Timeline) : Option (List UInt32) := tl.dir.getLast?.map Prod.snd

/-- The size of a segment, as the last version of its key holds it. -/
def latestSize (tl : Timeline) (segno : UInt32) : Option UInt32 :=
  (tl.sizes segno).getLast?.map Prod.snd

/-- Every version of the timeline is at or below its last record LSN. -/
structure Bounded (tl : Timeline) : Prop where
  dir : Below tl.dir tl.lastRecordLsn
  sizes : ∀ segno, Below (tl.sizes segno) tl.lastRecordLsn
  pages : ∀ segno blknum, Below (tl.pages segno blknum) tl.lastRecordLsn

end Timeline

/-- The versions of a page read, at any LSN, as a page of `BLCKSZ` bytes, or one with a timestamp
after it, that holds the status the log gives each transaction of the page. -/
def PageHolds (c : Clog) (segno blknum : UInt32) (vs : List (UInt64 × PageValue)) : Prop :=
  ∃ page, (∀ requestLsn,
      readPage (Multixact.slruBlockToKey .clog segno blknum) requestLsn vs = .ok (.ok page)) ∧
    (page.length = 8192 ∨ page.length = 8200) ∧
    ∀ xid, OnPage segno blknum xid → statusAt page xid = c.status xid

/-- What the timeline keeps of the CLOG is the log `c`: the directory lists its segments, once
each; the size of each segment is its number of pages; and each page holds the statuses. -/
structure Refines (tl : Timeline) (c : Clog) : Prop where
  dir : ∃ segments, tl.latestDir = some segments ∧ segments.Nodup ∧
    ∀ segno, segno ∈ segments ↔ segno ∈ c.segments
  size : ∀ segno ∈ c.segments, ∃ nblocks : UInt32, tl.latestSize segno = some nblocks ∧
    nblocks.toNat = c.nblocks segno
  page : ∀ segno ∈ c.segments, ∀ blknum : UInt32, blknum.toNat < c.nblocks segno →
    PageHolds c segno blknum (tl.pages segno blknum)

namespace DatadirModification

/-- Every pending version is at or below the modification's LSN. -/
structure Bounded (m : DatadirModification) : Prop where
  dir : Below m.pendingDir m.lsn
  sizes : ∀ segno, Below (m.pendingSizes segno) m.lsn
  pages : ∀ segno blknum, Below (m.pendingPages segno blknum) m.lsn

section Puts

variable {m : DatadirModification} {tl : Timeline}

theorem Bounded.putDir (h : m.Bounded) (segments : List UInt32) : (m.putDir segments).Bounded :=
  ⟨h.dir.putVersion, h.sizes, h.pages⟩

theorem Bounded.putSize (h : m.Bounded) (segno nblocks : UInt32) :
    (m.putSize segno nblocks).Bounded := by
  refine ⟨h.dir, fun s => ?_, h.pages⟩
  by_cases hs : s = segno
  · subst hs
    simpa [DatadirModification.putSize] using (h.sizes s).putVersion
  · simpa [DatadirModification.putSize, hs] using h.sizes s

theorem Bounded.putPage (h : m.Bounded) (segno blknum : UInt32) (v : PageValue) :
    (m.putPage segno blknum v).Bounded := by
  refine ⟨h.dir, h.sizes, fun s b => ?_⟩
  simp only [DatadirModification.putPage]
  split
  · exact (h.pages s b).putVersion
  · exact h.pages s b

theorem Bounded.delete (h : m.Bounded) (keyRange : Key × Key) : (m.delete keyRange).Bounded :=
  ⟨h.dir, h.sizes, h.pages⟩

@[simp] theorem latestDir_view_putDir (segments : List UInt32) :
    ((m.putDir segments).view tl).latestDir = some segments := by
  obtain ⟨vs, hvs⟩ := exists_putVersion_eq_append m.pendingDir m.lsn segments
  simp [Timeline.latestDir, hvs]

theorem latestSize_view_putSize (segno nblocks s : UInt32) :
    ((m.putSize segno nblocks).view tl).latestSize s =
      if s = segno then some nblocks else (m.view tl).latestSize s := by
  rw [Timeline.latestSize, view_putSize_sizes]
  split
  · obtain ⟨vs, hvs⟩ := exists_putVersion_eq_append (m.pendingSizes s) m.lsn nblocks
    simp [hvs]
  · rfl

@[simp] theorem latestDir_view_putSize (segno nblocks : UInt32) :
    ((m.putSize segno nblocks).view tl).latestDir = (m.view tl).latestDir := rfl

@[simp] theorem latestDir_view_putPage (segno blknum : UInt32) (v : PageValue) :
    ((m.putPage segno blknum v).view tl).latestDir = (m.view tl).latestDir := rfl

@[simp] theorem latestSize_view_putDir (segments : List UInt32) (s : UInt32) :
    ((m.putDir segments).view tl).latestSize s = (m.view tl).latestSize s := rfl

@[simp] theorem latestSize_view_putPage (segno blknum : UInt32) (v : PageValue) (s : UInt32) :
    ((m.putPage segno blknum v).view tl).latestSize s = (m.view tl).latestSize s := rfl

theorem pages_view_putPage_self (segno blknum : UInt32) (v : PageValue) :
    ∃ vs, ((m.putPage segno blknum v).view tl).pages segno blknum = vs ++ [(m.lsn, v)] := by
  obtain ⟨vs, hvs⟩ := exists_putVersion_eq_append (m.pendingPages segno blknum) m.lsn v
  refine ⟨tl.pages segno blknum ++ vs, ?_⟩
  rw [view_putPage_pages, if_pos ⟨rfl, rfl⟩, hvs, List.append_assoc]

theorem pages_view_putPage_of_ne {segno blknum s b : UInt32} (h : ¬(s = segno ∧ b = blknum))
    (v : PageValue) : ((m.putPage segno blknum v).view tl).pages s b = (m.view tl).pages s b := by
  rw [view_putPage_pages, if_neg h]

/-- A record put on a key with no pending version at the modification's LSN is appended to the
versions the view had. -/
theorem pages_view_putPage_of_lt {segno blknum : UInt32}
    (h : ∀ e ∈ m.pendingPages segno blknum, e.1 < m.lsn) (v : PageValue) :
    ((m.putPage segno blknum v).view tl).pages segno blknum =
      (m.view tl).pages segno blknum ++ [(m.lsn, v)] := by
  have hne : ∀ e ∈ (m.pendingPages segno blknum).getLast?, e.1 ≠ m.lsn := fun e he =>
    UInt64.ne_of_lt (h e (List.mem_of_getLast? he))
  rw [view_putPage_pages, if_pos ⟨rfl, rfl⟩, putVersion_of_ne hne, ← List.append_assoc]
  rfl

end Puts

section Gets

variable {m : DatadirModification} {tl : Timeline}

theorem max_ne_zero (hlsn : m.lsn ≠ 0) : max tl.lastRecordLsn m.lsn ≠ 0 := fun h0 =>
  hlsn (UInt64.le_antisymm (h0 ▸ lsn_le_max_right _ _) UInt64.zero_le)

/-- Through a modification, the directory reads as the last version of the view. -/
theorem getDir_eq {segments : List UInt32} (htl : Below tl.dir tl.lastRecordLsn)
    (hlsn : m.lsn ≠ 0) (h : (m.view tl).latestDir = some segments) :
    m.getDir tl = .ok segments := by
  unfold getDir
  cases hp : m.pendingDir.getLast? with
  | some e =>
    have hv : (m.view tl).latestDir = some e.2 := by
      simp [Timeline.latestDir, view, List.getLast?_append, hp]
    rw [h] at hv
    cases hv
    rfl
  | none =>
    have hv : (m.view tl).latestDir = tl.dir.getLast?.map Prod.snd := by
      simp [Timeline.latestDir, view, List.getLast?_eq_none_iff.mp hp]
    rw [getImage, if_neg (max_ne_zero hlsn), lastAt_of_below (htl.mono (lsn_le_max_left _ _)),
      ← hv, h]

/-- Through a modification, the size of a segment reads as the last version of the view. -/
theorem getSize_eq {segno nblocks : UInt32} (htl : Below (tl.sizes segno) tl.lastRecordLsn)
    (hlsn : m.lsn ≠ 0) (h : (m.view tl).latestSize segno = some nblocks) :
    m.getSize tl segno = .ok nblocks := by
  unfold getSize
  cases hp : (m.pendingSizes segno).getLast? with
  | some e =>
    have hv : (m.view tl).latestSize segno = some e.2 := by
      simp [Timeline.latestSize, view, List.getLast?_append, hp]
    rw [h] at hv
    cases hv
    rfl
  | none =>
    have hv : (m.view tl).latestSize segno = (tl.sizes segno).getLast?.map Prod.snd := by
      simp [Timeline.latestSize, view, List.getLast?_eq_none_iff.mp hp]
    rw [getImage, if_neg (max_ne_zero hlsn), lastAt_of_below (htl.mono (lsn_le_max_left _ _)),
      ← hv, h]

end Gets

/-! ## What every put keeps -/

/-- A property of a modification that each put and each deletion keeps. -/
structure PutsKeep (Q : DatadirModification → Prop) : Prop where
  putDir : ∀ m segments, Q m → Q (m.putDir segments)
  putSize : ∀ m segno nblocks, Q m → Q (m.putSize segno nblocks)
  putPage : ∀ m segno blknum v, Q m → Q (m.putPage segno blknum v)
  delete : ∀ m keyRange, Q m → Q (m.delete keyRange)

namespace PutsKeep

variable {Q : DatadirModification → Prop} {m m' : DatadirModification} {tl : Timeline}

/-- Each put keeps the pending versions at or below the modification's LSN. -/
theorem bounded : PutsKeep Bounded where
  putDir _ segments h := h.putDir segments
  putSize _ segno nblocks h := h.putSize segno nblocks
  putPage _ segno blknum v h := h.putPage segno blknum v
  delete _ keyRange h := h.delete keyRange

/-- Two properties the puts keep hold together. -/
theorem and {Q' : DatadirModification → Prop} (hQ : PutsKeep Q) (hQ' : PutsKeep Q') :
    PutsKeep fun m => Q m ∧ Q' m where
  putDir m segments h := ⟨hQ.putDir m segments h.1, hQ'.putDir m segments h.2⟩
  putSize m segno nblocks h := ⟨hQ.putSize m segno nblocks h.1, hQ'.putSize m segno nblocks h.2⟩
  putPage m segno blknum v h := ⟨hQ.putPage m segno blknum v h.1, hQ'.putPage m segno blknum v h.2⟩
  delete m keyRange h := ⟨hQ.delete m keyRange h.1, hQ'.delete m keyRange h.2⟩

/-- The puts move neither the modification nor the LSNs it moved on from, so they keep every
property of those. -/
theorem of_lsns (R : UInt64 → List UInt64 → Prop) : PutsKeep fun m => R m.lsn m.pendingLsns where
  putDir _ _ h := h
  putSize _ _ _ h := h
  putPage _ _ _ _ h := h
  delete _ _ h := h

theorem putSlruSegmentCreation (hQ : PutsKeep Q) (h : Q m) {segno nblocks : UInt32}
    (hc : m.putSlruSegmentCreation tl segno nblocks = .ok m') : Q m' := by
  unfold DatadirModification.putSlruSegmentCreation at hc
  simp only [bind, Except.bind, pure, Except.pure] at hc
  split at hc
  · cases hc
  · split at hc
    · cases hc
    · cases hc
      exact hQ.putSize _ _ _ (hQ.putDir _ _ h)

/-- `handle_slru_extend` puts only the segment, its size and zero pages. -/
theorem handleSlruExtend (hQ : PutsKeep Q) (h : Q m) {segno blknum : UInt32}
    (he : m.handleSlruExtend tl segno blknum = .ok m') : Q m' := by
  unfold DatadirModification.handleSlruExtend at he
  simp only [bind, Except.bind, pure, Except.pure] at he
  split at he
  · cases he
  · split at he
    · -- a missing segment is created first
      split at he
      · cases he
      · rename_i m1 hcreate
        have h1 := hQ.putSlruSegmentCreation h hcreate
        split at he
        · cases he
          exact foldl_putPage hQ.putPage (fun _ _ => ⟨_, _, _, rfl⟩) _ (hQ.putSize _ _ _ h1)
        · cases he
          exact h1
    · split at he
      · cases he
      · split at he
        · cases he
          exact foldl_putPage hQ.putPage (fun _ _ => ⟨_, _, _, rfl⟩) _ (hQ.putSize _ _ _ h)
        · cases he
          exact h

theorem ingestClogZeroPage (hQ : PutsKeep Q) (h : Q m) {pageno : UInt32}
    (hz : m.ingestClogZeroPage tl pageno = .ok m') : Q m' := by
  obtain ⟨m1, hext, hz⟩ := Except.exists_of_bind_eq_ok hz
  cases hz
  exact hQ.putPage _ _ _ _ (hQ.handleSlruExtend h hext)

theorem ingestXactClog (hQ : PutsKeep Q) (h : Q m) (parsed : XlXactParsedRecord)
    (isCommit : Bool) : Q (m.ingestXactClog parsed isCommit) :=
  foldl_putPage hQ.putPage (fun _ _ => ⟨_, _, _, rfl⟩) _ h

theorem dropSlruSegment (hQ : PutsKeep Q) (h : Q m) {segno : UInt32}
    (hd : m.dropSlruSegment tl segno = .ok m') : Q m' := by
  obtain ⟨segments, -, hd⟩ := Except.exists_of_bind_eq_ok hd
  cases hd
  exact hQ.delete _ _ (hQ.putDir _ _ h)

theorem dropClogSegments (hQ : PutsKeep Q) {cutoffPage : UInt32} :
    ∀ {segments : List UInt32} {m m' : DatadirModification}, Q m →
      DatadirModification.dropClogSegments tl cutoffPage m segments = .ok (.ok m') → Q m'
  | [], _, _, h, hd => by
    cases hd
    exact h
  | segno :: rest, m, m', h, hd => by
    rw [DatadirModification.dropClogSegments] at hd
    obtain ⟨mayDelete, -, hd⟩ := Except.exists_of_bind_eq_ok hd
    split at hd
    · split at hd
      · rename_i m1 hdrop
        exact hQ.dropClogSegments (hQ.dropSlruSegment h hdrop) hd
      · cases hd
    · exact hQ.dropClogSegments h hd

theorem ingestClogTruncateRecord (hQ : PutsKeep Q) (h : Q m) {checkpoint : CheckPoint}
    {xlrec : XlClogTruncate} (ht : m.ingestClogTruncateRecord tl checkpoint xlrec = .ok (.ok m')) :
    Q m' := by
  unfold DatadirModification.ingestClogTruncateRecord at ht
  dsimp only at ht
  split at ht
  · cases ht
    exact h
  · split at ht
    · exact hQ.dropClogSegments h ht
    · cases ht

end PutsKeep

end DatadirModification

open DatadirModification

/-- The prologue of `ingest_record`: `nextXid` is moved past the record's transaction, if it has
one. -/
def advanceNextXid (checkpoint : CheckPoint) (xlXid : UInt32) : CheckPoint :=
  if xlXid ≠ 0 then (checkpoint.updateNextXid xlXid).1 else checkpoint

/-- `WalIngest::ingest_record` for a record of the commit log at `lsn` whose header names the
transaction `xlXid`: the checkpoint and the modification afterwards. -/
def ingestRecord (checkpoint : CheckPoint) (tl : Timeline) (m : DatadirModification)
    (lsn : UInt64) (xlXid : UInt32) (rec : ClogWalRecord) :
    Except Panic (Except String (CheckPoint × DatadirModification)) :=
  match m.setLsn lsn with
  | .error e => .ok (.error e)
  | .ok m =>
    let checkpoint := advanceNextXid checkpoint xlXid
    match rec with
    | .zeroPage pageno => .ok ((fun m => (checkpoint, m)) <$> m.ingestClogZeroPage tl pageno)
    | .truncate xlrec =>
      (fun r => (fun m => (checkpoint, m)) <$> r) <$> m.ingestClogTruncateRecord tl checkpoint xlrec
    | .xact parsed isCommit => .ok (.ok (checkpoint, m.ingestXactClog parsed isCommit))

/-- The loop of the WAL receiver over the records of a message: a record whose LSN is not aligned
ends it, and each other record is ingested into the modification, which is committed every
`ingestBatchSize` records and once more at the end if records are left. -/
def walReceiverLoop (ingestBatchSize : ℕ) (checkpoint : CheckPoint) (tl : Timeline)
    (m : DatadirModification) (uncommitted : ℕ) :
    List (UInt64 × UInt32 × ClogWalRecord) → Except Panic (Except String (CheckPoint × Timeline))
  | [] =>
    if uncommitted > 0 then (fun r => .ok (checkpoint, r.1)) <$> m.commit tl
    else .ok (.ok (checkpoint, tl))
  | (lsn, xlXid, rec) :: rest =>
    if !Lsn.isAligned lsn then .ok (.error "LSN not aligned") else
    match ingestRecord checkpoint tl m lsn xlXid rec with
    | .error p => .error p
    | .ok (.error e) => .ok (.error e)
    | .ok (.ok (checkpoint, m)) =>
      if uncommitted + 1 ≥ ingestBatchSize then
        match m.commit tl with
        | .error p => .error p
        | .ok (tl, m) => walReceiverLoop ingestBatchSize checkpoint tl m 0 rest
      else walReceiverLoop ingestBatchSize checkpoint tl m (uncommitted + 1) rest

/-! ## What the records do to the log -/

namespace ClogWalRecord

/-- The log after PostgreSQL's redo of a record: `ZeroCLOGPage`, `TransactionIdSetTreeStatus`,
or `SimpleLruTruncate` under Neon's page order, with the page of the checkpoint's `nextXid` as
the latest page. -/
def redo (checkpoint : CheckPoint) (c : Clog) : ClogWalRecord → Clog
  | .zeroPage pageno => c.zeroPage pageno
  | .truncate xlrec =>
    c.truncate clogpagePrecedes (transactionIdToPage checkpoint.nextXid.value.toUInt32) xlrec.pageno
  | .xact parsed isCommit =>
    c.setTreeStatus (parsed.xid :: parsed.subxacts)
      (if isCommit then transactionStatusCommitted else transactionStatusAborted)

/-- What PostgreSQL guarantees of a commit or an abort: its records are for distinct pages. -/
def PagesDistinct : ClogWalRecord → Prop
  | .xact parsed isCommit => ((xactClogRecords parsed isCommit).map Prod.fst).Nodup
  | .zeroPage _ => True
  | .truncate _ => True

instance : DecidablePred PagesDistinct
  | .xact _ _ => inferInstanceAs (Decidable (List.Nodup _))
  | .zeroPage _ => inferInstanceAs (Decidable True)
  | .truncate _ => inferInstanceAs (Decidable True)

end ClogWalRecord

/-- The checkpoint and the log after a run of records, each applied once the checkpoint's
`nextXid` has moved past its transaction. -/
def replay : CheckPoint → Clog → List (UInt64 × UInt32 × ClogWalRecord) → CheckPoint × Clog
  | checkpoint, c, [] => (checkpoint, c)
  | checkpoint, c, (_, xlXid, rec) :: rest =>
    let checkpoint := advanceNextXid checkpoint xlXid
    replay checkpoint (rec.redo checkpoint c) rest

/-! ## Pages that hold the log -/

@[simp] theorem length_zeroPage : zeroPage.length = 8192 := by
  rw [zeroPage, List.length_replicate]

/-- Every transaction of a page of zeros has status `0`, in progress. -/
@[simp] theorem statusAt_zeroPage (xid : UInt32) : statusAt zeroPage xid = 0 := by
  rw [statusAt, zeroPage, List.getD_eq_getElem?_getD, List.getElem?_replicate,
    if_pos (clogByteno_lt xid)]
  simp [Bytes.getField]

/-- A transaction is on the segment and block of a page exactly when it is on that page. -/
theorem onPage_iff {pageno xid : UInt32} :
    OnPage (pageno / slruPagesPerSegment) (pageno % slruPagesPerSegment) xid ↔
      transactionIdToPage xid = pageno :=
  ⟨fun h => eq_of_div_eq_of_mod_eq h.1 h.2, fun h => h ▸ ⟨rfl, rfl⟩⟩

section PageHolds

variable {c c' : Clog} {segno blknum : UInt32} {vs : List (UInt64 × PageValue)}

/-- A page holds every log that agrees on the transactions of the page. -/
theorem PageHolds.congr_status (h : PageHolds c segno blknum vs)
    (hst : ∀ xid, OnPage segno blknum xid → c'.status xid = c.status xid) :
    PageHolds c' segno blknum vs := by
  obtain ⟨page, hread, hlen, hstatus⟩ := h
  exact ⟨page, hread, hlen, fun xid hxid => (hstatus xid hxid).trans (hst xid hxid).symm⟩

/-- Versions that end in a page of zeros hold a log in which the transactions of the page are
in progress. -/
theorem pageHolds_append_zeroPage (vs : List (UInt64 × PageValue)) (l : UInt64)
    (hz : ∀ xid, OnPage segno blknum xid → c.status xid = 0) :
    PageHolds c segno blknum (vs ++ [(l, .image zeroPage)]) :=
  ⟨zeroPage, fun requestLsn => readPage_append_image _ requestLsn vs l zeroPage,
    Or.inl length_zeroPage, fun xid hxid => (statusAt_zeroPage xid).trans (hz xid hxid).symm⟩

/-- A record whose ids lie on its page, put after versions that hold the log, holds the log
with those ids set to the record's status. -/
theorem PageHolds.append_walRecord {pageno : UInt32} {rec : ClogRecord}
    (h : PageHolds c (pageno / slruPagesPerSegment) (pageno % slruPagesPerSegment) vs)
    (hon : ∀ xid ∈ rec.xids, transactionIdToPage xid = pageno) (l : UInt64) :
    PageHolds (c.setTreeStatus rec.xids rec.status) (pageno / slruPagesPerSegment)
      (pageno % slruPagesPerSegment) (vs ++ [(l, .walRecord rec)]) := by
  obtain ⟨page, hread, hlen, hstatus⟩ := h
  have hlen' : 8192 ≤ page.length := by omega
  refine ⟨applyClogRecord rec page, fun requestLsn => ?_, length_applyClogRecord rec hlen,
    fun xid hxid => ?_⟩
  · rw [readPage_append_walRecord (hread requestLsn)]
    exact applyInNeon_of_onKeyPage hon hlen'
  · rw [statusAt_applyClogRecord hon hlen' (onPage_iff.mp hxid), hstatus xid hxid]
    rfl

end PageHolds

section Reads

variable {m : DatadirModification} {tl : Timeline} {c c' : Clog}

/-- Only the directory, the sizes and the pages of a timeline count, and of the log only what
lies in its segments. -/
theorem Refines.congr_segments (hr : Refines tl c)
    (hseg : ∀ segno, segno ∈ c'.segments ↔ segno ∈ c.segments) (hn : c'.nblocks = c.nblocks)
    (hst : c'.status = c.status) : Refines tl c' := by
  obtain ⟨segments, hdir, hnd, hmem⟩ := hr.dir
  refine ⟨⟨segments, hdir, hnd, fun s => (hmem s).trans (hseg s).symm⟩, fun s hs => ?_,
    fun s hs b hb => ?_⟩
  · rw [hn]
    exact hr.size s ((hseg s).mp hs)
  · rw [hn] at hb
    exact (hr.page s ((hseg s).mp hs) b hb).congr_status fun xid _ => congrFun hst xid

/-- Through a modification whose view refines the log, the directory reads as its segments. -/
theorem Refines.exists_getDir (htl : tl.Bounded) (hlsn : m.lsn ≠ 0) (hr : Refines (m.view tl) c) :
    ∃ segments, m.getDir tl = .ok segments ∧ segments.Nodup ∧
      ∀ segno, segno ∈ segments ↔ segno ∈ c.segments := by
  obtain ⟨segments, hdir, hnd, hmem⟩ := hr.dir
  exact ⟨segments, getDir_eq htl.dir hlsn hdir, hnd, hmem⟩

/-- Through a modification whose view refines the log, a segment's size reads as its number of
pages. -/
theorem Refines.exists_getSize (htl : tl.Bounded) (hlsn : m.lsn ≠ 0) (hr : Refines (m.view tl) c)
    {segno : UInt32} (hs : segno ∈ c.segments) :
    ∃ nblocks : UInt32, m.getSize tl segno = .ok nblocks ∧ nblocks.toNat = c.nblocks segno := by
  obtain ⟨nblocks, hsize, hn⟩ := hr.size segno hs
  exact ⟨nblocks, getSize_eq (htl.sizes segno) hlsn hsize, hn⟩

end Reads

/-! ## `CLOG_ZEROPAGE` -/

namespace DatadirModification

section Fill

variable {tl : Timeline} (segno : UInt32) (img : List UInt8)

theorem pages_view_foldl_putSlruPageImage_of_not_mem {gs : List ℕ} {s b : UInt32}
    (h : ¬(s = segno ∧ ∃ g ∈ gs, UInt32.ofNat g = b)) (m : DatadirModification) :
    ((gs.foldl (fun m g => m.putSlruPageImage segno (UInt32.ofNat g) img) m).view tl).pages s b =
      (m.view tl).pages s b := by
  induction gs generalizing m with
  | nil => rfl
  | cons g gs ih =>
    rw [List.foldl_cons, ih (fun ⟨hs, g', hg', hb⟩ => h ⟨hs, g', List.mem_cons_of_mem _ hg', hb⟩)]
    exact pages_view_putPage_of_ne (fun ⟨hs, hb⟩ => h ⟨hs, g, List.mem_cons_self .., hb.symm⟩) _

theorem pages_view_foldl_putSlruPageImage_of_mem {gs : List ℕ} {b : UInt32}
    (h : ∃ g ∈ gs, UInt32.ofNat g = b) (m : DatadirModification) :
    ∃ vs, ((gs.foldl (fun m g => m.putSlruPageImage segno (UInt32.ofNat g) img) m).view tl).pages
      segno b = vs ++ [(m.lsn, .image img)] := by
  induction gs generalizing m with
  | nil => simp at h
  | cons g gs ih =>
    rw [List.foldl_cons]
    by_cases hrest : ∃ g' ∈ gs, UInt32.ofNat g' = b
    · exact ih hrest _
    · -- the last write of the page is this one
      have hg : UInt32.ofNat g = b := by simpa [hrest] using h
      rw [pages_view_foldl_putSlruPageImage_of_not_mem segno img (fun ⟨_, hmem⟩ => hrest hmem), ← hg]
      exact pages_view_putPage_self segno (UInt32.ofNat g) (.image img)

/-- The pages the loop fills: those from the old end of the segment up to `blknum`. -/
theorem exists_mem_range'_iff {old blknum b : UInt32} (hb : blknum.toNat < 32) :
    (∃ g ∈ List.range' old.toNat (blknum.toNat - old.toNat), UInt32.ofNat g = b) ↔
      old.toNat ≤ b.toNat ∧ b < blknum := by
  constructor
  · rintro ⟨g, hg, rfl⟩
    rw [List.mem_range'_1] at hg
    have hg32 : g < UInt32.size := by unfold UInt32.size; omega
    rw [UInt32.toNat_ofNat_of_lt' hg32, UInt32.lt_iff_toNat_lt, UInt32.toNat_ofNat_of_lt' hg32]
    omega
  · rintro ⟨hle, hlt⟩
    rw [UInt32.lt_iff_toNat_lt] at hlt
    exact ⟨b.toNat, List.mem_range'_1.mpr (by omega), UInt32.ofNat_toNat⟩

end Fill

end DatadirModification

/-- What the steps of `handle_slru_extend`, and the page write after it, leave when read through
the modification: the directory lists the segments of `c` and `segno`; the size of `segno` is
`nblocks`, those of the others are as in `c`; the pages of `segno` that `zeroed` names end in
zeros at the modification's LSN; every other page is as it was. -/
structure Grown (c : Clog) (segno : UInt32) (nblocks : ℕ) (zeroed : UInt32 → Prop) (tl : Timeline)
    (m m' : DatadirModification) : Prop where
  lsn : m'.lsn = m.lsn
  dir : ∃ segments, (m'.view tl).latestDir = some segments ∧ segments.Nodup ∧
    ∀ s, s ∈ segments ↔ s ∈ insert segno c.segments
  size : ∀ s ∈ insert segno c.segments, ∃ n : UInt32, (m'.view tl).latestSize s = some n ∧
    n.toNat = Function.update c.nblocks segno nblocks s
  zero : ∀ b, zeroed b → ∃ vs, (m'.view tl).pages segno b = vs ++ [(m.lsn, .image zeroPage)]
  pages : ∀ s b, ¬(s = segno ∧ zeroed b) → (m'.view tl).pages s b = (m.view tl).pages s b

section Grown

variable {m m' : DatadirModification} {tl : Timeline} {c : Clog} {segno : UInt32} {nblocks : ℕ}
  {zeroed : UInt32 → Prop}

theorem Grown.congr {zeroed' : UInt32 → Prop} {nblocks' : ℕ}
    (h : Grown c segno nblocks zeroed tl m m') (hn : nblocks = nblocks')
    (hz : ∀ b, zeroed b ↔ zeroed' b) : Grown c segno nblocks' zeroed' tl m m' :=
  ⟨h.lsn, h.dir, hn ▸ h.size, fun b hb => h.zero b ((hz b).mpr hb),
    fun s b hsb => h.pages s b fun ⟨hs, hb⟩ => hsb ⟨hs, (hz b).mp hb⟩⟩

/-- A segment that is there has grown by nothing. -/
theorem grown_self (hr : Refines (m.view tl) c) (hs : segno ∈ c.segments) :
    Grown c segno (c.size segno) (fun _ => False) tl m m := by
  obtain ⟨segments, hdir, hnd, hmem⟩ := hr.dir
  refine ⟨rfl, ⟨segments, hdir, hnd, fun s => by rw [Finset.insert_eq_of_mem hs]; exact hmem s⟩,
    fun s hs' => ?_, fun _ hb => hb.elim, fun _ _ _ => rfl⟩
  rw [Finset.insert_eq_of_mem hs] at hs'
  have hupdate : Function.update c.nblocks segno (c.size segno) s = c.nblocks s := by
    by_cases hseg : s = segno
    · subst hseg
      simp [Clog.size, hs]
    · exact Function.update_of_ne hseg _ _
  rw [hupdate]
  exact hr.size s hs'

/-- `put_slru_segment_creation` of a missing segment, with no pages. -/
theorem grown_putSlruSegmentCreation (htl : tl.Bounded) (hlsn : m.lsn ≠ 0) (hm : m.Bounded)
    (hr : Refines (m.view tl) c) (hs : segno ∉ c.segments) :
    ∃ m', m.putSlruSegmentCreation tl segno 0 = .ok m' ∧ m'.Bounded ∧
      Grown c segno 0 (fun _ => False) tl m m' := by
  obtain ⟨segments, hget, hnd, hmem⟩ := hr.exists_getDir htl hlsn
  have hsegs : segno ∉ segments := fun h => hs ((hmem segno).mp h)
  refine ⟨(m.putDir (segments ++ [segno])).putSize segno 0, ?_, (hm.putDir _).putSize _ _,
    rfl, ⟨segments ++ [segno], ?_, ?_, fun s => ?_⟩, fun s hs' => ?_, fun _ hb => hb.elim,
    fun _ _ _ => rfl⟩
  · simp [putSlruSegmentCreation, hget, hsegs, bind, Except.bind, pure, Except.pure]
  · rw [latestDir_view_putSize, latestDir_view_putDir]
  · refine List.nodup_append.mpr ⟨hnd, List.nodup_singleton _, fun a ha b hb hab => hsegs ?_⟩
    rw [← List.mem_singleton.mp hb, ← hab]
    exact ha
  · simp [hmem, or_comm]
  · rw [latestSize_view_putSize]
    by_cases hseg : s = segno
    · subst hseg
      exact ⟨0, by simp, by simp⟩
    · rw [if_neg hseg, Function.update_of_ne hseg]
      exact hr.size s (by simpa [hseg] using hs')

/-- Extending the segment to `blknum + 1` pages fills those from its old end to `blknum`. -/
theorem Grown.extend_fill {old blknum : UInt32} (h : Grown c segno old.toNat zeroed tl m m')
    (hold : old.toNat ≤ blknum.toNat) (hb : blknum.toNat < 32) :
    Grown c segno (blknum.toNat + 1) (fun b => zeroed b ∨ (old.toNat ≤ b.toNat ∧ b < blknum)) tl m
      ((List.range' old.toNat (blknum.toNat - old.toNat)).foldl
        (fun m g => m.putSlruPageImage segno (UInt32.ofNat g) zeroPage)
        (m'.putSlruExtend segno (blknum + 1))) := by
  obtain ⟨pages, hfold⟩ :=
    exists_foldl_putPage (f := fun m g => m.putSlruPageImage segno (UInt32.ofNat g) zeroPage)
      (fun _ _ => ⟨_, _, _, rfl⟩) (List.range' old.toNat (blknum.toNat - old.toNat))
      (m'.putSlruExtend segno (blknum + 1))
  have hsucc : (blknum + 1).toNat = blknum.toNat + 1 := by
    rw [UInt32.toNat_add, UInt32.toNat_one]
    omega
  refine ⟨by rw [hfold]; exact h.lsn, ?_, fun s hs => ?_, fun b hz => ?_, fun s b hsb => ?_⟩
  · rw [hfold]
    exact h.dir
  · -- the size of `segno` is the new one, the others are as they were
    have hsizes : (({ m'.putSlruExtend segno (blknum + 1) with pendingPages := pages }).view
        tl).latestSize s = ((m'.putSlruExtend segno (blknum + 1)).view tl).latestSize s := rfl
    rw [hfold, hsizes, putSlruExtend, latestSize_view_putSize]
    by_cases hseg : s = segno
    · subst hseg
      exact ⟨blknum + 1, by simp, by simp [hsucc]⟩
    · rw [if_neg hseg, Function.update_of_ne hseg]
      obtain ⟨n, hn, hnb⟩ := h.size s hs
      exact ⟨n, hn, by rw [hnb, Function.update_of_ne hseg]⟩
  · by_cases hgap : old.toNat ≤ b.toNat ∧ b < blknum
    · have hl : (m'.putSlruExtend segno (blknum + 1)).lsn = m.lsn := h.lsn
      rw [← hl]
      exact pages_view_foldl_putSlruPageImage_of_mem segno zeroPage
        ((exists_mem_range'_iff hb).mpr hgap) _
    · rw [pages_view_foldl_putSlruPageImage_of_not_mem segno zeroPage
        (fun ⟨_, hmem⟩ => hgap ((exists_mem_range'_iff hb).mp hmem))]
      exact h.zero b (hz.resolve_right hgap)
  · rw [pages_view_foldl_putSlruPageImage_of_not_mem segno zeroPage
      (fun ⟨hs, hmem⟩ => hsb ⟨hs, .inr ((exists_mem_range'_iff hb).mp hmem)⟩)]
    exact h.pages s b fun ⟨hs, hz⟩ => hsb ⟨hs, .inl hz⟩

/-- The page written last. -/
theorem Grown.putSlruPageImage (h : Grown c segno nblocks zeroed tl m m') (blknum : UInt32) :
    Grown c segno nblocks (fun b => zeroed b ∨ b = blknum) tl m
      (m'.putSlruPageImage segno blknum zeroPage) := by
  refine ⟨h.lsn, h.dir, h.size, fun b hb => ?_, fun s b hsb => ?_⟩
  · by_cases hbb : b = blknum
    · subst hbb
      rw [← h.lsn]
      exact pages_view_putPage_self segno b (.image zeroPage)
    · rw [DatadirModification.putSlruPageImage, pages_view_putPage_of_ne (fun ⟨_, hb'⟩ => hbb hb')]
      exact h.zero b (hb.resolve_right hbb)
  · rw [DatadirModification.putSlruPageImage, pages_view_putPage_of_ne (fun ⟨hs, hb⟩ => hsb ⟨hs, .inr hb⟩)]
    exact h.pages s b fun ⟨hs, hz⟩ => hsb ⟨hs, .inl hz⟩

end Grown

section ZeroPage

variable {m : DatadirModification} {tl : Timeline} {c : Clog}

/-- `handle_slru_extend` through a modification whose view refines the log: the segment is
listed, and grown to `blknum + 1` pages if it had fewer, the pages skipped being zeros. -/
theorem handleSlruExtend_grown (htl : tl.Bounded) (hlsn : m.lsn ≠ 0) (hm : m.Bounded)
    (hr : Refines (m.view tl) c) (segno : UInt32) {blknum : UInt32} (hb : blknum.toNat < 32) :
    ∃ m', m.handleSlruExtend tl segno blknum = .ok m' ∧ m'.Bounded ∧
      Grown c segno (max (c.size segno) (blknum.toNat + 1))
        (fun b => c.size segno ≤ b.toNat ∧ b < blknum) tl m m' := by
  obtain ⟨segments, hget, hnd, hmem⟩ := hr.exists_getDir htl hlsn
  have hsucc : (blknum + 1).toNat = blknum.toNat + 1 := by
    rw [UInt32.toNat_add, UInt32.toNat_one]
    omega
  by_cases hs : segno ∈ c.segments
  · obtain ⟨old, hsize, hold⟩ := hr.exists_getSize htl hlsn hs
    have hsize' : c.size segno = old.toNat := by simp [Clog.size, hs, hold]
    simp only [handleSlruExtend, getSlruSegmentExists, listSlruSegments, hget, getSlruSegmentSize,
      hsize, Functor.map, Except.map, bind, Except.bind, (hmem segno).mpr hs, decide_true,
      Bool.not_true, Bool.false_eq_true, if_false, pure, Except.pure]
    have hself := (grown_self hr hs).congr hsize' (fun _ => Iff.rfl)
    split
    · rename_i hgt
      have hle : old.toNat ≤ blknum.toNat := by
        rw [GT.gt, UInt32.lt_iff_toNat_lt, hsucc] at hgt
        omega
      refine ⟨_, rfl, foldl_putPage PutsKeep.bounded.putPage (fun _ _ => ⟨_, _, _, rfl⟩) _
        (hm.putSize _ _),
        (hself.extend_fill hle hb).congr (by omega) fun b => ?_⟩
      simp [hsize']
    · rename_i hle
      rw [GT.gt, UInt32.lt_iff_toNat_lt, hsucc] at hle
      refine ⟨m, rfl, hm, hself.congr (by omega) fun b => ⟨False.elim, fun ⟨h1, h2⟩ => ?_⟩⟩
      rw [UInt32.lt_iff_toNat_lt] at h2
      omega
  · obtain ⟨m1, hcreate, hm1, hgrown⟩ := grown_putSlruSegmentCreation htl hlsn hm hr hs
    have hsize0 : c.size segno = 0 := by simp [Clog.size, hs]
    have hnot : segno ∉ segments := fun h => hs ((hmem segno).mp h)
    have hpos : blknum + 1 > 0 := by
      rw [GT.gt, UInt32.lt_iff_toNat_lt, hsucc]
      exact Nat.succ_pos _
    simp only [handleSlruExtend, getSlruSegmentExists, listSlruSegments, hget, hcreate,
      Functor.map, Except.map, bind, Except.bind, hnot, decide_false,
      Bool.not_false, if_true, pure, Except.pure, if_pos hpos]
    have h0 : Grown c segno (0 : UInt32).toNat (fun _ => False) tl m m1 := hgrown
    refine ⟨_, rfl, foldl_putPage PutsKeep.bounded.putPage (fun _ _ => ⟨_, _, _, rfl⟩) _
      (hm1.putSize _ _),
      (h0.extend_fill (Nat.zero_le _) hb).congr (by omega) fun b => ?_⟩
    simp [hsize0]

/-- A `CLOG_ZEROPAGE` record, ingested through a modification whose view refines the log, leaves
one that refines the log with the page zeroed. -/
theorem ingestClogZeroPage_refines (htl : tl.Bounded) (hlsn : m.lsn ≠ 0) (hm : m.Bounded)
    (hr : Refines (m.view tl) c) (pageno : UInt32) :
    ∃ m', m.ingestClogZeroPage tl pageno = .ok m' ∧ m'.lsn = m.lsn ∧ m'.Bounded ∧
      Refines (m'.view tl) (c.zeroPage pageno) := by
  have hb : (pageno % slruPagesPerSegment).toNat < 32 := by
    rw [UInt32.toNat_mod]
    exact Nat.mod_lt _ (by decide)
  obtain ⟨m1, hext, hm1, hgrown⟩ :=
    handleSlruExtend_grown htl hlsn hm hr (pageno / slruPagesPerSegment) hb
  have g := hgrown.putSlruPageImage (pageno % slruPagesPerSegment)
  refine ⟨_, by simp [ingestClogZeroPage, walIngestPutSlruPageImage, hext, bind, Except.bind,
    pure, Except.pure], g.lsn, hm1.putPage _ _ _, ?_⟩
  obtain ⟨segments, hdir, hnd, hmem⟩ := g.dir
  refine ⟨⟨segments, hdir, hnd, hmem⟩, g.size, fun s hs b hblk => ?_⟩
  by_cases hz : s = pageno / slruPagesPerSegment ∧
      ((c.size (pageno / slruPagesPerSegment) ≤ b.toNat ∧ b < pageno % slruPagesPerSegment) ∨
        b = pageno % slruPagesPerSegment)
  · obtain ⟨rfl, hzb⟩ := hz
    obtain ⟨vs, hvs⟩ := g.zero b hzb
    rw [hvs]
    refine pageHolds_append_zeroPage vs m.lsn fun xid hxid => if_pos ?_
    rcases hzb with ⟨hle, hlt⟩ | rfl
    · obtain ⟨h1, h2⟩ := hxid
      exact .inr ⟨h1, h2 ▸ hle, h2 ▸ hlt⟩
    · exact .inl (onPage_iff.mp hxid)
  · rw [g.pages s b hz]
    have hold : s ∈ c.segments ∧ b.toNat < c.nblocks s := by
      by_cases hseg : s = pageno / slruPagesPerSegment
      · subst hseg
        simp only [Clog.zeroPage, Function.update_self] at hblk
        have hlt : b.toNat < c.size (pageno / slruPagesPerSegment) := by
          by_contra hge
          refine hz ⟨rfl, ?_⟩
          rcases Nat.lt_or_ge b.toNat (pageno % slruPagesPerSegment).toNat with h | h
          · exact .inl ⟨by omega, UInt32.lt_iff_toNat_lt.mpr h⟩
          · exact .inr (UInt32.toNat_inj.mp (by omega))
        have hmemb : pageno / slruPagesPerSegment ∈ c.segments := by
          by_contra hn
          simp [Clog.size, hn] at hlt
        simp only [Clog.size, hmemb, if_true] at hlt
        exact ⟨hmemb, hlt⟩
      · simp only [Clog.zeroPage, Finset.mem_insert, hseg, false_or] at hs
        simp only [Clog.zeroPage, Function.update_of_ne hseg] at hblk
        exact ⟨hs, hblk⟩
    refine (hr.page s hold.1 b hold.2).congr_status fun xid hxid => if_neg ?_
    obtain ⟨h1, h2⟩ := hxid
    rintro (hpage | ⟨hseg, hle, hlt⟩)
    · rw [hpage] at h1 h2
      exact hz ⟨h1.symm, .inr h2.symm⟩
    · rw [h2] at hle hlt
      exact hz ⟨h1.symm.trans hseg, .inl ⟨hle, hlt⟩⟩

end ZeroPage

/-! ## Commits and aborts -/

section Xact

variable {m : DatadirModification} {tl : Timeline} {c : Clog}

/-- A record put on its page after the versions of the view, through a modification whose view
refines the log, leaves one that refines the log with the record's ids set to its status. -/
theorem Refines.putSlruWalRecord (hr : Refines (m.view tl) c) {pageno : UInt32}
    {rec : ClogRecord} (hon : ∀ xid ∈ rec.xids, transactionIdToPage xid = pageno)
    (hlt : ∀ v ∈ m.pendingPages (pageno / slruPagesPerSegment) (pageno % slruPagesPerSegment),
      v.1 < m.lsn) :
    Refines ((m.putSlruWalRecord (pageno / slruPagesPerSegment) (pageno % slruPagesPerSegment)
      rec).view tl) (c.setTreeStatus rec.xids rec.status) := by
  refine ⟨hr.dir, hr.size, fun s hs b hb => ?_⟩
  by_cases hsb : s = pageno / slruPagesPerSegment ∧ b = pageno % slruPagesPerSegment
  · obtain ⟨rfl, rfl⟩ := hsb
    rw [DatadirModification.putSlruWalRecord, pages_view_putPage_of_lt hlt]
    exact (hr.page _ hs _ hb).append_walRecord hon m.lsn
  · rw [DatadirModification.putSlruWalRecord, pages_view_putPage_of_ne hsb]
    refine (hr.page s hs b hb).congr_status fun xid hxid => ?_
    -- the ids of the record are on its own page, not on this one
    have hnot : xid ∉ rec.xids := fun hx => by
      obtain ⟨h1, h2⟩ := hxid
      rw [hon xid hx] at h1 h2
      exact hsb ⟨h1.symm, h2.symm⟩
    simp [Clog.setTreeStatus, hnot]

/-- The records of a tree, each put on its own page, set the status of every id of the tree. -/
theorem Refines.foldl_putSlruWalRecord {status : UInt8} :
    ∀ {records : List (UInt32 × ClogRecord)} {m : DatadirModification} {c : Clog},
      Refines (m.view tl) c → OnKeyPages records → (∀ e ∈ records, e.2.status = status) →
      (records.map Prod.fst).Nodup →
      (∀ e ∈ records, ∀ v ∈ m.pendingPages (e.1 / slruPagesPerSegment)
        (e.1 % slruPagesPerSegment), v.1 < m.lsn) →
      Refines ((records.foldl (fun m e => m.putSlruWalRecord (e.1 / slruPagesPerSegment)
        (e.1 % slruPagesPerSegment) e.2) m).view tl)
        (c.setTreeStatus (records.flatMap (·.2.xids)) status)
  | [], _, _, hr, _, _, _, _ => by simpa using hr
  | e :: rest, m, c, hr, hon, hst, hnd, hlt => by
    rw [List.foldl_cons, List.flatMap_cons, Clog.setTreeStatus_append]
    have hr1 := hr.putSlruWalRecord (hon e (List.mem_cons_self ..)) (hlt e (List.mem_cons_self ..))
    rw [hst e (List.mem_cons_self ..)] at hr1
    refine Refines.foldl_putSlruWalRecord hr1 (fun e' he' => hon e' (List.mem_cons_of_mem _ he'))
      (fun e' he' => hst e' (List.mem_cons_of_mem _ he')) (List.nodup_cons.mp hnd).2
      fun e' he' v hv => ?_
    -- a later record is for another page, whose pending versions the first left alone
    have hne : e'.1 ≠ e.1 := fun h =>
      (List.nodup_cons.mp hnd).1 (h ▸ List.mem_map_of_mem (f := Prod.fst) he')
    have hpage : ¬(e'.1 / slruPagesPerSegment = e.1 / slruPagesPerSegment ∧
        e'.1 % slruPagesPerSegment = e.1 % slruPagesPerSegment) := fun ⟨h1, h2⟩ =>
      hne (eq_of_div_eq_of_mod_eq h1 h2)
    simp only [DatadirModification.putSlruWalRecord, DatadirModification.putPage, if_neg hpage] at hv
    exact hlt e' (List.mem_cons_of_mem _ he') v hv

/-- A commit or an abort whose records are for distinct pages, ingested through a modification
whose view refines the log and whose pending versions are all before its LSN, leaves one that
refines the log with the status of every transaction of the tree set. -/
theorem ingestXactClog_refines (hr : Refines (m.view tl) c)
    (hlt : ∀ segno blknum, ∀ v ∈ m.pendingPages segno blknum, v.1 < m.lsn)
    (parsed : XlXactParsedRecord) (isCommit : Bool)
    (hpages : ((xactClogRecords parsed isCommit).map Prod.fst).Nodup) :
    Refines ((m.ingestXactClog parsed isCommit).view tl)
      (c.setTreeStatus (parsed.xid :: parsed.subxacts)
        (if isCommit then transactionStatusCommitted else transactionStatusAborted)) := by
  rw [← flatMap_xids_xactClogRecords parsed isCommit]
  exact hr.foldl_putSlruWalRecord (onKeyPages_xactClogRecords parsed isCommit)
    (status_xactClogRecords parsed isCommit) hpages fun _ _ => hlt _ _

end Xact

/-! ## `CLOG_TRUNCATE` -/

section Truncate

variable {m : DatadirModification} {tl : Timeline} {c : Clog}

/-- `drop_slru_segment` of a segment, through a modification whose view refines the log, leaves
one that refines the log without that segment. -/
theorem Refines.dropSlruSegment (htl : tl.Bounded) (hlsn : m.lsn ≠ 0) (hm : m.Bounded)
    (hr : Refines (m.view tl) c) (segno : UInt32) :
    ∃ m', m.dropSlruSegment tl segno = .ok m' ∧ m'.lsn = m.lsn ∧ m'.Bounded ∧
      Refines (m'.view tl) { c with segments := c.segments.erase segno } := by
  obtain ⟨segments, hget, hnd, hmem⟩ := hr.exists_getDir htl hlsn
  refine ⟨(m.putDir (segments.erase segno)).delete (clogSegmentKeyRange segno),
    by simp [DatadirModification.dropSlruSegment, hget, bind, Except.bind, pure, Except.pure], rfl,
    (hm.putDir _).delete _, ⟨⟨segments.erase segno, ?_, hnd.erase segno, fun s => ?_⟩,
      fun s hs => hr.size s (Finset.mem_of_mem_erase hs),
      fun s hs b hb => hr.page s (Finset.mem_of_mem_erase hs) b hb⟩⟩
  · rw [view_delete, latestDir_view_putDir]
  · rw [hnd.mem_erase_iff, Finset.mem_erase, hmem]

/-- The loop of `ingest_clog_truncate_record` drops, of the segments it is given, those whose
first and last pages precede the cutoff. -/
theorem dropClogSegments_refines (htl : tl.Bounded) (cutoffPage : UInt32) :
    ∀ (rest : List UInt32) {m : DatadirModification} {c : Clog}, m.lsn ≠ 0 → m.Bounded →
      Refines (m.view tl) c →
      ∃ m', dropClogSegments tl cutoffPage m rest = .ok (.ok m') ∧ m'.lsn = m.lsn ∧ m'.Bounded ∧
        Refines (m'.view tl) { c with segments := c.segments.filter fun s =>
          !(decide (s ∈ rest) && (clogpagePrecedes (s * 32) cutoffPage &&
            clogpagePrecedes (s * 32 + 31) cutoffPage)) }
  | [], m, c, _, hm, hr => ⟨m, rfl, rfl, hm, hr.congr_segments (by simp) rfl rfl⟩
  | segno :: rest, m, c, hlsn, hm, hr => by
    rw [dropClogSegments]
    simp only [bind, Except.bind, slruMayDeleteClogsegment_mul]
    by_cases hdel : (clogpagePrecedes (segno * 32) cutoffPage &&
        clogpagePrecedes (segno * 32 + 31) cutoffPage) = true
    · obtain ⟨m1, hdrop, hlsn1, hm1, hr1⟩ := hr.dropSlruSegment htl hlsn hm segno
      obtain ⟨m', hrest, hlsn', hm', hr'⟩ :=
        dropClogSegments_refines htl cutoffPage rest (hlsn1 ▸ hlsn) hm1 hr1
      refine ⟨m', by simp [hdel, hdrop, hrest], hlsn'.trans hlsn1, hm',
        hr'.congr_segments (fun s => ?_) rfl rfl⟩
      by_cases hs : s = segno
      · subst hs
        simpa using fun _ => hdel
      · simp [hs]
    · obtain ⟨m', hrest, hlsn', hm', hr'⟩ := dropClogSegments_refines htl cutoffPage rest hlsn hm hr
      refine ⟨m', by simp [hdel, hrest], hlsn', hm', hr'.congr_segments (fun s => ?_) rfl rfl⟩
      by_cases hs : s = segno
      · subst hs
        rw [Bool.not_eq_true, Bool.and_eq_false_iff] at hdel
        rcases hdel with hdel | hdel <;> simp [hdel]
      · simp [hs]

/-- A `CLOG_TRUNCATE` record, ingested through a modification whose view refines the log, leaves
one that refines the log truncated at the record's cutoff page, the latest page being that of
the checkpoint's `nextXid`. -/
theorem ingestClogTruncateRecord_refines (htl : tl.Bounded) (hlsn : m.lsn ≠ 0) (hm : m.Bounded)
    (hr : Refines (m.view tl) c) (checkpoint : CheckPoint) (xlrec : XlClogTruncate) :
    ∃ m', m.ingestClogTruncateRecord tl checkpoint xlrec = .ok (.ok m') ∧ m'.lsn = m.lsn ∧
      m'.Bounded ∧ Refines (m'.view tl) (c.truncate clogpagePrecedes
        (transactionIdToPage checkpoint.nextXid.value.toUInt32) xlrec.pageno) := by
  unfold ingestClogTruncateRecord Clog.truncate transactionIdToPage
  dsimp only
  split
  · exact ⟨m, rfl, rfl, hm, hr⟩
  · obtain ⟨segments, hget, hnd, hmem⟩ := hr.exists_getDir htl hlsn
    obtain ⟨m', hdrop, hlsn', hm', hr'⟩ :=
      dropClogSegments_refines htl xlrec.pageno segments hlsn hm hr
    refine ⟨m', by simp [listSlruSegments, hget, hdrop], hlsn', hm',
      hr'.congr_segments (fun s => ?_) rfl rfl⟩
    by_cases hs : s ∈ c.segments
    · simp [hmem, hs]
    · simp [hs]

end Truncate

/-! ## Records and runs -/

/-- Between the records of a batch: the committed versions are at or below the timeline's last
record LSN, which is at or below the modification's; the pending versions, and the LSNs the
modification moved on from, are at or below the modification's LSN; those LSNs and its own are
aligned, as `commit` asserts; and the timeline with the modification committed refines the
log. -/
structure BatchInv (tl : Timeline) (m : DatadirModification) (c : Clog) : Prop where
  timeline : tl.Bounded
  pending : m.Bounded
  lsn_le : tl.lastRecordLsn ≤ m.lsn
  lsns : ∀ l ∈ m.pendingLsns, l ≤ m.lsn ∧ Lsn.isAligned l
  aligned : Lsn.isAligned m.lsn
  refines : Refines (m.view tl) c

section Run

variable {m : DatadirModification} {tl : Timeline} {c : Clog}

/-- A move to the modification's own LSN changes nothing. -/
theorem setLsn_self : m.setLsn m.lsn = .ok m := by
  rw [setLsn, if_pos (UInt64.le_refl _), if_neg (UInt64.lt_irrefl _)]

/-- A move of the modification to a later LSN records the LSN it leaves. -/
theorem setLsn_of_lt {lsn : UInt64} (h : m.lsn < lsn) :
    m.setLsn lsn = .ok { m with pendingLsns := m.pendingLsns ++ [m.lsn], lsn := lsn } := by
  rw [setLsn, if_pos (UInt64.le_of_lt h), if_pos h]

/-- A modification with nothing pending reads as the timeline. -/
theorem view_begin (lsn : UInt64) (tl : Timeline) :
    (DatadirModification.begin lsn).view tl = { tl with lastRecordLsn := lsn } := by
  simp [DatadirModification.begin, view]

theorem BatchInv.bounded_view (hinv : BatchInv tl m c) : (m.view tl).Bounded :=
  ⟨(hinv.timeline.dir.mono hinv.lsn_le).append hinv.pending.dir,
    fun s => ((hinv.timeline.sizes s).mono hinv.lsn_le).append (hinv.pending.sizes s),
    fun s b => ((hinv.timeline.pages s b).mono hinv.lsn_le).append (hinv.pending.pages s b)⟩

/-- A modification begun at an aligned LSN at or after the last record LSN of a timeline that
refines the log. -/
theorem BatchInv.begin (htl : tl.Bounded) (hr : Refines tl c) {lsn : UInt64}
    (hle : tl.lastRecordLsn ≤ lsn) (hal : Lsn.isAligned lsn) :
    BatchInv tl (DatadirModification.begin lsn) c := by
  refine ⟨htl, ⟨by simp [Below, DatadirModification.begin],
    by simp [Below, DatadirModification.begin], by simp [Below, DatadirModification.begin]⟩, hle,
    by simp [DatadirModification.begin], hal, ?_⟩
  rw [view_begin]
  exact ⟨hr.dir, hr.size, hr.page⟩

/-- A commit writes the modification's view, and the invariant holds again with nothing
pending. -/
theorem BatchInv.commit (hinv : BatchInv tl m c) :
    m.commit tl = .ok (m.view tl, DatadirModification.begin m.lsn) ∧
      BatchInv (m.view tl) (DatadirModification.begin m.lsn) c :=
  ⟨commit_eq hinv.lsns hinv.aligned hinv.lsn_le,
    BatchInv.begin hinv.bounded_view hinv.refines (UInt64.le_refl _) hinv.aligned⟩

/-- One record at an LSN after the modification's: `ingest_record` succeeds, moves the
checkpoint as its prologue says, and keeps the invariant with the log changed as PostgreSQL's
redo of the record changes it. -/
theorem ingestRecord_refines (hinv : BatchInv tl m c) {lsn : UInt64} (hlt : m.lsn < lsn)
    (hal : Lsn.isAligned lsn) (checkpoint : CheckPoint) (xlXid : UInt32) {rec : ClogWalRecord}
    (hrec : rec.PagesDistinct) :
    ∃ m', ingestRecord checkpoint tl m lsn xlXid rec =
        .ok (.ok (advanceNextXid checkpoint xlXid, m')) ∧
      m'.lsn = lsn ∧ BatchInv tl m' (rec.redo (advanceNextXid checkpoint xlXid) c) := by
  have hle : m.lsn ≤ lsn := UInt64.le_of_lt hlt
  -- the modification moved to the record's LSN, and recorded the one it left
  let m1 : DatadirModification := { m with pendingLsns := m.pendingLsns ++ [m.lsn], lsn := lsn }
  have hr1 : Refines (m1.view tl) c :=
    ⟨hinv.refines.dir, hinv.refines.size, hinv.refines.page⟩
  have hlsns1 : ∀ l ∈ m1.pendingLsns, l ≤ m1.lsn ∧ Lsn.isAligned l := by
    intro l hl
    rcases List.mem_append.1 hl with hl | hl
    · exact ⟨UInt64.le_trans (hinv.lsns l hl).1 hle, (hinv.lsns l hl).2⟩
    · rw [List.mem_singleton.1 hl]
      exact ⟨hle, hinv.aligned⟩
  have hm1 : m1.Bounded := ⟨hinv.pending.dir.mono hle, fun s => (hinv.pending.sizes s).mono hle,
    fun s b => (hinv.pending.pages s b).mono hle⟩
  have hlsn1 : m1.lsn ≠ 0 := fun h0 => by
    have hzero : lsn = 0 := h0
    exact UInt64.not_le.mpr hlt (hzero ▸ UInt64.zero_le)
  have hle1 : tl.lastRecordLsn ≤ m1.lsn := UInt64.le_trans hinv.lsn_le hle
  -- the record's puts move neither the modification nor the LSNs it moved on from
  have hinv' : ∀ {m' : DatadirModification} {c' : Clog},
      m'.lsn = m1.lsn ∧ m'.pendingLsns = m1.pendingLsns → m'.Bounded →
        Refines (m'.view tl) c' → BatchInv tl m' c' := by
    rintro m' c' ⟨hl, hp⟩ hm' hr'
    refine ⟨hinv.timeline, hm', hl ▸ hle1, ?_, hl ▸ hal, hr'⟩
    rw [hp, hl]
    exact hlsns1
  have hkeep : PutsKeep fun m' => m'.lsn = m1.lsn ∧ m'.pendingLsns = m1.pendingLsns :=
    PutsKeep.of_lsns fun l ps => l = m1.lsn ∧ ps = m1.pendingLsns
  cases rec with
  | zeroPage pageno =>
    obtain ⟨m', hz, hlsn', hm', hr'⟩ :=
      ingestClogZeroPage_refines hinv.timeline hlsn1 hm1 hr1 pageno
    exact ⟨m', by simp [ingestRecord, setLsn_of_lt hlt, m1, hz], hlsn',
      hinv' (hkeep.ingestClogZeroPage ⟨rfl, rfl⟩ hz) hm' hr'⟩
  | truncate xlrec =>
    obtain ⟨m', ht, hlsn', hm', hr'⟩ := ingestClogTruncateRecord_refines hinv.timeline hlsn1 hm1
      hr1 (advanceNextXid checkpoint xlXid) xlrec
    exact ⟨m', by simp [ingestRecord, setLsn_of_lt hlt, m1, ht], hlsn',
      hinv' (hkeep.ingestClogTruncateRecord ⟨rfl, rfl⟩ ht) hm' hr'⟩
  | xact parsed isCommit =>
    have hlt1 : ∀ segno blknum, ∀ v ∈ m1.pendingPages segno blknum, v.1 < m1.lsn :=
      fun s b v hv => UInt64.lt_of_le_of_lt (hinv.pending.pages s b v hv) hlt
    have hx := hkeep.ingestXactClog ⟨rfl, rfl⟩ parsed isCommit
    exact ⟨m1.ingestXactClog parsed isCommit, by simp [ingestRecord, setLsn_of_lt hlt, m1],
      hx.1, hinv' hx (PutsKeep.bounded.ingestXactClog hm1 parsed isCommit)
        (ingestXactClog_refines hr1 hlt1 parsed isCommit hrec)⟩

/-- The loop from any point of a batch: it does not fail, its checkpoint is that of the replay,
and the timeline it leaves refines the replayed log. -/
theorem walReceiverLoop_run (ingestBatchSize : ℕ) :
    ∀ (records : List (UInt64 × UInt32 × ClogWalRecord)) (checkpoint : CheckPoint)
      {tl : Timeline} {m : DatadirModification} {c : Clog} (uncommitted : ℕ),
      BatchInv tl m c → (uncommitted = 0 → Refines tl c) →
      List.Pairwise (· < ·) (m.lsn :: records.map Prod.fst) →
      (∀ r ∈ records, Lsn.isAligned r.1) → (∀ r ∈ records, r.2.2.PagesDistinct) →
      ∃ tl', walReceiverLoop ingestBatchSize checkpoint tl m uncommitted records =
          .ok (.ok ((replay checkpoint c records).1, tl')) ∧
        tl'.Bounded ∧ Refines tl' (replay checkpoint c records).2
  | [], checkpoint, tl, m, c, uncommitted, hinv, hclean, _, _, _ => by
    by_cases hu : uncommitted > 0
    · exact ⟨m.view tl, by simp [walReceiverLoop, replay, hu, hinv.commit.1], hinv.bounded_view,
        hinv.refines⟩
    · exact ⟨tl, by simp [walReceiverLoop, replay, hu], hinv.timeline, hclean (by omega)⟩
  | (lsn, xlXid, rec) :: rest, checkpoint, tl, m, c, uncommitted, hinv, hclean, hlsns, haligned,
      hpages => by
    rw [List.map_cons, List.pairwise_cons] at hlsns
    obtain ⟨hfirst, hrest⟩ := hlsns
    have hal : Lsn.isAligned lsn := haligned _ List.mem_cons_self
    obtain ⟨m1, hing, hlsn1, hinv1⟩ := ingestRecord_refines hinv (hfirst lsn List.mem_cons_self)
      hal checkpoint xlXid (hpages _ List.mem_cons_self)
    rw [← hlsn1] at hrest
    have haligned' : ∀ r ∈ rest, Lsn.isAligned r.1 := fun r hr =>
      haligned r (List.mem_cons_of_mem _ hr)
    have hpages' : ∀ r ∈ rest, r.2.2.PagesDistinct := fun r hr =>
      hpages r (List.mem_cons_of_mem _ hr)
    rw [walReceiverLoop, if_neg (by simp [hal]), hing]
    simp only [replay]
    split
    · -- the batch is full: it is committed and a new one begins
      rw [hinv1.commit.1]
      exact walReceiverLoop_run ingestBatchSize rest _ 0 hinv1.commit.2
        (fun _ => hinv1.refines) hrest haligned' hpages'
    · exact walReceiverLoop_run ingestBatchSize rest _ (uncommitted + 1) hinv1
        (fun h => absurd h (Nat.succ_ne_zero _)) hrest haligned' hpages'

end Run

/-! ## What reads and truncations see -/

section Safety

variable {m : DatadirModification} {tl : Timeline} {c : Clog}

/-- A `CLOG_TRUNCATE` record never removes the segment of the latest page, that of the
checkpoint's `nextXid`, from the directory: a segment whose first and last pages precede the
cutoff has every page between them preceding it. -/
theorem ingestClogTruncateRecord_keeps_latest (htl : tl.Bounded) (hlsn : m.lsn ≠ 0)
    (hm : m.Bounded) (hr : Refines (m.view tl) c) (checkpoint : CheckPoint)
    (xlrec : XlClogTruncate)
    (hlatest : transactionIdToPage checkpoint.nextXid.value.toUInt32 / slruPagesPerSegment ∈ c.segments)
    (hcut : xlrec.pageno.toNat < 131072) :
    ∃ m' segments, m.ingestClogTruncateRecord tl checkpoint xlrec = .ok (.ok m') ∧
      (m'.view tl).latestDir = some segments ∧
      transactionIdToPage checkpoint.nextXid.value.toUInt32 / slruPagesPerSegment ∈ segments := by
  obtain ⟨m', hing, -, -, hr'⟩ := ingestClogTruncateRecord_refines htl hlsn hm hr checkpoint xlrec
  obtain ⟨segments, hdir, -, hmem⟩ := hr'.dir
  refine ⟨m', segments, hing, hdir, (hmem _).mpr ?_⟩
  exact Clog.mem_truncate_of_convex (fun hfirst hlast => Clog.clogpagePrecedes_convex
    (toNat_transactionIdToPage_lt _) hcut hfirst hlast) hlatest

theorem ingestClogTruncateRecord_keeps_latest_second_segment :
    ∃ m' segments, (DatadirModification.begin 2).ingestClogTruncateRecord
        ⟨[(1, [0, 1])], fun _ => [(1, 32)], fun _ _ => [(1, .image zeroPage)], 1⟩
        ⟨⟨1048582⟩, 1, 0⟩ ⟨32, 3, 1⟩ = .ok (.ok m') ∧
      (m'.view ⟨[(1, [0, 1])], fun _ => [(1, 32)], fun _ _ => [(1, .image zeroPage)], 1⟩).latestDir =
        some segments ∧
      transactionIdToPage (⟨⟨1048582⟩, 1, 0⟩ : CheckPoint).nextXid.value.toUInt32 /
        slruPagesPerSegment ∈ segments :=
  ingestClogTruncateRecord_keeps_latest
    (c := ⟨{0, 1}, fun _ => 32, fun _ => 0, fun _ => le_refl 32⟩)
    ⟨by simp [Below], fun _ => by simp [Below], fun _ _ => by simp [Below]⟩ (by decide)
    ⟨by simp [Below, DatadirModification.begin], by simp [Below, DatadirModification.begin],
      by simp [Below, DatadirModification.begin]⟩
    (by
      rw [view_begin]
      exact ⟨⟨[0, 1], rfl, by decide, by simp⟩, fun s hs => ⟨32, by simp [Timeline.latestSize], rfl⟩,
        fun s hs b hb => pageHolds_append_zeroPage [] 1 fun _ _ => rfl⟩)
    _ _ (by decide) (by decide)

end Safety

end Slru

end NeonStorage

import NeonStorage.Pageserver.Clog
import NeonStorage.Lib.Versions
import NeonStorage.Utils.Lsn

/-!
# The CLOG segments of a timeline

The pageserver keeps PostgreSQL's CLOG as versioned values of the timeline
(`pageserver/src/pgdatadir_mapping.rs`): a directory key whose image is the set of segments
(`SlruSegmentDirectory`), a size key for each segment holding its number of pages as a `u32`,
and a key for each page, whose versions are page images and the CLOG records of
`Xact.ClogRecord` to apply on them.  Ingestion changes them through a `DatadirModification`,
which collects the new versions at its LSN and writes them to the timeline on `commit`; a second
put of a key at the same LSN replaces the first (`Versions.putVersion`).

A read of a page at an LSN (`Timeline::get`) scans the versions at or below it newest first,
keeping the records until it finds an image (`get_value_reconstruct_data`), and has WAL redo
apply the records, oldest first, on the image (`reconstruct_value`, `request_redo`,
`apply_batch_neon`).  A read of the directory or of a size, keys that only ever hold images,
returns the last image.  Deletions of key ranges are recorded and have no effect on reads, as
in `PgDatadirMapping`.  The materialized page cache in front of reads is not modelled.

The keys are kept by class: the directory, the sizes by segment, the pages by segment and
block.  The key functions give distinct keys to the three classes except that the size key of
a segment is also the key of its block `u32::MAX`; CLOG pages are blocks `0` to `31`, so the
split loses nothing.

A read of a page whose versions end in an image returns it (`readPage_append_image`); one whose
versions end in a record returns what redo makes of the page before it
(`readPage_append_walRecord`).  A modification reads through its pending versions, and what a
read through it sees is what the timeline holds after `commit` (`DatadirModification.view`,
`commit_eq`).  A commit runs `finish_write` for every LSN the modification moved on from, and
its own, and that asserts each one is aligned: a commit of aligned LSNs at or below the
modification's writes its view (`commit_eq`), and every commit that succeeds does
(`commit_eq_ok`).
-/

namespace NeonStorage

namespace Slru

open PostgresFfi Versions Xact Text

/-- `slru_dir_to_key(SlruKind::Clog)`. -/
def clogDirKey : Key := ⟨0x01, 0x00, 0, 0, 0, 0⟩

/-- `slru_segment_size_to_key(SlruKind::Clog, segno)`. -/
def clogSegmentSizeKey (segno : UInt32) : Key := ⟨0x01, 0x00, 1, segno, 0, 0xffffffff⟩

/-- `slru_segment_key_range(SlruKind::Clog, segno)`. -/
def clogSegmentKeyRange (segno : UInt32) : Key × Key :=
  (⟨0x01, 0x00, 1, segno, 0, 0⟩, ⟨0x01, 0x00, 1, segno, 1, 0⟩)

/-- The value of a CLOG page key: an image, or a record to apply on the page before it. -/
inductive PageValue
  | image (img : List UInt8)
  | walRecord (rec : ClogRecord)
deriving DecidableEq, Repr

/-- The CLOG part of a timeline: the committed versions of its keys, by class, oldest first, and
its last record LSN.  The directory is kept as the segments of its `HashSet`, in the order they
were added. -/
structure Timeline where
  dir : List (UInt64 × List UInt32)
  sizes : UInt32 → List (UInt64 × UInt32)
  pages : UInt32 → UInt32 → List (UInt64 × PageValue)
  lastRecordLsn : UInt64

/-! ## Reading a page -/

/-- The scan of `get_value_reconstruct_data` over the versions of a page, newest first: a record
is kept and the scan goes on, unless the record initializes the page; an image ends it. -/
def collect : List (UInt64 × PageValue) → Option (UInt64 × List UInt8) × List (UInt64 × ClogRecord)
  | [] => (none, [])
  | (lsn, .image img) :: _ => (some (lsn, img), [])
  | (lsn, .walRecord rec) :: rest =>
    if rec.willInit then (none, [(lsn, rec)])
    else
      let (img, records) := collect rest
      (img, (lsn, rec) :: records)

/-- The loop of `apply_batch_neon`: each record applied by `apply_in_neon` in turn. -/
def applyRecords (key : Key) :
    List (UInt64 × ClogRecord) → List UInt8 → Except Panic (Except String (List UInt8))
  | [], page => .ok (.ok page)
  | (_, rec) :: rest, page => do
    match ← Xact.applyInNeon key rec page with
    | .ok page => applyRecords key rest page
    | .error e => pure (.error e)

/-- `PostgresRedoManager::apply_batch_neon`. -/
def applyBatchNeon (key : Key) (baseImg : Option (List UInt8))
    (records : List (UInt64 × ClogRecord)) : Except Panic (Except String (List UInt8)) :=
  match baseImg with
  | some page => applyRecords key records page
  | none => .ok (.error "invalid neon WAL redo request with no base image")

/-- `PostgresRedoManager::request_redo`.  Neon applies every CLOG record itself, so the records
make one batch. -/
def requestRedo (key : Key) (baseImg : Option (UInt64 × List UInt8))
    (records : List (UInt64 × ClogRecord)) : Except Panic (Except String (List UInt8)) :=
  if records.isEmpty then .ok (.error "invalid WAL redo request with no records")
  else applyBatchNeon key (baseImg.map Prod.snd) records

/-- `Timeline::reconstruct_value`, given what the scan collected, newest record first. -/
def reconstructValue (key : Key) (requestLsn : UInt64) (img : Option (UInt64 × List UInt8))
    (records : List (UInt64 × ClogRecord)) : Except Panic (Except String (List UInt8)) :=
  match records.reverse with
  | [] =>
    match img with
    | some (_, img) => .ok (.ok img)
    | none => .ok (.error ("base image for " ++ String.ofList key.display ++ " at " ++
        String.ofList (Lsn.display requestLsn) ++ " not found"))
  | first :: rest =>
    if img.isNone && !first.2.willInit then
      .ok (.error ("Base image for " ++ String.ofList key.display ++ " at " ++
        String.ofList (Lsn.display requestLsn) ++ " not found, but got " ++
        toString (first :: rest).length ++ " WAL records"))
    else requestRedo key img (first :: rest)

/-- The page that the versions `vs` of its key make, oldest first, for a request at
`requestLsn`. -/
def readPage (key : Key) (requestLsn : UInt64) (vs : List (UInt64 × PageValue)) :
    Except Panic (Except String (List UInt8)) :=
  let (img, records) := collect vs.reverse
  reconstructValue key requestLsn img records

/-- `Timeline::get` for a key that only ever holds images: its last image at or below the
LSN. -/
def getImage {α : Type} (key : Key) (vs : List (UInt64 × α)) (lsn : UInt64) : Except String α :=
  if lsn = 0 then .error "Invalid LSN"
  else
    match lastAt vs lsn with
    | some v => .ok v
    | none => .error ("could not find data for key " ++ String.ofList key.display)

namespace Timeline

/-- `Timeline::get` for a CLOG page, `get_slru_page_at_lsn`. -/
def getSlruPageAtLsn (tl : Timeline) (segno blknum : UInt32) (lsn : UInt64) :
    Except Panic (Except String (List UInt8)) :=
  if lsn = 0 then .ok (.error "Invalid LSN")
  else readPage (Multixact.slruBlockToKey .clog segno blknum) lsn (upTo (tl.pages segno blknum) lsn)

/-- `Timeline::finish_write`: the LSN must be aligned, and `last_record_lsn` advances to it
unless it is there or past already (`SeqWait::advance`). -/
def finishWrite (tl : Timeline) (newLsn : UInt64) : Except Panic Timeline :=
  if !Lsn.isAligned newLsn then .error ⟨"assertion failed: new_lsn.is_aligned()"⟩
  else if tl.lastRecordLsn ≥ newLsn then .ok tl
  else .ok { tl with lastRecordLsn := newLsn }

section FinishWrite

variable {tl tl' : Timeline}

theorem finishWrite_of_aligned {newLsn : UInt64} (h : Lsn.isAligned newLsn) :
    tl.finishWrite newLsn = .ok
      { tl with
        lastRecordLsn := if tl.lastRecordLsn ≥ newLsn then tl.lastRecordLsn else newLsn } := by
  unfold finishWrite
  rw [if_neg (by simp [h])]
  split <;> rfl

/-- A `finish_write` that succeeds moves only `last_record_lsn`, forward, and at least to the
LSN written. -/
theorem finishWrite_eq_ok {newLsn : UInt64} (h : tl.finishWrite newLsn = .ok tl') :
    tl' = { tl with lastRecordLsn := tl'.lastRecordLsn } ∧
      tl.lastRecordLsn ≤ tl'.lastRecordLsn ∧ newLsn ≤ tl'.lastRecordLsn := by
  unfold finishWrite at h
  split at h
  · cases h
  · split at h
    · cases h
      exact ⟨rfl, UInt64.le_refl _, ‹_›⟩
    · cases h
      exact ⟨rfl, UInt64.le_of_lt (UInt64.not_le.mp ‹_›), UInt64.le_refl _⟩

/-- `finish_write` of each LSN of a list, when all succeed, moves only `last_record_lsn`, forward,
and at least to every LSN written. -/
theorem foldlM_finishWrite_eq_ok :
    ∀ {lsns : List UInt64} {tl tl' : Timeline}, lsns.foldlM finishWrite tl = .ok tl' →
      tl' = { tl with lastRecordLsn := tl'.lastRecordLsn } ∧
        tl.lastRecordLsn ≤ tl'.lastRecordLsn ∧ ∀ l ∈ lsns, l ≤ tl'.lastRecordLsn
  | [], tl, tl', h => by
    cases h
    exact ⟨rfl, UInt64.le_refl _, by simp⟩
  | l :: rest, tl, tl', h => by
    rw [List.foldlM_cons] at h
    obtain ⟨tl1, h1, hrest⟩ := Except.exists_of_bind_eq_ok h
    obtain ⟨heq1, hle1, hl1⟩ := finishWrite_eq_ok h1
    obtain ⟨heq, hle, hall⟩ := foldlM_finishWrite_eq_ok hrest
    refine ⟨?_, UInt64.le_trans hle1 hle, ?_⟩
    · conv_lhs => rw [heq, heq1]
    · rintro l' (_ | ⟨_, hl'⟩)
      · exact UInt64.le_trans hl1 hle
      · exact hall l' hl'

/-- `finish_write` of aligned LSNs at or below `top`, and then of `top`, from a timeline at or
below `top`, leaves it at `top`. -/
theorem foldlM_finishWrite_of_le {top : UInt64} (htop : Lsn.isAligned top) :
    ∀ {lsns : List UInt64} {tl : Timeline}, (∀ l ∈ lsns, l ≤ top ∧ Lsn.isAligned l) →
      tl.lastRecordLsn ≤ top →
      (lsns ++ [top]).foldlM finishWrite tl = .ok { tl with lastRecordLsn := top }
  | [], tl, _, hle => by
    rw [List.nil_append, List.foldlM_cons, finishWrite_of_aligned htop]
    by_cases hge : tl.lastRecordLsn ≥ top
    · rw [if_pos hge, UInt64.le_antisymm hle hge]
      rfl
    · rw [if_neg hge]
      rfl
  | l :: rest, tl, hlsns, hle => by
    obtain ⟨hl, hal⟩ := hlsns l List.mem_cons_self
    rw [List.cons_append, List.foldlM_cons, finishWrite_of_aligned hal]
    -- whichever way the write went, the timeline stays at or below `top`
    have hle' : (if tl.lastRecordLsn ≥ l then tl.lastRecordLsn else l) ≤ top := by
      split <;> assumption
    exact foldlM_finishWrite_of_le htop (fun l' hl' => hlsns l' (List.mem_cons_of_mem _ hl')) hle'

end FinishWrite

end Timeline

/-! ## The modification -/

/-- A `DatadirModification` at one LSN: the earlier LSNs it moved on from, its pending versions of
the CLOG keys, by class, and its pending deletions. -/
structure DatadirModification where
  lsn : UInt64
  pendingLsns : List UInt64
  pendingDir : List (UInt64 × List UInt32)
  pendingSizes : UInt32 → List (UInt64 × UInt32)
  pendingPages : UInt32 → UInt32 → List (UInt64 × PageValue)
  pendingDeletions : List ((Key × Key) × UInt64)

namespace DatadirModification

/-- `Timeline::begin_modification`. -/
def begin (lsn : UInt64) : DatadirModification := ⟨lsn, [], [], fun _ => [], fun _ _ => [], []⟩

/-- `DatadirModification::set_lsn`: a move forward records the LSN it leaves. -/
def setLsn (m : DatadirModification) (lsn : UInt64) : Except String DatadirModification :=
  if lsn ≥ m.lsn then
    .ok (if lsn > m.lsn then { m with pendingLsns := m.pendingLsns ++ [m.lsn], lsn := lsn } else m)
  else .error ("setting an older lsn " ++ String.ofList (Lsn.display lsn) ++ " than " ++
    String.ofList (Lsn.display m.lsn) ++ " is not allowed")

/-- `DatadirModification::put` of the directory key. -/
def putDir (m : DatadirModification) (segments : List UInt32) : DatadirModification :=
  { m with pendingDir := putVersion m.pendingDir m.lsn segments }

/-- `DatadirModification::put` of the size key of a segment. -/
def putSize (m : DatadirModification) (segno nblocks : UInt32) : DatadirModification :=
  { m with
    pendingSizes :=
      Function.update m.pendingSizes segno (putVersion (m.pendingSizes segno) m.lsn nblocks) }

/-- `DatadirModification::put` of the key of a page. -/
def putPage (m : DatadirModification) (segno blknum : UInt32) (v : PageValue) :
    DatadirModification :=
  { m with pendingPages := fun s b =>
      if s = segno ∧ b = blknum then putVersion (m.pendingPages s b) m.lsn v
      else m.pendingPages s b }

/-- `DatadirModification::delete`. -/
def delete (m : DatadirModification) (keyRange : Key × Key) : DatadirModification :=
  { m with pendingDeletions := m.pendingDeletions ++ [(keyRange, m.lsn)] }

/-- `DatadirModification::get` of the directory key: its last pending value, or the timeline's at
the later of its last record LSN and the modification's LSN. -/
def getDir (m : DatadirModification) (tl : Timeline) : Except String (List UInt32) :=
  match m.pendingDir.getLast? with
  | some (_, segments) => .ok segments
  | none => getImage clogDirKey tl.dir (max tl.lastRecordLsn m.lsn)

/-- `DatadirModification::get` of the size key of a segment. -/
def getSize (m : DatadirModification) (tl : Timeline) (segno : UInt32) : Except String UInt32 :=
  match (m.pendingSizes segno).getLast? with
  | some (_, nblocks) => .ok nblocks
  | none => getImage (clogSegmentSizeKey segno) (tl.sizes segno) (max tl.lastRecordLsn m.lsn)

/-- What the timeline holds once the modification is committed. -/
def view (m : DatadirModification) (tl : Timeline) : Timeline where
  dir := tl.dir ++ m.pendingDir
  sizes segno := tl.sizes segno ++ m.pendingSizes segno
  pages segno blknum := tl.pages segno blknum ++ m.pendingPages segno blknum
  lastRecordLsn := m.lsn

/-- `DatadirModification::commit`: the pending versions become versions of the timeline, and
`finish_write` runs for each LSN the modification moved on from and then for its own;
deletions leave the stored versions as they are. -/
def commit (m : DatadirModification) (tl : Timeline) :
    Except Panic (Timeline × DatadirModification) := do
  let written := { m.view tl with lastRecordLsn := tl.lastRecordLsn }
  let tl ← (m.pendingLsns ++ [m.lsn]).foldlM Timeline.finishWrite written
  pure (tl,
    { m with
      pendingLsns := []
      pendingDir := []
      pendingSizes := fun _ => []
      pendingPages := fun _ _ => []
      pendingDeletions := [] })

@[simp] theorem lsn_putDir (m : DatadirModification) (segments : List UInt32) :
    (m.putDir segments).lsn = m.lsn := rfl

@[simp] theorem lsn_putSize (m : DatadirModification) (segno nblocks : UInt32) :
    (m.putSize segno nblocks).lsn = m.lsn := rfl

@[simp] theorem lsn_putPage (m : DatadirModification) (segno blknum : UInt32) (v : PageValue) :
    (m.putPage segno blknum v).lsn = m.lsn := rfl

@[simp] theorem lsn_delete (m : DatadirModification) (keyRange : Key × Key) :
    (m.delete keyRange).lsn = m.lsn := rfl

@[simp] theorem view_delete (m : DatadirModification) (tl : Timeline) (keyRange : Key × Key) :
    (m.delete keyRange).view tl = m.view tl := rfl

@[simp] theorem view_putDir_dir (m : DatadirModification) (tl : Timeline) (segments : List UInt32) :
    ((m.putDir segments).view tl).dir = tl.dir ++ putVersion m.pendingDir m.lsn segments := rfl

@[simp] theorem view_putDir_sizes (m : DatadirModification) (tl : Timeline)
    (segments : List UInt32) : ((m.putDir segments).view tl).sizes = (m.view tl).sizes := rfl

@[simp] theorem view_putDir_pages (m : DatadirModification) (tl : Timeline)
    (segments : List UInt32) : ((m.putDir segments).view tl).pages = (m.view tl).pages := rfl

@[simp] theorem view_putSize_dir (m : DatadirModification) (tl : Timeline) (segno nblocks : UInt32) :
    ((m.putSize segno nblocks).view tl).dir = (m.view tl).dir := rfl

theorem view_putSize_sizes (m : DatadirModification) (tl : Timeline) (segno nblocks s : UInt32) :
    ((m.putSize segno nblocks).view tl).sizes s =
      if s = segno then tl.sizes s ++ putVersion (m.pendingSizes s) m.lsn nblocks
      else (m.view tl).sizes s := by
  by_cases h : s = segno
  · subst h
    simp [view, putSize]
  · simp [view, putSize, h]

@[simp] theorem view_putSize_pages (m : DatadirModification) (tl : Timeline)
    (segno nblocks : UInt32) : ((m.putSize segno nblocks).view tl).pages = (m.view tl).pages := rfl

@[simp] theorem view_putPage_dir (m : DatadirModification) (tl : Timeline) (segno blknum : UInt32)
    (v : PageValue) : ((m.putPage segno blknum v).view tl).dir = (m.view tl).dir := rfl

@[simp] theorem view_putPage_sizes (m : DatadirModification) (tl : Timeline)
    (segno blknum : UInt32) (v : PageValue) :
    ((m.putPage segno blknum v).view tl).sizes = (m.view tl).sizes := rfl

theorem view_putPage_pages (m : DatadirModification) (tl : Timeline) (segno blknum : UInt32)
    (v : PageValue) (s b : UInt32) :
    ((m.putPage segno blknum v).view tl).pages s b =
      if s = segno ∧ b = blknum then tl.pages s b ++ putVersion (m.pendingPages s b) m.lsn v
      else (m.view tl).pages s b := by
  by_cases h : s = segno ∧ b = blknum
  · simp only [view, putPage, if_pos h]
  · simp only [view, putPage, if_neg h]

@[simp] theorem view_lastRecordLsn (m : DatadirModification) (tl : Timeline) :
    (m.view tl).lastRecordLsn = m.lsn := rfl

/-- A property that every put of a page keeps holds after a fold whose every step puts a page,
as the loops that fill skipped pages and that put a commit's records do. -/
theorem foldl_putPage {α : Type} {Q : DatadirModification → Prop}
    (hQ : ∀ m segno blknum v, Q m → Q (m.putPage segno blknum v))
    {f : DatadirModification → α → DatadirModification}
    (hf : ∀ m a, ∃ segno blknum v, f m a = m.putPage segno blknum v) (xs : List α)
    {m : DatadirModification} (hm : Q m) : Q (xs.foldl f m) :=
  List.foldlRecOn xs f hm fun m' hm' a _ => by
    obtain ⟨segno, blknum, v, hfa⟩ := hf m' a
    rw [hfa]
    exact hQ m' segno blknum v hm'

/-- Such a fold changes only the pending pages. -/
theorem exists_foldl_putPage {α : Type} {f : DatadirModification → α → DatadirModification}
    (hf : ∀ m a, ∃ segno blknum v, f m a = m.putPage segno blknum v) (xs : List α)
    (m : DatadirModification) : ∃ pages, xs.foldl f m = { m with pendingPages := pages } :=
  foldl_putPage (Q := fun m' => ∃ pages, m' = { m with pendingPages := pages })
    (fun m' segno blknum v ⟨_, h⟩ => ⟨(m'.putPage segno blknum v).pendingPages, by rw [h]; rfl⟩)
    hf xs ⟨m.pendingPages, rfl⟩

section Commit

variable {m m' : DatadirModification} {tl tl' : Timeline}

/-- A commit of aligned LSNs at or below the modification's, on a timeline at or below it,
writes the modification's view and leaves nothing pending. -/
theorem commit_eq (hlsns : ∀ l ∈ m.pendingLsns, l ≤ m.lsn ∧ Lsn.isAligned l)
    (hal : Lsn.isAligned m.lsn) (hle : tl.lastRecordLsn ≤ m.lsn) :
    m.commit tl = .ok (m.view tl, begin m.lsn) := by
  -- the pending versions are written first, with `last_record_lsn` as it was
  have hfold := Timeline.foldlM_finishWrite_of_le hal hlsns
    (show ({ m.view tl with lastRecordLsn := tl.lastRecordLsn } : Timeline).lastRecordLsn ≤ m.lsn
      from hle)
  unfold commit
  dsimp only
  rw [hfold]
  rfl

/-- Every commit that succeeds writes the modification's view, with `last_record_lsn` at the
modification's LSN or past it, and leaves nothing pending. -/
theorem commit_eq_ok (h : m.commit tl = .ok (tl', m')) :
    tl' = { m.view tl with lastRecordLsn := tl'.lastRecordLsn } ∧ m.lsn ≤ tl'.lastRecordLsn ∧
      m' = begin m.lsn := by
  unfold commit at h
  obtain ⟨tl1, hfold, hpure⟩ := Except.exists_of_bind_eq_ok h
  cases hpure
  obtain ⟨heq, -, hall⟩ := Timeline.foldlM_finishWrite_eq_ok hfold
  exact ⟨heq, hall m.lsn (by simp), rfl⟩

/-- After a commit, the cleared modification reads as the modification did before. -/
theorem view_commit (h : m.commit tl = .ok (tl', m')) : m'.view tl' = m.view tl := by
  obtain ⟨htl', -, rfl⟩ := commit_eq_ok h
  rw [htl']
  simp [view, begin]

end Commit

end DatadirModification

/-! ## The SLRU functions of `pgdatadir_mapping.rs` -/

/-- `Version`: a read at an LSN of the timeline, or through a pending modification. -/
inductive Version
  | lsn (lsn : UInt64)
  | modified (m : DatadirModification)

/-- `Timeline::list_slru_segments` for the CLOG. -/
def listSlruSegments (tl : Timeline) (version : Version) : Except String (List UInt32) :=
  match version with
  | .lsn l => getImage clogDirKey tl.dir l
  | .modified m => m.getDir tl

/-- `Timeline::get_slru_segment_exists` for the CLOG. -/
def getSlruSegmentExists (tl : Timeline) (segno : UInt32) (version : Version) :
    Except String Bool :=
  (fun segments => decide (segno ∈ segments)) <$> listSlruSegments tl version

/-- `Timeline::get_slru_segment_size` for the CLOG. -/
def getSlruSegmentSize (tl : Timeline) (segno : UInt32) (version : Version) :
    Except String UInt32 :=
  match version with
  | .lsn l => getImage (clogSegmentSizeKey segno) (tl.sizes segno) l
  | .modified m => m.getSize tl segno

namespace DatadirModification

/-- `DatadirModification::put_slru_segment_creation` for the CLOG. -/
def putSlruSegmentCreation (m : DatadirModification) (tl : Timeline) (segno nblocks : UInt32) :
    Except String DatadirModification := do
  let segments ← m.getDir tl
  if segno ∈ segments then throw ("slru segment Clog/" ++ toString segno ++ " already exists")
  let m := m.putDir (segments ++ [segno])
  pure (m.putSize segno nblocks)

/-- `DatadirModification::put_slru_extend` for the CLOG. -/
def putSlruExtend (m : DatadirModification) (segno nblocks : UInt32) : DatadirModification :=
  m.putSize segno nblocks

/-- `DatadirModification::drop_slru_segment` for the CLOG; a segment that is not there only
gets a warning. -/
def dropSlruSegment (m : DatadirModification) (tl : Timeline) (segno : UInt32) :
    Except String DatadirModification := do
  let segments ← m.getDir tl
  let m := m.putDir (segments.erase segno)
  pure (m.delete (clogSegmentKeyRange segno))

/-- `DatadirModification::put_slru_wal_record` for the CLOG. -/
def putSlruWalRecord (m : DatadirModification) (segno blknum : UInt32) (rec : ClogRecord) :
    DatadirModification :=
  m.putPage segno blknum (.walRecord rec)

/-- `DatadirModification::put_slru_page_image` for the CLOG. -/
def putSlruPageImage (m : DatadirModification) (segno blknum : UInt32) (img : List UInt8) :
    DatadirModification :=
  m.putPage segno blknum (.image img)

end DatadirModification

/-! ## What a read returns -/

section Read

variable {key : Key} {requestLsn : UInt64}

/-- Records applied after others apply on what the others made. -/
theorem applyRecords_append (key : Key) (records rest : List (UInt64 × ClogRecord))
    {page page' : List UInt8} (h : applyRecords key records page = .ok (.ok page')) :
    applyRecords key (records ++ rest) page = applyRecords key rest page' := by
  induction records generalizing page with
  | nil => cases h; rfl
  | cons r rest ih =>
    obtain ⟨l, rec⟩ := r
    simp only [applyRecords, List.cons_append] at h ⊢
    cases happ : Xact.applyInNeon key rec page with
    | error p => rw [happ] at h; cases h
    | ok res =>
      rw [happ] at h
      cases res with
      | error e => cases h
      | ok p => exact ih h

/-- One record applied on a page is what `apply_in_neon` makes of it. -/
theorem applyRecords_singleton (key : Key) (l : UInt64) (rec : ClogRecord) (page : List UInt8) :
    applyRecords key [(l, rec)] page = Xact.applyInNeon key rec page := by
  simp only [applyRecords, bind, Except.bind]
  cases Xact.applyInNeon key rec page with
  | error p => rfl
  | ok res => cases res <;> rfl

/-- With a base image, reconstruction applies the records, oldest first, on it. -/
theorem reconstructValue_some (key : Key) (requestLsn : UInt64) (imgLsn : UInt64)
    (img : List UInt8) (records : List (UInt64 × ClogRecord)) :
    reconstructValue key requestLsn (some (imgLsn, img)) records =
      applyRecords key records.reverse img := by
  unfold reconstructValue
  split
  · next h => rw [h]; rfl
  · next first rest h =>
    simp only [Option.isNone_some, Bool.false_and, Bool.false_eq_true, ↓reduceIte, requestRedo,
      List.isEmpty_cons, applyBatchNeon, Option.map_some, h]

/-- Without a base image, reconstruction fails. -/
theorem reconstructValue_none (key : Key) (requestLsn : UInt64)
    (records : List (UInt64 × ClogRecord)) :
    ∃ e, reconstructValue key requestLsn none records = .ok (.error e) := by
  unfold reconstructValue
  split
  · exact ⟨_, rfl⟩
  · simp [ClogRecord.willInit]

/-- The scan never meets a record that initializes the page, so it collects the records after
the last image, if any. -/
theorem collect_walRecord (l : UInt64) (rec : ClogRecord) (vs : List (UInt64 × PageValue)) :
    collect ((l, .walRecord rec) :: vs) = ((collect vs).1, (l, rec) :: (collect vs).2) := by
  simp [collect, ClogRecord.willInit]

/-- A page whose last version is an image reads as that image. -/
theorem readPage_append_image (key : Key) (requestLsn : UInt64) (vs : List (UInt64 × PageValue))
    (l : UInt64) (img : List UInt8) :
    readPage key requestLsn (vs ++ [(l, .image img)]) = .ok (.ok img) := by
  simp [readPage, collect, reconstructValue]

/-- A page whose last version is a record reads as `apply_in_neon` of the record on the page
before it. -/
theorem readPage_append_walRecord {vs : List (UInt64 × PageValue)} {page : List UInt8}
    (h : readPage key requestLsn vs = .ok (.ok page)) (l : UInt64) (rec : ClogRecord) :
    readPage key requestLsn (vs ++ [(l, .walRecord rec)]) = Xact.applyInNeon key rec page := by
  unfold readPage at h ⊢
  rw [List.reverse_append, List.reverse_singleton, List.singleton_append, collect_walRecord]
  rcases hc : collect vs.reverse with ⟨img, records⟩
  rw [hc] at h
  dsimp only at h ⊢
  cases img with
  | none =>
    obtain ⟨e, he⟩ := reconstructValue_none key requestLsn records
    rw [he] at h
    cases h
  | some img =>
    obtain ⟨imgLsn, img⟩ := img
    rw [reconstructValue_some] at h ⊢
    rw [List.reverse_cons, applyRecords_append key _ _ h, applyRecords_singleton]

end Read

end Slru

end NeonStorage

import NeonStorage.PostgresFfi.Clog
import NeonStorage.Pageserver.Multixact

/-!
# Commit and abort records in the pageserver

WAL ingestion turns the commit or the abort of a transaction tree, a top transaction and its
committed subtransactions, into updates of the CLOG pages
(`WalIngest::ingest_xact_record`, `pageserver/src/walingest.rs`).  It walks the tree in the
order of the record, gathers the ids that fall on one page, and puts one `ClogSetCommitted` or
`ClogSetAborted` record for each run of ids on one page, under the key of that page.  WAL redo
applies such a record to the page of its key (`apply_in_neon`,
`pageserver/src/walredo/apply_neon.rs`): it asserts that each id lies on that page and sets its
two status bits.  A commit also keeps the commit timestamp in eight bytes after the page, big
endian, replacing the one an earlier commit left there.

The records of one commit or abort carry each id of the tree once, in order
(`flatMap_xids_xactClogRecords`), each under the key of its own page
(`OnKeyPages`, `onKeyPages_xactClogRecords`); consecutive records are for different pages.
Redo of such a record on a page of at least `BLCKSZ` bytes does not panic, and the page
afterwards holds the new status for the ids of the record and the old one for every other
transaction of the page (`applyInNeon_of_onKeyPage`, `statusAt_applyClogRecord`).

A tree whose ids come back to a page after leaving it gets two records for that page.  Both go
under one key at one LSN, and `DatadirModification::put` keeps only the second.  PostgreSQL
assigns a subtransaction its id after its parent's and keeps the children of a transaction in
the order they were assigned, so the ids of a tree increase and each page is one run
(`nodup_pages_xactClogRecords`).
-/

namespace NeonStorage

namespace Xact

open PostgresFfi Bytes Text

/-- `RelFileNode`. -/
structure RelFileNode where
  spcnode : UInt32
  dbnode : UInt32
  relnode : UInt32
deriving DecidableEq, Repr

/-- `XlXactParsedRecord`. -/
structure XlXactParsedRecord where
  xid : UInt32
  info : UInt8
  xactTime : Int64
  xinfo : UInt32
  dbId : UInt32
  tsId : UInt32
  subxacts : List UInt32
  xnodes : List RelFileNode
deriving DecidableEq, Repr

/-- The two variants of `NeonWalRecord` that commit and abort records emit. -/
inductive ClogRecord
  | clogSetCommitted (xids : List UInt32) (timestamp : Int64)
  | clogSetAborted (xids : List UInt32)
deriving DecidableEq, Repr

namespace ClogRecord

/-- The transactions whose status the record sets. -/
def xids : ClogRecord → List UInt32
  | .clogSetCommitted xids _ => xids
  | .clogSetAborted xids => xids

/-- The status the record sets. -/
def status : ClogRecord → UInt8
  | .clogSetCommitted _ _ => transactionStatusCommitted
  | .clogSetAborted _ => transactionStatusAborted

/-- `NeonWalRecord::will_init`: no record of Neon's own initializes its page. -/
def willInit (_ : ClogRecord) : Bool := false

end ClogRecord

/-! ## Ingestion -/

/-- The key of a CLOG page. -/
def clogPageKey (pageno : UInt32) : Key :=
  Multixact.slruBlockToKey .clog (pageno / slruPagesPerSegment) (pageno % slruPagesPerSegment)

/-- The record `ingest_xact_record` puts for the ids of one page. -/
def pageRecord (isCommit : Bool) (xactTime : Int64) (pageXids : List UInt32) : ClogRecord :=
  if isCommit then .clogSetCommitted pageXids xactTime else .clogSetAborted pageXids

/-- The CLOG loop of `ingest_xact_record` over the subtransactions left, with the page of the
ids gathered so far: a subtransaction on another page closes the record of that page.  Each
record goes with the page it is put on, segment `pageno / 32` and block `pageno % 32`. -/
def xactClogLoop (isCommit : Bool) (xactTime : Int64) :
    UInt32 → List UInt32 → List UInt32 → List (UInt32 × ClogRecord)
  | pageno, pageXids, [] => [(pageno, pageRecord isCommit xactTime pageXids)]
  | pageno, pageXids, subxact :: rest =>
    let subxactPageno := subxact / clogXactsPerPage
    if subxactPageno ≠ pageno then
      (pageno, pageRecord isCommit xactTime pageXids) ::
        xactClogLoop isCommit xactTime subxactPageno [subxact] rest
    else xactClogLoop isCommit xactTime pageno (pageXids ++ [subxact]) rest

/-- The CLOG records of `ingest_xact_record`, with their pages, in the order it puts them. -/
def xactClogRecords (parsed : XlXactParsedRecord) (isCommit : Bool) : List (UInt32 × ClogRecord) :=
  xactClogLoop isCommit parsed.xactTime (transactionIdToPage parsed.xid) [parsed.xid]
    parsed.subxacts

@[simp] theorem xids_pageRecord (isCommit : Bool) (xactTime : Int64) (pageXids : List UInt32) :
    (pageRecord isCommit xactTime pageXids).xids = pageXids := by
  cases isCommit <;> rfl

theorem status_pageRecord (isCommit : Bool) (xactTime : Int64) (pageXids : List UInt32) :
    (pageRecord isCommit xactTime pageXids).status =
      if isCommit then transactionStatusCommitted else transactionStatusAborted := by
  cases isCommit <;> rfl

theorem flatMap_xids_xactClogLoop (isCommit : Bool) (xactTime : Int64) :
    ∀ (pageno : UInt32) (pageXids subxacts : List UInt32),
      (xactClogLoop isCommit xactTime pageno pageXids subxacts).flatMap (·.2.xids) =
        pageXids ++ subxacts
  | pageno, pageXids, [] => by simp [xactClogLoop]
  | pageno, pageXids, subxact :: rest => by
    unfold xactClogLoop
    dsimp only
    split
    · simp [flatMap_xids_xactClogLoop isCommit xactTime _ [subxact] rest]
    · simp [flatMap_xids_xactClogLoop isCommit xactTime pageno (pageXids ++ [subxact]) rest]

/-- The records of a commit or an abort carry the ids of the tree, each once and in order. -/
theorem flatMap_xids_xactClogRecords (parsed : XlXactParsedRecord) (isCommit : Bool) :
    (xactClogRecords parsed isCommit).flatMap (·.2.xids) = parsed.xid :: parsed.subxacts :=
  flatMap_xids_xactClogLoop isCommit parsed.xactTime _ [parsed.xid] parsed.subxacts

/-- Every id of every record lies on the page the record is put on. -/
def OnKeyPages (records : List (UInt32 × ClogRecord)) : Prop :=
  ∀ e ∈ records, ∀ xid ∈ e.2.xids, transactionIdToPage xid = e.1

theorem onKeyPages_xactClogLoop (isCommit : Bool) (xactTime : Int64) :
    ∀ (pageno : UInt32) (pageXids subxacts : List UInt32),
      (∀ xid ∈ pageXids, transactionIdToPage xid = pageno) →
      OnKeyPages (xactClogLoop isCommit xactTime pageno pageXids subxacts)
  | pageno, pageXids, [], h => by
    intro e he xid hxid
    simp only [xactClogLoop, List.mem_singleton] at he
    subst he
    exact h xid (by simpa using hxid)
  | pageno, pageXids, subxact :: rest, h => by
    unfold xactClogLoop
    dsimp only
    split
    · intro e he xid hxid
      rcases List.mem_cons.mp he with rfl | he
      · exact h xid (by simpa using hxid)
      · exact onKeyPages_xactClogLoop isCommit xactTime _ [subxact] rest
          (fun x hx => by rw [List.mem_singleton.mp hx]; rfl) e he xid hxid
    · rename_i hsame
      refine onKeyPages_xactClogLoop isCommit xactTime pageno (pageXids ++ [subxact]) rest ?_
      intro xid hxid
      rcases List.mem_append.mp hxid with hx | hx
      · exact h xid hx
      · rw [List.mem_singleton.mp hx]
        exact not_not.mp hsame

theorem onKeyPages_xactClogRecords (parsed : XlXactParsedRecord) (isCommit : Bool) :
    OnKeyPages (xactClogRecords parsed isCommit) :=
  onKeyPages_xactClogLoop isCommit parsed.xactTime _ [parsed.xid] parsed.subxacts
    fun xid hxid => by rw [List.mem_singleton.mp hxid]

theorem status_xactClogLoop (isCommit : Bool) (xactTime : Int64) :
    ∀ (pageno : UInt32) (pageXids subxacts : List UInt32),
      ∀ e ∈ xactClogLoop isCommit xactTime pageno pageXids subxacts,
        e.2.status = if isCommit then transactionStatusCommitted else transactionStatusAborted
  | pageno, pageXids, [] => by
    intro e he
    simp only [xactClogLoop, List.mem_singleton] at he
    rw [he, status_pageRecord]
  | pageno, pageXids, subxact :: rest => by
    unfold xactClogLoop
    dsimp only
    split
    · intro e he
      rcases List.mem_cons.mp he with rfl | he
      · exact status_pageRecord ..
      · exact status_xactClogLoop isCommit xactTime _ [subxact] rest e he
    · exact status_xactClogLoop isCommit xactTime pageno (pageXids ++ [subxact]) rest

/-- Every record of a commit sets the committed status, every record of an abort the aborted
one. -/
theorem status_xactClogRecords (parsed : XlXactParsedRecord) (isCommit : Bool) :
    ∀ e ∈ xactClogRecords parsed isCommit,
      e.2.status = if isCommit then transactionStatusCommitted else transactionStatusAborted :=
  status_xactClogLoop isCommit parsed.xactTime _ [parsed.xid] parsed.subxacts

/-- The pages of the loop's records strictly increase when the ids left are on pages that do not
decrease, and none is before the page it starts on. -/
theorem pairwise_lt_xactClogLoop (isCommit : Bool) (xactTime : Int64) :
    ∀ (pageno : UInt32) (pageXids subxacts : List UInt32),
      List.Pairwise (· ≤ ·) (pageno :: subxacts.map transactionIdToPage) →
      List.Pairwise (· < ·) ((xactClogLoop isCommit xactTime pageno pageXids subxacts).map Prod.fst) ∧
        ∀ e ∈ xactClogLoop isCommit xactTime pageno pageXids subxacts, pageno ≤ e.1
  | pageno, pageXids, [], _ => by
    refine ⟨by simp [xactClogLoop], fun e he => ?_⟩
    simp only [xactClogLoop, List.mem_singleton] at he
    rw [he]
    exact UInt32.le_refl _
  | pageno, pageXids, x :: rest, h => by
    rw [List.map_cons, List.pairwise_cons, List.pairwise_cons] at h
    obtain ⟨hle, hx, hrest⟩ := h
    have hpx : pageno ≤ transactionIdToPage x := hle _ (List.mem_cons_self ..)
    unfold xactClogLoop
    dsimp only
    split
    · rename_i hne
      -- a new page: the rest of the records are on pages after it
      obtain ⟨hlt, hbound⟩ := pairwise_lt_xactClogLoop isCommit xactTime (transactionIdToPage x) [x]
        rest (List.pairwise_cons.mpr ⟨hx, hrest⟩)
      have hlt' : pageno < transactionIdToPage x := UInt32.lt_of_le_of_ne hpx (Ne.symm hne)
      refine ⟨?_, fun e he => ?_⟩
      · rw [List.map_cons, List.pairwise_cons]
        refine ⟨fun p hp => ?_, hlt⟩
        obtain ⟨e, he, rfl⟩ := List.mem_map.mp hp
        exact UInt32.lt_of_lt_of_le hlt' (hbound e he)
      · rcases List.mem_cons.mp he with rfl | he
        · exact UInt32.le_refl _
        · exact UInt32.le_trans hpx (hbound e he)
    · exact pairwise_lt_xactClogLoop isCommit xactTime pageno (pageXids ++ [x]) rest
        (List.pairwise_cons.mpr ⟨fun p hp => hle p (List.mem_cons_of_mem _ hp), hrest⟩)

theorem transactionIdToPage_le {x y : UInt32} (h : x ≤ y) :
    transactionIdToPage x ≤ transactionIdToPage y := by
  rw [transactionIdToPage, transactionIdToPage, UInt32.le_iff_toNat_le, UInt32.toNat_div,
    UInt32.toNat_div]
  exact Nat.div_le_div_right (UInt32.le_iff_toNat_le.mp h)

/-- When the ids of a tree increase, as PostgreSQL assigns them, the records are for distinct
pages. -/
theorem nodup_pages_xactClogRecords (parsed : XlXactParsedRecord) (isCommit : Bool)
    (hsorted : List.Pairwise (· ≤ ·) (parsed.xid :: parsed.subxacts)) :
    ((xactClogRecords parsed isCommit).map Prod.fst).Nodup := by
  have hpages : List.Pairwise (· ≤ ·)
      (transactionIdToPage parsed.xid :: parsed.subxacts.map transactionIdToPage) := by
    rw [← List.map_cons, List.pairwise_map]
    exact hsorted.imp transactionIdToPage_le
  exact ((pairwise_lt_xactClogLoop isCommit parsed.xactTime _ [parsed.xid] parsed.subxacts
    hpages).1).imp UInt32.ne_of_lt

theorem nodup_pages_xactClogRecords_two_pages :
    ((xactClogRecords ⟨4, 0, 0, 0, 0, 0, [5, 32768, 32769], []⟩ true).map Prod.fst).Nodup :=
  nodup_pages_xactClogRecords _ true (by decide)

/-! ## Redo -/

/-- The loop of `apply_in_neon` for `ClogSetCommitted` and `ClogSetAborted`, which differ in the
name in their messages and the status they set: each id must lie on the page of the key, and
its status bits are set. -/
def applyClogXids (key : Key) (segno blknum : UInt32) (what : String) (status : UInt8) :
    List UInt32 → List UInt8 → Except Panic (List UInt8)
  | [], page => .ok page
  | xid :: rest, page => do
    let pageno := xid / clogXactsPerPage
    let expectedSegno := pageno / slruPagesPerSegment
    let expectedBlknum := pageno % slruPagesPerSegment
    let msg : Panic := ⟨what ++ " record for XID " ++ toString xid ++ " with unexpected key " ++
      String.ofList key.display⟩
    if segno ≠ expectedSegno then throw msg
    if blknum ≠ expectedBlknum then throw msg
    applyClogXids key segno blknum what status rest (← transactionIdSetStatus xid status page)

/-- The end of `ClogSetCommitted`: an old timestamp after the page is cut off, and a page of
`BLCKSZ` bytes gets the new one, `timestamp.to_be_bytes()`; a page of any other length is left
as it is, with a warning. -/
def appendTimestamp (page : List UInt8) (timestamp : Int64) : List UInt8 :=
  let page := if page.length = blcksz.toNat + 8 then page.take blcksz.toNat else page
  if page.length = blcksz.toNat then page ++ putI64 timestamp else page

/-- `apply_in_neon` for the two CLOG records: the page afterwards, an error for a key that is
not an SLRU block, or a panic. -/
def applyInNeon (key : Key) (record : ClogRecord) (page : List UInt8) :
    Except Panic (Except String (List UInt8)) :=
  match record with
  | .clogSetCommitted xids timestamp =>
    match Multixact.keyToSlruBlock key with
    | .error _ => .ok (.error "invalid record")
    | .ok (slruKind, segno, blknum) => do
      if slruKind ≠ .clog then
        throw (Multixact.unexpectedKind "ClogSetCommitted" key slruKind .clog)
      let page ← applyClogXids key segno blknum "ClogSetCommitted" transactionStatusCommitted
        xids page
      pure (.ok (appendTimestamp page timestamp))
  | .clogSetAborted xids =>
    match Multixact.keyToSlruBlock key with
    | .error _ => .ok (.error "invalid record")
    | .ok (slruKind, segno, blknum) => do
      if slruKind ≠ .clog then
        throw (Multixact.unexpectedKind "ClogSetAborted" key slruKind .clog)
      Except.ok <$> applyClogXids key segno blknum "ClogSetAborted" transactionStatusAborted
        xids page

/-- What redo of a record leaves on a page of at least `BLCKSZ` bytes whose key holds the
record's ids. -/
def applyClogRecord (record : ClogRecord) (page : List UInt8) : List UInt8 :=
  match record with
  | .clogSetCommitted xids timestamp =>
    appendTimestamp (xids.foldl (fun page xid => setStatusAt page xid transactionStatusCommitted)
      page) timestamp
  | .clogSetAborted xids => xids.foldl (fun page xid => setStatusAt page xid transactionStatusAborted) page

section Redo

variable {key : Key} {segno blknum : UInt32} {what : String} {status : UInt8}
  {xids : List UInt32}

@[simp] theorem length_foldl_setStatusAt (xids : List UInt32) (status : UInt8) (page : List UInt8) :
    (xids.foldl (fun page xid => setStatusAt page xid status) page).length = page.length := by
  induction xids generalizing page with
  | nil => rfl
  | cons xid rest ih => simp [ih]

/-- The loop sets the status of each id, when every id lies on the page of the key. -/
theorem applyClogXids_of_onPage (hpage : ∀ xid ∈ xids, xid / clogXactsPerPage / slruPagesPerSegment =
      segno ∧ xid / clogXactsPerPage % slruPagesPerSegment = blknum)
    {page : List UInt8} (hlen : 8192 ≤ page.length) :
    applyClogXids key segno blknum what status xids page =
      .ok (xids.foldl (fun page xid => setStatusAt page xid status) page) := by
  induction xids generalizing page with
  | nil => rfl
  | cons xid rest ih =>
    obtain ⟨hs, hb⟩ := hpage xid (List.mem_cons_self ..)
    simp only [applyClogXids, hs, hb, ne_eq, not_true_eq_false, if_false,
      transactionIdSetStatus_of_le hlen, List.foldl_cons]
    exact ih (fun x hx => hpage x (List.mem_cons_of_mem _ hx)) (by simpa using hlen)

/-- The key of a page is the SLRU block of its segment and page in the segment. -/
theorem keyToSlruBlock_clogPageKey (pageno : UInt32) :
    Multixact.keyToSlruBlock (clogPageKey pageno) =
      .ok (.clog, pageno / slruPagesPerSegment, pageno % slruPagesPerSegment) :=
  Multixact.keyToSlruBlock_slruBlockToKey _ _ _

/-- A page is its segment and its block in the segment. -/
theorem eq_of_div_eq_of_mod_eq {p q : UInt32}
    (hdiv : p / slruPagesPerSegment = q / slruPagesPerSegment)
    (hmod : p % slruPagesPerSegment = q % slruPagesPerSegment) : p = q := by
  rw [← UInt32.toNat_inj, UInt32.toNat_div, UInt32.toNat_div] at hdiv
  rw [← UInt32.toNat_inj, UInt32.toNat_mod, UInt32.toNat_mod] at hmod
  apply UInt32.toNat_inj.1
  change p.toNat / 32 = q.toNat / 32 at hdiv
  change p.toNat % 32 = q.toNat % 32 at hmod
  omega

/-- The ids of one page are on the segment and the page in the segment of that page. -/
theorem onPage_of_toPage {pageno : UInt32} (hon : ∀ xid ∈ xids, transactionIdToPage xid = pageno) :
    ∀ xid ∈ xids, xid / clogXactsPerPage / slruPagesPerSegment = pageno / slruPagesPerSegment ∧
      xid / clogXactsPerPage % slruPagesPerSegment = pageno % slruPagesPerSegment :=
  fun xid hxid => by
    rw [← transactionIdToPage, hon xid hxid]
    exact ⟨rfl, rfl⟩

/-- Redo of a record whose ids all lie on the page of its key does not panic, and gives
`applyClogRecord`. -/
theorem applyInNeon_of_onKeyPage {pageno : UInt32} {record : ClogRecord}
    (hon : ∀ xid ∈ record.xids, transactionIdToPage xid = pageno) {page : List UInt8}
    (hlen : 8192 ≤ page.length) :
    applyInNeon (clogPageKey pageno) record page = .ok (.ok (applyClogRecord record page)) := by
  cases record with
  | clogSetCommitted xids timestamp =>
    have hxids : ∀ xid ∈ xids, transactionIdToPage xid = pageno := hon
    simp only [applyInNeon, keyToSlruBlock_clogPageKey, ne_eq, not_true_eq_false, if_false]
    rw [applyClogXids_of_onPage (onPage_of_toPage hxids) hlen]
    rfl
  | clogSetAborted xids =>
    have hxids : ∀ xid ∈ xids, transactionIdToPage xid = pageno := hon
    simp only [applyInNeon, keyToSlruBlock_clogPageKey, ne_eq, not_true_eq_false, if_false]
    rw [applyClogXids_of_onPage (onPage_of_toPage hxids) hlen]
    rfl

end Redo

/-! ## What redo leaves on the page -/

/-- The status bits of a transaction lie in the first `BLCKSZ` bytes. -/
theorem statusAt_congr {page page' : List UInt8} (h : page.take 8192 = page'.take 8192)
    (xid : UInt32) : statusAt page xid = statusAt page' xid := by
  have hget : page.getD (clogByteno xid) 0 = page'.getD (clogByteno xid) 0 := by
    rw [List.getD_eq_getElem?_getD, List.getD_eq_getElem?_getD,
      ← List.getElem?_take_of_lt (clogByteno_lt xid), h, List.getElem?_take_of_lt (clogByteno_lt xid)]
  rw [statusAt, hget, statusAt]

theorem take_appendTimestamp {page : List UInt8} (hlen : 8192 ≤ page.length) (timestamp : Int64) :
    (appendTimestamp page timestamp).take 8192 = page.take 8192 := by
  have hb : blcksz.toNat = 8192 := rfl
  unfold appendTimestamp
  simp only [hb]
  split_ifs with h1 h2 h2
  · -- an old timestamp is cut off and the new one appended
    rw [List.take_append_of_le_length (by simp; omega), List.take_take, min_self]
  · rw [List.take_take, min_self]
  · rw [List.take_append_of_le_length (by omega)]
  · rfl

/-- A page of `BLCKSZ` bytes, or one with a timestamp after it, has the new timestamp after it. -/
theorem appendTimestamp_of_length {page : List UInt8}
    (hlen : page.length = 8192 ∨ page.length = 8200) (timestamp : Int64) :
    appendTimestamp page timestamp = page.take 8192 ++ putI64 timestamp := by
  have hb : blcksz.toNat = 8192 := rfl
  unfold appendTimestamp
  simp only [hb]
  rcases hlen with h | h
  · rw [if_neg (show ¬page.length = 8192 + 8 by omega), if_pos h, List.take_of_length_le h.le]
  · have htake : (page.take 8192).length = 8192 := by simp [h]
    rw [if_pos h, if_pos htake]

/-- Two ids on one page at the same place of a page are the same id. -/
theorem eq_of_toPage_eq_of_mod_eq {x y : UInt32} (hp : transactionIdToPage x = transactionIdToPage y)
    (hm : x % clogXactsPerPage = y % clogXactsPerPage) : x = y := by
  have hdiv : x.toNat / 32768 = y.toNat / 32768 := by
    simpa [transactionIdToPage, UInt32.toNat_div, clogXactsPerPage_eq] using congrArg UInt32.toNat hp
  have hmod : x.toNat % 32768 = y.toNat % 32768 := by
    simpa [UInt32.toNat_mod, clogXactsPerPage_eq] using congrArg UInt32.toNat hm
  apply UInt32.toNat_inj.1
  omega

/-- Setting the status of ids of one page: each of them reads the status, every other
transaction of the page reads what it read. -/
theorem statusAt_foldl_setStatusAt {pageno : UInt32} {status : UInt8} (hs : status.toNat < 4) :
    ∀ {xids : List UInt32} {page : List UInt8}, 8192 ≤ page.length →
      (∀ xid ∈ xids, transactionIdToPage xid = pageno) →
      ∀ y, transactionIdToPage y = pageno →
        statusAt (xids.foldl (fun page xid => setStatusAt page xid status) page) y =
          if y ∈ xids then status else statusAt page y
  | [], _, _, _, _, _ => by simp
  | xid :: rest, page, hlen, hon, y, hy => by
    rw [List.foldl_cons, statusAt_foldl_setStatusAt hs (by simpa using hlen)
      (fun x hx => hon x (List.mem_cons_of_mem _ hx)) y hy, statusAt_setStatusAt hlen xid hs y]
    by_cases hrest : y ∈ rest
    · simp [hrest]
    · by_cases hyx : y = xid
      · subst hyx
        simp
      · -- another transaction of the page sits at another place of it
        have hmod : ¬y % clogXactsPerPage = xid % clogXactsPerPage := fun hm =>
          hyx (eq_of_toPage_eq_of_mod_eq (hy.trans (hon xid (List.mem_cons_self ..)).symm) hm)
        simp [hrest, hyx, hmod]

/-- Redo of a record on a page of at least `BLCKSZ` bytes: the ids of the record read its
status, every other transaction of the page reads what it read. -/
theorem statusAt_applyClogRecord {pageno : UInt32} {record : ClogRecord}
    (hon : ∀ xid ∈ record.xids, transactionIdToPage xid = pageno) {page : List UInt8}
    (hlen : 8192 ≤ page.length) {y : UInt32} (hy : transactionIdToPage y = pageno) :
    statusAt (applyClogRecord record page) y =
      if y ∈ record.xids then record.status else statusAt page y := by
  cases record with
  | clogSetCommitted xids timestamp =>
    rw [applyClogRecord, statusAt_congr (take_appendTimestamp (by simpa using hlen) timestamp)]
    exact statusAt_foldl_setStatusAt (by decide) hlen hon y hy
  | clogSetAborted xids =>
    exact statusAt_foldl_setStatusAt (by decide) hlen hon y hy

/-- Redo keeps a page at `BLCKSZ` bytes, or at `BLCKSZ` bytes and a timestamp. -/
theorem length_applyClogRecord (record : ClogRecord) {page : List UInt8}
    (hlen : page.length = 8192 ∨ page.length = 8200) :
    (applyClogRecord record page).length = 8192 ∨ (applyClogRecord record page).length = 8200 := by
  cases record with
  | clogSetCommitted xids timestamp =>
    right
    rw [applyClogRecord, appendTimestamp_of_length (by simpa using hlen)]
    simp only [List.length_append, List.length_take, length_foldl_setStatusAt, length_putI64]
    omega
  | clogSetAborted xids =>
    simpa [applyClogRecord] using hlen

end Xact

end NeonStorage

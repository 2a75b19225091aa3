import NeonStorage.Pageserver.ClogIngest
import NeonStorage.Lib.EStateM

/-!
# Ingestion keeps the history

A read at an LSN sees the versions at or below it.  WAL ingestion only moves its modification
forward (`set_lsn` refuses an older LSN), and every value it puts is a version at the
modification's LSN.  So each version that a run of the WAL receiver's loop adds is at or above
the LSN its modification began at (`DatadirModification.Since`, `Timeline.Extends`), and a read
at an earlier LSN, of a page, of a segment's size or of the directory, returns what it returned
before the run (`walReceiverLoop_keeps_history`).  This holds of every run that succeeds,
whatever its records: it needs none of the hypotheses of `walReceiverLoop_refines`.

The run argument is stated once, for any property of a timeline and its modification that
each put, each deletion, each forward move of the LSN and each commit keeps (`Stable`): every
successful run keeps it (`Stable.walReceiverLoop`).
-/

namespace NeonStorage

namespace Slru

open PostgresFfi Versions Xact DatadirModification

/-- Every pending version of the modification, and its LSN, are at or above `lsn`. -/
structure DatadirModification.Since (m : DatadirModification) (lsn : UInt64) : Prop where
  lsn_le : lsn ≤ m.lsn
  dir : Above m.pendingDir lsn
  sizes : ∀ segno, Above (m.pendingSizes segno) lsn
  pages : ∀ segno blknum, Above (m.pendingPages segno blknum) lsn

/-- `tl'` is `tl` with versions at or above `lsn` after those of each key. -/
structure Timeline.Extends (tl tl' : Timeline) (lsn : UInt64) : Prop where
  dir : ∃ new, tl'.dir = tl.dir ++ new ∧ Above new lsn
  sizes : ∀ segno, ∃ new, tl'.sizes segno = tl.sizes segno ++ new ∧ Above new lsn
  pages : ∀ segno blknum, ∃ new, tl'.pages segno blknum = tl.pages segno blknum ++ new ∧
    Above new lsn

/-! ## Each operation puts versions at or above the LSN the modification began at -/

namespace DatadirModification

section Ops

variable {m m' : DatadirModification} {tl tl' : Timeline} {l : UInt64}

theorem Since.putDir (h : m.Since l) (segments : List UInt32) : (m.putDir segments).Since l :=
  ⟨h.lsn_le, h.dir.putVersion h.lsn_le, h.sizes, h.pages⟩

theorem Since.putSize (h : m.Since l) (segno nblocks : UInt32) :
    (m.putSize segno nblocks).Since l := by
  refine ⟨h.lsn_le, h.dir, fun s => ?_, h.pages⟩
  by_cases hs : s = segno
  · subst hs
    simpa [DatadirModification.putSize] using (h.sizes s).putVersion h.lsn_le
  · simpa [DatadirModification.putSize, hs] using h.sizes s

theorem Since.putPage (h : m.Since l) (segno blknum : UInt32) (v : PageValue) :
    (m.putPage segno blknum v).Since l := by
  refine ⟨h.lsn_le, h.dir, h.sizes, fun s b => ?_⟩
  simp only [DatadirModification.putPage]
  split
  · exact (h.pages s b).putVersion h.lsn_le
  · exact h.pages s b

theorem Since.delete (h : m.Since l) (keyRange : Key × Key) : (m.delete keyRange).Since l :=
  ⟨h.lsn_le, h.dir, h.sizes, h.pages⟩

/-- `set_lsn` only moves forward. -/
theorem Since.setLsn (h : m.Since l) {lsn : UInt64} (hset : m.setLsn lsn = .ok m') :
    m'.Since l := by
  unfold DatadirModification.setLsn at hset
  split at hset
  · rename_i hle
    cases hset
    split
    · exact ⟨UInt64.le_trans h.lsn_le hle, h.dir, h.sizes, h.pages⟩
    · exact h
  · cases hset

/-- A modification begun at `lsn`, or after it, has nothing pending. -/
theorem Since.begin_of_le {lsn : UInt64} (hle : l ≤ lsn) :
    (DatadirModification.begin lsn).Since l :=
  ⟨hle, above_nil _, fun _ => above_nil _, fun _ _ => above_nil _⟩

theorem Since.begin (lsn : UInt64) : (DatadirModification.begin lsn).Since lsn :=
  Since.begin_of_le (UInt64.le_refl lsn)

/-- After a commit, the modification has nothing pending and its LSN is unchanged. -/
theorem Since.commit (h : m.Since l) (hc : m.commit tl = .ok (tl', m')) : m'.Since l := by
  obtain ⟨-, -, rfl⟩ := commit_eq_ok hc
  exact Since.begin_of_le h.lsn_le

/-- Committing a modification adds its pending versions after those of the timeline. -/
theorem Since.extends_commit (h : m.Since l) (hc : m.commit tl = .ok (tl', m')) :
    tl.Extends tl' l := by
  obtain ⟨htl', -, -⟩ := commit_eq_ok hc
  rw [htl']
  exact ⟨⟨m.pendingDir, rfl, h.dir⟩, fun s => ⟨m.pendingSizes s, rfl, h.sizes s⟩,
    fun s b => ⟨m.pendingPages s b, rfl, h.pages s b⟩⟩

end Ops

end DatadirModification

/-! ## What every operation keeps -/

/-- A property of a timeline and the modification on it that each put and each deletion keeps,
each forward move of the modification's LSN keeps, and each commit that succeeds keeps. -/
structure Stable (P : Timeline → DatadirModification → Prop) : Prop where
  puts : ∀ tl, PutsKeep (P tl)
  setLsn : ∀ tl m m' lsn, m.setLsn lsn = .ok m' → P tl m → P tl m'
  commit : ∀ tl m tl' m', m.commit tl = .ok (tl', m') → P tl m → P tl' m'

namespace Stable

variable {P : Timeline → DatadirModification → Prop} {m m' : DatadirModification} {tl : Timeline}

/-- Two stable properties hold together. -/
theorem and {Q : Timeline → DatadirModification → Prop} (hP : Stable P) (hQ : Stable Q) :
    Stable fun tl m => P tl m ∧ Q tl m where
  puts tl := (hP.puts tl).and (hQ.puts tl)
  setLsn tl m m' lsn hset h := ⟨hP.setLsn tl m m' lsn hset h.1, hQ.setLsn tl m m' lsn hset h.2⟩
  commit tl m tl' m' hc h := ⟨hP.commit tl m tl' m' hc h.1, hQ.commit tl m tl' m' hc h.2⟩

/-- `ingest_record` moves the modification forward and puts versions at its LSN. -/
theorem ingestRecord (hP : Stable P) (h : P tl m) {checkpoint checkpoint' : CheckPoint}
    {lsn : UInt64} {xlXid : UInt32} {rec : ClogWalRecord}
    (hi : Slru.ingestRecord checkpoint tl m lsn xlXid rec = .ok (.ok (checkpoint', m'))) :
    P tl m' := by
  unfold Slru.ingestRecord at hi
  split at hi
  · cases hi
  · rename_i m1 hset
    have h1 := hP.setLsn _ _ _ _ hset h
    cases rec with
    | zeroPage pageno =>
      obtain ⟨m2, hz, hm2⟩ := Except.exists_of_map_eq_ok (Except.ok.inj hi)
      cases hm2
      exact (hP.puts tl).ingestClogZeroPage h1 hz
    | truncate xlrec =>
      obtain ⟨r, ht, hr⟩ := Except.exists_of_map_eq_ok hi
      obtain ⟨m2, rfl, hm2⟩ := Except.exists_of_map_eq_ok hr
      cases hm2
      exact (hP.puts tl).ingestClogTruncateRecord h1 ht
    | xact parsed isCommit =>
      cases hi
      exact (hP.puts tl).ingestXactClog h1 parsed isCommit

/-- Every successful run of the loop keeps a stable property: the timeline it leaves has it with
some modification. -/
theorem walReceiverLoop (hP : Stable P) (ingestBatchSize : ℕ) :
    ∀ (records : List (UInt64 × UInt32 × ClogWalRecord)) {checkpoint checkpoint' : CheckPoint}
      {tl tl' : Timeline} {m : DatadirModification} {uncommitted : ℕ}, P tl m →
      Slru.walReceiverLoop ingestBatchSize checkpoint tl m uncommitted records =
        .ok (.ok (checkpoint', tl')) →
      ∃ m', P tl' m'
  | [], _, _, tl, tl', m, uncommitted, h, hloop => by
    simp only [Slru.walReceiverLoop] at hloop
    split at hloop
    · -- the last batch is committed
      obtain ⟨r, hc, hr⟩ := Except.exists_of_map_eq_ok hloop
      obtain ⟨tl1, m1⟩ := r
      cases hr
      exact ⟨m1, hP.commit _ _ _ _ hc h⟩
    · cases hloop
      exact ⟨m, h⟩
  | (lsn, xlXid, rec) :: rest, checkpoint, _, tl, tl', m, uncommitted, h, hloop => by
    rw [Slru.walReceiverLoop] at hloop
    split at hloop
    · -- an LSN that is not aligned ends the loop with an error
      cases hloop
    split at hloop
    · cases hloop
    · cases hloop
    · rename_i checkpoint1 m1 hing
      have h1 := hP.ingestRecord h hing
      split at hloop
      · -- the batch is committed and the loop goes on from the committed timeline
        split at hloop
        · cases hloop
        · rename_i tl2 m2 hc
          exact hP.walReceiverLoop ingestBatchSize rest (hP.commit _ _ _ _ hc h1) hloop
      · exact hP.walReceiverLoop ingestBatchSize rest h1 hloop

end Stable

namespace Timeline

section Extends

variable {tl tl' tl'' : Timeline} {l : UInt64}

theorem Extends.refl (tl : Timeline) (l : UInt64) : tl.Extends tl l :=
  ⟨⟨[], by simp, above_nil l⟩, fun _ => ⟨[], by simp, above_nil l⟩,
    fun _ _ => ⟨[], by simp, above_nil l⟩⟩

theorem Extends.trans (h : tl.Extends tl' l) (h' : tl'.Extends tl'' l) : tl.Extends tl'' l := by
  obtain ⟨⟨new, hdir, habove⟩, hsizes, hpages⟩ := h
  obtain ⟨⟨new', hdir', habove'⟩, hsizes', hpages'⟩ := h'
  refine ⟨⟨new ++ new', by rw [hdir', hdir, List.append_assoc], habove.append habove'⟩,
    fun s => ?_, fun s b => ?_⟩
  · obtain ⟨n, hn, ha⟩ := hsizes s
    obtain ⟨n', hn', ha'⟩ := hsizes' s
    exact ⟨n ++ n', by rw [hn', hn, List.append_assoc], ha.append ha'⟩
  · obtain ⟨n, hn, ha⟩ := hpages s b
    obtain ⟨n', hn', ha'⟩ := hpages' s b
    exact ⟨n ++ n', by rw [hn', hn, List.append_assoc], ha.append ha'⟩

end Extends

end Timeline

section Run

variable {l : UInt64}

/-- From a timeline `tl₀`, the timelines a run commits extend it by versions at or above `l`,
and the modification's pending versions are at or above `l`. -/
theorem stable_extends_since (tl₀ : Timeline) (l : UInt64) :
    Stable fun tl m => tl₀.Extends tl l ∧ m.Since l where
  puts _ :=
    { putDir := fun _ segments h => ⟨h.1, h.2.putDir segments⟩
      putSize := fun _ segno nblocks h => ⟨h.1, h.2.putSize segno nblocks⟩
      putPage := fun _ segno blknum v h => ⟨h.1, h.2.putPage segno blknum v⟩
      delete := fun _ keyRange h => ⟨h.1, h.2.delete keyRange⟩ }
  setLsn _ _ _ _ hset h := ⟨h.1, h.2.setLsn hset⟩
  commit _ _ _ _ hc h := ⟨h.1.trans (h.2.extends_commit hc), h.2.commit hc⟩

/-- Every successful run of the loop from a modification whose versions are at or above `l` adds
only versions at or above `l` to the timeline. -/
theorem walReceiverLoop_extends (ingestBatchSize : ℕ)
    (records : List (UInt64 × UInt32 × ClogWalRecord)) {checkpoint checkpoint' : CheckPoint}
    {tl tl' : Timeline} {m : DatadirModification} {uncommitted : ℕ} (h : m.Since l)
    (hloop : walReceiverLoop ingestBatchSize checkpoint tl m uncommitted records =
      .ok (.ok (checkpoint', tl'))) :
    tl.Extends tl' l := by
  obtain ⟨m', hext, -⟩ := (stable_extends_since tl l).walReceiverLoop ingestBatchSize records
    ⟨Timeline.Extends.refl tl l, h⟩ hloop
  exact hext

end Run

/-! ## Reads below the added versions -/

theorem getImage_append_of_above {α : Type} {key : Key} {vs new : List (UInt64 × α)} {l : UInt64}
    (habove : Above new l) {lsn : UInt64} (hlt : lsn < l) :
    getImage key (vs ++ new) lsn = getImage key vs lsn := by
  unfold getImage lastAt
  rw [upTo_append_of_above habove hlt]

namespace Timeline

section Reads

variable {tl tl' : Timeline} {l : UInt64}

theorem Extends.getSlruPageAtLsn (h : tl.Extends tl' l) (segno blknum : UInt32) {lsn : UInt64}
    (hlt : lsn < l) :
    tl'.getSlruPageAtLsn segno blknum lsn = tl.getSlruPageAtLsn segno blknum lsn := by
  obtain ⟨new, hpages, habove⟩ := h.pages segno blknum
  unfold Timeline.getSlruPageAtLsn
  rw [hpages, upTo_append_of_above habove hlt]

theorem Extends.listSlruSegments (h : tl.Extends tl' l) {lsn : UInt64} (hlt : lsn < l) :
    Slru.listSlruSegments tl' (.lsn lsn) = Slru.listSlruSegments tl (.lsn lsn) := by
  obtain ⟨new, hdir, habove⟩ := h.dir
  simp only [Slru.listSlruSegments, hdir, getImage_append_of_above habove hlt]

theorem Extends.getSlruSegmentSize (h : tl.Extends tl' l) (segno : UInt32) {lsn : UInt64}
    (hlt : lsn < l) :
    Slru.getSlruSegmentSize tl' segno (.lsn lsn) = Slru.getSlruSegmentSize tl segno (.lsn lsn) := by
  obtain ⟨new, hsizes, habove⟩ := h.sizes segno
  simp only [Slru.getSlruSegmentSize, hsizes, getImage_append_of_above habove hlt]

end Reads

end Timeline

/-- A run of the WAL receiver's loop, from a modification begun at `startLsn`, leaves every read
at an earlier LSN as it was: each page, each segment's size and the directory.  This holds of
every run that succeeds, whatever its records. -/
theorem walReceiverLoop_keeps_history (ingestBatchSize : ℕ) {checkpoint checkpoint' : CheckPoint}
    {tl tl' : Timeline} {startLsn : UInt64} {records : List (UInt64 × UInt32 × ClogWalRecord)}
    (hloop : walReceiverLoop ingestBatchSize checkpoint tl (DatadirModification.begin startLsn) 0
      records = .ok (.ok (checkpoint', tl'))) {lsn : UInt64} (hlt : lsn < startLsn) :
    (∀ segno blknum, tl'.getSlruPageAtLsn segno blknum lsn = tl.getSlruPageAtLsn segno blknum lsn) ∧
      listSlruSegments tl' (.lsn lsn) = listSlruSegments tl (.lsn lsn) ∧
      ∀ segno, getSlruSegmentSize tl' segno (.lsn lsn) =
        getSlruSegmentSize tl segno (.lsn lsn) := by
  have hext := walReceiverLoop_extends ingestBatchSize records (Since.begin startLsn) hloop
  exact ⟨fun segno blknum => hext.getSlruPageAtLsn segno blknum hlt, hext.listSlruSegments hlt,
    fun segno => hext.getSlruSegmentSize segno hlt⟩

theorem walReceiverLoop_keeps_history_zeroPage :
    ∃ checkpoint' tl', walReceiverLoop 1 ⟨⟨3⟩, 1, 0⟩
        ⟨[(8, [0])], fun _ => [(8, 1)], fun _ _ => [(8, .image zeroPage)], 8⟩
        (DatadirModification.begin 16) 0 [(16, 0, .zeroPage 1)] = .ok (.ok (checkpoint', tl')) ∧
      (∀ segno blknum, tl'.getSlruPageAtLsn segno blknum 8 =
        Timeline.getSlruPageAtLsn
          ⟨[(8, [0])], fun _ => [(8, 1)], fun _ _ => [(8, .image zeroPage)], 8⟩ segno blknum 8) ∧
      listSlruSegments tl' (.lsn 8) = .ok [0] ∧
      ∀ segno, getSlruSegmentSize tl' segno (.lsn 8) = .ok 1 :=
  ⟨_, _, rfl, @walReceiverLoop_keeps_history 1 ⟨⟨3⟩, 1, 0⟩ _ _ _ 16 [(16, 0, .zeroPage 1)] rfl 8
    (by decide)⟩

end Slru

end NeonStorage

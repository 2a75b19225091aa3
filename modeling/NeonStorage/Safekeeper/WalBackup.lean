import Mathlib
import NeonStorage.Safekeeper.Invariants

/-!
# WAL offloading and WAL removal on one safekeeper

`safekeeper/src/wal_backup.rs` uploads the WAL of a timeline to remote storage, one whole
segment at a time, and `Timeline::remove_old_wal` (`safekeeper/src/timeline.rs`) deletes the
local segments that the pageserver, the peers and remote storage no longer need.  This file
models both on one safekeeper:

* `getSegments`, the whole segments between two LSNs, and `determineOffloader`, the election of
  the safekeeper that uploads;
* the WAL backup task, cut at its awaits.  `WalBackupTask.wake` is the top of the offload loop
  of `WalBackupTask::run` and the start of `backup_lsn_range`; `WalBackupTask.awaitUpload` is
  one turn of that function's loop, which waits for the oldest upload of its `FuturesOrdered`
  and then moves `backup_lsn` to the end of the segment;
* `SharedState.getHorizonSegno` and `SharedState.removeOldWal`, which reports the
  `segno_up_to` of the removal it starts;
* the two calls on the timeline that the removal thread and the walsenders make,
  `maybePersistInmemControlFile` and `updateRemoteConsistentLsn`.

The last section states what the safekeeper's own operations do to the fields offloading reads
(`Frame`).  `process_msg` keeps the WAL segment size and moves `backup_lsn` only up to the
timeline start.  `record_safekeeper_info` moves it only to the peer's `backup_lsn`.
-/

namespace NeonStorage

/-- `Lsn::segment_number`. -/
def segmentNumber (lsn segSz : Nat) : Nat :=
  lsn / segSz

/-- `XLogSegNoOffsetToRecPtr`. -/
def xLogSegNoOffsetToRecPtr (segno offset walSegszBytes : Nat) : Nat :=
  segno * walSegszBytes + offset

/-- A WAL segment to upload (`Segment`): its number and the LSNs it spans. -/
structure Segment where
  segNo : Nat
  startLsn : Nat
  endLsn : Nat
deriving DecidableEq, Repr

/-- The segment numbered `s`, as `get_segments` builds it. -/
def Segment.ofSegNo (s segSize : Nat) : Segment where
  segNo := s
  startLsn := xLogSegNoOffsetToRecPtr s 0 segSize
  endLsn := xLogSegNoOffsetToRecPtr (s + 1) 0 segSize

/-- `get_segments`: the segments from the one `start` falls in up to, and without, the one
`endLsn` falls in. -/
def getSegments (start endLsn segSize : Nat) : List Segment :=
  let firstSeg := segmentNumber start segSize
  let lastSeg := segmentNumber endLsn segSize
  (List.range' firstSeg (lastSeg - firstSeg)).map fun s => Segment.ofSegNo s segSize

section Segments

variable {s W : Nat}

@[simp] theorem Segment.ofSegNo_segNo : (Segment.ofSegNo s W).segNo = s := rfl

@[simp] theorem Segment.ofSegNo_endLsn : (Segment.ofSegNo s W).endLsn = (s + 1) * W := by
  simp [Segment.ofSegNo, xLogSegNoOffsetToRecPtr]

/-- A segment ends where the next one starts. -/
theorem segmentNumber_ofSegNo_endLsn (hW : 0 < W) :
    segmentNumber (Segment.ofSegNo s W).endLsn W = s + 1 := by
  simp [segmentNumber, Nat.mul_div_cancel _ hW]

/-- An LSN is at or past the start of its segment. -/
theorem segmentNumber_mul_le (lsn W : Nat) : segmentNumber lsn W * W ≤ lsn :=
  Nat.div_mul_le_self lsn W

theorem segmentNumber_mono {a b : Nat} (h : a ≤ b) (W : Nat) :
    segmentNumber a W ≤ segmentNumber b W :=
  Nat.div_le_div_right h

theorem mem_getSegments {start e : Nat} {seg : Segment} :
    seg ∈ getSegments start e W ↔
      seg = Segment.ofSegNo seg.segNo W ∧ segmentNumber start W ≤ seg.segNo ∧
        seg.segNo < segmentNumber e W := by
  simp only [getSegments, List.mem_map, List.mem_range'_1]
  constructor
  · rintro ⟨s, hs, rfl⟩
    exact ⟨rfl, hs.1, by simp only [Segment.ofSegNo_segNo]; omega⟩
  · rintro ⟨hseg, h₁, h₂⟩
    exact ⟨seg.segNo, ⟨h₁, by omega⟩, hseg.symm⟩

/-- Every segment between two LSNs ends at or before the second: it is whole below it. -/
theorem endLsn_le_of_mem_getSegments {start e : Nat} {seg : Segment}
    (h : seg ∈ getSegments start e W) : seg.endLsn ≤ e := by
  obtain ⟨hseg, -, hlt⟩ := mem_getSegments.mp h
  rw [hseg, Segment.ofSegNo_endLsn]
  calc (seg.segNo + 1) * W ≤ segmentNumber e W * W := Nat.mul_le_mul_right W hlt
    _ ≤ e := segmentNumber_mul_le e W

/-- The first segment between two LSNs is the one the first falls in, and the others are the
segments between its end and the second LSN. -/
theorem getSegments_eq_cons (hW : 0 < W) {start e : Nat} {seg : Segment} {rest : List Segment}
    (h : getSegments start e W = seg :: rest) :
    seg = Segment.ofSegNo (segmentNumber start W) W ∧ rest = getSegments seg.endLsn e W := by
  simp only [getSegments] at h ⊢
  obtain ⟨n, hn⟩ : ∃ n, segmentNumber e W - segmentNumber start W = n + 1 := by
    cases hlen : segmentNumber e W - segmentNumber start W with
    | zero => rw [hlen] at h; simp at h
    | succ n => exact ⟨n, rfl⟩
  rw [hn, List.range'_succ, List.map_cons, List.cons.injEq] at h
  obtain ⟨rfl, rfl⟩ := h
  refine ⟨rfl, ?_⟩
  rw [segmentNumber_ofSegNo_endLsn hW]
  congr 2
  omega

end Segments

/-! ## The election of the offloader -/

/-- The fields of a peer's `PeerInfo` that the election reads. -/
structure PeerInfo where
  skId : Nat
  commitLsn : Nat
  localStartLsn : Nat
deriving DecidableEq, Repr

/-- `determine_offloader`: of the peers that have WAL from `wal_backup_lsn` on, those whose
`commit_lsn` is within `max_offloader_lag_bytes` of the highest, sorted by id, the one at the
timeline id modulo their number.  `sort_by` is a stable sort, as insertion sort is.  The debug
message it also returns is left out. -/
def determineOffloader (alivePeers : List PeerInfo) (walBackupLsn timelineId
    maxOffloaderLagBytes : Nat) : Option Nat :=
  let capablePeers := alivePeers.filter fun p => p.localStartLsn ≤ walBackupLsn
  match (capablePeers.map (·.commitLsn)).max? with
  | none => none
  | some maxCommitLsn =>
    -- `checked_sub` that falls back to `Lsn(0)`
    let threshold := maxCommitLsn - maxOffloaderLagBytes
    let caughtupPeers := (capablePeers.filter fun p => p.commitLsn ≥ threshold).insertionSort
      fun p₁ p₂ => p₁.skId ≤ p₂.skId
    caughtupPeers[timelineId % caughtupPeers.length]?.map (·.skId)

section DetermineOffloader

variable {alivePeers : List PeerInfo} {walBackupLsn timelineId lag : Nat}

end DetermineOffloader

/-! ## The WAL backup task -/

/-- A call of `backup_lsn_range` under way: the `commit_lsn` it uploads up to, the segments its
iterator has not given out yet, and its `FuturesOrdered` of uploads, oldest first. -/
structure BackupRange where
  endLsn : Nat
  pending : List Segment
  uploads : List Segment
deriving DecidableEq, Repr

/-- `WalBackupTask`: its own `backup_lsn` and the range it is uploading, if any.  The retry
counter only decides how long the task sleeps before the next attempt and is left out. -/
structure WalBackupTask where
  backupLsn : Nat
  range : Option BackupRange
deriving DecidableEq, Repr

/-- A task just spawned: `run` starts from `backup_lsn = Lsn(0)`. -/
def WalBackupTask.new : WalBackupTask where
  backupLsn := 0
  range := none

/-- The pushes of `backup_lsn_range`'s loop before it waits: segments are started, oldest
first, until `parallel_jobs` uploads run or none is left. -/
def fillUploads (parallelJobs : Nat) : List Segment → List Segment → List Segment × List Segment
  | [], uploads => ([], uploads)
  | s :: pending, uploads =>
    if uploads.length < parallelJobs then fillUploads parallelJobs pending (uploads ++ [s])
    else (s :: pending, uploads)

/-- Starting uploads moves segments from the iterator to the uploads, in order. -/
theorem fillUploads_append (parallelJobs : Nat) :
    ∀ pending uploads : List Segment,
      (fillUploads parallelJobs pending uploads).2 ++ (fillUploads parallelJobs pending uploads).1 =
        uploads ++ pending
  | [], uploads => by simp [fillUploads]
  | s :: pending, uploads => by
    unfold fillUploads
    split
    · rw [fillUploads_append parallelJobs pending (uploads ++ [s])]
      simp
    · rfl

/-- `Timeline::set_wal_backup_lsn`: `backup_lsn` is raised, never lowered. -/
def setWalBackupLsn (backupLsn : Nat) (sk : SafeKeeper) : SafeKeeper :=
  { sk with state.inmem.backupLsn := max sk.state.inmem.backupLsn backupLsn }

namespace WalBackupTask

/-- The top of the offload loop of `WalBackupTask::run`, with no range under way.  It reads
`commit_lsn` from its watch channel, which holds a value the timeline's `commit_lsn` has had.
If the task's own `backup_lsn`, or the timeline's, which it then reads, is already in the segment
of `commit_lsn`, there is nothing to do.  Otherwise it starts `backup_lsn_range` over the segments
between them; that function first refuses `parallel_jobs < 1`. -/
def wake (parallelJobs commitLsn : Nat) (sk : SafeKeeper) (self : WalBackupTask) :
    WalBackupTask :=
  let walSegSize := sk.state.pers.server.walSegSize
  if segmentNumber self.backupLsn walSegSize ≥ segmentNumber commitLsn walSegSize then self
  else
    -- perhaps peers advanced the position: the timeline's value
    let backupLsn := sk.state.inmem.backupLsn
    if segmentNumber backupLsn walSegSize ≥ segmentNumber commitLsn walSegSize then
      { self with backupLsn }
    else if parallelJobs < 1 then { self with backupLsn }
    else
      { backupLsn
        range := some
          { endLsn := commitLsn
            pending := getSegments backupLsn commitLsn walSegSize
            uploads := [] } }

/-- One wait of `backup_lsn_range`'s loop: it starts uploads as the loop does, then waits for the
oldest.  With none left the range is done.  An upload that succeeded (`ok`) is returned; it
raises the timeline's `backup_lsn` to the segment's end (`set_wal_backup_lsn`) and sets the
task's own to it.  A failed one ends the range with its error, and the uploads still running
are dropped. -/
def awaitUpload (parallelJobs : Nat) (ok : Bool) (sk : SafeKeeper) (self : WalBackupTask) :
    Option Segment × SafeKeeper × WalBackupTask :=
  match self.range with
  | none => (none, sk, self)
  | some r =>
    match fillUploads parallelJobs r.pending r.uploads with
    | (_, []) => (none, sk, { self with range := none })
    | (pending, seg :: uploads) =>
      if ok then
        (some seg, setWalBackupLsn seg.endLsn sk,
          { backupLsn := seg.endLsn, range := some { r with pending, uploads } })
      else (none, sk, { self with range := none })

/-- What one wait can do: nothing, with no range under way; end the range, with no upload left
or a failed one; or, with the oldest upload done, move `backup_lsn` to its end and keep the rest
of the range. -/
theorem awaitUpload_cases (parallelJobs : Nat) (ok : Bool) (sk : SafeKeeper)
    (self : WalBackupTask) :
    (self.range = none ∧ self.awaitUpload parallelJobs ok sk = (none, sk, self)) ∨
      self.awaitUpload parallelJobs ok sk = (none, sk, { self with range := none }) ∨
      ∃ r seg uploads pending, self.range = some r ∧
        fillUploads parallelJobs r.pending r.uploads = (pending, seg :: uploads) ∧ ok = true ∧
        self.awaitUpload parallelJobs ok sk = (some seg, setWalBackupLsn seg.endLsn sk,
          { backupLsn := seg.endLsn, range := some { r with pending, uploads } }) := by
  unfold awaitUpload
  rcases hr : self.range with _ | r
  · exact .inl ⟨rfl, rfl⟩
  · dsimp only
    rcases hfill : fillUploads parallelJobs r.pending r.uploads with ⟨pending, _ | ⟨seg, uploads⟩⟩
    · exact .inr (.inl rfl)
    · cases ok
      · exact .inr (.inl rfl)
      · exact .inr (.inr ⟨r, seg, uploads, pending, rfl, hfill, rfl, rfl⟩)

end WalBackupTask

/-! ## WAL removal -/

/-- The parts of a timeline's `SharedState` that offloading and WAL removal use: the safekeeper
and `last_removed_segno`. -/
structure SharedState where
  sk : SafeKeeper
  lastRemovedSegno : Nat
deriving DecidableEq, Repr

namespace SharedState

/-- `SharedState::get_horizon_segno`: the segment of the lowest of the persisted
`remote_consistent_lsn`, `peer_horizon_lsn`, `backup_lsn` (with offloading) and the extra
horizon, if any. -/
def getHorizonSegno (self : SharedState) (walBackupEnabled : Bool) (extraHorizonLsn : Option Nat) :
    Nat :=
  let state := self.sk.state.pers
  let horizonLsn := min state.remoteConsistentLsn state.peerHorizonLsn
  let horizonLsn := if walBackupEnabled then min horizonLsn state.backupLsn else horizonLsn
  let horizonLsn :=
    match extraHorizonLsn with
    | some extraHorizonLsn => min horizonLsn extraHorizonLsn
    | none => horizonLsn
  segmentNumber horizonLsn state.server.walSegSize

/-- `Timeline::remove_old_wal`: with a horizon segment above 1 and above `last_removed_segno`,
it deletes every local segment numbered up to the one before it (`remove_up_to`), and returns
that number.  A failed removal (`removeOk = false`) leaves `last_removed_segno` as it was.  The
lock is released between the choice of the horizon and the removal; as every horizon only
grows, the choice stays valid, and the two are taken as one step. -/
def removeOldWal (walBackupEnabled : Bool) (replicationHorizonLsn : Option Nat) (removeOk : Bool)
    (self : SharedState) : Option Nat × SharedState :=
  let horizonSegno := self.getHorizonSegno walBackupEnabled replicationHorizonLsn
  if horizonSegno ≤ 1 ∨ horizonSegno ≤ self.lastRemovedSegno then (none, self)
  else
    (some (horizonSegno - 1),
      if removeOk then { self with lastRemovedSegno := horizonSegno } else self)

/-- The segments a removal deletes lie whole below each persisted horizon it takes into
account. -/
theorem removeOldWal_below {walBackupEnabled : Bool} {replicationHorizonLsn : Option Nat}
    {removeOk : Bool} {self : SharedState} {upTo s : Nat}
    (h : (removeOldWal walBackupEnabled replicationHorizonLsn removeOk self).1 = some upTo)
    (hs : s ≤ upTo) :
    let state := self.sk.state.pers
    (s + 1) * state.server.walSegSize ≤ state.remoteConsistentLsn ∧
      (s + 1) * state.server.walSegSize ≤ state.peerHorizonLsn ∧
      (walBackupEnabled = true → (s + 1) * state.server.walSegSize ≤ state.backupLsn) ∧
      ∀ l, replicationHorizonLsn = some l → (s + 1) * state.server.walSegSize ≤ l := by
  intro state
  simp only [removeOldWal] at h
  split at h
  · cases h
  · rename_i hgt
    cases h
    -- the deleted segments end at or before the start of the horizon's segment
    have hend : (s + 1) * state.server.walSegSize ≤
        getHorizonSegno self walBackupEnabled replicationHorizonLsn *
          state.server.walSegSize :=
      Nat.mul_le_mul_right _ (by omega)
    have hbelow := hend.trans (segmentNumber_mul_le _ _)
    cases walBackupEnabled <;> cases replicationHorizonLsn <;>
      simp only [Bool.false_eq_true, ↓reduceIte, le_min_iff] at hbelow <;>
      simp_all [state]

/-- A removal changes only `last_removed_segno`. -/
@[simp] theorem removeOldWal_sk (walBackupEnabled : Bool) (replicationHorizonLsn : Option Nat)
    (removeOk : Bool) (self : SharedState) :
    (removeOldWal walBackupEnabled replicationHorizonLsn removeOk self).2.sk = self.sk := by
  unfold removeOldWal
  dsimp only
  split_ifs <;> rfl

end SharedState

/-- The proposer's message starts the timeline at or before `t`, if it says where the timeline
starts. -/
def ProposerAcceptorMessage.StartsBy (t : Nat) : ProposerAcceptorMessage → Prop
  | .elected msg => msg.timelineStartLsn ≤ t
  | _ => True

instance (t : Nat) : (msg : ProposerAcceptorMessage) → Decidable (msg.StartsBy t)
  | .elected msg => inferInstanceAs (Decidable (msg.timelineStartLsn ≤ t))
  | .greeting _ | .voteRequest _ | .appendRequest _ | .noFlushAppendRequest _ | .flushWAL =>
    inferInstanceAs (Decidable True)

/-! ## The calls of the removal thread and of the walsenders -/

namespace SafeKeeper

/-- `SafeKeeper::maybe_persist_inmem_control_file`: once `CF_SAVE_INTERVAL` has passed since the
last persist (`elapsed`), persist the in-memory values if one of them is ahead of the control
file. -/
def maybePersistInmemControlFile (elapsed persistOk : Bool) : EStateM SkError SafeKeeper Unit := do
  if !elapsed then return
  let self ← get
  let needPersist :=
    decide (self.state.inmem.commitLsn > self.state.pers.commitLsn) ||
      decide (self.state.inmem.backupLsn > self.state.pers.backupLsn) ||
      decide (self.state.inmem.peerHorizonLsn > self.state.pers.peerHorizonLsn) ||
      decide (self.state.inmem.remoteConsistentLsn > self.state.pers.remoteConsistentLsn)
  if needPersist then onState (TimelineState.flush persistOk)

/-- `Timeline::update_remote_consistent_lsn`: the pageserver's report raises, never lowers, the
in-memory `remote_consistent_lsn`. -/
def updateRemoteConsistentLsn (candidate : Nat) (sk : SafeKeeper) : SafeKeeper :=
  { sk with
    state.inmem.remoteConsistentLsn := max sk.state.inmem.remoteConsistentLsn candidate }

/-- `SharedState::get_safekeeper_info`: what a safekeeper publishes to its peers. -/
def getSafekeeperInfo (self : SafeKeeper) : SafekeeperTimelineInfo where
  lastLogTerm := self.getEpoch
  commitLsn := self.state.inmem.commitLsn
  backupLsn := self.state.inmem.backupLsn
  remoteConsistentLsn := self.state.inmem.remoteConsistentLsn
  peerHorizonLsn := self.state.inmem.peerHorizonLsn

/-- `maybe_persist_inmem_control_file` keeps the invariants: it persists only the in-memory
values. -/
theorem sound_maybePersistInmemControlFile (elapsed persistOk : Bool) (sk : SafeKeeper) :
    Sound' (maybePersistInmemControlFile elapsed persistOk) sk := by
  unfold maybePersistInmemControlFile
  cases elapsed
  · exact EStateM.keeps_pure_bind (EStateM.keeps_pure trivial)
  · refine EStateM.keeps_pure_bind (EStateM.keeps_get_bind ?_)
    exact EStateM.keeps_ite (fun _ => sound_flush _ _) fun _ => EStateM.keeps_pure trivial

/-- A report of the pageserver keeps the invariants and advances the state. -/
theorem updateRemoteConsistentLsn_inv {sk : SafeKeeper} (hinv : Inv sk) (candidate : Nat) :
    Inv (sk.updateRemoteConsistentLsn candidate) ∧
      Advances sk (sk.updateRemoteConsistentLsn candidate) :=
  hinv.withInmem (by simp [TimelineMemState.horizons, Prod.mk_le_mk]) hinv.commitLeFlush

/-- An upload's `set_wal_backup_lsn` keeps the invariants and advances the state. -/
theorem setWalBackupLsn_inv {sk : SafeKeeper} (hinv : Inv sk) (backupLsn : Nat) :
    Inv (setWalBackupLsn backupLsn sk) ∧ Advances sk (setWalBackupLsn backupLsn sk) :=
  hinv.withInmem (by simp [TimelineMemState.horizons, Prod.mk_le_mk]) hinv.commitLeFlush

theorem Advances.commitLsn_le {sk sk' : SafeKeeper} (h : Advances sk sk') :
    sk.state.inmem.commitLsn ≤ sk'.state.inmem.commitLsn :=
  h.inmem.1

theorem Advances.backupLsn_le {sk sk' : SafeKeeper} (h : Advances sk sk') :
    sk.state.inmem.backupLsn ≤ sk'.state.inmem.backupLsn :=
  h.inmem.2.1

/-- The persisted `backup_lsn` is at most the in-memory one. -/
theorem Inv.persBackupLsn_le {sk : SafeKeeper} (h : Inv sk) :
    sk.state.pers.backupLsn ≤ sk.state.inmem.backupLsn :=
  h.persLeInmem.2.1

/-! ## What the safekeeper's operations do to the fields offloading reads -/

open EStateM

/-- What an operation does to the fields offloading reads: the WAL segment size stays, the
timeline start rises at most to `t`, and `backup_lsn` either stays or ends satisfying `P`. -/
structure Frame (t : Nat) (P : Nat → Prop) (sk sk' : SafeKeeper) : Prop where
  walSegSize : sk'.state.pers.server.walSegSize = sk.state.pers.server.walSegSize
  timelineStartLsn : sk'.state.pers.timelineStartLsn ≤ max sk.state.pers.timelineStartLsn t
  backupLsn : sk'.state.inmem.backupLsn = sk.state.inmem.backupLsn ∨ P sk'.state.inmem.backupLsn

instance (t : Nat) (P : Nat → Prop) : IsPreorder SafeKeeper (Frame t P) where
  refl _ := ⟨rfl, le_max_left _ _, .inl rfl⟩
  trans _ _ _ h h' :=
    { walSegSize := h'.walSegSize.trans h.walSegSize
      timelineStartLsn := by
        have := h.timelineStartLsn
        have := h'.timelineStartLsn
        omega
      backupLsn := by
        rcases h'.backupLsn with h₂ | h₂
        · rw [h₂]
          exact h.backupLsn
        · exact .inr h₂ }

/-- The timeline starts at or before `t`. -/
def StartsBy (t : Nat) (sk : SafeKeeper) : Prop :=
  sk.state.pers.timelineStartLsn ≤ t

/-- Run from `sk`, the program keeps the timeline start at or before `t` and the frame. -/
abbrev Framed (t : Nat) (P : Nat → Prop) {α : Type} (x : EStateM SkError SafeKeeper α)
    (sk : SafeKeeper) : Prop :=
  Keeps' (StartsBy t) (Frame t P) (fun _ => True) x sk

section Frame

variable {t : Nat} {P : Nat → Prop} {sk sk' : SafeKeeper}

theorem StartsBy.of_frame (h : StartsBy t sk) (hf : Frame t P sk sk') : StartsBy t sk' := by
  have := hf.timelineStartLsn
  unfold StartsBy at h ⊢
  omega

/-- A change that keeps the control file state and `backup_lsn` is in the frame. -/
theorem frame_of_pers (hpers : sk'.state.pers = sk.state.pers)
    (hbackup : sk'.state.inmem.backupLsn = sk.state.inmem.backupLsn) : Frame t P sk sk' :=
  ⟨by rw [hpers], by rw [hpers]; exact le_max_left _ _, .inl hbackup⟩

/-- A step in the frame keeps `StartsBy t`: the premise of the `Keeps` rules for one step. -/
theorem framed_step (hf : StartsBy t sk → Frame t P sk sk') :
    StartsBy t sk → StartsBy t sk' ∧ Frame t P sk sk' :=
  fun hs => ⟨hs.of_frame (hf hs), hf hs⟩

/-- Persisting a control file state is in the frame when the state keeps the segment size,
raises the timeline start at most to `t`, and either keeps the in-memory `backup_lsn` or has
one satisfying `P`. -/
theorem framed_finishChange {s : TimelinePersistentState} {ok : Bool}
    (hseg : s.server.walSegSize = sk.state.pers.server.walSegSize)
    (htsl : StartsBy t sk → s.timelineStartLsn ≤ max sk.state.pers.timelineStartLsn t)
    (hbackup : StartsBy t sk → s.backupLsn = sk.state.inmem.backupLsn ∨ P s.backupLsn) :
    Framed t P (onState (TimelineState.finishChange s ok)) sk := by
  intro hs
  rw [onState_finishChange]
  cases ok
  · exact ⟨hs, refl_of _ sk, trivial⟩
  · exact framed_step (fun hs => ⟨hseg, htsl hs, hbackup hs⟩) hs |>.imp_right (⟨·, trivial⟩)

theorem framed_flush (ok : Bool) (sk : SafeKeeper) :
    Framed t P (onState (TimelineState.flush ok)) sk :=
  framed_finishChange rfl (fun _ => le_max_left _ _) fun _ => .inl rfl

theorem framed_onWalStore {α : Type} (x : EStateM SkError PhysicalStorage α) (sk : SafeKeeper) :
    Framed t P (onWalStore x) sk :=
  Keeps.of_result fun hs =>
    have hf : Frame t P sk (onWalStore x sk).state := by
      rw [onWalStore, focus_state]
      exact frame_of_pers rfl rfl
    ⟨hs.of_frame hf, hf, fun _ _ _ => trivial, fun _ _ _ => trivial⟩

theorem framed_updateCommitLsn (candidate : Nat) (ok : Bool) (sk : SafeKeeper) :
    Framed t P (updateCommitLsn candidate ok) sk := by
  unfold updateCommitLsn
  refine keeps_get_bind (keeps_throwIf_bind (fun _ _ => trivial) fun _ => ?_)
  refine keeps_set_bind (framed_step fun _ => frame_of_pers rfl rfl) ?_
  exact keeps_ite (fun _ => framed_flush _ _) fun _ => keeps_pure trivial

theorem framed_handleGreeting (msg : ProposerGreeting) (io : Io) (sk : SafeKeeper) :
    Framed t P (handleGreeting msg io) sk := by
  unfold handleGreeting
  refine keeps_get_bind ?_
  iterate 5 refine keeps_throwIf_bind (fun _ _ => trivial) fun _ => ?_
  -- the adopted system id and version are not in the frame
  have hseg : (greetingState msg sk.state.startChange).server.walSegSize =
      sk.state.pers.server.walSegSize := by
    unfold greetingState
    split <;> rfl
  refine keeps_bind (keeps_ite (fun _ => framed_finishChange hseg (fun _ => le_max_left _ _)
    fun _ => .inl rfl) fun _ => keeps_pure trivial) fun _ _ _ _ => ?_
  exact keeps_get_bind (keeps_pure trivial)

theorem framed_handleVoteRequest (msg : VoteRequest) (io : Io) (sk : SafeKeeper) :
    Framed t P (handleVoteRequest msg io) sk := by
  unfold handleVoteRequest
  refine keeps_bind (framed_onWalStore _ _) fun _ _ _ _ => keeps_get_bind ?_
  dsimp only
  refine keeps_ite (fun _ => ?_) fun _ => keeps_pure trivial
  refine keeps_bind (framed_finishChange rfl (fun _ => le_max_left _ _) fun _ => .inl rfl)
    fun _ _ _ _ => ?_
  exact keeps_get_bind (keeps_pure trivial)

/-- `handle_elected` raises `backup_lsn` at most to the timeline start, which it learns from a
proposer that starts the timeline at or before `t`. -/
theorem framed_handleElected (msg : ProposerElected) (io : Io) (sk : SafeKeeper)
    (hmsg : msg.timelineStartLsn ≤ t) :
    Framed t (· ≤ t) (handleElected msg io) sk := by
  unfold handleElected
  refine keeps_get_bind (keeps_bind (keeps_ite (fun _ => framed_finishChange rfl
    (fun _ => le_max_left _ _) fun _ => .inl rfl) fun _ => keeps_pure trivial) fun _ _ _ _ => ?_)
  refine keeps_get_bind (keeps_ite (fun _ => keeps_pure trivial) fun _ => ?_)
  refine keeps_throwIf_bind (fun _ _ => trivial) fun _ => ?_
  refine keeps_throwIf_bind (fun _ _ => trivial) fun _ => ?_
  refine keeps_bind (framed_onWalStore _ _) fun _ sk₂ _ _ => keeps_get_bind ?_
  refine keeps_bind (framed_finishChange (by rw [electedState_eq]; rfl) (fun hs => ?_) fun hs => ?_)
    fun _ _ _ _ => ?_
  · rw [electedState_timelineStartLsn]
    split <;> simp [hmsg]
  · -- `backup_lsn` is raised to the timeline start, which is at or before `t`
    have hstart : (electedState msg sk₂.state.startChange).timelineStartLsn ≤ t := by
      rw [electedState_timelineStartLsn]
      split
      · exact hmsg
      · exact hs
    have hbackup : (electedState msg sk₂.state.startChange).backupLsn =
        max sk₂.state.inmem.backupLsn (electedState msg sk₂.state.startChange).timelineStartLsn :=
      congrArg (·.2.1) (electedState_horizons msg sk₂.state.startChange)
    rw [hbackup]
    by_cases hle : (electedState msg sk₂.state.startChange).timelineStartLsn ≤
      sk₂.state.inmem.backupLsn
    · exact .inl (max_eq_left hle)
    · exact .inr (max_le (by omega) hstart)
  split
  · exact keeps_throw_bind trivial
  · exact keeps_modify_bind (framed_step fun _ => frame_of_pers rfl rfl) (keeps_pure trivial)

theorem framed_handleAppendRequest (msg : AppendRequest) (requireFlush : Bool) (io : Io)
    (sk : SafeKeeper) : Framed t P (handleAppendRequest msg requireFlush io) sk := by
  unfold handleAppendRequest
  refine keeps_get_bind (keeps_throwIf_bind (fun _ _ => trivial) fun _ => ?_)
  refine keeps_ite (fun _ => keeps_pure trivial) fun _ => ?_
  refine keeps_modify_bind (framed_step fun _ => frame_of_pers rfl rfl) ?_
  refine keeps_bind (keeps_ite (fun _ => framed_onWalStore _ _) fun _ => keeps_pure trivial)
    fun _ _ _ _ => ?_
  refine keeps_bind (keeps_ite (fun _ => framed_onWalStore _ _) fun _ => keeps_pure trivial)
    fun _ _ _ _ => ?_
  refine keeps_bind (keeps_ite (fun _ => framed_updateCommitLsn _ _ _) fun _ => keeps_pure trivial)
    fun _ _ _ _ => ?_
  refine keeps_modify_bind (framed_step fun _ => frame_of_pers rfl rfl) ?_
  refine keeps_get_bind (keeps_bind (keeps_ite (fun _ => framed_flush _ _)
    fun _ => keeps_pure trivial) fun _ _ _ _ => ?_)
  exact keeps_ite (fun _ => keeps_pure trivial) fun _ => keeps_get_bind (keeps_pure trivial)

theorem framed_handleFlush (io : Io) (sk : SafeKeeper) : Framed t P (handleFlush io) sk :=
  keeps_bind (framed_onWalStore _ _) fun _ _ _ _ => keeps_get_bind (keeps_pure trivial)

end Frame

/-- A message of a proposer that starts the timeline at or before `t` moves `backup_lsn` at most
to `t`. -/
theorem framed_processMsg {t : Nat} (msg : ProposerAcceptorMessage) (io : Io) (sk : SafeKeeper)
    (hmsg : msg.StartsBy t) : Framed t (· ≤ t) (processMsg msg io) sk := by
  cases msg with
  | greeting msg => exact framed_handleGreeting msg io sk
  | voteRequest msg => exact framed_handleVoteRequest msg io sk
  | elected msg => exact framed_handleElected msg io sk hmsg
  | appendRequest msg => exact framed_handleAppendRequest msg true io sk
  | noFlushAppendRequest msg => exact framed_handleAppendRequest msg false io sk
  | flushWAL => exact framed_handleFlush io sk

/-- A peer's report moves `backup_lsn` only to the peer's `backup_lsn`. -/
theorem framed_recordSafekeeperInfo {t : Nat} (info : SafekeeperTimelineInfo) (io : Io)
    (sk : SafeKeeper) : Framed t (· = info.backupLsn) (recordSafekeeperInfo info io) sk := by
  unfold recordSafekeeperInfo
  dsimp only
  refine keeps_get_bind (keeps_bind (keeps_ite (fun _ => framed_updateCommitLsn _ _ _)
    fun _ => keeps_pure trivial) fun _ _ _ _ => ?_)
  refine keeps_modify_bind (framed_step fun _ => ⟨rfl, le_max_left _ _, ?_⟩) (keeps_get_bind ?_)
  · -- the peer's value, or ours if it is higher
    dsimp only
    omega
  -- `remote_consistent_lsn` and `peer_horizon_lsn` are not in the frame
  refine keeps_modify_bind (framed_step fun _ => frame_of_pers rfl rfl) (keeps_get_bind ?_)
  refine keeps_modify_bind (framed_step fun _ => frame_of_pers rfl rfl) (keeps_get_bind ?_)
  exact keeps_ite (fun _ => framed_flush _ _) fun _ => keeps_pure trivial

theorem framed_maybePersistInmemControlFile {t : Nat} {P : Nat → Prop} (elapsed persistOk : Bool)
    (sk : SafeKeeper) : Framed t P (maybePersistInmemControlFile elapsed persistOk) sk := by
  unfold maybePersistInmemControlFile
  cases elapsed
  · exact keeps_pure_bind (keeps_pure trivial)
  · exact keeps_pure_bind (keeps_get_bind (keeps_ite (fun _ => framed_flush _ _)
      fun _ => keeps_pure trivial))

end SafeKeeper

end NeonStorage

import Mathlib
import NeonStorage.Safekeeper.Run
import NeonStorage.Safekeeper.WalBackup

/-!
# WAL offloading across the safekeepers of a timeline

Every safekeeper of a timeline runs the calls of `Safekeeper/WalBackup.lean` on its own copy of
the timeline.  The copies meet in two places: the broker, to which each publishes its
`SafekeeperTimelineInfo` and from which each takes its peers' (`record_safekeeper_info`), and
remote storage, where the uploads of the backup tasks land.  Each safekeeper elects the
offloader from its own view of its peers (`update_task`), so two tasks may upload at once, and a
task that steps down or fails drops the uploads it still runs.

`Cluster.step` is one operation on one safekeeper: a message of a proposer, a publication or a
peer's report through the broker, a report of the pageserver, an election, a wake or an await of
the backup task, a persist or a WAL removal of the removal thread.  Each is `Node.step` on the
safekeeper, whose `Effect` (uploads, publications, the removal's `segno_up_to`) the cluster then
takes in.

Fix the WAL segment size `W` and the timeline's initial `backup_lsn`, `b0`.  Over every run from
safekeepers that all start at `b0`, with proposers that start the timeline at or before `b0`,
`offload_run_safety` states: no `backup_lsn` ever decreases, and an upload leaves it at a segment
boundary past `b0`; every `backup_lsn` `b` on any safekeeper, or in the broker, has every segment
from the one of `b0` up to the one of `b` in remote storage, uploaded whole by a safekeeper whose
`commit_lsn` was past it; and a removal deletes a segment only if it lies below the persisted
`remote_consistent_lsn`, `peer_horizon_lsn` and `backup_lsn` (and the laggard walsender, when it
is kept), so that it is in remote storage.
-/

namespace NeonStorage

namespace Offload

/-- A segment in remote storage: the segment, the safekeeper that uploaded it, and the
`commit_lsn` under which its backup task chose it. -/
structure Upload where
  seg : Segment
  uploader : Nat
  commitLsn : Nat
deriving DecidableEq, Repr

/-- A safekeeper's copy of the timeline: its shared state, and the handle of its WAL backup task
(`WalBackupTimelineEntry::handle`), if it runs one. -/
structure Node where
  shared : SharedState
  task : Option WalBackupTask
deriving DecidableEq, Repr

/-- The settings offloading reads: those of `SafeKeeperConf`, and the timeline's
`walsenders_keep_horizon` and id. -/
structure Conf where
  backupParallelJobs : Nat
  maxOffloaderLagBytes : Nat
  walBackupEnabled : Bool
  walsendersKeepHorizon : Bool
  timelineId : Nat
deriving DecidableEq, Repr

/-- What happens on one safekeeper, with the answers of its environment. -/
inductive Op where
  /-- A message of the proposer (`process_msg`). -/
  | processMsg (msg : ProposerAcceptorMessage) (io : Io)
  /-- The safekeeper publishes `get_safekeeper_info` to the broker. -/
  | publish
  /-- The safekeeper takes the `k`-th message of the broker (`record_safekeeper_info`). -/
  | recordSafekeeperInfo (k : Nat) (io : Io)
  /-- The pageserver reports its `remote_consistent_lsn`. -/
  | updateRemoteConsistentLsn (candidate : Nat)
  /-- The launcher elects the offloader from the live peers the safekeeper knows of. -/
  | updateTask (alivePeers : List PeerInfo)
  /-- The backup task wakes at the top of its offload loop, with `commitLsn` in its watch
  channel. -/
  | backupWake (commitLsn : Nat)
  /-- The backup task waits for its oldest upload, which succeeded or failed. -/
  | backupAwait (ok : Bool)
  /-- The removal thread calls `maybe_persist_control_file`. -/
  | persistControlFile (elapsed persistOk : Bool)
  /-- The removal thread calls `remove_old_wal`, the laggard walsender being at `laggardLsn`. -/
  | removeOldWal (laggardLsn : Option Nat) (removeOk : Bool)
deriving DecidableEq, Repr

/-- An operation on the safekeeper at position `node` of the cluster. -/
structure Event where
  node : Nat
  op : Op
deriving DecidableEq, Repr

/-- What an operation on one safekeeper shows outside it: the segments it uploaded, what it
published to the broker, and the `segno_up_to` of the removal it made. -/
structure Effect where
  uploads : List Upload
  published : List SafekeeperTimelineInfo
  removed : Option Nat
deriving DecidableEq, Repr

/-- An operation that shows nothing outside the safekeeper. -/
def Effect.empty : Effect := ⟨[], [], none⟩

namespace Node

/-- The node with its safekeeper replaced. -/
def withSk (n : Node) (sk : SafeKeeper) : Node :=
  { n with shared := { n.shared with sk } }

/-- `update_task`: elect the offloader from the safekeeper's view of its live peers.  A task is
spawned if this safekeeper is elected and runs none, and the running one is shut down if it is
not elected. -/
def updateTask (conf : Conf) (alivePeers : List PeerInfo) (n : Node) : Node :=
  let walBackupLsn := n.shared.sk.state.inmem.backupLsn
  let offloader :=
    determineOffloader alivePeers walBackupLsn conf.timelineId conf.maxOffloaderLagBytes
  let electedMe := offloader == some n.shared.sk.nodeId
  if electedMe != n.task.isSome then
    if electedMe then { n with task := some WalBackupTask.new } else { n with task := none }
  else n

/-- The backup task, if one runs and has no range under way, wakes at the top of its loop. -/
def backupWake (parallelJobs commitLsn : Nat) (n : Node) : Node :=
  match n.task with
  | some task =>
    if task.range.isNone then
      { n with task := some (task.wake parallelJobs commitLsn n.shared.sk) }
    else n
  | none => n

/-- The backup task, if one runs, waits for its oldest upload.  A segment it reports done is in
remote storage, uploaded by this safekeeper (`i`) under the `commit_lsn` its range was chosen
with. -/
def backupAwait (parallelJobs : Nat) (ok : Bool) (i : Nat) (n : Node) : Node × List Upload :=
  match n.task with
  | none => (n, [])
  | some task =>
    let (done, sk, task') := task.awaitUpload parallelJobs ok n.shared.sk
    let uploads : List Upload :=
      match done, task.range with
      | some seg, some r => [⟨seg, i, r.endLsn⟩]
      | _, _ => []
    ({ shared := { n.shared with sk }, task := some task' }, uploads)

/-- One operation on the safekeeper at position `i`, which reads the broker's messages. -/
def step (conf : Conf) (broker : List SafekeeperTimelineInfo) (i : Nat) (n : Node) :
    Op → Node × Effect
  | .processMsg msg io => (n.withSk (SafeKeeper.processMsg msg io n.shared.sk).state, .empty)
  | .publish => (n, ⟨[], [n.shared.sk.getSafekeeperInfo], none⟩)
  | .recordSafekeeperInfo k io =>
    match broker[k]? with
    | some info => (n.withSk (SafeKeeper.recordSafekeeperInfo info io n.shared.sk).state, .empty)
    | none => (n, .empty)
  | .updateRemoteConsistentLsn candidate =>
    (n.withSk (n.shared.sk.updateRemoteConsistentLsn candidate), .empty)
  | .updateTask alivePeers => (n.updateTask conf alivePeers, .empty)
  | .backupWake commitLsn => (n.backupWake conf.backupParallelJobs commitLsn, .empty)
  | .backupAwait ok =>
    let (n', uploads) := n.backupAwait conf.backupParallelJobs ok i
    (n', ⟨uploads, [], none⟩)
  | .persistControlFile elapsed persistOk =>
    (n.withSk (SafeKeeper.maybePersistInmemControlFile elapsed persistOk n.shared.sk).state, .empty)
  | .removeOldWal laggardLsn removeOk =>
    -- `remove_old_wal` takes the laggard walsender into account only when told to keep it
    let replicationHorizonLsn := if conf.walsendersKeepHorizon then laggardLsn else none
    let (removed, shared) :=
      n.shared.removeOldWal conf.walBackupEnabled replicationHorizonLsn removeOk
    ({ n with shared }, ⟨[], [], removed⟩)

end Node

/-- The safekeepers of a timeline, by position, with what remote storage and the broker hold. -/
structure Cluster where
  nodes : List Node
  remote : List Upload
  broker : List SafekeeperTimelineInfo
deriving DecidableEq, Repr

namespace Cluster

/-- One operation on one safekeeper of the cluster; the answer is the `segno_up_to` of a
removal.  An event on a position with no safekeeper changes nothing. -/
def step (conf : Conf) (c : Cluster) (ev : Event) : Option Nat × Cluster :=
  match c.nodes[ev.node]? with
  | none => (none, c)
  | some n =>
    let (n', eff) := n.step conf c.broker ev.node ev.op
    (eff.removed, ⟨c.nodes.set ev.node n', c.remote ++ eff.uploads, c.broker ++ eff.published⟩)

end Cluster

/-- The answers of the environment that the run assumes of an operation on the safekeeper `n`:
a proposer starts the timeline at or before `b0`, the WAL decoder completes only records that
end past the last record end written, and the backup task's watch channel holds a `commit_lsn`
the safekeeper has reached. -/
def Op.Admissible (b0 : Nat) (n : Node) : Op → Prop
  | .processMsg msg io =>
    msg.StartsBy b0 ∧ Decoded n.shared.sk.walStore.writeRecordLsn io.walDecoded
  | .backupWake commitLsn => commitLsn ≤ n.shared.sk.state.inmem.commitLsn
  | _ => True

instance (b0 : Nat) (n : Node) : (op : Op) → Decidable (op.Admissible b0 n)
  | .processMsg msg io => inferInstanceAs (Decidable (msg.StartsBy b0 ∧
      Decoded n.shared.sk.walStore.writeRecordLsn io.walDecoded))
  | .backupWake commitLsn =>
    inferInstanceAs (Decidable (commitLsn ≤ n.shared.sk.state.inmem.commitLsn))
  | .publish | .recordSafekeeperInfo _ _ | .updateRemoteConsistentLsn _ | .updateTask _
  | .backupAwait _ | .persistControlFile _ _ | .removeOldWal _ _ => inferInstanceAs (Decidable True)

/-- An event is admissible when its operation is, on the safekeeper it is on. -/
def Event.Admissible (b0 : Nat) (c : Cluster) (ev : Event) : Prop :=
  ∀ n ∈ c.nodes[ev.node]?, ev.op.Admissible b0 n

instance (b0 : Nat) (c : Cluster) (ev : Event) : Decidable (ev.Admissible b0 c) :=
  inferInstanceAs (Decidable (∀ n ∈ c.nodes[ev.node]?, ev.op.Admissible b0 n))

/-! ## What offloading keeps -/

section Spec

variable (W b0 : Nat)

/-- Every segment from the one `b0` falls in up to, and without, the one `lsn` falls in is in
remote storage. -/
def Covered (remote : List Upload) (lsn : Nat) : Prop :=
  ∀ s, segmentNumber b0 W ≤ s → s < segmentNumber lsn W →
    ∃ u ∈ remote, u.seg = Segment.ofSegNo s W

/-- A `backup_lsn` that offloading may hold: its segments are in remote storage, and past `b0`
it is a segment boundary. -/
structure BackupOk (remote : List Upload) (lsn : Nat) : Prop where
  covered : Covered W b0 remote lsn
  boundary : lsn ≤ b0 ∨ W ∣ lsn

/-- What a backup task keeps: its own `backup_lsn` is covered, and a range under way started
at or past `b0`, ends within `commit_lsn`, and holds, in its uploads and then the segments it has
not started, the segments from that `backup_lsn` on. -/
structure TaskOk (remote : List Upload) (sk : SafeKeeper) (task : WalBackupTask) : Prop where
  covered : Covered W b0 remote task.backupLsn
  range : ∀ r ∈ task.range, b0 ≤ task.backupLsn ∧ r.endLsn ≤ sk.state.inmem.commitLsn ∧
    r.uploads ++ r.pending = getSegments task.backupLsn r.endLsn W

/-- What holds of each safekeeper: its own invariant, a timeline start at or before `b0`, the
segment size `W`, a `backup_lsn` from `b0` on that offloading may hold, and a backup task that
keeps `TaskOk`. -/
structure NodeOk (remote : List Upload) (n : Node) : Prop where
  inv : SafeKeeper.Inv n.shared.sk
  startsBy : SafeKeeper.StartsBy b0 n.shared.sk
  walSegSize : n.shared.sk.state.pers.server.walSegSize = W
  backupGe : b0 ≤ n.shared.sk.state.inmem.backupLsn
  backup : BackupOk W b0 remote n.shared.sk.state.inmem.backupLsn
  task : ∀ task ∈ n.task, TaskOk W b0 remote n.shared.sk task

/-- An upload in remote storage is a whole segment, below the `commit_lsn` it was chosen under,
which its uploader's `commit_lsn` has reached. -/
structure UploadOk (nodes : List Node) (u : Upload) : Prop where
  whole : u.seg = Segment.ofSegNo u.seg.segNo W
  belowCommit : u.seg.endLsn ≤ u.commitLsn
  uploader : ∃ n, nodes[u.uploader]? = some n ∧ u.commitLsn ≤ n.shared.sk.state.inmem.commitLsn

/-- The invariant of the cluster. -/
structure Cluster.Inv (c : Cluster) : Prop where
  nodes : ∀ n ∈ c.nodes, NodeOk W b0 c.remote n
  broker : ∀ info ∈ c.broker, BackupOk W b0 c.remote info.backupLsn
  remote : ∀ u ∈ c.remote, UploadOk W c.nodes u

/-- Where a run starts: every safekeeper satisfies its invariant, with the segment size `W`, a
timeline start at or before `b0` and `backup_lsn = b0`, and runs no backup task; remote storage
and the broker are empty. -/
structure Cluster.Init (c : Cluster) : Prop where
  nodes : ∀ n ∈ c.nodes, SafeKeeper.Inv n.shared.sk ∧ n.shared.sk.state.pers.server.walSegSize = W ∧
    SafeKeeper.StartsBy b0 n.shared.sk ∧ n.shared.sk.state.inmem.backupLsn = b0 ∧ n.task = none
  remote : c.remote = []
  broker : c.broker = []

/-- What holds of a segment `s` that a removal on a safekeeper in state `sk` deletes: it lies
whole below the persisted `remote_consistent_lsn`, `peer_horizon_lsn` and, with offloading,
`backup_lsn`, and below the laggard walsender when that is kept; with offloading, from the
segment of `b0` on, it is in remote storage. -/
structure Removable (conf : Conf) (remote : List Upload) (sk : SafeKeeper)
    (laggardLsn : Option Nat) (s : Nat) : Prop where
  remoteConsistentLsn : (s + 1) * W ≤ sk.state.pers.remoteConsistentLsn
  peerHorizonLsn : (s + 1) * W ≤ sk.state.pers.peerHorizonLsn
  backupLsn : conf.walBackupEnabled = true → (s + 1) * W ≤ sk.state.pers.backupLsn
  laggard : conf.walsendersKeepHorizon = true → ∀ l, laggardLsn = some l → (s + 1) * W ≤ l
  uploaded : conf.walBackupEnabled = true → segmentNumber b0 W ≤ s →
    ∃ u ∈ remote, u.seg = Segment.ofSegNo s W

end Spec

section Lemmas

variable {W b0 : Nat} {remote remote' : List Upload}

theorem Covered.mono_remote {lsn : Nat} (h : Covered W b0 remote lsn) (hsub : remote ⊆ remote') :
    Covered W b0 remote' lsn := fun s h₁ h₂ =>
  let ⟨u, hu, hseg⟩ := h s h₁ h₂
  ⟨u, hsub hu, hseg⟩

/-- Up to `b0` nothing has to be in remote storage. -/
theorem covered_of_le {lsn : Nat} (h : lsn ≤ b0) : Covered W b0 remote lsn :=
  fun _ h₁ h₂ => absurd (lt_of_lt_of_le h₂ (segmentNumber_mono h W)) (not_lt.2 h₁)

/-- The segment a backup task uploads next, the one its `backup_lsn` falls in, extends what is
covered by one segment. -/
theorem Covered.extend (hW : 0 < W) {tb : Nat} {u : Upload} (h : Covered W b0 remote tb)
    (hsub : remote ⊆ remote') (hu : u ∈ remote')
    (hseg : u.seg = Segment.ofSegNo (segmentNumber tb W) W) :
    Covered W b0 remote' (Segment.ofSegNo (segmentNumber tb W) W).endLsn := by
  intro s h₁ h₂
  rw [segmentNumber_ofSegNo_endLsn hW] at h₂
  rcases Nat.lt_succ_iff_lt_or_eq.mp h₂ with hlt | rfl
  · exact h.mono_remote hsub s h₁ hlt
  · exact ⟨u, hu, hseg⟩

theorem BackupOk.of_le {lsn : Nat} (h : lsn ≤ b0) : BackupOk W b0 remote lsn :=
  ⟨covered_of_le h, .inl h⟩

theorem BackupOk.mono_remote {lsn : Nat} (h : BackupOk W b0 remote lsn) (hsub : remote ⊆ remote') :
    BackupOk W b0 remote' lsn :=
  ⟨h.covered.mono_remote hsub, h.boundary⟩

/-- `backup_lsn` is only ever raised with `max`, which keeps it one of the values offloading may
hold. -/
theorem BackupOk.max {a b : Nat} (ha : BackupOk W b0 remote a) (hb : BackupOk W b0 remote b) :
    BackupOk W b0 remote (max a b) := by
  rcases le_total a b with h | h
  · rwa [max_eq_right h]
  · rwa [max_eq_left h]

theorem TaskOk.mono_remote {sk : SafeKeeper} {task : WalBackupTask}
    (h : TaskOk W b0 remote sk task) (hsub : remote ⊆ remote') : TaskOk W b0 remote' sk task :=
  ⟨h.covered.mono_remote hsub, h.range⟩

/-- A task's range stays within `commit_lsn` as it rises. -/
theorem TaskOk.of_commitLsn_le {sk sk' : SafeKeeper} {task : WalBackupTask}
    (h : TaskOk W b0 remote sk task) (hle : sk.state.inmem.commitLsn ≤ sk'.state.inmem.commitLsn) :
    TaskOk W b0 remote sk' task := by
  refine ⟨h.covered, fun r hr => ?_⟩
  obtain ⟨hge, hend, hsegs⟩ := h.range r hr
  exact ⟨hge, hend.trans hle, hsegs⟩

/-- A task just spawned starts from `backup_lsn = 0` with no range. -/
theorem taskOk_new (sk : SafeKeeper) : TaskOk W b0 remote sk WalBackupTask.new := by
  refine ⟨fun s _ h₂ => ?_, fun r hr => ?_⟩
  · simp [WalBackupTask.new, segmentNumber] at h₂
  · simp [WalBackupTask.new] at hr

theorem NodeOk.mono_remote {n : Node} (h : NodeOk W b0 remote n) (hsub : remote ⊆ remote') :
    NodeOk W b0 remote' n :=
  { h with
    backup := h.backup.mono_remote hsub
    task := fun task ht => (h.task task ht).mono_remote hsub }

@[simp] theorem Node.withSk_sk (n : Node) (sk : SafeKeeper) : (n.withSk sk).shared.sk = sk := rfl

@[simp] theorem Node.withSk_task (n : Node) (sk : SafeKeeper) : (n.withSk sk).task = n.task := rfl

@[simp] theorem Effect.empty_uploads : Effect.empty.uploads = [] := rfl

@[simp] theorem Effect.empty_published : Effect.empty.published = [] := rfl

@[simp] theorem Effect.empty_removed : Effect.empty.removed = none := rfl

/-- Whether a node is ok depends only on its safekeeper and its task. -/
theorem NodeOk.congr {n n' : Node} (h : NodeOk W b0 remote n) (hsk : n'.shared.sk = n.shared.sk)
    (htask : n'.task = n.task) : NodeOk W b0 remote n' := by
  obtain ⟨hinv, hstarts, hseg, hge, hbackup, htaskOk⟩ := h
  rw [← hsk] at hinv hstarts hseg hge hbackup
  refine ⟨hinv, hstarts, hseg, hge, hbackup, fun task ht => ?_⟩
  rw [htask] at ht
  rw [← hsk] at htaskOk
  exact htaskOk task ht

/-- A node keeps being ok with a task that keeps `TaskOk`. -/
theorem NodeOk.withTask {n : Node} (h : NodeOk W b0 remote n) {t : Option WalBackupTask}
    (ht : ∀ task ∈ t, TaskOk W b0 remote n.shared.sk task) :
    NodeOk W b0 remote { n with task := t } :=
  { h with task := ht }

theorem NodeOk.withSomeTask {n : Node} (h : NodeOk W b0 remote n) {task : WalBackupTask}
    (ht : TaskOk W b0 remote n.shared.sk task) : NodeOk W b0 remote { n with task := some task } :=
  h.withTask fun _ hmem => Option.mem_some_iff.mp hmem ▸ ht

/-- An operation on the safekeeper that keeps its invariant, advances it, and keeps the frame,
with `backup_lsn` kept or moved to a value satisfying `P`, keeps the node ok if every such value
is one offloading may hold. -/
theorem NodeOk.withSk {n : Node} {sk' : SafeKeeper} {P : Nat → Prop} (h : NodeOk W b0 remote n)
    (hinv : SafeKeeper.Inv sk') (hadv : SafeKeeper.Advances n.shared.sk sk')
    (hframe : SafeKeeper.Frame b0 P n.shared.sk sk') (hP : ∀ l, P l → BackupOk W b0 remote l) :
    NodeOk W b0 remote (n.withSk sk') where
  inv := hinv
  startsBy := h.startsBy.of_frame hframe
  walSegSize := hframe.walSegSize.trans h.walSegSize
  backupGe := h.backupGe.trans hadv.backupLsn_le
  backup := by
    rcases hframe.backupLsn with hsame | hmoved
    · rw [Node.withSk_sk, hsame]
      exact h.backup
    · exact hP _ hmoved
  task := fun task ht => (h.task task ht).of_commitLsn_le hadv.commitLsn_le

end Lemmas

/-! ## One operation on one safekeeper -/

section NodeStep

variable (W b0 : Nat)

/-- An upload that the safekeeper at position `i`, now `n`, has just made: a whole segment below
the `commit_lsn` it was chosen under, which the safekeeper has reached, ending past `b0` at a
segment boundary that its `backup_lsn` has reached. -/
structure Uploaded (i : Nat) (n : Node) (u : Upload) : Prop where
  uploader : u.uploader = i
  whole : u.seg = Segment.ofSegNo u.seg.segNo W
  belowCommit : u.seg.endLsn ≤ u.commitLsn
  commitReached : u.commitLsn ≤ n.shared.sk.state.inmem.commitLsn
  pastB0 : b0 < u.seg.endLsn
  boundary : W ∣ u.seg.endLsn
  backupReached : u.seg.endLsn ≤ n.shared.sk.state.inmem.backupLsn

/-- What one operation on the safekeeper at position `i` does, as the rest of the cluster sees
it: the safekeeper stays ok over remote storage with its uploads, its `commit_lsn` and
`backup_lsn` do not decrease, its uploads are `Uploaded`, and what it publishes is a
`backup_lsn` offloading may hold. -/
structure NodeStep (remote : List Upload) (i : Nat) (n n' : Node) (eff : Effect) : Prop where
  node : NodeOk W b0 (remote ++ eff.uploads) n'
  commitLsn : n.shared.sk.state.inmem.commitLsn ≤ n'.shared.sk.state.inmem.commitLsn
  backupLsn : n.shared.sk.state.inmem.backupLsn ≤ n'.shared.sk.state.inmem.backupLsn
  uploads : ∀ u ∈ eff.uploads, Uploaded W b0 i n' u
  published : ∀ info ∈ eff.published, BackupOk W b0 (remote ++ eff.uploads) info.backupLsn

end NodeStep

section Ops

variable {W b0 : Nat} {remote : List Upload} {i : Nat} {n : Node}

/-- An operation that keeps the safekeeper as it is and shows nothing but a removal. -/
theorem nodeStep_of_sk_eq {n' : Node} {removed : Option Nat} (h : NodeOk W b0 remote n')
    (hsk : n'.shared.sk = n.shared.sk) : NodeStep W b0 remote i n n' ⟨[], [], removed⟩ where
  node := by simpa using h
  commitLsn := by rw [hsk]
  backupLsn := by rw [hsk]
  uploads := by simp
  published := by simp

/-- An operation of the safekeeper alone, in the frame, that keeps its invariant and advances
it. -/
theorem nodeStep_withSk {sk' : SafeKeeper} {P : Nat → Prop} (h : NodeOk W b0 remote n)
    (hinv : SafeKeeper.Inv sk') (hadv : SafeKeeper.Advances n.shared.sk sk')
    (hframe : SafeKeeper.Frame b0 P n.shared.sk sk') (hP : ∀ l, P l → BackupOk W b0 remote l) :
    NodeStep W b0 remote i n (n.withSk sk') .empty where
  node := by simpa using h.withSk hinv hadv hframe hP
  commitLsn := hadv.commitLsn_le
  backupLsn := hadv.backupLsn_le
  uploads := by simp
  published := by simp

/-- The same for an operation of the safekeeper run in `EStateM`, from its `Keeps` statements. -/
theorem nodeStep_run {α : Type} {x : EStateM SkError SafeKeeper α} {E : SkError → Prop}
    {Q : α → SafeKeeper → Prop} {P : Nat → Prop} (h : NodeOk W b0 remote n)
    (hsound : EStateM.Keeps SafeKeeper.Inv SafeKeeper.Advances E Q x n.shared.sk)
    (hframed : SafeKeeper.Framed b0 P x n.shared.sk) (hP : ∀ l, P l → BackupOk W b0 remote l) :
    NodeStep W b0 remote i n (n.withSk (x n.shared.sk).state) .empty := by
  obtain ⟨hinv, hadv, -⟩ := hsound.result h.inv
  obtain ⟨-, hframe, -⟩ := hframed.result h.startsBy
  exact nodeStep_withSk h hinv hadv hframe hP

/-- An election spawns a task that keeps `TaskOk`, stops the running one, or changes nothing. -/
theorem NodeOk.updateTask (h : NodeOk W b0 remote n) (conf : Conf) (alivePeers : List PeerInfo) :
    NodeOk W b0 remote (n.updateTask conf alivePeers) := by
  unfold Node.updateTask
  dsimp only
  split_ifs
  · exact h.withSomeTask (taskOk_new _)
  · exact h.withTask fun _ ht => by simp at ht
  · exact h

theorem Node.updateTask_sk (conf : Conf) (alivePeers : List PeerInfo) :
    (n.updateTask conf alivePeers).shared.sk = n.shared.sk := by
  unfold Node.updateTask
  dsimp only
  split_ifs <;> rfl

/-- A wake with no range under way keeps `TaskOk`: it takes the timeline's `backup_lsn`, which
offloading may hold, and a range it starts holds the segments from there to `commit_lsn`. -/
theorem TaskOk.wake (h : NodeOk W b0 remote n) {task : WalBackupTask}
    (htask : TaskOk W b0 remote n.shared.sk task) (hr : task.range = none) (parallelJobs : Nat)
    {commitLsn : Nat} (hcommit : commitLsn ≤ n.shared.sk.state.inmem.commitLsn) :
    TaskOk W b0 remote n.shared.sk (task.wake parallelJobs commitLsn n.shared.sk) := by
  unfold WalBackupTask.wake
  dsimp only
  split_ifs
  · exact htask
  · exact ⟨h.backup.covered, fun r hr' => by simp [hr] at hr'⟩
  · exact ⟨h.backup.covered, fun r hr' => by simp [hr] at hr'⟩
  · refine ⟨h.backup.covered, fun r hr' => ?_⟩
    obtain rfl := Option.mem_some_iff.mp hr'
    exact ⟨h.backupGe, hcommit, by rw [List.nil_append, h.walSegSize]⟩

theorem NodeOk.backupWake (h : NodeOk W b0 remote n) (parallelJobs : Nat) {commitLsn : Nat}
    (hcommit : commitLsn ≤ n.shared.sk.state.inmem.commitLsn) :
    NodeOk W b0 remote (n.backupWake parallelJobs commitLsn) := by
  unfold Node.backupWake
  rcases htask : n.task with _ | task
  · exact h
  · dsimp only
    split_ifs with hr
    · exact h.withSomeTask
        ((h.task task htask).wake h (Option.isNone_iff_eq_none.mp hr) parallelJobs hcommit)
    · exact h

theorem Node.backupWake_sk (parallelJobs commitLsn : Nat) :
    (n.backupWake parallelJobs commitLsn).shared.sk = n.shared.sk := by
  unfold Node.backupWake
  split
  · split_ifs <;> rfl
  · rfl

/-- The oldest upload of a range under way is the segment the task's `backup_lsn` falls in.  It
ends within the range, past `b0`, at a segment boundary, and the rest of the range holds the
segments from its end on. -/
theorem TaskOk.awaitNext (hW : 0 < W) {sk : SafeKeeper} {task : WalBackupTask} {r : BackupRange}
    {seg : Segment} {uploads pending : List Segment} {parallelJobs : Nat}
    (htask : TaskOk W b0 remote sk task) (hr : task.range = some r)
    (hfill : fillUploads parallelJobs r.pending r.uploads = (pending, seg :: uploads)) :
    seg = Segment.ofSegNo (segmentNumber task.backupLsn W) W ∧ seg.endLsn ≤ r.endLsn ∧
      uploads ++ pending = getSegments seg.endLsn r.endLsn W ∧ b0 < seg.endLsn ∧
      W ∣ seg.endLsn := by
  obtain ⟨hb0, -, hsegs⟩ := htask.range r hr
  -- starting uploads keeps the order of the segments, so the oldest upload comes first
  have hcons : getSegments task.backupLsn r.endLsn W = seg :: (uploads ++ pending) := by
    have happ := fillUploads_append parallelJobs r.pending r.uploads
    rw [hfill, hsegs] at happ
    exact happ.symm
  obtain ⟨hseg, hrest⟩ := getSegments_eq_cons hW hcons
  have hend : seg.endLsn ≤ r.endLsn :=
    endLsn_le_of_mem_getSegments (hcons ▸ List.mem_cons_self)
  refine ⟨hseg, hend, hrest, ?_, ?_⟩
  · have hnext := Nat.lt_div_mul_add (a := task.backupLsn) hW
    rw [hseg, Segment.ofSegNo_endLsn, Nat.succ_mul]
    unfold segmentNumber
    omega
  · rw [hseg, Segment.ofSegNo_endLsn]
    exact Dvd.intro_left _ rfl

/-- A wait of the backup task: with the oldest upload done, the segment is in remote storage,
`backup_lsn` moves to its end, and the task goes on from there; otherwise nothing is uploaded. -/
theorem nodeStep_backupAwait (hW : 0 < W) (h : NodeOk W b0 remote n) (parallelJobs : Nat)
    (ok : Bool) :
    NodeStep W b0 remote i n (n.backupAwait parallelJobs ok i).1
      ⟨(n.backupAwait parallelJobs ok i).2, [], none⟩ := by
  unfold Node.backupAwait
  rcases htask : n.task with _ | task
  · exact nodeStep_of_sk_eq h rfl
  have htaskOk := h.task task htask
  rcases task.awaitUpload_cases parallelJobs ok n.shared.sk with
    ⟨hr, hawait⟩ | hawait | ⟨r, seg, uploads, pending, hr, hfill, rfl, hawait⟩
  · -- no range under way: nothing changes
    simp only [hawait]
    exact nodeStep_of_sk_eq (h.congr rfl htask.symm) rfl
  · -- the range ends, with nothing left to upload or a failed upload
    simp only [hawait]
    refine nodeStep_of_sk_eq (h.congr rfl rfl |>.withSomeTask ?_) rfl
    exact ⟨htaskOk.covered, fun r hr' => by simp at hr'⟩
  · obtain ⟨hseg, hend, hrest, hpast, hdvd⟩ := htaskOk.awaitNext hW hr hfill
    obtain ⟨-, hcommit, -⟩ := htaskOk.range r hr
    obtain ⟨hinv', hadv⟩ := SafeKeeper.setWalBackupLsn_inv h.inv seg.endLsn
    have hsub : remote ⊆ remote ++ [⟨seg, i, r.endLsn⟩] := List.subset_append_left _ _
    have hcov : Covered W b0 (remote ++ [⟨seg, i, r.endLsn⟩]) seg.endLsn := by
      have hext := htaskOk.covered.extend hW hsub (u := ⟨seg, i, r.endLsn⟩) (by simp) hseg
      rwa [← hseg] at hext
    simp only [hawait, hr]
    refine ⟨⟨hinv', h.startsBy, h.walSegSize, ?_, ?_, ?_⟩, hadv.commitLsn_le, hadv.backupLsn_le,
      ?_, by simp⟩
    · exact le_max_of_le_left h.backupGe
    · exact (h.backup.mono_remote hsub).max ⟨hcov, .inr hdvd⟩
    · -- the task goes on from the end of the segment
      intro task' ht
      obtain rfl := Option.mem_some_iff.mp ht
      refine ⟨hcov, fun r' hr' => ?_⟩
      obtain rfl := Option.mem_some_iff.mp hr'
      exact ⟨hpast.le, hcommit, hrest⟩
    · intro u hu
      rw [List.mem_singleton] at hu
      subst hu
      exact ⟨rfl, by rw [hseg, Segment.ofSegNo_segNo], hend, hcommit, hpast, hdvd,
        le_max_right _ _⟩

/-- Every operation on an ok safekeeper, with a broker that holds only `backup_lsn` values
offloading may hold and a proposer message that is admissible, is a `NodeStep`. -/
theorem nodeStep (hW : 0 < W) (h : NodeOk W b0 remote n) {broker : List SafekeeperTimelineInfo}
    (hbroker : ∀ info ∈ broker, BackupOk W b0 remote info.backupLsn) (conf : Conf) {op : Op}
    (hadm : op.Admissible b0 n) :
    NodeStep W b0 remote i n (n.step conf broker i op).1 (n.step conf broker i op).2 := by
  cases op with
  | processMsg msg io =>
    obtain ⟨hmsg, hdec⟩ := hadm
    exact nodeStep_run h (SafeKeeper.sound_processMsg msg io _ hdec)
      (SafeKeeper.framed_processMsg msg io _ hmsg) fun _ hl => BackupOk.of_le hl
  | publish =>
    simp only [Node.step]
    refine ⟨by simpa using h, le_rfl, le_rfl, by simp, fun info hinfo => ?_⟩
    rw [List.mem_singleton] at hinfo
    subst hinfo
    simpa [SafeKeeper.getSafekeeperInfo] using h.backup
  | recordSafekeeperInfo k io =>
    simp only [Node.step]
    rcases hk : broker[k]? with _ | info
    · exact nodeStep_of_sk_eq h rfl
    · -- the peer's `backup_lsn` came through the broker
      have hpeer := hbroker info (List.mem_of_getElem? hk)
      exact nodeStep_run h (SafeKeeper.sound_recordSafekeeperInfo info io _)
        (SafeKeeper.framed_recordSafekeeperInfo info io _) fun _ hl => hl ▸ hpeer
  | updateRemoteConsistentLsn candidate =>
    obtain ⟨hinv, hadv⟩ := SafeKeeper.updateRemoteConsistentLsn_inv h.inv candidate
    exact nodeStep_withSk (P := fun _ => False) h hinv hadv (SafeKeeper.frame_of_pers rfl rfl)
      fun _ hf => hf.elim
  | updateTask alivePeers =>
    exact nodeStep_of_sk_eq (h.updateTask conf alivePeers) (Node.updateTask_sk conf alivePeers)
  | backupWake commitLsn =>
    exact nodeStep_of_sk_eq (h.backupWake _ hadm) (Node.backupWake_sk _ _)
  | backupAwait ok => exact nodeStep_backupAwait hW h _ ok
  | persistControlFile elapsed persistOk =>
    exact nodeStep_run (P := fun _ => False) h
      (SafeKeeper.sound_maybePersistInmemControlFile elapsed persistOk _)
      (SafeKeeper.framed_maybePersistInmemControlFile elapsed persistOk _) fun _ hf => hf.elim
  | removeOldWal laggardLsn removeOk =>
    -- a removal deletes local files only; the safekeeper's state stays
    exact nodeStep_of_sk_eq (h.congr (SharedState.removeOldWal_sk ..) rfl)
      (SharedState.removeOldWal_sk ..)

/-- A removal deletes only `Removable` segments: those below the horizon it computes from the
persisted LSNs, where the persisted `backup_lsn`, at most the in-memory one, has every segment
from `b0` on in remote storage. -/
theorem removable_of_step (hW : 0 < W) (h : NodeOk W b0 remote n)
    {broker : List SafekeeperTimelineInfo} {conf : Conf} {laggardLsn : Option Nat}
    {removeOk : Bool} {upTo : Nat}
    (hup : (n.step conf broker i (.removeOldWal laggardLsn removeOk)).2.removed = some upTo) :
    ∀ s ≤ upTo, Removable W b0 conf remote n.shared.sk laggardLsn s := by
  intro s hs
  have hup' : (n.shared.removeOldWal conf.walBackupEnabled
      (if conf.walsendersKeepHorizon then laggardLsn else none) removeOk).1 = some upTo := hup
  obtain ⟨hrcl, hphl, hbackup, hlag⟩ := SharedState.removeOldWal_below hup' hs
  rw [h.walSegSize] at hrcl hphl hbackup hlag
  refine ⟨hrcl, hphl, hbackup, fun hkeep l hl => hlag l (by simp [hkeep, hl]), fun hen hge => ?_⟩
  -- the segment ends within the in-memory `backup_lsn`, so it comes before that LSN's segment
  have hend : (s + 1) * W ≤ n.shared.sk.state.inmem.backupLsn :=
    (hbackup hen).trans h.inv.persBackupLsn_le
  have hlt : s < segmentNumber n.shared.sk.state.inmem.backupLsn W :=
    (Nat.le_div_iff_mul_le hW).mpr hend
  exact h.backup.covered s hge hlt

end Ops

/-! ## The cluster -/

/-- What one transition of a run must do, beside keeping what holds of the state after it:
no safekeeper's `backup_lsn` decreases; an upload leaves its uploader's `backup_lsn` at or past
the segment's end, a segment boundary past `b0`; and a removal deletes only `Removable`
segments. -/
structure StepSafety (W b0 : Nat) (conf : Conf) (t : Transition Cluster Event (Option Nat)) :
    Prop where
  backupLsn : ∀ (j : Nat) (n n' : Node), t.before.nodes[j]? = some n → t.after.nodes[j]? = some n' →
    n.shared.sk.state.inmem.backupLsn ≤ n'.shared.sk.state.inmem.backupLsn
  upload : ∀ u ∈ t.after.remote, u ∉ t.before.remote →
    ∃ n' : Node, t.after.nodes[u.uploader]? = some n' ∧ b0 < u.seg.endLsn ∧ W ∣ u.seg.endLsn ∧
      u.seg.endLsn ≤ n'.shared.sk.state.inmem.backupLsn
  removal : ∀ laggardLsn removeOk upTo, t.input.op = .removeOldWal laggardLsn removeOk →
    t.output = some upTo → ∃ n : Node, t.before.nodes[t.input.node]? = some n ∧
      ∀ s ≤ upTo, Removable W b0 conf t.before.remote n.shared.sk laggardLsn s

section ClusterStep

variable {W b0 : Nat} {c : Cluster} {conf : Conf} {ev : Event} {i : Nat} {n n' : Node}

theorem Cluster.step_of_getElem?_none (hn : c.nodes[ev.node]? = none) :
    c.step conf ev = (none, c) := by
  unfold Cluster.step
  rw [hn]

theorem Cluster.step_of_getElem? (hn : c.nodes[ev.node]? = some n) :
    c.step conf ev =
      ((n.step conf c.broker ev.node ev.op).2.removed,
        ⟨c.nodes.set ev.node (n.step conf c.broker ev.node ev.op).1,
          c.remote ++ (n.step conf c.broker ev.node ev.op).2.uploads,
          c.broker ++ (n.step conf c.broker ev.node ev.op).2.published⟩) := by
  unfold Cluster.step
  rw [hn]

/-- An upload stays `UploadOk` when its uploader's `commit_lsn` does not decrease. -/
theorem UploadOk.set {nodes : List Node} {u : Upload} (h : UploadOk W nodes u)
    (hn : nodes[i]? = some n)
    (hle : n.shared.sk.state.inmem.commitLsn ≤ n'.shared.sk.state.inmem.commitLsn) :
    UploadOk W (nodes.set i n') u := by
  obtain ⟨m, hm, hcommit⟩ := h.uploader
  refine ⟨h.whole, h.belowCommit, ?_⟩
  by_cases hi : i = u.uploader
  · subst hi
    rw [hn, Option.some.injEq] at hm
    subst hm
    exact ⟨n', List.getElem?_set_self (List.getElem?_eq_some_iff.mp hn).1, hcommit.trans hle⟩
  · exact ⟨m, by rw [List.getElem?_set_ne hi]; exact hm, hcommit⟩

theorem Uploaded.uploadOk {nodes : List Node} {u : Upload} (h : Uploaded W b0 i n' u)
    (hi : i < nodes.length) : UploadOk W (nodes.set i n') u := by
  refine ⟨h.whole, h.belowCommit, n', ?_, h.commitReached⟩
  rw [h.uploader]
  exact List.getElem?_set_self hi

/-- The cluster stays ok when one safekeeper takes a `NodeStep` and its effect is taken in. -/
theorem Cluster.Inv.update {eff : Effect} (hinv : c.Inv W b0) (hn : c.nodes[i]? = some n)
    (hstep : NodeStep W b0 c.remote i n n' eff) :
    Cluster.Inv W b0 ⟨c.nodes.set i n', c.remote ++ eff.uploads, c.broker ++ eff.published⟩ where
  nodes := by
    intro m hm
    rcases List.mem_or_eq_of_mem_set hm with hm | rfl
    · exact (hinv.nodes m hm).mono_remote (List.subset_append_left _ _)
    · exact hstep.node
  broker := by
    intro info hinfo
    rcases List.mem_append.mp hinfo with hold | hnew
    · exact (hinv.broker info hold).mono_remote (List.subset_append_left _ _)
    · exact hstep.published info hnew
  remote := by
    intro u hu
    rcases List.mem_append.mp hu with hold | hnew
    · exact (hinv.remote u hold).set hn hstep.commitLsn
    · exact (hstep.uploads u hnew).uploadOk (List.getElem?_eq_some_iff.mp hn).1

/-- The step lemma of the cluster: an admissible event keeps the invariant, and its transition
satisfies `StepSafety`. -/
theorem Cluster.step_spec (hW : 0 < W) (hinv : c.Inv W b0) (hadm : ev.Admissible b0 c) :
    (c.step conf ev).2.Inv W b0 ∧
      StepSafety W b0 conf ⟨c, ev, (c.step conf ev).1, (c.step conf ev).2⟩ := by
  rcases hn : c.nodes[ev.node]? with _ | n
  · -- no safekeeper at that position: nothing changes
    rw [Cluster.step_of_getElem?_none hn]
    refine ⟨hinv, fun j m m' hm hm' => ?_, fun u hu hnot => absurd hu hnot,
      fun _ _ _ _ hout => by cases hout⟩
    rw [hm, Option.some.injEq] at hm'
    rw [hm']
  have hi : ev.node < c.nodes.length := (List.getElem?_eq_some_iff.mp hn).1
  have hstep := nodeStep (i := ev.node) hW (hinv.nodes n (List.mem_of_getElem? hn)) hinv.broker
    conf (hadm n hn)
  rw [Cluster.step_of_getElem? hn]
  refine ⟨hinv.update hn hstep, ⟨?_, ?_, ?_⟩⟩
  · -- only the safekeeper the event is on changes
    intro j m m' hm hm'
    by_cases hj : ev.node = j
    · subst hj
      rw [hn, Option.some.injEq] at hm
      rw [List.getElem?_set_self hi, Option.some.injEq] at hm'
      subst hm hm'
      exact hstep.backupLsn
    · rw [List.getElem?_set_ne hj, hm, Option.some.injEq] at hm'
      rw [hm']
  · -- a new upload is one the safekeeper just made
    intro u hu hnot
    have hup := hstep.uploads u ((List.mem_append.mp hu).resolve_left hnot)
    refine ⟨_, ?_, hup.pastB0, hup.boundary, hup.backupReached⟩
    rw [hup.uploader]
    exact List.getElem?_set_self hi
  · intro laggardLsn removeOk upTo hop hout
    refine ⟨n, hn, ?_⟩
    dsimp only at hop hout
    rw [hop] at hout
    exact removable_of_step hW (hinv.nodes n (List.mem_of_getElem? hn)) hout

end ClusterStep

/-! ## Runs -/

section Run

variable {W b0 : Nat} {conf : Conf} {c : Cluster}

/-- A cluster where a run starts is ok: every `backup_lsn` is `b0`, and nothing is uploaded,
published or under way. -/
theorem Cluster.Inv.of_init (hinit : c.Init W b0) : c.Inv W b0 where
  nodes := by
    intro n hn
    obtain ⟨hinv, hseg, hstarts, hbackup, htask⟩ := hinit.nodes n hn
    refine ⟨hinv, hstarts, hseg, hbackup.ge, ?_, fun task ht => ?_⟩
    · rw [hbackup]
      exact BackupOk.of_le le_rfl
    · rw [htask] at ht
      cases ht
  broker := by
    intro info hinfo
    rw [hinit.broker] at hinfo
    cases hinfo
  remote := by
    intro u hu
    rw [hinit.remote] at hu
    cases hu

/-- The run lemma: from an ok cluster, every transition of a run of admissible events starts and
ends in an ok cluster and satisfies `StepSafety`. -/
theorem trace_stepSafety (hW : 0 < W) (hinv : c.Inv W b0) {evs : List Event}
    (hadm : ∀ t ∈ trace (Cluster.step conf) c evs, t.input.Admissible b0 t.before) :
    ∀ t ∈ trace (Cluster.step conf) c evs,
      t.before.Inv W b0 ∧ t.after.Inv W b0 ∧ StepSafety W b0 conf t := by
  have hrun := mem_trace_invariant (Cluster.Inv W b0) (fun c ev => ev.Admissible b0 c)
    (fun _ _ hadm' hinv' => (Cluster.step_spec hW hinv' hadm').1) c evs hinv hadm
  intro t ht
  obtain ⟨hbefore, hafter⟩ := hrun t ht
  have hsafe : StepSafety W b0 conf
      ⟨t.before, t.input, (t.before.step conf t.input).1, (t.before.step conf t.input).2⟩ :=
    (Cluster.step_spec hW hbefore (hadm t ht)).2
  rw [mem_trace_step c evs t ht] at hsafe
  exact ⟨hbefore, hafter, hsafe⟩

end Run

theorem offload_run_safety {conf : Conf} {W b0 : Nat} {c : Cluster} {evs : List Event}
    (hW : 0 < W) (hinit : c.Init W b0)
    (hadm : ∀ t ∈ trace (Cluster.step conf) c evs, t.input.Admissible b0 t.before) :
    ∀ t ∈ trace (Cluster.step conf) c evs, StepSafety W b0 conf t ∧
      (∀ n ∈ t.after.nodes, BackupOk W b0 t.after.remote n.shared.sk.state.inmem.backupLsn) ∧
      (∀ info ∈ t.after.broker, BackupOk W b0 t.after.remote info.backupLsn) ∧
      ∀ u ∈ t.after.remote, UploadOk W t.after.nodes u := by
  intro t ht
  obtain ⟨-, hafter, hsafe⟩ := trace_stepSafety hW (Cluster.Inv.of_init hinit) hadm t ht
  exact ⟨hsafe, fun n hn => (hafter.nodes n hn).backup, hafter.broker, hafter.remote⟩

theorem offload_run_safety_two_safekeepers :
    let state : TimelinePersistentState :=
      { tenantId := 1, timelineId := 1, acceptorState := { term := 1, termHistory := [] }
        server := { pgVersion := 160000, systemId := 0, walSegSize := 16 }
        proposerUuid := 0, timelineStartLsn := 16, localStartLsn := 16, commitLsn := 64
        backupLsn := 16, peerHorizonLsn := 64, remoteConsistentLsn := 64 }
    let node (id : Nat) : Node :=
      { shared :=
          { sk :=
              { epochStartLsn := 0, state := TimelineState.new state
                walStore := PhysicalStorage.new state [], nodeId := id }
            lastRemovedSegno := 0 }
        task := none }
    let conf : Conf :=
      { backupParallelJobs := 2, maxOffloaderLagBytes := 0, walBackupEnabled := true
        walsendersKeepHorizon := false, timelineId := 2 }
    let ok : Io :=
      { persistOk := true, secondPersistOk := true, walFlushOk := true, walTruncateOk := true
        walWriteFailedAfter := none, walDecoded := [], walDecodeOk := true }
    let c : Cluster := ⟨[node 0, node 1], [], []⟩
    let evs : List Event :=
      [ ⟨0, .updateTask [⟨0, 64, 16⟩, ⟨1, 64, 16⟩]⟩, ⟨0, .backupWake 64⟩, ⟨0, .backupAwait true⟩,
        ⟨0, .backupAwait true⟩, ⟨0, .publish⟩, ⟨1, .recordSafekeeperInfo 0 ok⟩,
        ⟨1, .removeOldWal none true⟩ ]
    0 < 16 ∧ c.Init 16 16 ∧ (∀ t ∈ trace (Cluster.step conf) c evs, t.input.Admissible 16 t.before) ∧
      ∀ t ∈ trace (Cluster.step conf) c evs, StepSafety 16 16 conf t ∧
        (∀ n ∈ t.after.nodes, BackupOk 16 16 t.after.remote n.shared.sk.state.inmem.backupLsn) ∧
        (∀ info ∈ t.after.broker, BackupOk 16 16 t.after.remote info.backupLsn) ∧
        ∀ u ∈ t.after.remote, UploadOk 16 t.after.nodes u := by
  intro state node conf ok c evs
  have hinit : c.Init 16 16 := by
    refine ⟨fun n hn => ?_, rfl, rfl⟩
    simp only [c, List.mem_cons, List.not_mem_nil, or_false] at hn
    rcases hn with rfl | rfl
    · exact ⟨@SafeKeeper.Inv.new state [] 0 _ rfl (by decide), rfl, le_rfl, rfl, rfl⟩
    · exact ⟨@SafeKeeper.Inv.new state [] 1 _ rfl (by decide), rfl, le_rfl, rfl, rfl⟩
  have hadm : ∀ t ∈ trace (Cluster.step conf) c evs, t.input.Admissible 16 t.before := by
    decide
  exact ⟨by decide, hinit, hadm, offload_run_safety (by decide) hinit hadm⟩

end Offload

end NeonStorage

import Mathlib
import NeonStorage.Lib.Trace
import NeonStorage.Safekeeper.Invariants

/-!
# Runs of a safekeeper

A run of a safekeeper starts from `SafeKeeper::new` over a control file and the WAL that
`find_end_of_wal` finds on disk, and goes through any sequence of messages of proposers, reports
of peers and restarts (`SafeKeeper.step`), each with the answers of the disk and the decoder.

`SoundStep` says what one transition does from a state that satisfies `SafeKeeper.Inv`; it is
read off the `Sound` lemma of the handler, or, for a restart, off `SafeKeeper::new`.  By
induction over the run (`mem_trace_invariant`, `trace_pairwise_le`) every transition of a run is
such a step, the term and the persisted horizons are never lower later in the run, and no term
gets two votes, restarts included.  A persist that fails writes nothing, so a step whose
persists all fail leaves the control file as it was (`step_pers_of_failsEveryPersist`).

Two things do not hold over runs: the in-memory horizons, which a restart resets to the
persisted values, and the in-memory changes an operation makes before a persist that fails,
which stay.  The last theorem shows both on a fresh safekeeper.
-/

namespace NeonStorage

namespace SafeKeeper

open EStateM

/-! ## Restarts -/

/-- What `SafeKeeper::new` builds, when it does. -/
theorem new_eq_ok {state : TimelinePersistentState} {w : PhysicalStorage} {nodeId : Nat}
    {sk : SafeKeeper} (h : new state w nodeId = .ok sk) :
    (state.tenantId ≠ 0 ∧ state.timelineId ≠ 0) ∧
      sk = { epochStartLsn := 0, state := TimelineState.new state, walStore := w, nodeId } := by
  unfold new at h
  by_cases hempty : state.tenantId = 0 ∨ state.timelineId = 0
  · rw [if_pos hempty] at h
    cases h
  · rw [if_neg hempty] at h
    cases h
    exact ⟨not_or.mp hempty, rfl⟩

/-- A safekeeper built over a control file and the WAL that `find_end_of_wal` decodes from its
`commit_lsn` satisfies the invariant. -/
theorem Inv.new {state : TimelinePersistentState} {walRecords : List Nat} {nodeId : Nat}
    {sk : SafeKeeper}
    (h : SafeKeeper.new state (PhysicalStorage.new state walRecords) nodeId = .ok sk)
    (hwal : Decoded state.commitLsn walRecords) : Inv sk := by
  obtain ⟨hnamed, rfl⟩ := new_eq_ok h
  exact
    { persLeInmem := le_refl _
      commitLeFlush := le_max_of_le_left (PhysicalStorage.commitLsn_le_new_flushLsn hwal)
      wal := PhysicalStorage.new_inv state walRecords
      named := hnamed }

/-- The safekeeper a restart builds. -/
def restarted (self : SafeKeeper) (walRecords : List Nat) : SafeKeeper where
  epochStartLsn := 0
  state := TimelineState.new self.state.pers
  walStore := PhysicalStorage.new self.state.pers walRecords
  nodeId := self.nodeId

/-- A restart of a safekeeper whose control file names its tenant and timeline succeeds. -/
theorem restart_eq {sk : SafeKeeper} (hinv : Inv sk) (walRecords : List Nat) :
    sk.restart walRecords = .ok (sk.restarted walRecords) := by
  unfold restart new
  rw [if_neg (not_or.mpr hinv.named)]
  rfl

/-! ## One step -/

/-- A transition gives a vote for `term`. -/
def GivesVote (t : Transition SafeKeeper Event Reply) (term : Nat) : Prop :=
  ∃ resp, t.output = .ok (some (.voteResponse resp)) ∧ resp.voteGiven ≠ 0 ∧ resp.term = term

/-- What a transition of a safekeeper does: it keeps the invariant, never fails the assertion
of `update_commit_lsn`, and lowers neither the term nor a persisted horizon; a vote it gives is
for a term above the one it starts with, and persisted by the time the vote is sent; an
operation other than a restart lowers no in-memory horizon; and a restart succeeds and rebuilds
the timeline state from the control file. -/
structure SoundStep (t : Transition SafeKeeper Event Reply) : Prop where
  inv : Inv t.after
  noCommitPanic : t.output ≠ .error commitPanic
  term : t.before.getTerm ≤ t.after.getTerm
  pers : t.before.state.pers.horizons ≤ t.after.state.pers.horizons
  vote : ∀ term, GivesVote t term → t.before.getTerm < term ∧ t.after.getTerm = term
  advances : (∀ walRecords, t.input ≠ .restart walRecords) → Advances t.before t.after
  restart : ∀ walRecords, t.input = .restart walRecords →
    t.output = .ok none ∧ t.after.state = TimelineState.new t.before.state.pers

variable {sk sk' : SafeKeeper} {out : Reply}

/-- An operation other than a restart is a sound step when its handler is `Sound`, read off the
reply and the state it leaves. -/
theorem soundStep_of_sound {ev : Event} (hnot : ∀ walRecords, ev ≠ .restart walRecords)
    (hinv' : Inv sk') (hadv : Advances sk sk') (hvote : ∀ a, out = .ok a → VoteFact sk a sk')
    (herr : out ≠ .error commitPanic) : SoundStep ⟨sk, ev, out, sk'⟩ where
  inv := hinv'
  noCommitPanic := herr
  term := hadv.term
  pers := hadv.pers
  vote := by
    rintro term ⟨resp, hout, hgiven, rfl⟩
    exact hvote _ hout resp rfl hgiven
  advances _ := hadv
  restart walRecords h := absurd h (hnot walRecords)

theorem soundStep_processMsg {msg : ProposerAcceptorMessage} {io : Io} (hinv : Inv sk)
    (hdec : Decoded sk.walStore.writeRecordLsn io.walDecoded)
    (hstep : sk.step (.processMsg msg io) = (out, sk')) :
    SoundStep ⟨sk, .processMsg msg io, out, sk'⟩ := by
  simp only [step, Prod.mk.injEq] at hstep
  obtain ⟨rfl, rfl⟩ := hstep
  obtain ⟨hinv', hadv, hok, herr⟩ := (sound_processMsg msg io sk hdec).result hinv
  exact soundStep_of_sound (fun _ => by simp) hinv' hadv hok fun h => herr _ h rfl

theorem soundStep_recordSafekeeperInfo {info : SafekeeperTimelineInfo} {io : Io}
    (hinv : Inv sk) (hstep : sk.step (.recordSafekeeperInfo info io) = (out, sk')) :
    SoundStep ⟨sk, .recordSafekeeperInfo info io, out, sk'⟩ := by
  simp only [step, Prod.mk.injEq] at hstep
  obtain ⟨rfl, rfl⟩ := hstep
  obtain ⟨hinv', hadv, -, herr⟩ := (sound_recordSafekeeperInfo info io sk).result hinv
  -- the reply is always empty, and an error is the handler's own
  cases hv : (recordSafekeeperInfo info io sk).value with
  | ok _ =>
    refine soundStep_of_sound (fun _ => by simp) hinv' hadv (fun a ha => ?_) (by simp)
    simp only [Functor.map, Except.map, Except.ok.injEq] at ha
    exact ha ▸ voteFact_of_ne (by simp)
  | error e =>
    refine soundStep_of_sound (fun _ => by simp) hinv' hadv (fun a ha => ?_) ?_
    · simp [Functor.map, Except.map] at ha
    · simpa [hv, Functor.map, Except.map] using herr e hv

theorem soundStep_restart {walRecords : List Nat} (hinv : Inv sk)
    (hdec : Decoded sk.state.pers.commitLsn walRecords)
    (hstep : sk.step (.restart walRecords) = (out, sk')) :
    SoundStep ⟨sk, .restart walRecords, out, sk'⟩ := by
  simp only [step, restart_eq hinv, Prod.mk.injEq] at hstep
  obtain ⟨rfl, rfl⟩ := hstep
  exact
    { inv := Inv.new (restart_eq hinv walRecords) hdec
      noCommitPanic := by simp
      term := le_rfl
      pers := le_rfl
      vote := by
        rintro term ⟨resp, hout, -⟩
        cases hout
      advances := fun h => absurd rfl (h walRecords)
      restart := fun _ h => by
        cases h
        exact ⟨rfl, rfl⟩ }

/-- The step lemma: from a state satisfying the invariant, an admissible step is sound. -/
theorem soundStep {ev : Event} (hinv : Inv sk) (hadm : ev.Admissible sk)
    (hstep : sk.step ev = (out, sk')) : SoundStep ⟨sk, ev, out, sk'⟩ := by
  cases ev with
  | processMsg msg io => exact soundStep_processMsg hinv hadm hstep
  | recordSafekeeperInfo info io => exact soundStep_recordSafekeeperInfo hinv hstep
  | restart walRecords => exact soundStep_restart hinv hadm hstep

/-- Every persist of the control file that the event's operation makes fails; a restart makes
none. -/
def Event.FailsEveryPersist : Event → Prop
  | .processMsg _ io => io.persistOk = false ∧ io.secondPersistOk = false
  | .recordSafekeeperInfo _ io => io.persistOk = false ∧ io.secondPersistOk = false
  | .restart _ => True

/-- The frame lemma of a step: one whose persists all fail leaves the control file as it was,
whatever it changed in memory or in the WAL. -/
theorem step_pers_of_failsEveryPersist {ev : Event} (hfail : ev.FailsEveryPersist) :
    (sk.step ev).2.state.pers = sk.state.pers := by
  cases ev with
  | processMsg msg io =>
    exact ((keepsPers_processMsg hfail.1 hfail.2 msg sk).result trivial).2.1
  | recordSafekeeperInfo info io =>
    exact ((keepsPers_recordSafekeeperInfo hfail.1 hfail.2 info sk).result trivial).2.1
  | restart walRecords =>
    simp only [step]
    split
    · -- a restart rebuilds the timeline state from the control file
      rename_i sk' h
      obtain ⟨-, rfl⟩ := new_eq_ok h
      rfl
    · rfl

/-! ## Whole runs -/

/-- What holds over a run: every transition is a `SoundStep` from a state that satisfies the
invariant; the term and the persisted horizons are never lower at a later transition than at an
earlier one; and no two transitions give a vote for the same term. -/
structure RunFacts (run : List (Transition SafeKeeper Event Reply)) : Prop where
  step : ∀ t ∈ run, Inv t.before ∧ SoundStep t
  term : run.Pairwise fun a b => a.after.getTerm ≤ b.before.getTerm
  pers : run.Pairwise fun a b => a.after.state.pers.horizons ≤ b.before.state.pers.horizons
  voteOnce : run.Pairwise fun a b => ∀ term, GivesVote a term → ¬GivesVote b term

/-- The run lemma: from a state satisfying the invariant, every transition of a run of
admissible steps starts from a state satisfying it and is sound. -/
theorem trace_soundStep {evs : List Event} (hinv : Inv sk)
    (hadm : ∀ t ∈ trace step sk evs, t.input.Admissible t.before) :
    ∀ t ∈ trace step sk evs, Inv t.before ∧ SoundStep t := by
  have hrun : ∀ t ∈ trace step sk evs, Inv t.before ∧ Inv t.after :=
    mem_trace_invariant Inv (fun sk ev => ev.Admissible sk)
      (fun _ _ hadm hinv => (soundStep hinv hadm Prod.mk.eta.symm).inv) sk evs hinv hadm
  intro t ht
  exact ⟨(hrun t ht).1, soundStep (hrun t ht).1 (hadm t ht) (mem_trace_step sk evs t ht)⟩

theorem safekeeper_run_invariants {state : TimelinePersistentState} {walRecords : List Nat}
    {nodeId : Nat} {evs : List Event}
    (hnew : new state (PhysicalStorage.new state walRecords) nodeId = .ok sk)
    (hwal : Decoded state.commitLsn walRecords)
    (hadm : ∀ t ∈ trace step sk evs, t.input.Admissible t.before) :
    RunFacts (trace step sk evs) ∧
      ∀ t ∈ trace step sk evs, t.input.FailsEveryPersist →
        t.after.state.pers = t.before.state.pers := by
  have hsteps := trace_soundStep (Inv.new hnew hwal) hadm
  have hterm := trace_pairwise_le getTerm sk evs fun t ht => (hsteps t ht).2.term
  have hpers := trace_pairwise_le (·.state.pers.horizons) sk evs fun t ht => (hsteps t ht).2.pers
  have hframe : ∀ t ∈ trace step sk evs, t.input.FailsEveryPersist →
      t.after.state.pers = t.before.state.pers := by
    intro t ht hfail
    have h : (t.before.step t.input).2.state.pers = t.before.state.pers :=
      step_pers_of_failsEveryPersist hfail
    rwa [mem_trace_step sk evs t ht] at h
  refine ⟨⟨hsteps, hterm, hpers, ?_⟩, hframe⟩
  -- the term a vote persists is at most the term the later voter starts with, which is below
  -- the term of its own vote
  refine hterm.imp_of_mem fun ha hb hle term hva hvb => ?_
  have hpersisted := ((hsteps _ ha).2.vote term hva).2
  have habove := ((hsteps _ hb).2.vote term hvb).1
  omega

theorem safekeeper_run_invariants_voting :
    let state : TimelinePersistentState :=
      { tenantId := 1, timelineId := 1, acceptorState := { term := 0, termHistory := [] }
        server := { pgVersion := 160000, systemId := 0, walSegSize := 16 }
        proposerUuid := 0, timelineStartLsn := 0, localStartLsn := 0, commitLsn := 0
        backupLsn := 0, peerHorizonLsn := 0, remoteConsistentLsn := 0 }
    let sk : SafeKeeper :=
      { epochStartLsn := 0, state := TimelineState.new state
        walStore := PhysicalStorage.new state [], nodeId := 1 }
    let ok : Io :=
      { persistOk := true, secondPersistOk := true, walFlushOk := true, walTruncateOk := true
        walWriteFailedAfter := none, walDecoded := [], walDecodeOk := true }
    let evs : List Event :=
      [ .processMsg (.voteRequest { term := 1 }) ok,
        .restart [],
        .processMsg (.voteRequest { term := 1 }) ok,
        .processMsg (.elected
          { term := 1, startStreamingAt := 16, termHistory := [{ term := 1, lsn := 16 }],
            timelineStartLsn := 16 }) ok,
        .processMsg (.appendRequest
          { h :=
              { term := 1, epochStartLsn := 16, beginLsn := 16, endLsn := 48, commitLsn := 0,
                truncateLsn := 0, proposerUuid := 7 },
            walData := List.replicate 32 0 }) { ok with walDecoded := [40] },
        .recordSafekeeperInfo
          { lastLogTerm := 1, commitLsn := 40, backupLsn := 20, remoteConsistentLsn := 0,
            peerHorizonLsn := 0 } ok,
        .processMsg (.voteRequest { term := 2 })
          { ok with persistOk := false, secondPersistOk := false },
        .restart [40] ]
    new state (PhysicalStorage.new state []) 1 = .ok sk ∧ Decoded state.commitLsn [] ∧
      (∀ t ∈ trace step sk evs, t.input.Admissible t.before) ∧
      (RunFacts (trace step sk evs) ∧
        ∀ t ∈ trace step sk evs, t.input.FailsEveryPersist →
          t.after.state.pers = t.before.state.pers) := by
  intro state sk ok evs
  have hnew : new state (PhysicalStorage.new state []) 1 = .ok sk := rfl
  have hwal : Decoded state.commitLsn [] := by decide
  have hadm : ∀ t ∈ trace step sk evs, t.input.Admissible t.before := by decide
  exact ⟨hnew, hwal, hadm, safekeeper_run_invariants hnew hwal hadm⟩

/-- A failed sync keeps the in-memory `backup_lsn` that `record_safekeeper_info` raised before
it, and a restart then lowers it to the persisted value. -/
theorem failed_sync_then_restart :
    let state : TimelinePersistentState :=
      { tenantId := 1, timelineId := 1, acceptorState := { term := 0, termHistory := [] }
        server := { pgVersion := 160000, systemId := 0, walSegSize := 16 }
        proposerUuid := 0, timelineStartLsn := 0, localStartLsn := 0, commitLsn := 0
        backupLsn := 0, peerHorizonLsn := 0, remoteConsistentLsn := 0 }
    let sk : SafeKeeper :=
      { epochStartLsn := 0, state := TimelineState.new state
        walStore := PhysicalStorage.new state [], nodeId := 1 }
    let info : SafekeeperTimelineInfo :=
      { lastLogTerm := 0, commitLsn := 0, backupLsn := 100, remoteConsistentLsn := 0
        peerHorizonLsn := 0 }
    let io : Io :=
      { persistOk := true, secondPersistOk := false, walFlushOk := true, walTruncateOk := true
        walWriteFailedAfter := none, walDecoded := [], walDecodeOk := true }
    let r₁ := sk.step (.recordSafekeeperInfo info io)
    let r₂ := r₁.2.step (.restart [])
    new state (PhysicalStorage.new state []) 1 = .ok sk ∧
      r₁.1 = .error .io ∧ sk.state.inmem.backupLsn = 0 ∧ r₁.2.state.inmem.backupLsn = 100 ∧
      r₁.2.state.pers = sk.state.pers ∧ r₂.1 = .ok none ∧ r₂.2.state.inmem.backupLsn = 0 :=
  ⟨rfl, rfl, rfl, rfl, rfl, rfl, rfl⟩

end SafeKeeper

end NeonStorage

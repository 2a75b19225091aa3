import Mathlib
import NeonStorage.Lib.Trace
import NeonStorage.Safekeeper.SafeKeeper

/-!
# Invariants of the safekeeper over whole runs

Every operation of a safekeeper keeps `SafeKeeper.Inv`: the in-memory horizons are at or above
their persisted counterparts, the in-memory `commit_lsn` is within `flush_lsn`, and the WAL
storage flushes only complete records it wrote.  Every operation other than a restart also
`Advances` the state: it lowers neither the term, nor a persisted horizon, nor an in-memory one.
These hold whether the operation succeeds or fails part way, and the failed assertion of
`update_commit_lsn` is never raised.

The proofs go through each handler's `do` block with the rules of `EStateM.Keeps`, after one
lemma per call a handler makes: a persist of a control file change, each of the three WAL
storage calls, `update_commit_lsn`, and the in-memory updates.
-/

namespace NeonStorage

namespace SafeKeeper

open EStateM

/-- The invariant of a running safekeeper. -/
structure Inv (sk : SafeKeeper) : Prop where
  persLeInmem : sk.state.pers.horizons ≤ sk.state.inmem.horizons
  commitLeFlush : sk.state.inmem.commitLsn ≤ sk.flushLsn
  wal : sk.walStore.Inv
  /-- The control file names a tenant and a timeline, as `SafeKeeper::new` requires. -/
  named : sk.state.pers.tenantId ≠ 0 ∧ sk.state.pers.timelineId ≠ 0

/-- What an operation other than a restart does to the state: it lowers neither the term, nor a
persisted horizon, nor an in-memory one. -/
structure Advances (sk sk' : SafeKeeper) : Prop where
  term : sk.getTerm ≤ sk'.getTerm
  pers : sk.state.pers.horizons ≤ sk'.state.pers.horizons
  inmem : sk.state.inmem.horizons ≤ sk'.state.inmem.horizons

instance : IsPreorder SafeKeeper Advances where
  refl _ := ⟨le_rfl, le_rfl, le_rfl⟩
  trans _ _ _ h h' := ⟨h.term.trans h'.term, h.pers.trans h'.pers, h.inmem.trans h'.inmem⟩

/-- The failed assertion of `update_commit_lsn`. -/
def commitPanic : SkError :=
  .panic "commit_lsn monotonicity violated"

/-- Run from `sk`, the program keeps `Inv`, `Advances` the state, never fails the assertion of
`update_commit_lsn`, and returns a value satisfying `Q`. -/
abbrev Sound {α : Type} (Q : α → SafeKeeper → Prop) (x : EStateM SkError SafeKeeper α)
    (sk : SafeKeeper) : Prop :=
  Keeps Inv Advances (· ≠ commitPanic) Q x sk

/-- `Sound` with no condition on the value returned. -/
abbrev Sound' {α : Type} (x : EStateM SkError SafeKeeper α) (sk : SafeKeeper) : Prop :=
  Keeps' Inv Advances (· ≠ commitPanic) x sk

theorem advances_of_state_eq {sk sk' : SafeKeeper} (h : sk'.state = sk.state) :
    Advances sk sk' := by
  refine ⟨?_, ?_, ?_⟩ <;> simp [getTerm, h]

/-- Replacing the WAL storage by one that keeps its own invariant and has flushed up to the
in-memory `commit_lsn` (or the timeline start lies there) keeps the invariant. -/
theorem Inv.withWalStore {sk : SafeKeeper} {w : PhysicalStorage} (hinv : Inv sk)
    (hw : w.Inv)
    (hcommit : sk.state.inmem.commitLsn ≤ max w.flushRecordLsn sk.state.pers.timelineStartLsn) :
    Inv { sk with walStore := w } where
  persLeInmem := hinv.persLeInmem
  commitLeFlush := hcommit
  wal := hw
  named := hinv.named

@[simp] theorem bail_ne_commitPanic (msg : String) : SkError.bail msg ≠ commitPanic := by
  simp [commitPanic]

/-- Setting in-memory horizons that are not lower, with `commit_lsn` within `flush_lsn`, keeps
the invariant and advances the state. -/
theorem Inv.withInmem {sk : SafeKeeper} {m : TimelineMemState} (hinv : Inv sk)
    (hle : sk.state.inmem.horizons ≤ m.horizons) (hcommit : m.commitLsn ≤ sk.flushLsn) :
    Inv { sk with state := { sk.state with inmem := m } } ∧
      Advances sk { sk with state := { sk.state with inmem := m } } :=
  ⟨⟨hinv.persLeInmem.trans hle, hcommit, hinv.wal, hinv.named⟩, ⟨le_rfl, le_rfl, hle⟩⟩

/-! ## Persisting a control file change -/

/-- A control file change the handlers persist: it lowers neither the term nor an in-memory
horizon, keeps `commit_lsn` within the flushed WAL or the timeline start it sets, and keeps the
tenant and timeline ids. -/
structure ChangeOk (sk : SafeKeeper) (s : TimelinePersistentState) : Prop where
  term : sk.getTerm ≤ s.acceptorState.term
  horizons : sk.state.inmem.horizons ≤ s.horizons
  commit : s.commitLsn ≤ max sk.walStore.flushRecordLsn s.timelineStartLsn
  ids : s.tenantId = sk.state.pers.tenantId ∧ s.timelineId = sk.state.pers.timelineId

theorem onState_finishChange (s : TimelinePersistentState) (ok : Bool) (sk : SafeKeeper) :
    onState (TimelineState.finishChange s ok) sk =
      if ok then .ok () { sk with state := sk.state.persisted s } else .error .io sk := by
  cases ok <;> rfl

theorem Inv.persisted {sk : SafeKeeper} {s : TimelinePersistentState} (hinv : Inv sk)
    (h : ChangeOk sk s) :
    Inv { sk with state := sk.state.persisted s } ∧
      Advances sk { sk with state := sk.state.persisted s } where
  left :=
    { persLeInmem := by simp
      commitLeFlush := by
        simpa [flushLsn, PhysicalStorage.flushLsn] using h.commit
      wal := hinv.wal
      named := by simpa [h.ids.1, h.ids.2] using hinv.named }
  right :=
    { term := h.term
      pers := hinv.persLeInmem.trans (by simpa using h.horizons)
      inmem := by simpa using h.horizons }

/-- Persisting a change keeps the invariants; a failed persist changes nothing. -/
theorem sound_finishChange {s : TimelinePersistentState} {ok : Bool} {sk : SafeKeeper}
    (h : Inv sk → ChangeOk sk s) : Sound' (onState (TimelineState.finishChange s ok)) sk := by
  intro hinv
  rw [onState_finishChange]
  cases ok
  · exact ⟨hinv, refl_of Advances sk, by simp [commitPanic]⟩
  · exact ⟨(hinv.persisted (h hinv)).1, (hinv.persisted (h hinv)).2, trivial⟩

/-- `start_change` itself is a change the handlers may persist. -/
theorem changeOk_startChange {sk : SafeKeeper} (hinv : Inv sk) :
    ChangeOk sk sk.state.startChange where
  term := le_rfl
  horizons := by simp
  commit := by
    simpa [flushLsn, PhysicalStorage.flushLsn] using hinv.commitLeFlush
  ids := ⟨rfl, rfl⟩

/-- A change made on `start_change` that keeps its horizons, timeline start and ids and does not
lower the term may be persisted. -/
theorem changeOk_of_startChange {sk : SafeKeeper} {s : TimelinePersistentState} (hinv : Inv sk)
    (hterm : sk.getTerm ≤ s.acceptorState.term)
    (hhorizons : s.horizons = sk.state.startChange.horizons)
    (hstart : s.timelineStartLsn = sk.state.startChange.timelineStartLsn)
    (hids : s.tenantId = sk.state.pers.tenantId ∧ s.timelineId = sk.state.pers.timelineId) :
    ChangeOk sk s where
  term := hterm
  ids := hids
  horizons := by rw [hhorizons, TimelineState.startChange_horizons]
  commit := by
    have hcommit : s.commitLsn = sk.state.inmem.commitLsn := congrArg Prod.fst hhorizons
    rw [hcommit, hstart]
    exact (changeOk_startChange hinv).commit

section ElectedState

variable (msg : ProposerElected) (s : TimelinePersistentState)

/-- The state `handle_elected` persists as one record update, each field it may set given by
its own condition. -/
theorem electedState_eq :
    electedState msg s =
      let timelineStartLsn :=
        if s.timelineStartLsn = 0 then msg.timelineStartLsn else s.timelineStartLsn
      { s with
        timelineStartLsn
        peerHorizonLsn :=
          if s.peerHorizonLsn = 0 then msg.timelineStartLsn else s.peerHorizonLsn
        localStartLsn := if s.localStartLsn = 0 then msg.startStreamingAt else s.localStartLsn
        commitLsn := max s.commitLsn timelineStartLsn
        backupLsn := max s.backupLsn timelineStartLsn
        acceptorState := { s.acceptorState with termHistory := msg.termHistory } } := by
  by_cases h₁ : s.timelineStartLsn = 0 <;> by_cases h₂ : s.peerHorizonLsn = 0 <;>
    by_cases h₃ : s.localStartLsn = 0 <;> simp [electedState, h₁, h₂, h₃]

/-- The timeline start `handle_elected` persists: the proposer's, unless one is known. -/
theorem electedState_timelineStartLsn :
    (electedState msg s).timelineStartLsn =
      if s.timelineStartLsn = 0 then msg.timelineStartLsn else s.timelineStartLsn := by
  rw [electedState_eq]

theorem electedState_term :
    (electedState msg s).acceptorState.term = s.acceptorState.term := by
  rw [electedState_eq]

theorem electedState_ids :
    (electedState msg s).tenantId = s.tenantId ∧
      (electedState msg s).timelineId = s.timelineId := by
  rw [electedState_eq]
  exact ⟨rfl, rfl⟩

/-- `handle_elected` raises `commit_lsn` and `backup_lsn` to the timeline start, sets
`peer_horizon_lsn` only when it is still zero, and keeps `remote_consistent_lsn`. -/
theorem electedState_horizons :
    (electedState msg s).horizons =
      (max s.commitLsn (electedState msg s).timelineStartLsn,
        max s.backupLsn (electedState msg s).timelineStartLsn,
        if s.peerHorizonLsn = 0 then msg.timelineStartLsn else s.peerHorizonLsn,
        s.remoteConsistentLsn) := by
  rw [electedState_eq]
  rfl

end ElectedState

/-- With the WAL flushed up to the in-memory `commit_lsn`, as it is right after the truncation
at the streaming point, the state `handle_elected` persists may be persisted. -/
theorem changeOk_electedState {sk : SafeKeeper} (msg : ProposerElected)
    (hcommit : sk.state.inmem.commitLsn ≤ sk.walStore.flushRecordLsn) :
    ChangeOk sk (electedState msg sk.state.startChange) := by
  have hhor := electedState_horizons msg sk.state.startChange
  have hcommit' : (electedState msg sk.state.startChange).commitLsn =
      max sk.state.inmem.commitLsn (electedState msg sk.state.startChange).timelineStartLsn :=
    congrArg Prod.fst hhor
  refine ⟨(electedState_term msg sk.state.startChange).ge, ?_, ?_,
    electedState_ids msg sk.state.startChange⟩
  · rw [hhor]
    simp only [TimelineMemState.horizons, TimelineState.startChange, Prod.mk_le_mk]
    -- peer_horizon_lsn is set only while it is still zero
    by_cases hzero : sk.state.inmem.peerHorizonLsn = 0 <;> simp [hzero]
  · rw [hcommit']
    omega

theorem sound_flush (ok : Bool) (sk : SafeKeeper) :
    Sound' (onState (TimelineState.flush ok)) sk :=
  sound_finishChange changeOk_startChange

/-! ## The calls on the WAL storage -/

/-- A call on the WAL storage keeps the invariants when it keeps the storage's own invariant and
leaves the WAL flushed up to the in-memory `commit_lsn`; it never touches the timeline state. -/
theorem sound_onWalStore {α : Type} {x : EStateM SkError PhysicalStorage α} {sk : SafeKeeper}
    (hx : Inv sk → (x sk.walStore).state.Inv ∧
      sk.state.inmem.commitLsn ≤
        max (x sk.walStore).state.flushRecordLsn sk.state.pers.timelineStartLsn)
    (herr : ∀ e w, x sk.walStore = .error e w → e ≠ commitPanic) : Sound' (onWalStore x) sk := by
  refine Keeps.of_result fun hinv => ⟨?_, ?_, fun _ _ _ => trivial, ?_⟩
  · rw [onWalStore, focus_state]
    exact hinv.withWalStore (hx hinv).1 (hx hinv).2
  · rw [onWalStore, focus_state]
    exact advances_of_state_eq rfl
  · intro e sk' h
    obtain ⟨w, hw⟩ := focus_eq_error h
    exact herr e w hw

theorem commitLsn_le_of_flushRecordLsn_le {sk : SafeKeeper} {w : PhysicalStorage} (hinv : Inv sk)
    (h : sk.walStore.flushRecordLsn ≤ w.flushRecordLsn) :
    sk.state.inmem.commitLsn ≤ max w.flushRecordLsn sk.state.pers.timelineStartLsn := by
  have := hinv.commitLeFlush
  simp only [flushLsn, PhysicalStorage.flushLsn] at this
  omega

theorem sound_flushWal (ok : Bool) (sk : SafeKeeper) :
    Sound' (onWalStore (PhysicalStorage.flushWal ok)) sk := by
  refine sound_onWalStore (fun hinv => ?_) (fun e w h => ?_)
  · have hw := hinv.wal
    rw [PhysicalStorage.flushWal_apply]
    split_ifs
    · exact ⟨hw, commitLsn_le_of_flushRecordLsn_le hinv le_rfl⟩
    · exact ⟨le_refl _, commitLsn_le_of_flushRecordLsn_le hinv hw⟩
    · exact ⟨hw, commitLsn_le_of_flushRecordLsn_le hinv le_rfl⟩
  · rw [PhysicalStorage.flushWal_apply] at h
    split_ifs at h
    cases h
    simp [commitPanic]

theorem sound_writeWal {startpos : Nat} {buf : List UInt8} {failedAfter : Option Nat}
    {decoded : List Nat} {decodeOk : Bool} {sk : SafeKeeper}
    (hdec : Decoded sk.walStore.writeRecordLsn decoded) :
    Sound' (onWalStore (PhysicalStorage.writeWal startpos buf failedAfter decoded decodeOk))
      sk := by
  obtain ⟨hflush, hrecord, herr⟩ :=
    PhysicalStorage.writeWal_spec startpos buf failedAfter decoded decodeOk sk.walStore
  refine sound_onWalStore (fun hinv => ⟨?_, ?_⟩) (fun e w h => herr e w h _)
  · have hw := hinv.wal
    have hle := le_followRecords hdec
    unfold PhysicalStorage.Inv at hw ⊢
    rcases hrecord with h | h <;> rw [h, hflush] <;> omega
  · exact commitLsn_le_of_flushRecordLsn_le hinv hflush.ge

/-- Truncating the WAL keeps the invariants when it does not cut below the in-memory
`commit_lsn`. -/
theorem sound_truncateWal {endPos : Nat} {ok : Bool} {sk : SafeKeeper}
    (h : sk.state.inmem.commitLsn ≤ endPos) :
    Sound' (onWalStore (PhysicalStorage.truncateWal endPos ok)) sk := by
  refine sound_onWalStore (fun hinv => ?_) (fun e w hw => ?_)
  · rw [PhysicalStorage.truncateWal_apply]
    split_ifs
    · exact ⟨hinv.wal, commitLsn_le_of_flushRecordLsn_le hinv le_rfl⟩
    · exact ⟨hinv.wal, commitLsn_le_of_flushRecordLsn_le hinv le_rfl⟩
    · exact ⟨le_refl _, le_max_of_le_left h⟩
    · exact ⟨hinv.wal, commitLsn_le_of_flushRecordLsn_le hinv le_rfl⟩
  · rw [PhysicalStorage.truncateWal_apply] at hw
    split_ifs at hw <;> cases hw <;> simp [commitPanic]

/-- A successful truncation leaves the WAL flushed exactly up to `endPos`, and the timeline
state as it was. -/
theorem truncateWal_ok {endPos : Nat} {ok : Bool} {sk sk' : SafeKeeper}
    (h : onWalStore (PhysicalStorage.truncateWal endPos ok) sk = .ok () sk') :
    sk'.walStore.flushRecordLsn = endPos ∧ sk'.state = sk.state := by
  simp only [onWalStore, focus, PhysicalStorage.truncateWal_apply] at h
  split_ifs at h with h₁ h₂ h₃
  · cases h
    exact ⟨h₂.2.2.symm, rfl⟩
  · cases h
    exact ⟨rfl, rfl⟩

/-- A successful persist of `s` leaves exactly the state `persisted s`. -/
theorem finishChange_ok {s : TimelinePersistentState} {ok : Bool} {sk sk' : SafeKeeper}
    (h : onState (TimelineState.finishChange s ok) sk = .ok () sk') :
    sk' = { sk with state := sk.state.persisted s } := by
  rw [onState_finishChange] at h
  split at h
  · cases h
    rfl
  · cases h

/-- A call on the WAL storage leaves the timeline state as it is. -/
theorem onWalStore_state {α : Type} {x : EStateM SkError PhysicalStorage α} {sk : SafeKeeper}
    {r : Result SkError SafeKeeper α} (h : onWalStore x sk = r) : r.state.state = sk.state := by
  rw [← h, onWalStore, focus_state]

/-! ## Advancing `commit_lsn` -/

/-- `update_commit_lsn` keeps the invariants, and its assertion holds: as the in-memory
`commit_lsn` is within `flush_lsn`, the new value `min (max candidate commit_lsn) flush_lsn` is
not below it. -/
theorem sound_updateCommitLsn (candidate : Nat) (ok : Bool) (sk : SafeKeeper) :
    Sound' (updateCommitLsn candidate ok) sk := by
  unfold updateCommitLsn
  refine keeps_get_bind (keeps_throwIf_bind (fun hlt hinv => ?_) fun _ => ?_)
  · have hflush := hinv.commitLeFlush
    exact absurd (by omega) hlt
  refine keeps_set_bind (fun hinv => hinv.withInmem ?_ (min_le_right _ _)) ?_
  · have hflush := hinv.commitLeFlush
    simp only [TimelineMemState.horizons, Prod.mk_le_mk]
    omega
  · exact keeps_ite (fun _ => sound_flush ok _) fun _ => keeps_pure trivial

/-! ## The handlers -/

/-- What a reply says about votes: a vote in the reply to an operation that started in `sk` and
ended in `sk'` is for a term above the term of `sk`, and that term is the one `sk'` has
persisted. -/
def VoteFact (sk : SafeKeeper) (reply : Option AcceptorProposerMessage) (sk' : SafeKeeper) :
    Prop :=
  ∀ resp, reply = some (.voteResponse resp) → resp.voteGiven ≠ 0 →
    sk.getTerm < resp.term ∧ sk'.getTerm = resp.term

theorem voteFact_of_ne {sk sk' : SafeKeeper} {reply : Option AcceptorProposerMessage}
    (h : ∀ resp, reply ≠ some (.voteResponse resp)) : VoteFact sk reply sk' :=
  fun resp hr => absurd hr (h resp)

theorem sound_handleGreeting (msg : ProposerGreeting) (io : Io) (sk : SafeKeeper) :
    Sound (VoteFact sk) (handleGreeting msg io) sk := by
  unfold handleGreeting
  refine keeps_get_bind ?_
  -- the five checks of the proposer's versions and ids fail with a bail
  iterate 5 refine keeps_throwIf_bind (fun _ _ => bail_ne_commitPanic _) fun _ => ?_
  -- adopting the system id keeps the term, the horizons and the timeline start
  refine keeps_bind (keeps_ite (fun _ => sound_finishChange fun hinv =>
    changeOk_of_startChange hinv le_rfl rfl rfl ⟨rfl, rfl⟩) fun _ => keeps_pure trivial)
    fun _ _ _ _ => ?_
  exact keeps_get_bind (keeps_pure (voteFact_of_ne (by simp)))

theorem sound_handleVoteRequest (msg : VoteRequest) (io : Io) (sk : SafeKeeper) :
    Sound (VoteFact sk) (handleVoteRequest msg io) sk := by
  unfold handleVoteRequest
  refine keeps_bind (sound_flushWal _ _) fun _ sk₁ h₁ _ => keeps_get_bind ?_
  have hterm₁ : sk₁.getTerm = sk.getTerm := by
    simpa [getTerm] using congrArg (·.pers.acceptorState.term) (onWalStore_state h₁)
  dsimp only
  refine keeps_ite (fun hlt => ?_) fun _ => keeps_pure ?_
  · -- the vote: the new term is persisted before the reply
    refine keeps_bind (sound_finishChange fun hinv =>
        changeOk_of_startChange hinv hlt.le rfl rfl ⟨rfl, rfl⟩)
      fun _ sk₂ h₂ _ => keeps_get_bind (keeps_pure ?_)
    rw [finishChange_ok h₂]
    rintro resp hresp -
    cases hresp
    exact ⟨hterm₁ ▸ hlt, rfl⟩
  · -- a refusal
    rintro resp hresp hgiven
    cases hresp
    exact absurd rfl hgiven

/-- `handle_elected` keeps the invariants with any `start_streaming_at`: one below the in-memory
`commit_lsn` fails its assertion before the WAL is touched, and otherwise the truncation leaves
the WAL flushed up to `commit_lsn`, which the adopted state may raise to the timeline start. -/
theorem sound_handleElected (msg : ProposerElected) (io : Io) (sk : SafeKeeper) :
    Sound (VoteFact sk) (handleElected msg io) sk := by
  unfold handleElected
  refine keeps_get_bind (keeps_bind (keeps_ite (fun hlt => sound_finishChange fun hinv =>
    changeOk_of_startChange hinv hlt.le rfl rfl ⟨rfl, rfl⟩) fun _ => keeps_pure trivial)
    fun _ _ _ _ => ?_)
  refine keeps_get_bind (keeps_ite (fun _ => keeps_pure (voteFact_of_ne (by simp))) fun _ => ?_)
  refine keeps_throwIf_bind (fun _ _ => bail_ne_commitPanic _) fun _ => ?_
  refine keeps_throwIf_bind (fun _ _ => by simp [commitPanic]) fun hge => ?_
  refine keeps_bind (sound_truncateWal (not_not.mp hge)) fun _ sk₂ h₂ _ => keeps_get_bind ?_
  obtain ⟨hflush₂, hstate₂⟩ := truncateWal_ok h₂
  refine keeps_bind (sound_finishChange fun _ => changeOk_electedState msg ?_) fun _ _ _ _ => ?_
  · rw [hflush₂, hstate₂]
    exact not_not.mp hge
  -- remember where the proposer's term starts
  split
  · exact keeps_throw_bind (bail_ne_commitPanic _)
  · exact keeps_modify_bind (fun hinv => ⟨⟨hinv.1, hinv.2, hinv.3, hinv.4⟩, advances_of_state_eq rfl⟩)
      (keeps_pure (voteFact_of_ne (by simp)))

/-- `handle_append_request` keeps the invariants when the decoder reports records past the
last one written. -/
theorem sound_handleAppendRequest (msg : AppendRequest) (requireFlush : Bool) (io : Io)
    (sk : SafeKeeper) (hdec : Decoded sk.walStore.writeRecordLsn io.walDecoded) :
    Sound (VoteFact sk) (handleAppendRequest msg requireFlush io) sk := by
  unfold handleAppendRequest
  refine keeps_get_bind (keeps_throwIf_bind (fun _ _ => bail_ne_commitPanic _) fun _ => ?_)
  refine keeps_ite (fun _ => keeps_pure (voteFact_of_ne (by simp))) fun _ => ?_
  -- the proposer's uuid is not a horizon
  refine keeps_modify_bind (fun hinv => hinv.withInmem le_rfl hinv.commitLeFlush) ?_
  refine keeps_bind (keeps_ite (fun _ => sound_writeWal hdec) fun _ => keeps_pure trivial)
    fun _ _ _ _ => ?_
  refine keeps_bind (keeps_ite (fun _ => sound_flushWal _ _) fun _ => keeps_pure trivial)
    fun _ _ _ _ => ?_
  refine keeps_bind (keeps_ite (fun _ => sound_updateCommitLsn _ _ _) fun _ => keeps_pure trivial)
    fun _ _ _ _ => ?_
  refine keeps_modify_bind (fun hinv => hinv.withInmem ?_ hinv.commitLeFlush) ?_
  · simp only [TimelineMemState.horizons, Prod.mk_le_mk]
    omega
  refine keeps_get_bind (keeps_bind (keeps_ite (fun _ => sound_flush _ _) fun _ => keeps_pure trivial)
    fun _ _ _ _ => ?_)
  exact keeps_ite (fun _ => keeps_pure (voteFact_of_ne (by simp)))
    fun _ => keeps_get_bind (keeps_pure (voteFact_of_ne (by simp)))

theorem sound_handleFlush (io : Io) (sk : SafeKeeper) :
    Sound (VoteFact sk) (handleFlush io) sk :=
  keeps_bind (sound_flushWal _ _) fun _ _ _ _ =>
    keeps_get_bind (keeps_pure (voteFact_of_ne (by simp)))

/-- Every message keeps the invariants, and only a vote request is answered with a vote, for a
term above the current one that is persisted by then. -/
theorem sound_processMsg (msg : ProposerAcceptorMessage) (io : Io) (sk : SafeKeeper)
    (hdec : Decoded sk.walStore.writeRecordLsn io.walDecoded) :
    Sound (VoteFact sk) (processMsg msg io) sk := by
  cases msg with
  | greeting msg => exact sound_handleGreeting msg io sk
  | voteRequest msg => exact sound_handleVoteRequest msg io sk
  | elected msg => exact sound_handleElected msg io sk
  | appendRequest msg => exact sound_handleAppendRequest msg true io sk hdec
  | noFlushAppendRequest msg => exact sound_handleAppendRequest msg false io sk hdec
  | flushWAL => exact sound_handleFlush io sk

/-- `record_safekeeper_info` keeps the invariants: it takes `commit_lsn` through
`update_commit_lsn` and only raises the other in-memory horizons. -/
theorem sound_recordSafekeeperInfo (info : SafekeeperTimelineInfo) (io : Io) (sk : SafeKeeper) :
    Sound' (recordSafekeeperInfo info io) sk := by
  unfold recordSafekeeperInfo
  dsimp only
  refine keeps_get_bind (keeps_bind (keeps_ite (fun _ => sound_updateCommitLsn _ _ _)
    fun _ => keeps_pure trivial) fun _ _ _ _ => ?_)
  refine keeps_modify_bind (fun hinv => hinv.withInmem ?_ hinv.commitLeFlush) (keeps_get_bind ?_)
  · simp only [TimelineMemState.horizons, Prod.mk_le_mk]
    omega
  refine keeps_modify_bind (fun hinv => hinv.withInmem ?_ hinv.commitLeFlush) (keeps_get_bind ?_)
  · simp only [TimelineMemState.horizons, Prod.mk_le_mk]
    omega
  refine keeps_modify_bind (fun hinv => hinv.withInmem ?_ hinv.commitLeFlush) (keeps_get_bind ?_)
  · simp only [TimelineMemState.horizons, Prod.mk_le_mk]
    omega
  exact keeps_ite (fun _ => sound_flush _ _) fun _ => keeps_pure trivial

/-! ## Failed persists

A persist that fails returns before it writes anything, so an operation whose persists all fail
leaves the control file as it was, whatever it changed in memory or in the WAL before.  The
proofs go through the handlers as above, with `SamePers` as the guarantee. -/

/-- The control file is the one `sk` had. -/
def SamePers (sk sk' : SafeKeeper) : Prop := sk'.state.pers = sk.state.pers

instance : IsPreorder SafeKeeper SamePers where
  refl _ := rfl
  trans _ _ _ h h' := h'.trans h

/-- Run from `sk`, the program leaves the control file as it was. -/
abbrev KeepsPers {α : Type} (x : EStateM SkError SafeKeeper α) (sk : SafeKeeper) : Prop :=
  Keeps' (fun _ => True) SamePers (fun _ => True) x sk

theorem keepsPers_finishChange (s : TimelinePersistentState) (sk : SafeKeeper) :
    KeepsPers (onState (TimelineState.finishChange s false)) sk := by
  intro _
  rw [onState_finishChange, if_neg Bool.false_ne_true]
  exact ⟨trivial, rfl, trivial⟩

theorem keepsPers_flush (sk : SafeKeeper) : KeepsPers (onState (TimelineState.flush false)) sk :=
  keepsPers_finishChange sk.state.startChange sk

theorem keepsPers_onWalStore {α : Type} (x : EStateM SkError PhysicalStorage α)
    (sk : SafeKeeper) : KeepsPers (onWalStore x) sk :=
  Keeps.of_result fun _ =>
    ⟨trivial, congrArg TimelineState.pers (onWalStore_state rfl), fun _ _ _ => trivial,
      fun _ _ _ => trivial⟩

theorem keepsPers_updateCommitLsn (candidate : Nat) (sk : SafeKeeper) :
    KeepsPers (updateCommitLsn candidate false) sk := by
  unfold updateCommitLsn
  refine keeps_get_bind (keeps_throwIf_bind (fun _ _ => trivial) fun _ => ?_)
  refine keeps_set_bind (fun _ => ⟨trivial, rfl⟩) ?_
  exact keeps_ite (fun _ => keepsPers_flush _) fun _ => keeps_pure trivial

section Handlers

variable {io : Io} (hio : io.persistOk = false) (hio₂ : io.secondPersistOk = false)
include hio

theorem keepsPers_handleGreeting (msg : ProposerGreeting) (sk : SafeKeeper) :
    KeepsPers (handleGreeting msg io) sk := by
  unfold handleGreeting
  rw [hio]
  refine keeps_get_bind ?_
  iterate 5 refine keeps_throwIf_bind (fun _ _ => trivial) fun _ => ?_
  refine keeps_bind (keeps_ite (fun _ => keepsPers_finishChange _ _)
    fun _ => keeps_pure trivial) fun _ _ _ _ => ?_
  exact keeps_get_bind (keeps_pure trivial)

theorem keepsPers_handleVoteRequest (msg : VoteRequest) (sk : SafeKeeper) :
    KeepsPers (handleVoteRequest msg io) sk := by
  unfold handleVoteRequest
  rw [hio]
  refine keeps_bind (keepsPers_onWalStore _ _) fun _ _ _ _ => keeps_get_bind ?_
  dsimp only
  refine keeps_ite (fun _ => ?_) fun _ => keeps_pure trivial
  exact keeps_bind (keepsPers_finishChange _ _) fun _ _ _ _ =>
    keeps_get_bind (keeps_pure trivial)

include hio₂

theorem keepsPers_handleElected (msg : ProposerElected) (sk : SafeKeeper) :
    KeepsPers (handleElected msg io) sk := by
  unfold handleElected
  rw [hio, hio₂]
  refine keeps_get_bind (keeps_bind (keeps_ite (fun _ => keepsPers_finishChange _ _)
    fun _ => keeps_pure trivial) fun _ _ _ _ => ?_)
  refine keeps_get_bind (keeps_ite (fun _ => keeps_pure trivial) fun _ => ?_)
  iterate 2 refine keeps_throwIf_bind (fun _ _ => trivial) fun _ => ?_
  refine keeps_bind (keepsPers_onWalStore _ _) fun _ _ _ _ => keeps_get_bind ?_
  refine keeps_bind (keepsPers_finishChange _ _) fun _ _ _ _ => ?_
  split
  · exact keeps_throw_bind trivial
  · exact keeps_modify_bind (fun _ => ⟨trivial, rfl⟩) (keeps_pure trivial)

theorem keepsPers_handleAppendRequest (msg : AppendRequest) (requireFlush : Bool)
    (sk : SafeKeeper) : KeepsPers (handleAppendRequest msg requireFlush io) sk := by
  unfold handleAppendRequest
  rw [hio, hio₂]
  refine keeps_get_bind (keeps_throwIf_bind (fun _ _ => trivial) fun _ => ?_)
  refine keeps_ite (fun _ => keeps_pure trivial) fun _ => ?_
  refine keeps_modify_bind (fun _ => ⟨trivial, rfl⟩) ?_
  -- the WAL calls and `update_commit_lsn` leave the control file alone
  iterate 2 refine keeps_bind (keeps_ite (fun _ => keepsPers_onWalStore _ _)
    fun _ => keeps_pure trivial) fun _ _ _ _ => ?_
  refine keeps_bind (keeps_ite (fun _ => keepsPers_updateCommitLsn _ _)
    fun _ => keeps_pure trivial) fun _ _ _ _ => ?_
  refine keeps_modify_bind (fun _ => ⟨trivial, rfl⟩) (keeps_get_bind ?_)
  refine keeps_bind (keeps_ite (fun _ => keepsPers_flush _) fun _ => keeps_pure trivial)
    fun _ _ _ _ => ?_
  exact keeps_ite (fun _ => keeps_pure trivial) fun _ => keeps_get_bind (keeps_pure trivial)

/-- A message whose persists all fail leaves the control file as it was. -/
theorem keepsPers_processMsg (msg : ProposerAcceptorMessage) (sk : SafeKeeper) :
    KeepsPers (processMsg msg io) sk := by
  cases msg with
  | greeting msg => exact keepsPers_handleGreeting hio msg sk
  | voteRequest msg => exact keepsPers_handleVoteRequest hio msg sk
  | elected msg => exact keepsPers_handleElected hio hio₂ msg sk
  | appendRequest msg => exact keepsPers_handleAppendRequest hio hio₂ msg true sk
  | noFlushAppendRequest msg => exact keepsPers_handleAppendRequest hio hio₂ msg false sk
  | flushWAL =>
    exact keeps_bind (keepsPers_onWalStore _ _) fun _ _ _ _ => keeps_get_bind (keeps_pure trivial)

/-- A report of a peer whose persists all fail leaves the control file as it was. -/
theorem keepsPers_recordSafekeeperInfo (info : SafekeeperTimelineInfo) (sk : SafeKeeper) :
    KeepsPers (recordSafekeeperInfo info io) sk := by
  unfold recordSafekeeperInfo
  dsimp only
  rw [hio, hio₂]
  refine keeps_get_bind (keeps_bind (keeps_ite (fun _ => keepsPers_updateCommitLsn _ _)
    fun _ => keeps_pure trivial) fun _ _ _ _ => ?_)
  -- the three in-memory horizons a peer may raise
  iterate 3 refine keeps_modify_bind (fun _ => ⟨trivial, rfl⟩) (keeps_get_bind ?_)
  exact keeps_ite (fun _ => keepsPers_flush _) fun _ => keeps_pure trivial

end Handlers

end SafeKeeper

end NeonStorage

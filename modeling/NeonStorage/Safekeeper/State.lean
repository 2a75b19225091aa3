import Mathlib
import NeonStorage.Lib.EStateM

/-!
# The safekeeper's timeline state

The per-timeline state of a safekeeper (`safekeeper/src/state.rs`): the persistent part, kept
in the control file, and the in-memory copies of four LSN horizons that are advanced without a
control file write.  `TimelineState` bundles the two and offers the transactional update
`start_change` / `finish_change`: the persistent state with the in-memory values applied is
changed as desired, then persisted, and only after a successful persist are the in-memory
values set from it.

The control file storage (`CTRL: control_file::Storage`) is modelled by what it dereferences
to, the last persisted `TimelinePersistentState`; whether a persist succeeds is an answer of the
disk and is an argument of `finishChange`.

The consensus types the state stores (`TermLsn`, `TermHistory`, `AcceptorState`,
`ServerInfo`) come from `safekeeper/src/safekeeper.rs`.
-/

namespace NeonStorage

/-- `INVALID_TERM`. -/
def invalidTerm : Nat := 0

/-- An entry of a term history: the term and the LSN where it starts. -/
structure TermLsn where
  term : Nat
  lsn : Nat
deriving DecidableEq, Repr, Inhabited

/-- `TermHistory`: the switches of term in the WAL, in the order of their LSNs. -/
abbrev TermHistory := List TermLsn

/-- `TermHistory::up_to`: the switches up to `upTo`; the copy loop stops at the first switch
strictly after it. -/
def TermHistory.upTo (th : TermHistory) (upTo : Nat) : TermHistory :=
  th.takeWhile fun e => !decide (e.lsn > upTo)

/-- The persistent consensus state of the acceptor (`AcceptorState`). -/
structure AcceptorState where
  /-- The last term the acceptor voted for. -/
  term : Nat
  termHistory : TermHistory
deriving DecidableEq, Repr

/-- `AcceptorState::get_epoch`: the term of the highest entry of the history within the
WAL up to `flushLsn`. -/
def AcceptorState.getEpoch (self : AcceptorState) (flushLsn : Nat) : Nat :=
  match (self.termHistory.upTo flushLsn).getLast? with
  | some e => e.term
  | none => 0

/-- Information about Postgres (`ServerInfo`). -/
structure ServerInfo where
  pgVersion : Nat
  systemId : Nat
  walSegSize : Nat
deriving DecidableEq, Repr

/-- `TimelinePersistentState`, the control file contents.  Ids are modelled as numbers, the
all-zero id being `0`; the list of peers is left out. -/
structure TimelinePersistentState where
  tenantId : Nat
  timelineId : Nat
  acceptorState : AcceptorState
  server : ServerInfo
  proposerUuid : Nat
  timelineStartLsn : Nat
  localStartLsn : Nat
  commitLsn : Nat
  backupLsn : Nat
  peerHorizonLsn : Nat
  remoteConsistentLsn : Nat
deriving DecidableEq, Repr

/-- `TimelineMemState`: the in-memory values of the fields that are advanced without a control
file write. -/
structure TimelineMemState where
  commitLsn : Nat
  backupLsn : Nat
  peerHorizonLsn : Nat
  remoteConsistentLsn : Nat
  proposerUuid : Nat
deriving DecidableEq, Repr

/-- The errors of the safekeeper's operations: an `anyhow` error raised by `bail!` with its
text, an I/O error of the disk, an error of the WAL decoder, and a failed `assert!` with its
text. -/
inductive SkError where
  | bail (msg : String)
  | io
  | walDecode
  | panic (msg : String)
deriving DecidableEq, Repr

/-- `TimelineState`: the in-memory values and the control file storage, modelled by the state
it last persisted. -/
structure TimelineState where
  inmem : TimelineMemState
  pers : TimelinePersistentState
deriving DecidableEq, Repr

/-- The four LSN horizons of the control file, as a tuple ordered componentwise. -/
def TimelinePersistentState.horizons (s : TimelinePersistentState) : Nat × Nat × Nat × Nat :=
  (s.commitLsn, s.backupLsn, s.peerHorizonLsn, s.remoteConsistentLsn)

/-- The in-memory values of the four LSN horizons, as a tuple ordered componentwise. -/
def TimelineMemState.horizons (m : TimelineMemState) : Nat × Nat × Nat × Nat :=
  (m.commitLsn, m.backupLsn, m.peerHorizonLsn, m.remoteConsistentLsn)

namespace TimelineState

/-- `TimelineState::new`: the in-memory values start as the persisted ones. -/
def new (state : TimelinePersistentState) : TimelineState where
  inmem :=
    { commitLsn := state.commitLsn
      backupLsn := state.backupLsn
      peerHorizonLsn := state.peerHorizonLsn
      remoteConsistentLsn := state.remoteConsistentLsn
      proposerUuid := state.proposerUuid }
  pers := state

/-- `TimelineState::start_change`: the persistent state with the in-memory values applied. -/
def startChange (self : TimelineState) : TimelinePersistentState :=
  { self.pers with
    commitLsn := self.inmem.commitLsn
    backupLsn := self.inmem.backupLsn
    peerHorizonLsn := self.inmem.peerHorizonLsn
    remoteConsistentLsn := self.inmem.remoteConsistentLsn
    proposerUuid := self.inmem.proposerUuid }

/-- The timeline state once `s` is persisted: the control file holds `s`, and the in-memory
values are set from it. -/
def persisted (self : TimelineState) (s : TimelinePersistentState) : TimelineState where
  pers := s
  inmem :=
    { self.inmem with
      commitLsn := s.commitLsn
      backupLsn := s.backupLsn
      peerHorizonLsn := s.peerHorizonLsn
      remoteConsistentLsn := s.remoteConsistentLsn
      proposerUuid := s.proposerUuid }

/-- `TimelineState::finish_change`: persist `s`, then set the in-memory values from it.  A
failed persist returns before anything is changed. -/
def finishChange (s : TimelinePersistentState) (persistOk : Bool) :
    EStateM SkError TimelineState Unit := do
  if !persistOk then throw .io
  modify fun self => self.persisted s

/-- `TimelineState::flush`: persist the in-memory values. -/
def flush (persistOk : Bool) : EStateM SkError TimelineState Unit := do
  let s := (← get).startChange
  finishChange s persistOk

@[simp] theorem startChange_acceptorState (self : TimelineState) :
    self.startChange.acceptorState = self.pers.acceptorState := rfl

@[simp] theorem startChange_timelineStartLsn (self : TimelineState) :
    self.startChange.timelineStartLsn = self.pers.timelineStartLsn := rfl

@[simp] theorem startChange_horizons (self : TimelineState) :
    self.startChange.horizons = self.inmem.horizons := rfl

@[simp] theorem startChange_commitLsn (self : TimelineState) :
    self.startChange.commitLsn = self.inmem.commitLsn := rfl

@[simp] theorem persisted_pers (self : TimelineState) (s : TimelinePersistentState) :
    (self.persisted s).pers = s := rfl

@[simp] theorem persisted_inmem_horizons (self : TimelineState) (s : TimelinePersistentState) :
    (self.persisted s).inmem.horizons = s.horizons := rfl

@[simp] theorem persisted_inmem_commitLsn (self : TimelineState) (s : TimelinePersistentState) :
    (self.persisted s).inmem.commitLsn = s.commitLsn := rfl

end TimelineState

end NeonStorage

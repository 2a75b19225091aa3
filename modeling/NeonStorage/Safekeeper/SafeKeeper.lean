import Mathlib
import NeonStorage.Safekeeper.WalStorage
import NeonStorage.Utils.PageserverFeedback

/-!
# The safekeeper's acceptor

`SafeKeeper` (`safekeeper/src/safekeeper.rs`) is the acceptor side of the proposer-acceptor
protocol for one timeline: `process_msg` handles the messages of a walproposer, and
`record_safekeeper_info` takes in what a peer safekeeper reports through the broker.  Each
handler is a `&mut self` method that returns early with `?`, so a failure keeps the changes
made before it; the handlers are written here in `EStateM SkError SafeKeeper`, which has this
semantics.

The disk and the WAL decoder answer the calls a handler makes; these answers are gathered in
`Io` and given to the handler, so that a run of the safekeeper is a sequence of operations
together with the answers of its environment.  A restart rebuilds the safekeeper from its
control file and reopens the WAL storage at the end of WAL found on disk.

Error texts keep the fixed part of each message; the values formatted into them are left out.
-/

namespace NeonStorage

/-- `SK_PROTOCOL_VERSION`. -/
def skProtocolVersion : Nat := 2

/-- `UNKNOWN_SERVER_VERSION`. -/
def unknownServerVersion : Nat := 0

/-- The first message of a proposer (`ProposerGreeting`). -/
structure ProposerGreeting where
  protocolVersion : Nat
  pgVersion : Nat
  proposerId : Nat
  systemId : Nat
  timelineId : Nat
  tenantId : Nat
  tli : Nat
  walSegSize : Nat
deriving DecidableEq, Repr

/-- The reply to a greeting: the highest term the acceptor knows (`AcceptorGreeting`). -/
structure AcceptorGreeting where
  term : Nat
  nodeId : Nat
deriving DecidableEq, Repr

/-- `VoteRequest`. -/
structure VoteRequest where
  term : Nat
deriving DecidableEq, Repr

/-- `VoteResponse`; `voteGiven` is a `u64` that is `1` for a vote and `0` for a refusal. -/
structure VoteResponse where
  term : Nat
  voteGiven : Nat
  flushLsn : Nat
  truncateLsn : Nat
  termHistory : TermHistory
  timelineStartLsn : Nat
deriving DecidableEq, Repr

/-- `ProposerElected`. -/
structure ProposerElected where
  term : Nat
  startStreamingAt : Nat
  termHistory : TermHistory
  timelineStartLsn : Nat
deriving DecidableEq, Repr

/-- `AppendRequestHeader`. -/
structure AppendRequestHeader where
  term : Nat
  epochStartLsn : Nat
  beginLsn : Nat
  endLsn : Nat
  commitLsn : Nat
  truncateLsn : Nat
  proposerUuid : Nat
deriving DecidableEq, Repr

/-- `AppendRequest`: a header and the WAL bytes it carries. -/
structure AppendRequest where
  h : AppendRequestHeader
  walData : List UInt8
deriving DecidableEq, Repr

/-- `HotStandbyFeedback` (`send_wal.rs`): the time of a standby's reply and the two
transaction horizons it holds back. -/
structure HotStandbyFeedback where
  ts : Int64
  xmin : UInt64
  catalogXmin : UInt64
deriving DecidableEq, Repr

/-- `HotStandbyFeedback::empty`. -/
def HotStandbyFeedback.empty : HotStandbyFeedback where
  ts := 0
  xmin := 0
  catalogXmin := 0

/-- `AppendResponse`.  The acceptor leaves both feedbacks empty; the connection handler fills
them in before the reply is sent. -/
structure AppendResponse where
  term : Nat
  flushLsn : Nat
  commitLsn : Nat
  hsFeedback : HotStandbyFeedback
  pageserverFeedback : PageserverFeedback
deriving DecidableEq, Repr

/-- `AppendResponse::term_only`. -/
def AppendResponse.termOnly (term : Nat) : AppendResponse where
  term := term
  flushLsn := 0
  commitLsn := 0
  hsFeedback := .empty
  pageserverFeedback := .empty

/-- `ProposerAcceptorMessage`. -/
inductive ProposerAcceptorMessage where
  | greeting (msg : ProposerGreeting)
  | voteRequest (msg : VoteRequest)
  | elected (msg : ProposerElected)
  | appendRequest (msg : AppendRequest)
  | noFlushAppendRequest (msg : AppendRequest)
  | flushWAL
deriving DecidableEq, Repr

/-- `AcceptorProposerMessage`. -/
inductive AcceptorProposerMessage where
  | greeting (msg : AcceptorGreeting)
  | voteResponse (msg : VoteResponse)
  | appendResponse (msg : AppendResponse)
deriving DecidableEq, Repr

/-- The fields of the broker's `SafekeeperTimelineInfo` that `record_safekeeper_info` reads. -/
structure SafekeeperTimelineInfo where
  lastLogTerm : Nat
  commitLsn : Nat
  backupLsn : Nat
  remoteConsistentLsn : Nat
  peerHorizonLsn : Nat
deriving DecidableEq, Repr

/-- The answers of the disk and of the WAL decoder to the calls one operation makes. -/
structure Io where
  /-- Whether the first control file persist of the operation succeeds: the new term in
  `handle_vote_request` and `handle_elected`, the system id in `handle_greeting`, the sync in
  `update_commit_lsn`. -/
  persistOk : Bool
  /-- Whether the second one succeeds: the adopted term history in `handle_elected`, the sync
  at the end of `handle_append_request` and of `record_safekeeper_info`. -/
  secondPersistOk : Bool
  /-- Whether `flush_wal` can sync the written WAL. -/
  walFlushOk : Bool
  /-- Whether the file operations of `truncate_wal` succeed. -/
  walTruncateOk : Bool
  /-- After how many bytes the segment writes of `write_wal` fail, if they do. -/
  walWriteFailedAfter : Option Nat
  /-- The record ends the decoder reports in `write_wal`, and whether it then succeeds. -/
  walDecoded : List Nat
  walDecodeOk : Bool
deriving DecidableEq, Repr

/-- `SafeKeeper`: the LSN where the current proposer's term starts, the timeline state, the WAL
storage and the node id. -/
structure SafeKeeper where
  epochStartLsn : Nat
  state : TimelineState
  walStore : PhysicalStorage
  nodeId : Nat
deriving DecidableEq, Repr

namespace SafeKeeper

/-- `SafeKeeper::new`: the control file must name a tenant and a timeline. -/
def new (state : TimelinePersistentState) (walStore : PhysicalStorage) (nodeId : Nat) :
    Except SkError SafeKeeper :=
  if state.tenantId = 0 ∨ state.timelineId = 0 then
    .error (.bail "Calling SafeKeeper::new with empty tenant_id or timeline_id")
  else
    .ok { epochStartLsn := 0, state := TimelineState.new state, walStore, nodeId }

/-- `SafeKeeper::flush_lsn`: the end of the flushed WAL, but never below the timeline start, so
that `commit_lsn` may be set there before any WAL is received. -/
def flushLsn (self : SafeKeeper) : Nat :=
  max self.walStore.flushLsn self.state.pers.timelineStartLsn

/-- `SafeKeeper::get_term_history`. -/
def getTermHistory (self : SafeKeeper) : TermHistory :=
  self.state.pers.acceptorState.termHistory.upTo self.flushLsn

/-- `SafeKeeper::get_term`. -/
def getTerm (self : SafeKeeper) : Nat :=
  self.state.pers.acceptorState.term

/-- `SafeKeeper::get_epoch`. -/
def getEpoch (self : SafeKeeper) : Nat :=
  self.state.pers.acceptorState.getEpoch self.flushLsn

/-- A call on `self.state`. -/
def onState {α : Type} (x : EStateM SkError TimelineState α) : EStateM SkError SafeKeeper α :=
  EStateM.focus (·.state) (fun self st => { self with state := st }) x

/-- A call on `self.wal_store`. -/
def onWalStore {α : Type} (x : EStateM SkError PhysicalStorage α) :
    EStateM SkError SafeKeeper α :=
  EStateM.focus (·.walStore) (fun self w => { self with walStore := w }) x

/-- The control file state with the acceptor's term set to `term`. -/
def withTerm (state : TimelinePersistentState) (term : Nat) : TimelinePersistentState :=
  { state with acceptorState := { state.acceptorState with term := term } }

/-- The control file state `handle_greeting` persists: the proposer's system id, and its
Postgres version unless it is unknown. -/
def greetingState (msg : ProposerGreeting) (state : TimelinePersistentState) :
    TimelinePersistentState :=
  let server := { state.server with systemId := msg.systemId }
  let server :=
    if msg.pgVersion ≠ unknownServerVersion then { server with pgVersion := msg.pgVersion }
    else server
  { state with server := server }

/-- `SafeKeeper::handle_greeting`: check the proposer's versions and ids, adopt its system id,
and reply with the current term. -/
def handleGreeting (msg : ProposerGreeting) (io : Io) :
    EStateM SkError SafeKeeper (Option AcceptorProposerMessage) := do
  let self ← get
  (if msg.protocolVersion ≠ skProtocolVersion then
    throw (.bail "incompatible protocol version") else pure ())
  (if msg.pgVersion / 10000 ≠ self.state.pers.server.pgVersion / 10000 ∧
      self.state.pers.server.pgVersion ≠ unknownServerVersion then
    throw (.bail "incompatible server version") else pure ())
  (if msg.tenantId ≠ self.state.pers.tenantId then
    throw (.bail "invalid tenant ID") else pure ())
  (if msg.timelineId ≠ self.state.pers.timelineId then
    throw (.bail "invalid timeline ID") else pure ())
  (if self.state.pers.server.walSegSize ≠ msg.walSegSize then
    throw (.bail "invalid wal_seg_size") else pure ())
  -- sync-safekeepers does not know the system id and sends 0
  (if self.state.pers.server.systemId ≠ msg.systemId ∧ msg.systemId ≠ 0 then
    onState (TimelineState.finishChange (greetingState msg self.state.startChange)
      io.persistOk)
  else pure ())
  let self ← get
  return some (.greeting { term := self.state.pers.acceptorState.term, nodeId := self.nodeId })

/-- `SafeKeeper::handle_vote_request`: flush the WAL received so far, then vote for a term
higher than the current one, persisting the new term before the vote is sent. -/
def handleVoteRequest (msg : VoteRequest) (io : Io) :
    EStateM SkError SafeKeeper (Option AcceptorProposerMessage) := do
  onWalStore (PhysicalStorage.flushWal io.walFlushOk)
  let self ← get
  let mut resp : VoteResponse :=
    { term := self.state.pers.acceptorState.term
      voteGiven := 0
      flushLsn := self.flushLsn
      truncateLsn := self.state.inmem.peerHorizonLsn
      termHistory := self.getTermHistory
      timelineStartLsn := self.state.pers.timelineStartLsn }
  if self.state.pers.acceptorState.term < msg.term then
    onState (TimelineState.finishChange (withTerm self.state.startChange msg.term) io.persistOk)
    resp := { resp with term := (← get).state.pers.acceptorState.term, voteGiven := 1 }
  return some (.voteResponse resp)

/-- The control file state `handle_elected` persists: it learns where the timeline starts,
sets the LSNs that are still zero, raises `commit_lsn` and `backup_lsn` to the timeline start,
and adopts the proposer's term history. -/
def electedState (msg : ProposerElected) (state : TimelinePersistentState) :
    TimelinePersistentState :=
  let state :=
    if state.timelineStartLsn = 0 then { state with timelineStartLsn := msg.timelineStartLsn }
    else state
  let state :=
    if state.peerHorizonLsn = 0 then { state with peerHorizonLsn := msg.timelineStartLsn }
    else state
  let state :=
    if state.localStartLsn = 0 then { state with localStartLsn := msg.startStreamingAt }
    else state
  let state := { state with commitLsn := max state.commitLsn state.timelineStartLsn }
  let state := { state with backupLsn := max state.backupLsn state.timelineStartLsn }
  { state with acceptorState := { state.acceptorState with termHistory := msg.termHistory } }

/-- `SafeKeeper::handle_elected`: adopt the proposer's term, refuse a session that would
overwrite correct WAL, truncate the WAL at the streaming point, adopt the proposer's term
history and remember where its term starts. -/
def handleElected (msg : ProposerElected) (io : Io) :
    EStateM SkError SafeKeeper (Option AcceptorProposerMessage) := do
  let self ← get
  (if self.state.pers.acceptorState.term < msg.term then
    onState (TimelineState.finishChange (withTerm self.state.startChange msg.term) io.persistOk)
  else pure ())
  let self ← get
  -- a higher term of ours is reported with the next feedback
  if self.state.pers.acceptorState.term > msg.term then
    return none
  (if msg.term = self.getEpoch ∧ self.flushLsn > msg.startStreamingAt then
    throw (.bail "refusing ProposerElected which is going to overwrite correct WAL")
  else pure ())
  (if ¬msg.startStreamingAt ≥ self.state.inmem.commitLsn then
    throw (.panic "attempt to truncate committed data") else pure ())
  onWalStore (PhysicalStorage.truncateWal msg.startStreamingAt io.walTruncateOk)
  let self ← get
  onState (TimelineState.finishChange (electedState msg self.state.startChange)
    io.secondPersistOk)
  match msg.termHistory.getLast? with
  | none => throw (.bail "proposer elected with empty term history")
  | some termLsnStart => modify fun self => { self with epochStartLsn := termLsnStart.lsn }
  return none

/-- `SafeKeeper::update_commit_lsn`: advance the in-memory `commit_lsn` towards `candidate`, as
far as the flushed WAL allows, and sync the control file once it reaches the epoch start. -/
def updateCommitLsn (candidate : Nat) (persistOk : Bool) : EStateM SkError SafeKeeper Unit := do
  let self ← get
  let candidate := max candidate self.state.inmem.commitLsn
  let commitLsn := min candidate self.flushLsn
  (if ¬commitLsn ≥ self.state.inmem.commitLsn then
    throw (.panic "commit_lsn monotonicity violated") else pure ())
  set { self with state.inmem.commitLsn := commitLsn }
  if commitLsn ≥ self.epochStartLsn ∧ self.state.pers.commitLsn < self.epochStartLsn then
    onState (TimelineState.flush persistOk)

/-- `SafeKeeper::append_response`: the current term, the end of flushed WAL and the persisted
`commit_lsn`. -/
def appendResponse (self : SafeKeeper) : AppendResponse where
  term := self.state.pers.acceptorState.term
  flushLsn := self.flushLsn
  commitLsn := self.state.pers.commitLsn
  hsFeedback := .empty
  pageserverFeedback := .empty

/-- `SafeKeeper::handle_append_request`: in the proposer's term, write the WAL it sends, flush
it if asked, advance `commit_lsn` and `peer_horizon_lsn`, and sync the control file once
`commit_lsn` has moved by more than a segment. -/
def handleAppendRequest (msg : AppendRequest) (requireFlush : Bool) (io : Io) :
    EStateM SkError SafeKeeper (Option AcceptorProposerMessage) := do
  let self ← get
  (if self.state.pers.acceptorState.term < msg.h.term then
    throw (.bail "got AppendRequest before ProposerElected") else pure ())
  if self.state.pers.acceptorState.term > msg.h.term then
    return some (.appendResponse (AppendResponse.termOnly self.state.pers.acceptorState.term))
  modify fun self => { self with state.inmem.proposerUuid := msg.h.proposerUuid }
  (if !msg.walData.isEmpty then
    onWalStore (PhysicalStorage.writeWal msg.h.beginLsn msg.walData io.walWriteFailedAfter
      io.walDecoded io.walDecodeOk)
  else pure ())
  (if requireFlush then onWalStore (PhysicalStorage.flushWal io.walFlushOk) else pure ())
  (if msg.h.commitLsn ≠ 0 then updateCommitLsn msg.h.commitLsn io.persistOk else pure ())
  modify fun self =>
    { self with
      state.inmem.peerHorizonLsn := max self.state.inmem.peerHorizonLsn msg.h.truncateLsn }
  let self ← get
  (if self.state.pers.commitLsn + self.state.pers.server.walSegSize <
      self.state.inmem.commitLsn then
    onState (TimelineState.flush io.secondPersistOk)
  else pure ())
  if !requireFlush then
    return none
  return some (.appendResponse (← get).appendResponse)

/-- `SafeKeeper::handle_flush`. -/
def handleFlush (io : Io) : EStateM SkError SafeKeeper (Option AcceptorProposerMessage) := do
  onWalStore (PhysicalStorage.flushWal io.walFlushOk)
  return some (.appendResponse (← get).appendResponse)

/-- `SafeKeeper::process_msg`. -/
def processMsg (msg : ProposerAcceptorMessage) (io : Io) :
    EStateM SkError SafeKeeper (Option AcceptorProposerMessage) :=
  match msg with
  | .greeting msg => handleGreeting msg io
  | .voteRequest msg => handleVoteRequest msg io
  | .elected msg => handleElected msg io
  | .appendRequest msg => handleAppendRequest msg true io
  | .noFlushAppendRequest msg => handleAppendRequest msg false io
  | .flushWAL => handleFlush io

/-- `SafeKeeper::record_safekeeper_info`: take `commit_lsn` from a peer in the same epoch, raise
the other horizons to the peer's, and sync the control file once one has moved by more than a
segment. -/
def recordSafekeeperInfo (skInfo : SafekeeperTimelineInfo) (io : Io) :
    EStateM SkError SafeKeeper Unit := do
  let mut syncControlFile := false
  let self ← get
  (if skInfo.commitLsn ≠ 0 ∧ skInfo.lastLogTerm ≠ invalidTerm ∧
      skInfo.lastLogTerm = self.getEpoch then
    updateCommitLsn skInfo.commitLsn io.persistOk
  else pure ())
  modify fun self =>
    { self with state.inmem.backupLsn := max skInfo.backupLsn self.state.inmem.backupLsn }
  let self ← get
  syncControlFile := syncControlFile ||
    decide (self.state.pers.backupLsn + self.state.pers.server.walSegSize <
      self.state.inmem.backupLsn)
  modify fun self =>
    { self with
      state.inmem.remoteConsistentLsn :=
        max skInfo.remoteConsistentLsn self.state.inmem.remoteConsistentLsn }
  let self ← get
  syncControlFile := syncControlFile ||
    decide (self.state.pers.remoteConsistentLsn + self.state.pers.server.walSegSize <
      self.state.inmem.remoteConsistentLsn)
  modify fun self =>
    { self with
      state.inmem.peerHorizonLsn := max skInfo.peerHorizonLsn self.state.inmem.peerHorizonLsn }
  let self ← get
  syncControlFile := syncControlFile ||
    decide (self.state.pers.peerHorizonLsn + self.state.pers.server.walSegSize <
      self.state.inmem.peerHorizonLsn)
  if syncControlFile then
    onState (TimelineState.flush io.secondPersistOk)

/-- A restart: the safekeeper is built again from its control file, with the WAL storage
reopened at the end of WAL that `find_end_of_wal` decodes, `walRecords` being the record ends
it reports. -/
def restart (self : SafeKeeper) (walRecords : List Nat) : Except SkError SafeKeeper :=
  new self.state.pers (PhysicalStorage.new self.state.pers walRecords) self.nodeId

end SafeKeeper

/-- What happens to a safekeeper: a message of a proposer, a report of a peer, each with the
answers of the environment, or a restart. -/
inductive SafeKeeper.Event where
  | processMsg (msg : ProposerAcceptorMessage) (io : Io)
  | recordSafekeeperInfo (info : SafekeeperTimelineInfo) (io : Io)
  | restart (walRecords : List Nat)
deriving DecidableEq, Repr

namespace SafeKeeper

/-- What a step answers: the reply of the operation, or its error. -/
abbrev Reply := Except SkError (Option AcceptorProposerMessage)

/-- One step of a safekeeper: the reply or error of the operation, and the state after it.  A
restart that fails leaves the running safekeeper as it was. -/
def step (self : SafeKeeper) : Event → Reply × SafeKeeper
  | .processMsg msg io =>
    let r := processMsg msg io self
    (r.value, r.state)
  | .recordSafekeeperInfo info io =>
    let r := recordSafekeeperInfo info io self
    ((fun _ => none) <$> r.value, r.state)
  | .restart walRecords =>
    match self.restart walRecords with
    | .ok sk => (.ok none, sk)
    | .error e => (.error e, self)

/-- The answers of an event's environment are ones the WAL decoder can give: the records it
completes in `write_wal` end past the last record end written, and the records
`find_end_of_wal` decodes at a restart end past `commit_lsn`, where it starts. -/
def Event.Admissible (self : SafeKeeper) : Event → Prop
  | .processMsg _ io => Decoded self.walStore.writeRecordLsn io.walDecoded
  | .recordSafekeeperInfo _ _ => True
  | .restart walRecords => Decoded self.state.pers.commitLsn walRecords

instance (self : SafeKeeper) : (ev : Event) → Decidable (ev.Admissible self)
  | .processMsg _ io => inferInstanceAs (Decidable (Decoded _ io.walDecoded))
  | .recordSafekeeperInfo _ _ => inferInstanceAs (Decidable True)
  | .restart walRecords => inferInstanceAs (Decidable (Decoded _ walRecords))

end SafeKeeper

end NeonStorage

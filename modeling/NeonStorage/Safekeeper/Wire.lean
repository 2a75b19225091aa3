import Mathlib
import NeonStorage.Lib.Reader
import NeonStorage.Safekeeper.SafeKeeper

/-!
# The proposer-acceptor wire format

The walproposer (`pgxn/neon/walproposer.c`) and the safekeeper (`safekeeper/src/safekeeper.rs`)
exchange messages that each side writes and reads with its own code.  The walproposer sends a
`ProposerGreeting`, a `VoteRequest` and the header of an `AppendRequest` as the memory of its C
structs, and a `ProposerElected` field by field with `pq_sendint*_le`.
`ProposerAcceptorMessage::parse` reads them with `bincode` and `bytes::Buf`.  The safekeeper
answers with `AcceptorProposerMessage::serialize`, little endian up to the pageserver feedback,
which is big endian.  The walproposer reads the answer with `AsyncReadMessage` and the
`pq_getmsg*` functions of Postgres.

This file models both sides: the C structs with what `walproposer.c` writes and reads, and the
Rust parser and serializer.  A C struct is read in the terms of the Rust messages by `view`:
integers by their value, sixteen-byte ids as big-endian numbers, a `TimestampTz` as the instant
it names.  `wire_codecs_agree` proves that

* `parse` returns the fields of every message the walproposer sends, and fails on every strict
  prefix of one;
* every error of `parse`, on any bytes, is an error it returns, never a panic;
* `AsyncReadMessage` recovers the fields of every reply that the C structs can hold
  (`Representable`).

A reply outside `Representable` does not arrive.  A term history of `2 ^ 26` entries or more
asks `palloc` for a gigabyte and fails (`asyncReadMessage_long_term_history`).  A reply time
before `PG_EPOCH` makes `serialize` panic.

Struct memory is little endian, as on the platforms the walproposer runs on.
-/

namespace NeonStorage

open Bytes Reader

/-! ## The walproposer's structs (`walproposer.h`) -/

namespace Walproposer

/-- `TermSwitchEntry`. -/
structure TermSwitchEntry where
  term : UInt64
  lsn : UInt64
deriving DecidableEq, Repr

/-- `TermHistory`: `n_entries` entries in an array of that length. -/
structure TermHistory where
  nEntries : UInt32
  entries : List.Vector TermSwitchEntry nEntries.toNat
deriving DecidableEq

/-- `ProposerGreeting`, whose tag is `'g'`; `timeline` is the Postgres timeline. -/
structure ProposerGreeting where
  protocolVersion : UInt32
  pgVersion : UInt32
  proposerId : List.Vector UInt8 16
  systemId : UInt64
  timelineId : List.Vector UInt8 16
  tenantId : List.Vector UInt8 16
  timeline : UInt32
  walSegSize : UInt32
deriving DecidableEq

/-- `VoteRequest`, whose tag is `'v'`. -/
structure VoteRequest where
  term : UInt64
  proposerId : List.Vector UInt8 16
deriving DecidableEq

/-- `ProposerElected`, whose tag is `'e'`. -/
structure ProposerElected where
  term : UInt64
  startStreamingAt : UInt64
  termHistory : TermHistory
  timelineStartLsn : UInt64
deriving DecidableEq

/-- `AppendRequestHeader`, whose tag is `'a'`. -/
structure AppendRequestHeader where
  term : UInt64
  epochStartLsn : UInt64
  beginLsn : UInt64
  endLsn : UInt64
  commitLsn : UInt64
  truncateLsn : UInt64
  proposerId : List.Vector UInt8 16
deriving DecidableEq

/-- `AcceptorGreeting`. -/
structure AcceptorGreeting where
  term : UInt64
  nodeId : UInt64
deriving DecidableEq, Repr

/-- `VoteResponse`. -/
structure VoteResponse where
  term : UInt64
  voteGiven : UInt64
  flushLsn : UInt64
  truncateLsn : UInt64
  termHistory : TermHistory
  timelineStartLsn : UInt64
deriving DecidableEq

/-- `HotStandbyFeedback`; the transaction ids are the `value` of a `FullTransactionId`. -/
structure HotStandbyFeedback where
  ts : Int64
  xmin : UInt64
  catalogXmin : UInt64
deriving DecidableEq, Repr

/-- `PageserverFeedback`; `replytime` is a `TimestampTz`. -/
structure PageserverFeedback where
  currentClusterSize : UInt64
  lastReceivedLsn : UInt64
  diskConsistentLsn : UInt64
  remoteConsistentLsn : UInt64
  replytime : Int64
deriving DecidableEq, Repr

/-- `AppendResponse`. -/
structure AppendResponse where
  term : UInt64
  flushLsn : UInt64
  commitLsn : UInt64
  hs : HotStandbyFeedback
  rf : PageserverFeedback
deriving DecidableEq, Repr

/-- The replies `AsyncReadMessage` fills in, behind their `AcceptorProposerMessage` header. -/
inductive AcceptorProposerMessage where
  | greeting (msg : AcceptorGreeting)
  | voteResponse (msg : VoteResponse)
  | appendResponse (msg : AppendResponse)
deriving DecidableEq

/-- The `tag` the walproposer sets in the reply it waits for. -/
def AcceptorProposerMessage.tag : AcceptorProposerMessage → UInt64
  | .greeting _ => UInt64.ofNat 'g'.toNat
  | .voteResponse _ => UInt64.ofNat 'v'.toNat
  | .appendResponse _ => UInt64.ofNat 'a'.toNat

/-! ## What the walproposer writes -/

/-- A `uint64` in memory: least significant byte first. -/
def memU64 (i : UInt64) : List UInt8 := leBytes 8 i.toNat

/-- A `uint32` in memory. -/
def memU32 (i : UInt32) : List UInt8 := leBytes 4 i.toNat

/-- `pq_sendint64_le`: the memory of `i`. -/
def pqSendint64Le (i : UInt64) : List UInt8 := memU64 i

/-- `pq_sendint32_le`. -/
def pqSendint32Le (i : UInt32) : List UInt8 := memU32 i

/-- The memory of a `ProposerGreeting` with tag `'g'`: 80 bytes, no padding. -/
def ProposerGreeting.raw (g : ProposerGreeting) : List UInt8 :=
  memU64 (UInt64.ofNat 'g'.toNat) ++ memU32 g.protocolVersion ++ memU32 g.pgVersion ++
    g.proposerId.toList ++ memU64 g.systemId ++ g.timelineId.toList ++ g.tenantId.toList ++
    memU32 g.timeline ++ memU32 g.walSegSize

/-- The memory of a `VoteRequest` with tag `'v'`. -/
def VoteRequest.raw (v : VoteRequest) : List UInt8 :=
  memU64 (UInt64.ofNat 'v'.toNat) ++ memU64 v.term ++ v.proposerId.toList

/-- The memory of an `AppendRequestHeader` with tag `'a'`: `sizeof(AppendRequestHeader)`,
72 bytes, no padding. -/
def AppendRequestHeader.raw (req : AppendRequestHeader) : List UInt8 :=
  memU64 (UInt64.ofNat 'a'.toNat) ++ memU64 req.term ++ memU64 req.epochStartLsn ++
    memU64 req.beginLsn ++ memU64 req.endLsn ++ memU64 req.commitLsn ++ memU64 req.truncateLsn ++
    req.proposerId.toList

/-- One entry of the term history in `SendProposerElected`. -/
def sendTermSwitchEntry (e : TermSwitchEntry) : List UInt8 :=
  pqSendint64Le e.term ++ pqSendint64Le e.lsn

/-- The message `SendProposerElected` writes for `msg`. -/
def sendProposerElected (msg : ProposerElected) : List UInt8 :=
  pqSendint64Le (UInt64.ofNat 'e'.toNat) ++ pqSendint64Le msg.term ++
    pqSendint64Le msg.startStreamingAt ++ pqSendint32Le msg.termHistory.nEntries ++
    (msg.termHistory.entries.toList.map sendTermSwitchEntry).flatten ++
    pqSendint64Le msg.timelineStartLsn

/-- The message `SendAppendRequests` writes for one request: the header, then the WAL from
`beginLsn` to `endLsn` that `wal_read` puts after it. -/
def sendAppendRequest (req : AppendRequestHeader) (wal : List UInt8) : List UInt8 :=
  req.raw ++ wal

/-! ## What the walproposer reads -/

/-- How `AsyncReadMessage` fails: a reply with another tag than the one expected makes it reset
the connection and return `false`; a `pq_getmsg*` read past the end of the message, bytes left
over at the end and a `palloc` of more than `MaxAllocSize` raise an `ERROR`. -/
inductive ReadError where
  | unexpectedTag (tag : UInt64)
  | error (msg : String)
deriving DecidableEq, Repr

/-- The `ERROR` of `pq_copymsgbytes` past the end of the message. -/
def insufficientData : ReadError := .error "insufficient data left in message"

/-- `pq_getmsgint64_le`. -/
def pqGetmsgint64Le : Reader ReadError UInt8 UInt64 := do
  let n ← Reader.le insufficientData 8
  pure (UInt64.ofNat n)

/-- `pq_getmsgint32_le`. -/
def pqGetmsgint32Le : Reader ReadError UInt8 UInt32 := do
  let n ← Reader.le insufficientData 4
  pure (UInt32.ofNat n)

/-- `pq_getmsgint64`: network byte order. -/
def pqGetmsgint64 : Reader ReadError UInt8 UInt64 := do
  let n ← Reader.be insufficientData 8
  pure (UInt64.ofNat n)

/-- `pq_getmsgint(msg, 4)`. -/
def pqGetmsgint4 : Reader ReadError UInt8 UInt32 := do
  let n ← Reader.be insufficientData 4
  pure (UInt32.ofNat n)

/-- `pq_getmsgbyte`. -/
def pqGetmsgbyte : Reader ReadError UInt8 UInt8 := fun buf =>
  match buf with
  | b :: rest => .ok (b, rest)
  | [] => .error (.error "no data left in message")

/-- `pq_getmsgstring`: the bytes before the next zero byte, which is consumed too.  The message
ends in a zero byte of its own, so without a zero byte left in the message `strlen` stops there
and the read is an `ERROR`. -/
def pqGetmsgstring : Reader ReadError UInt8 (List UInt8) := fun buf =>
  match buf with
  | [] => .error (.error "invalid string in message")
  | b :: rest =>
    if b = 0 then .ok ([], rest)
    else
      match pqGetmsgstring rest with
      | .ok (s, rest') => .ok (b :: s, rest')
      | .error e => .error e

/-- `pq_getmsgbytes`: a negative length is an `ERROR` too. -/
def pqGetmsgbytes (datalen : Int32) : Reader ReadError UInt8 (List UInt8) :=
  if datalen < 0 then throw insufficientData
  else Reader.take insufficientData datalen.toInt.toNat

/-- `pq_getmsgend`. -/
def pqGetmsgend : Reader ReadError UInt8 Unit := fun buf =>
  if buf = [] then .ok ((), buf) else .error (.error "invalid message format")

/-- `MaxAllocSize`. -/
def maxAllocSize : Nat := 0x3fffffff

/-- The check of `palloc` on the size it is asked for. -/
def palloc (size : Nat) : Reader ReadError UInt8 Unit :=
  if size > maxAllocSize then throw (.error "invalid memory alloc request size") else pure ()

/-- The value of a key `ParsePageserverFeedbackMessage` knows: its length, which it does not
look at, then the value. -/
def readKeyValue : Reader ReadError UInt8 UInt64 := do
  let _ ← pqGetmsgint4
  pqGetmsgint64

/-- The body of the loop of `ParsePageserverFeedbackMessage` for one key; each field has its
current key and the key older pageservers send. -/
def parseFeedbackKey (rf : PageserverFeedback) (key : List UInt8) :
    Reader ReadError UInt8 PageserverFeedback :=
  if key = asciiBytes "current_timeline_size" then do
    let v ← readKeyValue
    pure { rf with currentClusterSize := v }
  else if key = asciiBytes "ps_writelsn" ∨ key = asciiBytes "last_received_lsn" then do
    let v ← readKeyValue
    pure { rf with lastReceivedLsn := v }
  else if key = asciiBytes "ps_flushlsn" ∨ key = asciiBytes "disk_consistent_lsn" then do
    let v ← readKeyValue
    pure { rf with diskConsistentLsn := v }
  else if key = asciiBytes "ps_applylsn" ∨ key = asciiBytes "remote_consistent_lsn" then do
    let v ← readKeyValue
    pure { rf with remoteConsistentLsn := v }
  else if key = asciiBytes "ps_replytime" ∨ key = asciiBytes "replytime" then do
    let v ← readKeyValue
    pure { rf with replytime := v.toInt64 }
  else do
    -- an unknown key is skipped by its length, read into an `int32`
    let len ← pqGetmsgint4
    let _ ← pqGetmsgbytes len.toInt32
    pure rf

/-- The loop of `ParsePageserverFeedbackMessage` over `n` keys. -/
def parseFeedbackKeys : Nat → PageserverFeedback → Reader ReadError UInt8 PageserverFeedback
  | 0, rf => pure rf
  | n + 1, rf => do
    let key ← pqGetmsgstring
    let rf ← parseFeedbackKey rf key
    parseFeedbackKeys n rf

/-- `ParsePageserverFeedbackMessage`: the fields whose keys come in the message are set, the
others keep the value they had in `rf`. -/
def parsePageserverFeedbackMessage (rf : PageserverFeedback) :
    Reader ReadError UInt8 PageserverFeedback := do
  let nkeys ← pqGetmsgbyte
  parseFeedbackKeys nkeys.toNat rf

/-- `APPENDRESPONSE_FIXEDPART_SIZE`, the offset of `rf` in `AppendResponse`. -/
def appendresponseFixedpartSize : Nat := 56

/-- One entry of the term history in `AsyncReadMessage`. -/
def readTermSwitchEntry : Reader ReadError UInt8 TermSwitchEntry := do
  let term ← pqGetmsgint64Le
  let lsn ← pqGetmsgint64Le
  pure { term, lsn }

/-- `AsyncReadMessage` after `AsyncRead` has returned a message of `bufSize` bytes: the reply is
read into `anymsg`, whose tag says which reply is expected. -/
def asyncReadBody (anymsg : AcceptorProposerMessage) (bufSize : Nat) :
    Reader ReadError UInt8 AcceptorProposerMessage := do
  let tag ← pqGetmsgint64Le
  if tag ≠ anymsg.tag then throw (.unexpectedTag tag)
  else
    match anymsg with
    | .greeting _ => do
      let term ← pqGetmsgint64Le
      let nodeId ← pqGetmsgint64Le
      pqGetmsgend
      pure (.greeting { term, nodeId })
    | .voteResponse _ => do
      let term ← pqGetmsgint64Le
      let voteGiven ← pqGetmsgint64Le
      let flushLsn ← pqGetmsgint64Le
      let truncateLsn ← pqGetmsgint64Le
      let nEntries ← pqGetmsgint32Le
      palloc (16 * nEntries.toNat)
      let entries ← repeatVec readTermSwitchEntry nEntries.toNat
      let timelineStartLsn ← pqGetmsgint64Le
      pqGetmsgend
      pure (.voteResponse
        { term, voteGiven, flushLsn, truncateLsn, termHistory := ⟨nEntries, entries⟩,
          timelineStartLsn })
    | .appendResponse msg => do
      let term ← pqGetmsgint64Le
      let flushLsn ← pqGetmsgint64Le
      let commitLsn ← pqGetmsgint64Le
      let ts ← pqGetmsgint64Le
      let xmin ← pqGetmsgint64Le
      let catalogXmin ← pqGetmsgint64Le
      let rf ← if bufSize > appendresponseFixedpartSize then parsePageserverFeedbackMessage msg.rf
        else pure msg.rf
      pqGetmsgend
      pure (.appendResponse
        { term, flushLsn, commitLsn, hs := { ts := ts.toInt64, xmin, catalogXmin }, rf })

/-- `AsyncReadMessage` on the message `buf`. -/
def asyncReadMessage (anymsg : AcceptorProposerMessage) (buf : List UInt8) :
    Except ReadError AcceptorProposerMessage :=
  (asyncReadBody anymsg buf.length).run' buf

end Walproposer

/-! ## What the safekeeper reads -/

namespace ProposerAcceptorMessage

/-- `MAX_SEND_SIZE`: `XLOG_BLCKSZ * 16`. -/
def maxSendSize : Nat := 8192 * 16

/-- The `io::Error` of a read past the end of the message stream. -/
def unexpectedEof : SkError := .bail "failed to fill whole buffer"

/-- The same error, met by `des_from`. -/
def desUnexpectedEof : SkError := .bail "deserialize error: failed to fill whole buffer"

/-- The panic of `Buf::get_*` past the end of the buffer. -/
def advanceOutOfBounds : SkError := .panic "advance out of bounds"

/-- `ReadBytesExt::read_u64::<LittleEndian>` on the message stream. -/
def readU64Le : Reader SkError UInt8 Nat := Reader.le unexpectedEof 8

/-- `Buf::get_u64_le`. -/
def getU64Le : Reader SkError UInt8 Nat := Reader.le advanceOutOfBounds 8

/-- `Buf::get_u32_le`. -/
def getU32Le : Reader SkError UInt8 Nat := Reader.le advanceOutOfBounds 4

/-- A `u32` read by `des_from` (`bincode`, little endian, fixed width). -/
def desU32 : Reader SkError UInt8 Nat := Reader.le desUnexpectedEof 4

/-- A `u64` read by `des_from`. -/
def desU64 : Reader SkError UInt8 Nat := Reader.le desUnexpectedEof 8

/-- A `[u8; 16]` id read by `des_from`, as the number its bytes spell, most significant first. -/
def desId : Reader SkError UInt8 Nat := Reader.be desUnexpectedEof 16

/-- `ProposerGreeting::des_from`. -/
def ProposerGreeting.desFrom : Reader SkError UInt8 ProposerGreeting := do
  let protocolVersion ← desU32
  let pgVersion ← desU32
  let proposerId ← desId
  let systemId ← desU64
  let timelineId ← desId
  let tenantId ← desId
  let tli ← desU32
  let walSegSize ← desU32
  pure { protocolVersion, pgVersion, proposerId, systemId, timelineId, tenantId, tli, walSegSize }

/-- `VoteRequest::des_from`. -/
def VoteRequest.desFrom : Reader SkError UInt8 VoteRequest := do
  let term ← desU64
  pure { term }

/-- `AppendRequestHeader::des_from`. -/
def AppendRequestHeader.desFrom : Reader SkError UInt8 AppendRequestHeader := do
  let term ← desU64
  let epochStartLsn ← desU64
  let beginLsn ← desU64
  let endLsn ← desU64
  let commitLsn ← desU64
  let truncateLsn ← desU64
  let proposerUuid ← desId
  pure { term, epochStartLsn, beginLsn, endLsn, commitLsn, truncateLsn, proposerUuid }

/-- One entry of `TermHistory::from_bytes`. -/
def termLsnFromBytes : Reader SkError UInt8 TermLsn := do
  ensure (.bail "TermHistory is incomplete") 16
  let term ← getU64Le
  let lsn ← getU64Le
  pure { term, lsn }

/-- `TermHistory::from_bytes`: the number of entries as a `u32`, then the entries. -/
def termHistoryFromBytes : Reader SkError UInt8 TermHistory := do
  ensure (.bail "TermHistory misses len") 4
  let nEntries ← getU32Le
  repeatN termLsnFromBytes nEntries

/-- The branch of `ProposerAcceptorMessage::parse` for `'e'`. -/
def readElected : Reader SkError UInt8 ProposerElected := do
  ensure (.bail "ProposerElected message is not complete") 16
  let term ← getU64Le
  let startStreamingAt ← getU64Le
  let termHistory ← termHistoryFromBytes
  ensure (.bail "ProposerElected message is not complete") 8
  let timelineStartLsn ← getU64Le
  pure { term, startStreamingAt, termHistory, timelineStartLsn }

/-- The branch of `ProposerAcceptorMessage::parse` for `'a'`: the header, then as many bytes of
WAL as it says. -/
def readAppendRequest : Reader SkError UInt8 AppendRequest := do
  let hdr ← AppendRequestHeader.desFrom
  if hdr.endLsn < hdr.beginLsn then throw (.bail "begin_lsn > end_lsn in AppendRequest")
  else
    let recSize := hdr.endLsn - hdr.beginLsn
    if recSize > maxSendSize then throw (.bail "AppendRequest is longer than MAX_SEND_SIZE")
    else do
      let walData ← Reader.take unexpectedEof recSize
      pure { h := hdr, walData }

/-- `ProposerAcceptorMessage::parse` after the tag, `tag as u8 as char`. -/
def readTagged (tag : Char) : Reader SkError UInt8 ProposerAcceptorMessage :=
  match tag with
  | 'g' => do
    let msg ← ProposerGreeting.desFrom
    pure (.greeting msg)
  | 'v' => do
    let msg ← VoteRequest.desFrom
    pure (.voteRequest msg)
  | 'e' => do
    let msg ← readElected
    pure (.elected msg)
  | 'a' => do
    let msg ← readAppendRequest
    pure (.appendRequest msg)
  | _ => throw (.bail "unknown proposer-acceptor message tag")

/-- `ProposerAcceptorMessage::parse` as a reader: the tag is a `u64`. -/
def read : Reader SkError UInt8 ProposerAcceptorMessage := do
  let tag ← readU64Le
  readTagged (Char.ofNat (tag % 256))

/-- `ProposerAcceptorMessage::parse`. -/
def parse (msgBytes : List UInt8) : Except SkError ProposerAcceptorMessage :=
  read.run' msgBytes

end ProposerAcceptorMessage

/-! ## What the safekeeper writes -/

namespace AcceptorProposerMessage

/-- `BufMut::put_u64_le`. -/
def putU64Le (n : Nat) : List UInt8 := leBytes 8 n

/-- `BufMut::put_u32_le`. -/
def putU32Le (n : Nat) : List UInt8 := leBytes 4 n

/-- `BufMut::put_i64_le`. -/
def putI64Le (n : Int64) : List UInt8 := leBytes 8 n.toUInt64.toNat

/-- `AcceptorProposerMessage::serialize`.  The length of the term history is written
`as u32`; `PageserverFeedback::serialize` panics on a reply time before `PG_EPOCH`. -/
def serialize : AcceptorProposerMessage → Except SkError (List UInt8)
  | .greeting msg => .ok (putU64Le 'g'.toNat ++ putU64Le msg.term ++ putU64Le msg.nodeId)
  | .voteResponse msg =>
    .ok (putU64Le 'v'.toNat ++ putU64Le msg.term ++ putU64Le msg.voteGiven ++
      putU64Le msg.flushLsn ++ putU64Le msg.truncateLsn ++ putU32Le msg.termHistory.length ++
      (msg.termHistory.map fun e => putU64Le e.term ++ putU64Le e.lsn).flatten ++
      putU64Le msg.timelineStartLsn)
  | .appendResponse msg =>
    match msg.pageserverFeedback.serialize with
    | .ok feedback =>
      .ok (putU64Le 'a'.toNat ++ putU64Le msg.term ++ putU64Le msg.flushLsn ++
        putU64Le msg.commitLsn ++ putI64Le msg.hsFeedback.ts ++
        putU64Le msg.hsFeedback.xmin.toNat ++ putU64Le msg.hsFeedback.catalogXmin.toNat ++
        feedback)
    | .error e => .error (.panic e)

end AcceptorProposerMessage

/-! ## The C structs in the terms of the Rust messages -/

namespace Walproposer

/-- A sixteen-byte id as the Rust messages hold it: the number its bytes spell, most
significant first. -/
def idNat (id : List.Vector UInt8 16) : Nat := ofBeBytes id.toList

/-- The instant a `TimestampTz` names: microseconds from `PG_EPOCH`. -/
def instant (ts : Int64) : SystemTime := ⟨pgEpoch.nanos + ts.toInt * 1000⟩

def TermSwitchEntry.view (e : TermSwitchEntry) : TermLsn := ⟨e.term.toNat, e.lsn.toNat⟩

def TermHistory.view (th : TermHistory) : NeonStorage.TermHistory :=
  th.entries.toList.map TermSwitchEntry.view

def ProposerGreeting.view (g : ProposerGreeting) : NeonStorage.ProposerGreeting where
  protocolVersion := g.protocolVersion.toNat
  pgVersion := g.pgVersion.toNat
  proposerId := idNat g.proposerId
  systemId := g.systemId.toNat
  timelineId := idNat g.timelineId
  tenantId := idNat g.tenantId
  tli := g.timeline.toNat
  walSegSize := g.walSegSize.toNat

def VoteRequest.view (v : VoteRequest) : NeonStorage.VoteRequest := ⟨v.term.toNat⟩

def ProposerElected.view (msg : ProposerElected) : NeonStorage.ProposerElected where
  term := msg.term.toNat
  startStreamingAt := msg.startStreamingAt.toNat
  termHistory := msg.termHistory.view
  timelineStartLsn := msg.timelineStartLsn.toNat

def AppendRequestHeader.view (req : AppendRequestHeader) : NeonStorage.AppendRequestHeader where
  term := req.term.toNat
  epochStartLsn := req.epochStartLsn.toNat
  beginLsn := req.beginLsn.toNat
  endLsn := req.endLsn.toNat
  commitLsn := req.commitLsn.toNat
  truncateLsn := req.truncateLsn.toNat
  proposerUuid := idNat req.proposerId

def AcceptorGreeting.view (msg : AcceptorGreeting) : NeonStorage.AcceptorGreeting :=
  ⟨msg.term.toNat, msg.nodeId.toNat⟩

def VoteResponse.view (msg : VoteResponse) : NeonStorage.VoteResponse where
  term := msg.term.toNat
  voteGiven := msg.voteGiven.toNat
  flushLsn := msg.flushLsn.toNat
  truncateLsn := msg.truncateLsn.toNat
  termHistory := msg.termHistory.view
  timelineStartLsn := msg.timelineStartLsn.toNat

def HotStandbyFeedback.view (hs : HotStandbyFeedback) : NeonStorage.HotStandbyFeedback :=
  ⟨hs.ts, hs.xmin, hs.catalogXmin⟩

def PageserverFeedback.view (rf : PageserverFeedback) : NeonStorage.PageserverFeedback where
  currentTimelineSize := rf.currentClusterSize
  lastReceivedLsn := rf.lastReceivedLsn
  diskConsistentLsn := rf.diskConsistentLsn
  remoteConsistentLsn := rf.remoteConsistentLsn
  replytime := instant rf.replytime

def AppendResponse.view (msg : AppendResponse) : NeonStorage.AppendResponse where
  term := msg.term.toNat
  flushLsn := msg.flushLsn.toNat
  commitLsn := msg.commitLsn.toNat
  hsFeedback := msg.hs.view
  pageserverFeedback := msg.rf.view

def AcceptorProposerMessage.view : AcceptorProposerMessage → NeonStorage.AcceptorProposerMessage
  | .greeting msg => .greeting msg.view
  | .voteResponse msg => .voteResponse msg.view
  | .appendResponse msg => .appendResponse msg.view

/-- The reply `anymsg` that `AsyncReadMessage` fills in is of the kind of `m`. -/
def AcceptorProposerMessage.Expects :
    AcceptorProposerMessage → NeonStorage.AcceptorProposerMessage → Prop
  | .greeting _, .greeting _ => True
  | .voteResponse _, .voteResponse _ => True
  | .appendResponse _, .appendResponse _ => True
  | _, _ => False

end Walproposer

/-- The messages of the walproposer that `parse` reads to their last byte: all but the
`VoteRequest`, whose proposer id it leaves unread.  An `AppendRequest` carries at most
`MAX_SEND_SIZE` bytes of WAL, which follow the header. -/
inductive Sent : List UInt8 → Prop
  | greeting (g : Walproposer.ProposerGreeting) : Sent g.raw
  | elected (msg : Walproposer.ProposerElected) : Sent (Walproposer.sendProposerElected msg)
  | appendRequest (req : Walproposer.AppendRequestHeader) (wal : List UInt8)
      (hle : req.beginLsn ≤ req.endLsn)
      (hmax : (req.endLsn - req.beginLsn).toNat ≤ ProposerAcceptorMessage.maxSendSize)
      (hwal : wal.length = (req.endLsn - req.beginLsn).toNat) :
      Sent (Walproposer.sendAppendRequest req wal)

/-- A reply whose fields the walproposer's structs hold: every `u64` below `2 ^ 64`, as it is
in the safekeeper; a term history whose array `palloc` can allocate; and a reply time at or
after `PG_EPOCH`, on a whole microsecond and less than `2 ^ 63` microseconds after it. -/
inductive Representable : AcceptorProposerMessage → Prop
  | greeting {msg : AcceptorGreeting} (hterm : msg.term < 2 ^ 64) (hnodeId : msg.nodeId < 2 ^ 64) :
      Representable (.greeting msg)
  | voteResponse {msg : VoteResponse} (hterm : msg.term < 2 ^ 64)
      (hvoteGiven : msg.voteGiven < 2 ^ 64) (hflushLsn : msg.flushLsn < 2 ^ 64)
      (htruncateLsn : msg.truncateLsn < 2 ^ 64)
      (hentries : ∀ e ∈ msg.termHistory, e.term < 2 ^ 64 ∧ e.lsn < 2 ^ 64)
      (halloc : 16 * msg.termHistory.length ≤ Walproposer.maxAllocSize)
      (htimelineStartLsn : msg.timelineStartLsn < 2 ^ 64) :
      Representable (.voteResponse msg)
  | appendResponse {msg : AppendResponse} (hterm : msg.term < 2 ^ 64)
      (hflushLsn : msg.flushLsn < 2 ^ 64) (hcommitLsn : msg.commitLsn < 2 ^ 64)
      (hafter : pgEpoch.nanos ≤ msg.pageserverFeedback.replytime.nanos)
      (hmicros : (msg.pageserverFeedback.replytime.nanos - pgEpoch.nanos) % 1000 = 0)
      (hrange : msg.pageserverFeedback.replytime.nanos - pgEpoch.nanos < 2 ^ 63 * 1000) :
      Representable (.appendResponse msg)

/-! ## `parse` reads what the walproposer writes -/

namespace Walproposer

/-- A `uint64` in memory is read back by any little-endian read of eight bytes. -/
theorem reads_memU64 {ε : Type} (e : ε) (i : UInt64) : Reads (Reader.le e 8) (memU64 i) i.toNat :=
  Reads.le_of_lt (lt_of_lt_of_eq i.toNat_lt (by norm_num)) e

theorem reads_memU32 {ε : Type} (e : ε) (i : UInt32) : Reads (Reader.le e 4) (memU32 i) i.toNat :=
  Reads.le_of_lt (lt_of_lt_of_eq i.toNat_lt (by norm_num)) e

theorem reads_id {ε : Type} (e : ε) (id : List.Vector UInt8 16) :
    Reads (Reader.be e 16) id.toList (idNat id) :=
  (Reads.take id.toList_length e).bind_pure ofBeBytes

end Walproposer

open Walproposer ProposerAcceptorMessage AcceptorProposerMessage

theorem reads_greeting (g : Walproposer.ProposerGreeting) :
    Reads ProposerAcceptorMessage.read g.raw (.greeting g.view) := by
  simp only [Walproposer.ProposerGreeting.raw, List.append_assoc]
  unfold ProposerAcceptorMessage.read
  refine (reads_memU64 _ _).bind ?_
  show Reads (readTagged 'g') _ _
  refine Reads.bind_pure ?_ ProposerAcceptorMessage.greeting
  unfold ProposerGreeting.desFrom
  refine (reads_memU32 _ _).bind ?_
  refine (reads_memU32 _ _).bind ?_
  refine (reads_id _ _).bind ?_
  refine (reads_memU64 _ _).bind ?_
  refine (reads_id _ _).bind ?_
  refine (reads_id _ _).bind ?_
  refine (reads_memU32 _ _).bind ?_
  exact (reads_memU32 _ _).bind_pure _

theorem reads_termLsnFromBytes (e : Walproposer.TermSwitchEntry) :
    Reads termLsnFromBytes (sendTermSwitchEntry e) e.view := by
  unfold termLsnFromBytes
  refine Reads.ensure_bind ?_ (by simp [sendTermSwitchEntry, pqSendint64Le, memU64]) _
  refine (reads_memU64 _ _).bind ?_
  exact (reads_memU64 _ _).bind_pure _

theorem reads_termHistoryFromBytes (th : Walproposer.TermHistory) :
    Reads termHistoryFromBytes
      (pqSendint32Le th.nEntries ++ (th.entries.toList.map sendTermSwitchEntry).flatten) th.view := by
  unfold termHistoryFromBytes
  refine Reads.ensure_bind ?_ (by simp [pqSendint32Le, memU32]) _
  refine (reads_memU32 _ _).bind ?_
  exact Reads.repeatN _ (fun e _ => reads_termLsnFromBytes e) th.entries.toList_length

theorem reads_elected (msg : Walproposer.ProposerElected) :
    Reads ProposerAcceptorMessage.read (sendProposerElected msg) (.elected msg.view) := by
  simp only [sendProposerElected, List.append_assoc]
  unfold ProposerAcceptorMessage.read
  refine (reads_memU64 _ _).bind ?_
  show Reads (readTagged 'e') _ _
  refine Reads.bind_pure ?_ ProposerAcceptorMessage.elected
  unfold readElected
  refine Reads.ensure_bind ?_ (by simp [pqSendint64Le, pqSendint32Le, memU64, memU32]; omega) _
  refine (reads_memU64 _ _).bind ?_
  refine (reads_memU64 _ _).bind ?_
  rw [← List.append_assoc]
  refine (reads_termHistoryFromBytes _).bind ?_
  refine Reads.ensure_bind ?_ (by simp [pqSendint64Le, memU64]) _
  exact (reads_memU64 _ _).bind_pure _

theorem reads_appendRequestHeader (req : Walproposer.AppendRequestHeader) :
    Reads AppendRequestHeader.desFrom
      (memU64 req.term ++ memU64 req.epochStartLsn ++ memU64 req.beginLsn ++ memU64 req.endLsn ++
        memU64 req.commitLsn ++ memU64 req.truncateLsn ++ req.proposerId.toList) req.view := by
  simp only [List.append_assoc]
  unfold AppendRequestHeader.desFrom
  refine (reads_memU64 _ _).bind ?_
  refine (reads_memU64 _ _).bind ?_
  refine (reads_memU64 _ _).bind ?_
  refine (reads_memU64 _ _).bind ?_
  refine (reads_memU64 _ _).bind ?_
  refine (reads_memU64 _ _).bind ?_
  exact (reads_id _ _).bind_pure _

theorem reads_appendRequest (req : Walproposer.AppendRequestHeader) (wal : List UInt8)
    (hle : req.beginLsn ≤ req.endLsn)
    (hmax : (req.endLsn - req.beginLsn).toNat ≤ maxSendSize)
    (hwal : wal.length = (req.endLsn - req.beginLsn).toNat) :
    Reads ProposerAcceptorMessage.read (sendAppendRequest req wal)
      (.appendRequest ⟨req.view, wal⟩) := by
  have hsub : (req.endLsn - req.beginLsn).toNat = req.endLsn.toNat - req.beginLsn.toNat :=
    UInt64.toNat_sub_of_le _ _ hle
  have hle' : req.beginLsn.toNat ≤ req.endLsn.toNat := UInt64.le_iff_toNat_le.mp hle
  unfold sendAppendRequest AppendRequestHeader.raw
  rw [List.append_assoc _ _ wal]
  simp only [List.append_assoc (memU64 (UInt64.ofNat 'a'.toNat))]
  unfold ProposerAcceptorMessage.read
  refine (reads_memU64 _ _).bind ?_
  show Reads (readTagged 'a') _ _
  refine Reads.bind_pure ?_ ProposerAcceptorMessage.appendRequest
  unfold readAppendRequest
  refine (reads_appendRequestHeader req).bind ?_
  have hrec : req.view.endLsn - req.view.beginLsn = (req.endLsn - req.beginLsn).toNat := by
    rw [hsub]
    rfl
  rw [if_neg (show ¬ req.view.endLsn < req.view.beginLsn from not_lt.mpr hle')]
  dsimp only
  rw [hrec, if_neg (not_lt.mpr hmax)]
  exact (Reads.take hwal _).bind_pure _

/-! ## `parse` never panics -/

/-- An error `parse` returns: an `anyhow` error, not a panic. -/
def IsBail (e : SkError) : Prop := ∃ msg, e = .bail msg

theorem failsIn_termLsnFromBytes : FailsIn IsBail 0 termLsnFromBytes := by
  unfold termLsnFromBytes
  refine FailsIn.ensure_bind ⟨_, rfl⟩ ?_ 0
  refine FailsIn.le_bind (by norm_num) fun _ => ?_
  refine FailsIn.le_bind (by norm_num) fun _ => ?_
  exact FailsIn.pure _ _

theorem failsIn_termHistoryFromBytes : FailsIn IsBail 0 termHistoryFromBytes := by
  unfold termHistoryFromBytes
  refine FailsIn.ensure_bind ⟨_, rfl⟩ ?_ 0
  refine FailsIn.le_bind le_rfl fun n => ?_
  exact (FailsIn.repeatN failsIn_termLsnFromBytes n).mono (Nat.zero_le _)

theorem failsIn_readElected : FailsIn IsBail 0 readElected := by
  unfold readElected
  refine FailsIn.ensure_bind ⟨_, rfl⟩ ?_ 0
  refine FailsIn.le_bind (by norm_num) fun _ => ?_
  refine FailsIn.le_bind (by norm_num) fun _ => ?_
  refine FailsIn.bind failsIn_termHistoryFromBytes (fun _ => ?_) _
  refine FailsIn.ensure_bind ⟨_, rfl⟩ ?_ 0
  refine FailsIn.le_bind le_rfl fun _ => ?_
  exact FailsIn.pure _ _

theorem failsIn_desFrom_header : FailsIn IsBail 0 AppendRequestHeader.desFrom := by
  unfold AppendRequestHeader.desFrom
  have hu : FailsIn IsBail 0 desU64 := FailsIn.le ⟨_, rfl⟩ 0 8
  refine FailsIn.bind hu (fun _ => ?_) 0
  refine FailsIn.bind hu (fun _ => ?_) 0
  refine FailsIn.bind hu (fun _ => ?_) 0
  refine FailsIn.bind hu (fun _ => ?_) 0
  refine FailsIn.bind hu (fun _ => ?_) 0
  refine FailsIn.bind hu (fun _ => ?_) 0
  exact FailsIn.bind (FailsIn.be ⟨_, rfl⟩ 0 16) (fun _ => FailsIn.pure _ _) 0

theorem failsIn_readAppendRequest : FailsIn IsBail 0 readAppendRequest := by
  unfold readAppendRequest
  refine FailsIn.bind failsIn_desFrom_header (fun hdr => ?_) 0
  refine FailsIn.ite (fun _ => FailsIn.throw ⟨_, rfl⟩ 0) (fun _ => ?_)
  refine FailsIn.ite (fun _ => FailsIn.throw ⟨_, rfl⟩ 0) (fun _ => ?_)
  exact FailsIn.bind (FailsIn.take ⟨_, rfl⟩ 0 _) (fun _ => FailsIn.pure _ _) 0

theorem failsIn_desFrom_greeting : FailsIn IsBail 0 ProposerGreeting.desFrom := by
  unfold ProposerGreeting.desFrom
  have h4 : FailsIn IsBail 0 desU32 := FailsIn.le ⟨_, rfl⟩ 0 4
  have h8 : FailsIn IsBail 0 desU64 := FailsIn.le ⟨_, rfl⟩ 0 8
  have hid : FailsIn IsBail 0 desId := FailsIn.be ⟨_, rfl⟩ 0 16
  refine FailsIn.bind h4 (fun _ => ?_) 0
  refine FailsIn.bind h4 (fun _ => ?_) 0
  refine FailsIn.bind hid (fun _ => ?_) 0
  refine FailsIn.bind h8 (fun _ => ?_) 0
  refine FailsIn.bind hid (fun _ => ?_) 0
  refine FailsIn.bind hid (fun _ => ?_) 0
  refine FailsIn.bind h4 (fun _ => ?_) 0
  exact FailsIn.bind h4 (fun _ => FailsIn.pure _ _) 0

theorem failsIn_readTagged (tag : Char) : FailsIn IsBail 0 (readTagged tag) := by
  unfold readTagged
  split
  · exact FailsIn.bind failsIn_desFrom_greeting (fun _ => FailsIn.pure _ _) 0
  · exact FailsIn.bind (FailsIn.bind (FailsIn.le ⟨_, rfl⟩ 0 8) (fun _ => FailsIn.pure _ _) 0)
      (fun _ => FailsIn.pure _ _) 0
  · exact FailsIn.bind failsIn_readElected (fun _ => FailsIn.pure _ _) 0
  · exact FailsIn.bind failsIn_readAppendRequest (fun _ => FailsIn.pure _ _) 0
  · exact FailsIn.throw ⟨_, rfl⟩ 0

theorem parse_eq_error {buf : List UInt8} {e : SkError} (h : parse buf = .error e) : IsBail e := by
  have hread : ProposerAcceptorMessage.read buf = .error e := run'_eq_error h
  exact FailsIn.bind (FailsIn.le ⟨_, rfl⟩ 0 8) (fun tag => failsIn_readTagged _) 0 buf
    (Nat.zero_le _) e hread

/-! ## `AsyncReadMessage` reads what the safekeeper writes -/

namespace Walproposer

theorem reads_pqGetmsgint64Le (n : Nat) : Reads pqGetmsgint64Le (leBytes 8 n) (UInt64.ofNat n) := by
  have h := (Reads.le insufficientData 8 n).bind_pure UInt64.ofNat
  rwa [show (256 : Nat) ^ 8 = 2 ^ 64 by norm_num, UInt64.ofNat_mod_size] at h

theorem reads_pqGetmsgint32Le (n : Nat) : Reads pqGetmsgint32Le (leBytes 4 n) (UInt32.ofNat n) := by
  have h := (Reads.le insufficientData 4 n).bind_pure UInt32.ofNat
  rwa [show (256 : Nat) ^ 4 = 2 ^ 32 by norm_num, UInt32.ofNat_mod_size] at h

theorem reads_pqGetmsgint64 (n : Nat) : Reads pqGetmsgint64 (beBytes 8 n) (UInt64.ofNat n) := by
  have h := (Reads.be insufficientData 8 n).bind_pure UInt64.ofNat
  rwa [show (256 : Nat) ^ 8 = 2 ^ 64 by norm_num, UInt64.ofNat_mod_size] at h

theorem reads_pqGetmsgint4 (n : Nat) : Reads pqGetmsgint4 (beBytes 4 n) (UInt32.ofNat n) := by
  have h := (Reads.be insufficientData 4 n).bind_pure UInt32.ofNat
  rwa [show (256 : Nat) ^ 4 = 2 ^ 32 by norm_num, UInt32.ofNat_mod_size] at h

theorem reads_pqGetmsgbyte (b : UInt8) : Reads pqGetmsgbyte [b] b where
  append _ := rfl
  truncated k hk := ⟨_, by simp at hk; subst hk; rfl⟩

/-- Without a zero byte in what is left, `pq_getmsgstring` fails. -/
theorem pqGetmsgstring_of_not_mem {l : List UInt8} (h : 0 ∉ l) :
    pqGetmsgstring l = .error (.error "invalid string in message") := by
  induction l with
  | nil => rfl
  | cons b l ih =>
    simp only [List.mem_cons, not_or] at h
    rw [pqGetmsgstring, if_neg (Ne.symm h.1), ih h.2]

theorem reads_pqGetmsgstring {key : List UInt8} (h : 0 ∉ key) :
    Reads pqGetmsgstring (key ++ [0]) key where
  append rest := by
    induction key with
    | nil => rfl
    | cons b key ih =>
      simp only [List.mem_cons, not_or] at h
      rw [List.cons_append, List.cons_append, pqGetmsgstring, if_neg (Ne.symm h.1), ih h.2]
  truncated k hk := by
    have hk' : k ≤ key.length := by simp at hk; omega
    rw [List.take_append_of_le_length hk']
    exact ⟨_, pqGetmsgstring_of_not_mem (fun hm => h (List.mem_of_mem_take hm))⟩

theorem reads_palloc {size : Nat} (h : size ≤ maxAllocSize) : Reads (palloc size) [] () := by
  rw [palloc, if_neg (not_lt.mpr h)]
  exact Reads.pure ()

theorem palloc_of_gt {size : Nat} (h : maxAllocSize < size) (buf : List UInt8) :
    palloc size buf = .error (.error "invalid memory alloc request size") := by
  rw [palloc, if_pos h]
  rfl

theorem reads_readKeyValue (i : Int32) (v : UInt64) :
    Reads readKeyValue (putI32 i ++ putU64 v) v := by
  unfold readKeyValue
  refine (reads_pqGetmsgint4 _).bind ?_
  have h := reads_pqGetmsgint64 v.toNat
  rwa [UInt64.ofNat_toNat] at h

theorem reads_readKeyValue_i64 (i : Int32) (t : Int64) :
    Reads readKeyValue (putI32 i ++ putI64 t) t.toUInt64 := by
  unfold readKeyValue
  refine (reads_pqGetmsgint4 _).bind ?_
  have h := reads_pqGetmsgint64 t.toUInt64.toNat
  rwa [UInt64.ofNat_toNat] at h

/-- One step of the loop of `ParsePageserverFeedbackMessage`: the key, then its value. -/
theorem reads_parseFeedbackKeys_succ {key value u : List UInt8} {n : Nat}
    {rf rf' rf'' : PageserverFeedback} (hkey : 0 ∉ key)
    (hval : Reads (parseFeedbackKey rf key) (putI32 (Int32.ofNat value.length) ++ value) rf')
    (hrest : Reads (parseFeedbackKeys n rf') u rf'') :
    Reads (parseFeedbackKeys (n + 1) rf) (NeonStorage.PageserverFeedback.fieldEntry (key, value) ++ u)
      rf'' := by
  have hbytes : NeonStorage.PageserverFeedback.fieldEntry (key, value) ++ u =
      key ++ [0] ++ ((putI32 (Int32.ofNat value.length) ++ value) ++ u) := by
    simp [NeonStorage.PageserverFeedback.fieldEntry]
  rw [hbytes, parseFeedbackKeys]
  exact (reads_pqGetmsgstring hkey).bind (hval.bind hrest)

/-- The walproposer reads the five fields the safekeeper writes, whatever it held before. -/
theorem reads_parsePageserverFeedbackMessage (self : NeonStorage.PageserverFeedback)
    (rf : PageserverFeedback) :
    Reads (parsePageserverFeedbackMessage rf)
      (NeonStorage.PageserverFeedback.pageserverFeedbackFieldsNumber ::
        (self.fields.map NeonStorage.PageserverFeedback.fieldEntry).flatten)
      ⟨self.currentTimelineSize, self.lastReceivedLsn, self.diskConsistentLsn,
        self.remoteConsistentLsn, self.timestamp⟩ := by
  have h5 : NeonStorage.PageserverFeedback.pageserverFeedbackFieldsNumber.toNat = 4 + 1 := rfl
  unfold parsePageserverFeedbackMessage
  rw [← List.singleton_append]
  refine (reads_pqGetmsgbyte _).bind ?_
  rw [h5]
  simp only [NeonStorage.PageserverFeedback.fields, List.map_cons, List.map_nil,
    List.flatten_cons, List.flatten_nil]
  apply reads_parseFeedbackKeys_succ (by decide)
  · rw [parseFeedbackKey, if_pos rfl]
    exact (reads_readKeyValue _ _).bind_pure _
  apply reads_parseFeedbackKeys_succ (by decide)
  · rw [parseFeedbackKey, if_neg (by decide), if_pos (Or.inl rfl)]
    exact (reads_readKeyValue _ _).bind_pure _
  apply reads_parseFeedbackKeys_succ (by decide)
  · rw [parseFeedbackKey, if_neg (by decide), if_neg (by decide), if_pos (Or.inl rfl)]
    exact (reads_readKeyValue _ _).bind_pure _
  apply reads_parseFeedbackKeys_succ (by decide)
  · rw [parseFeedbackKey, if_neg (by decide), if_neg (by decide), if_neg (by decide),
      if_pos (Or.inl rfl)]
    exact (reads_readKeyValue _ _).bind_pure _
  refine reads_parseFeedbackKeys_succ (by decide) ?_ (Reads.pure _)
  · rw [parseFeedbackKey, if_neg (by decide), if_neg (by decide), if_neg (by decide),
      if_neg (by decide), if_pos (Or.inl rfl)]
    exact (reads_readKeyValue_i64 _ _).bind_pure _

end Walproposer

theorem reads_readTermSwitchEntry (e : TermLsn) :
    Reads readTermSwitchEntry (putU64Le e.term ++ putU64Le e.lsn)
      ⟨UInt64.ofNat e.term, UInt64.ofNat e.lsn⟩ := by
  unfold readTermSwitchEntry
  refine (reads_pqGetmsgint64Le _).bind ?_
  exact (reads_pqGetmsgint64Le _).bind_pure _

theorem asyncReadMessage_voteResponse (msg : NeonStorage.VoteResponse)
    (prev : Walproposer.VoteResponse) (halloc : 16 * msg.termHistory.length ≤ maxAllocSize) :
    ∃ bytes, NeonStorage.AcceptorProposerMessage.serialize (.voteResponse msg) = .ok bytes ∧
      ∃ entries : List.Vector TermSwitchEntry (UInt32.ofNat msg.termHistory.length).toNat,
        entries.toList = msg.termHistory.map (fun e => ⟨UInt64.ofNat e.term, UInt64.ofNat e.lsn⟩) ∧
        asyncReadMessage (.voteResponse prev) bytes = .ok (.voteResponse
          { term := UInt64.ofNat msg.term, voteGiven := UInt64.ofNat msg.voteGiven,
            flushLsn := UInt64.ofNat msg.flushLsn, truncateLsn := UInt64.ofNat msg.truncateLsn,
            termHistory := ⟨UInt32.ofNat msg.termHistory.length, entries⟩,
            timelineStartLsn := UInt64.ofNat msg.timelineStartLsn }) := by
  have hlen : msg.termHistory.length < 2 ^ 32 := by
    unfold maxAllocSize at halloc
    omega
  have hn : (UInt32.ofNat msg.termHistory.length).toNat = msg.termHistory.length :=
    UInt32.toNat_ofNat_of_lt' hlen
  obtain ⟨v, hv, hreads⟩ :=
    Reads.repeatVec msg.termHistory (fun e _ => reads_readTermSwitchEntry e) hn.symm
  refine ⟨_, rfl, v, hv, run'_eq_ok (?_ : _ = Except.ok (_, []))⟩
  unfold asyncReadBody
  simp only [List.append_assoc]
  refine (reads_pqGetmsgint64Le _).bind_run ?_
  simp only [Walproposer.AcceptorProposerMessage.tag, ne_eq, not_true_eq_false, ↓reduceIte]
  refine (reads_pqGetmsgint64Le _).bind_run ?_
  refine (reads_pqGetmsgint64Le _).bind_run ?_
  refine (reads_pqGetmsgint64Le _).bind_run ?_
  refine (reads_pqGetmsgint64Le _).bind_run ?_
  refine (reads_pqGetmsgint32Le _).bind_run ?_
  refine (reads_palloc (by rw [hn]; exact halloc)).bind_run ?_
  refine hreads.bind_run ?_
  refine (reads_pqGetmsgint64Le _).bind_run_end ?_
  rfl

/-- The other side of `asyncReadMessage_voteResponse`: a term history whose entries, counted
modulo `2 ^ 32` as the `uint32` count on the wire holds them, need more than `MaxAllocSize`
bytes is refused. -/
theorem asyncReadMessage_voteResponse_of_alloc (msg : NeonStorage.VoteResponse)
    (prev : Walproposer.VoteResponse)
    (halloc : maxAllocSize < 16 * (msg.termHistory.length % 2 ^ 32)) :
    ∃ bytes, NeonStorage.AcceptorProposerMessage.serialize (.voteResponse msg) = .ok bytes ∧
      asyncReadMessage (.voteResponse prev) bytes =
        .error (.error "invalid memory alloc request size") := by
  refine ⟨_, rfl, run'_of_error ?_⟩
  unfold asyncReadBody
  simp only [List.append_assoc]
  refine (reads_pqGetmsgint64Le _).bind_run ?_
  simp only [Walproposer.AcceptorProposerMessage.tag, ne_eq, not_true_eq_false, ↓reduceIte]
  refine (reads_pqGetmsgint64Le _).bind_run ?_
  refine (reads_pqGetmsgint64Le _).bind_run ?_
  refine (reads_pqGetmsgint64Le _).bind_run ?_
  refine (reads_pqGetmsgint64Le _).bind_run ?_
  refine (reads_pqGetmsgint32Le _).bind_run ?_
  refine bind_apply_error (palloc_of_gt ?_ _) _
  rwa [UInt32.toNat_ofNat']

theorem asyncReadMessage_greeting (msg : NeonStorage.AcceptorGreeting) (prev : Walproposer.AcceptorGreeting) :
    ∃ bytes, NeonStorage.AcceptorProposerMessage.serialize (.greeting msg) = .ok bytes ∧
      asyncReadMessage (.greeting prev) bytes =
        .ok (.greeting ⟨UInt64.ofNat msg.term, UInt64.ofNat msg.nodeId⟩) := by
  refine ⟨_, rfl, run'_eq_ok (?_ : _ = Except.ok (_, []))⟩
  unfold asyncReadBody
  simp only [List.append_assoc]
  refine (reads_pqGetmsgint64Le _).bind_run ?_
  simp only [Walproposer.AcceptorProposerMessage.tag, ne_eq, not_true_eq_false, ↓reduceIte]
  refine (reads_pqGetmsgint64Le _).bind_run ?_
  refine (reads_pqGetmsgint64Le _).bind_run_end ?_
  rfl

theorem asyncReadMessage_appendResponse (msg : NeonStorage.AppendResponse) (prev : Walproposer.AppendResponse)
    (hafter : pgEpoch.nanos ≤ msg.pageserverFeedback.replytime.nanos) :
    ∃ bytes, NeonStorage.AcceptorProposerMessage.serialize (.appendResponse msg) = .ok bytes ∧
      asyncReadMessage (.appendResponse prev) bytes = .ok (.appendResponse
        { term := UInt64.ofNat msg.term, flushLsn := UInt64.ofNat msg.flushLsn,
          commitLsn := UInt64.ofNat msg.commitLsn,
          hs := ⟨msg.hsFeedback.ts, msg.hsFeedback.xmin, msg.hsFeedback.catalogXmin⟩,
          rf := ⟨msg.pageserverFeedback.currentTimelineSize, msg.pageserverFeedback.lastReceivedLsn,
            msg.pageserverFeedback.diskConsistentLsn, msg.pageserverFeedback.remoteConsistentLsn,
            msg.pageserverFeedback.timestamp⟩ }) := by
  refine ⟨_, by rw [NeonStorage.AcceptorProposerMessage.serialize, NeonStorage.PageserverFeedback.serialize_eq hafter], ?_⟩
  refine run'_eq_ok (?_ : _ = Except.ok (_, []))
  unfold asyncReadBody
  simp only [List.append_assoc]
  refine (reads_pqGetmsgint64Le _).bind_run ?_
  simp only [Walproposer.AcceptorProposerMessage.tag, ne_eq, not_true_eq_false, ↓reduceIte]
  refine (reads_pqGetmsgint64Le _).bind_run ?_
  refine (reads_pqGetmsgint64Le _).bind_run ?_
  refine (reads_pqGetmsgint64Le _).bind_run ?_
  refine (reads_pqGetmsgint64Le _).bind_run ?_
  refine (reads_pqGetmsgint64Le _).bind_run ?_
  refine (reads_pqGetmsgint64Le _).bind_run ?_
  rw [if_pos (by simp [putU64Le, putI64Le, appendresponseFixedpartSize]; omega)]
  refine (reads_parsePageserverFeedbackMessage _ _).bind_run_end ?_
  simp only [UInt64.ofNat_toNat]
  rfl

/-! ## The replies in the terms of the safekeeper -/

namespace Walproposer

/-- The reply time the safekeeper writes names the instant it stands for when that instant is
at or after `PG_EPOCH`, on a whole microsecond and less than `2 ^ 63` microseconds after it. -/
theorem instant_timestamp {self : NeonStorage.PageserverFeedback}
    (hafter : pgEpoch.nanos ≤ self.replytime.nanos)
    (hmicros : (self.replytime.nanos - pgEpoch.nanos) % 1000 = 0)
    (hrange : self.replytime.nanos - pgEpoch.nanos < 2 ^ 63 * 1000) :
    instant self.timestamp = self.replytime := by
  obtain ⟨c, l, d, r, ⟨nanos⟩⟩ := self
  simp only at hafter hmicros hrange
  set m := (nanos - pgEpoch.nanos).toNat / 1000
  have hmlt : m < 2 ^ 63 := by omega
  have hnanos : nanos = pgEpoch.nanos + m * 1000 := by omega
  show instant (Int64.ofNat m) = ⟨nanos⟩
  rw [instant, Int64.toInt_ofNat_of_lt hmlt, ← hnanos]

/-- Entries that fit a `u64` come back from their `uint64` copies. -/
theorem map_view_ofNat {l : NeonStorage.TermHistory}
    (h : ∀ e ∈ l, e.term < 2 ^ 64 ∧ e.lsn < 2 ^ 64) :
    (l.map fun e => (⟨UInt64.ofNat e.term, UInt64.ofNat e.lsn⟩ : TermSwitchEntry)).map
      TermSwitchEntry.view = l := by
  rw [List.map_map]
  conv_rhs => rw [← List.map_id l]
  refine List.map_congr_left (fun e he => ?_)
  simp [TermSwitchEntry.view, UInt64.toNat_ofNat_of_lt' (h e he).1,
    UInt64.toNat_ofNat_of_lt' (h e he).2]

end Walproposer

/-- `AsyncReadMessage`, waiting for a reply of the kind of `m`, recovers every field of `m`
when the walproposer's structs can hold them. -/
theorem asyncReadMessage_serialize (m : NeonStorage.AcceptorProposerMessage)
    (prev : Walproposer.AcceptorProposerMessage) (hkind : prev.Expects m)
    (hrep : Representable m) :
    ∃ bytes c, m.serialize = .ok bytes ∧ asyncReadMessage prev bytes = .ok c ∧ c.view = m := by
  cases hrep with
  | greeting hterm hnodeId =>
    cases prev with
    | greeting prev =>
      obtain ⟨bytes, hser, hread⟩ := asyncReadMessage_greeting _ prev
      refine ⟨bytes, _, hser, hread, ?_⟩
      simp [Walproposer.AcceptorProposerMessage.view, AcceptorGreeting.view,
        UInt64.toNat_ofNat_of_lt' hterm, UInt64.toNat_ofNat_of_lt' hnodeId]
    | voteResponse _ => exact hkind.elim
    | appendResponse _ => exact hkind.elim
  | @voteResponse msg hterm hvoteGiven hflushLsn htruncateLsn hentries halloc htimelineStartLsn =>
    cases prev with
    | voteResponse prev =>
      obtain ⟨bytes, hser, entries, hentries', hread⟩ := asyncReadMessage_voteResponse _ prev halloc
      refine ⟨bytes, _, hser, hread, ?_⟩
      -- the entries come back through their `uint64` copies
      have hhist : Walproposer.TermHistory.view ⟨_, entries⟩ = msg.termHistory := by
        rw [Walproposer.TermHistory.view, hentries']
        exact map_view_ofNat hentries
      simp [Walproposer.AcceptorProposerMessage.view, VoteResponse.view, hhist,
        UInt64.toNat_ofNat_of_lt' hterm, UInt64.toNat_ofNat_of_lt' hvoteGiven,
        UInt64.toNat_ofNat_of_lt' hflushLsn, UInt64.toNat_ofNat_of_lt' htruncateLsn,
        UInt64.toNat_ofNat_of_lt' htimelineStartLsn]
    | greeting _ => exact hkind.elim
    | appendResponse _ => exact hkind.elim
  | appendResponse hterm hflushLsn hcommitLsn hafter hmicros hrange =>
    cases prev with
    | appendResponse prev =>
      obtain ⟨bytes, hser, hread⟩ := asyncReadMessage_appendResponse _ prev hafter
      refine ⟨bytes, _, hser, hread, ?_⟩
      simp [Walproposer.AcceptorProposerMessage.view, AppendResponse.view,
        Walproposer.HotStandbyFeedback.view, Walproposer.PageserverFeedback.view,
        instant_timestamp hafter hmicros hrange, UInt64.toNat_ofNat_of_lt' hterm,
        UInt64.toNat_ofNat_of_lt' hflushLsn, UInt64.toNat_ofNat_of_lt' hcommitLsn]
    | greeting _ => exact hkind.elim
    | voteResponse _ => exact hkind.elim

/-! ## The two codecs agree -/

/-- What `parse` reads of the messages the walproposer sends. -/
theorem reads_sent {u : List UInt8} (h : Sent u) : ∃ m, Reads ProposerAcceptorMessage.read u m := by
  cases h with
  | greeting g => exact ⟨_, reads_greeting g⟩
  | elected msg => exact ⟨_, reads_elected msg⟩
  | appendRequest req wal hle hmax hwal => exact ⟨_, reads_appendRequest req wal hle hmax hwal⟩

theorem wire_codecs_agree :
    (∀ msg : Walproposer.ProposerElected,
      parse (sendProposerElected msg) = .ok (.elected msg.view)) ∧
    (∀ (req : Walproposer.AppendRequestHeader) (wal : List UInt8), req.beginLsn ≤ req.endLsn →
      (req.endLsn - req.beginLsn).toNat ≤ maxSendSize →
      wal.length = (req.endLsn - req.beginLsn).toNat →
      parse (sendAppendRequest req wal) = .ok (.appendRequest ⟨req.view, wal⟩)) ∧
    (∀ (m : NeonStorage.AcceptorProposerMessage) (prev : Walproposer.AcceptorProposerMessage),
      prev.Expects m → Representable m →
      ∃ bytes c, m.serialize = .ok bytes ∧ asyncReadMessage prev bytes = .ok c ∧ c.view = m) ∧
    (∀ u, Sent u → ∀ k < u.length, ∃ msg, parse (u.take k) = .error (.bail msg)) ∧
    (∀ buf e, parse buf = .error e → ∃ msg, e = .bail msg) := by
  refine ⟨fun msg => (reads_elected msg).run',
    fun req wal hle hmax hwal => (reads_appendRequest req wal hle hmax hwal).run',
    asyncReadMessage_serialize, fun u hu k hk => ?_, fun _ _ h => parse_eq_error h⟩
  -- a strict prefix of a message makes `read` fail, and every failure is a returned error
  obtain ⟨m, hm⟩ := reads_sent hu
  obtain ⟨e, he⟩ := hm.truncated k hk
  obtain ⟨msg, rfl⟩ := parse_eq_error (run'_of_error he)
  exact ⟨msg, run'_of_error he⟩

/-- An append request with three bytes of WAL, and the greeting the safekeeper answers with. -/
theorem wire_codecs_agree_small :
    let req : Walproposer.AppendRequestHeader :=
      { term := 2, epochStartLsn := 0x1000000, beginLsn := 0x1000000, endLsn := 0x1000003,
        commitLsn := 0x1000000, truncateLsn := 0, proposerId := ⟨List.replicate 16 7, rfl⟩ }
    let reply : NeonStorage.AcceptorProposerMessage := .greeting ⟨2, 1⟩
    (req.beginLsn ≤ req.endLsn ∧ (req.endLsn - req.beginLsn).toNat ≤ maxSendSize ∧
      [1, 2, 3].length = (req.endLsn - req.beginLsn).toNat ∧
      parse (sendAppendRequest req [1, 2, 3]) = .ok (.appendRequest ⟨req.view, [1, 2, 3]⟩)) ∧
    (Representable reply ∧
      ∃ bytes c, reply.serialize = .ok bytes ∧
        asyncReadMessage (.greeting ⟨0, 0⟩) bytes = .ok c ∧ c.view = reply) :=
  ⟨⟨by decide, by decide, by decide,
      wire_codecs_agree.2.1 _ _ (by decide) (by decide) (by decide)⟩,
    ⟨.greeting (by decide) (by decide),
      wire_codecs_agree.2.2.1 _ _ trivial (.greeting (by decide) (by decide))⟩⟩

/-- A vote response whose term history has `2 ^ 26` entries: `AsyncReadMessage` asks `palloc`
for `2 ^ 30` bytes, one more than `MaxAllocSize`, and fails. -/
theorem asyncReadMessage_long_term_history :
    let msg : NeonStorage.VoteResponse :=
      { term := 0, voteGiven := 0, flushLsn := 0, truncateLsn := 0,
        termHistory := List.replicate (2 ^ 26) ⟨0, 0⟩, timelineStartLsn := 0 }
    ∀ prev, ∃ bytes, (AcceptorProposerMessage.voteResponse msg).serialize = .ok bytes ∧
      asyncReadMessage (.voteResponse prev) bytes =
        .error (.error "invalid memory alloc request size") := by
  intro msg prev
  -- `16 * 2 ^ 26 = 2 ^ 30`, one byte past `MaxAllocSize`
  have halloc : maxAllocSize < 16 * (msg.termHistory.length % 2 ^ 32) := by
    simp only [msg, List.length_replicate, maxAllocSize]
    norm_num
  exact asyncReadMessage_voteResponse_of_alloc msg prev halloc

end NeonStorage

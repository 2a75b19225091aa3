import NeonStorage.Lib.Bytes

/-!
# The PROXY protocol v2 reader

`WithClientIp` (`proxy/src/protocol2.rs`) wraps the client's stream.  On the first read it
parses a PROXY protocol v2 header, when the stream starts with one, and keeps the client's
address; then it skips the TLV bytes after the addresses and passes the rest of the stream
through.

The reader is a poll state machine.  Each poll reads from the inner stream, which may answer
`Pending`, and keeps what it has read in a buffer.  The inner stream is modelled as the bytes
not yet read and a schedule of its answers (`Inner`).  A loop that polls the inner stream is
given `fuel` passes in one call.  `none` means that the loop has not returned within them, and
so a call that returns `none` for every fuel never returns.

`skip_tlv` counts a read of zero bytes, the end of the stream, like any other read.  When the
stream ends inside the TLV bytes, `poll_read` therefore loops without end
(`pollRead_tlv_eof`).
-/

namespace NeonStorage

namespace Protocol2

open Bytes

/-- What a poll returns: the value, or not ready yet. -/
inductive Poll (α : Type) where
  | ready (a : α)
  | pending
deriving DecidableEq, Repr

/-- The client's address, as `client_addr` returns it: the source address and port. -/
inductive SocketAddr where
  | v4 (ip : List UInt8) (port : ℕ)
  | v6 (ip : List UInt8) (port : ℕ)
deriving DecidableEq, Repr

/-- `ProxyParse`. -/
inductive ProxyParse where
  | notStarted
  | finished (addr : SocketAddr)
  | none
deriving DecidableEq, Repr

/-- The inner stream: the bytes not yet read, and how its next polls answer.  `none` is
`Pending`, and `some n` delivers at most `n` bytes.  Past the schedule, every poll delivers
what is left. -/
structure Inner where
  stream : List UInt8
  schedule : List (Option ℕ)
deriving DecidableEq, Repr

/-- One poll of the inner stream, for at most `cap` bytes when the caller's buffer limits it.
`ready []` is the end of the stream. -/
def Inner.pollRead (self : Inner) (cap : Option ℕ) : Poll (List UInt8) × Inner :=
  let limit (n : ℕ) : ℕ := match cap with
    | some c => min n c
    | none => n
  match self.schedule with
  | none :: rest => (.pending, ⟨self.stream, rest⟩)
  | some n :: rest => (.ready (self.stream.take (limit n)), ⟨self.stream.drop (limit n), rest⟩)
  | [] => (.ready (self.stream.take (limit self.stream.length)),
      ⟨self.stream.drop (limit self.stream.length), []⟩)

/-- `WithClientIp`: the inner stream, the bytes read from it and not yet passed on, the TLV
bytes still to skip, and the state of the parse. -/
structure WithClientIp where
  inner : Inner
  buf : List UInt8
  tlvBytes : UInt16
  state : ProxyParse
deriving DecidableEq, Repr

/-- `HEADER`: the protocol signature. -/
def header : List UInt8 :=
  [0x0D, 0x0A, 0x0D, 0x0A, 0x00, 0x0D, 0x0A, 0x51, 0x55, 0x49, 0x54, 0x0A]

/-- How a loop of `poll_client_ip` ends: it runs out, or the function returns. -/
inductive LoopExit where
  | next
  | ret (p : Poll (Except String (Option SocketAddr)))
deriving DecidableEq, Repr

namespace WithClientIp

/-- `WithClientIp::new`. -/
def new (inner : Inner) : WithClientIp := ⟨inner, [], 0, .notStarted⟩

/-- `WithClientIp::client_addr`. -/
def clientAddr (self : WithClientIp) : Option SocketAddr :=
  match self.state with
  | .finished socket => some socket
  | _ => none

/-- The first loop of `poll_client_ip`: read until 16 bytes are buffered.  A buffer that stops
matching the signature, or the end of the stream, ends the parse with no address. -/
def readHeader : ℕ → WithClientIp → Option (LoopExit × WithClientIp)
  | 0, _ => none
  | fuel + 1, self =>
    if self.buf.length < 16 then
      let (bytesRead, inner) := self.inner.pollRead none
      let buf := match bytesRead with
        | .ready bs => self.buf ++ bs
        | .pending => self.buf
      let self := { self with inner, buf }
      -- exit for bad header, before looking at what the read gave
      let len := min self.buf.length header.length
      if self.buf.take len ≠ header.take len then some (.ret (.ready (.ok none)), self)
      else
        match bytesRead with
        | .pending => some (.ret .pending, self)
        | .ready [] => some (.ret (.ready (.ok none)), self)
        | .ready _ => readHeader fuel self
    else some (.next, self)

/-- The second loop of `poll_client_ip`: read until the addresses are buffered. -/
def readAddresses : ℕ → ℕ → WithClientIp → Option (LoopExit × WithClientIp)
  | 0, _, _ => none
  | fuel + 1, need, self =>
    if self.buf.length < need then
      let (bytesRead, inner) := self.inner.pollRead none
      match bytesRead with
      | .pending => some (.ret .pending, { self with inner })
      | .ready [] => some (.ret (.ready (.error
          "stream closed while waiting for proxy protocol addresses")), { self with inner })
      | .ready bs => readAddresses fuel need { self with inner, buf := self.buf ++ bs }
    else some (.next, self)

/-- `skip_tlv_inner`: drop the buffered TLV bytes. -/
def skipTlvInner (self : WithClientIp) : WithClientIp :=
  -- a buffer longer than `u16::MAX` holds all the TLV bytes
  let tlvBytesRead : UInt16 :=
    if self.buf.length > 0xFFFF then self.tlvBytes
    else min (UInt16.ofNat self.buf.length) self.tlvBytes
  { self with tlvBytes := self.tlvBytes - tlvBytesRead, buf := self.buf.drop tlvBytesRead.toNat }

/-- The address a header gives for its address length. -/
def socketOf (addressLength : ℕ) (addresses : List UInt8) : Option SocketAddr :=
  if addressLength = 12 then
    some (.v4 (addresses.take 4) (ofBeBytes ((addresses.drop 8).take 2)))
  else if addressLength = 36 then
    some (.v6 (addresses.take 16) (ofBeBytes ((addresses.drop 32).take 2)))
  else none

/-- `poll_client_ip`, with `fuel` passes for each of its loops. -/
def pollClientIp (fuel : ℕ) (self : WithClientIp) :
    Option (Poll (Except String (Option SocketAddr)) × WithClientIp) := do
  let (exit, self) ← readHeader fuel self
  match exit with
  | .ret p => pure (p, self)
  | .next =>
    let vc := self.buf.getD 12 0
    let version := vc >>> 4
    let command := vc &&& 0b1111
    if version ≠ 2 then
      return (.ready (.error "invalid proxy protocol version. expected version 2"), self)
    if command ≠ 0 ∧ command ≠ 1 then
      return (.ready (.error
        "invalid proxy protocol command. expected local (0) or proxy (1)"), self)
    let ft := self.buf.getD 13 0
    let addressLength : ℕ :=
      if ft = 0x11 ∨ ft = 0x12 then 12
      else if ft = 0x21 ∨ ft = 0x22 then 36
      else 0
    let remainingLength := ofBeBytes ((self.buf.drop 14).take 2)
    if remainingLength < addressLength then
      return (.ready (.error
        "invalid proxy protocol length. not enough to fit requested IP addresses"), self)
    let (exit, self) ← readAddresses fuel (16 + addressLength) self
    match exit with
    | .ret p => pure (p, self)
    | .next =>
      -- the header is parsed: drop it, and read the addresses
      let buf := self.buf.drop 16
      let socket := socketOf addressLength (buf.take addressLength)
      let tlvBytes := UInt16.ofNat (remainingLength - addressLength)
      let self := skipTlvInner { self with buf := buf.drop addressLength, tlvBytes }
      pure (.ready (.ok socket), self)

/-- `read_ip`: parse the header and keep the address. -/
def readIp (fuel : ℕ) (self : WithClientIp) :
    Option (Poll (Except String Unit) × WithClientIp) := do
  let (ip, self) ← pollClientIp fuel self
  match ip with
  | .pending => pure (.pending, self)
  | .ready (.error e) => pure (.ready (.error e), self)
  | .ready (.ok (some x)) => pure (.ready (.ok ()), { self with state := .finished x })
  | .ready (.ok none) => pure (.ready (.ok ()), { self with state := .none })

/-- `skip_tlv`: one read, and the TLV bytes it gave dropped. -/
def skipTlv (self : WithClientIp) : Poll (Except String Unit) × WithClientIp :=
  let (bytesRead, inner) := self.inner.pollRead none
  match bytesRead with
  | .pending => (.pending, { self with inner })
  | .ready bs => (.ready (.ok ()), skipTlvInner { self with inner, buf := self.buf ++ bs })

/-- The loop of `poll_read` over `skip_tlv` while TLV bytes remain. -/
def skipTlvLoop : ℕ → WithClientIp → Option (Poll (Except String Unit) × WithClientIp)
  | 0, _ => none
  | fuel + 1, self =>
    if self.tlvBytes > 0 then
      match skipTlv self with
      | (.ready (.ok ()), self) => skipTlvLoop fuel self
      | (p, self) => some (p, self)
    else some (.ready (.ok ()), self)

/-- `poll_read` into a buffer with room for `remaining` bytes: the bytes it delivers. -/
def pollRead (fuel : ℕ) (self : WithClientIp) (remaining : ℕ) :
    Option (Poll (Except String (List UInt8)) × WithClientIp) := do
  let (r, self) ← if self.state = .notStarted then readIp fuel self
    else pure (.ready (.ok ()), self)
  match r with
  | .pending => pure (.pending, self)
  | .ready (.error e) => pure (.ready (.error e), self)
  | .ready (.ok ()) =>
    let (r, self) ← skipTlvLoop fuel self
    match r with
    | .pending => pure (.pending, self)
    | .ready (.error e) => pure (.ready (.error e), self)
    | .ready (.ok ()) =>
      if self.buf.isEmpty then
        let (bytesRead, inner) := self.inner.pollRead (some remaining)
        match bytesRead with
        | .pending => pure (.pending, { self with inner })
        | .ready bs => pure (.ready (.ok bs), { self with inner })
      else
        -- what is buffered goes first
        let write := min self.buf.length remaining
        pure (.ready (.ok (self.buf.take write)), { self with buf := self.buf.drop write })

/-! ## Skipping the TLV bytes -/

/-- At the end of the stream, with TLV bytes left and none buffered, a pass of `skip_tlv`
changes nothing. -/
theorem skipTlv_eof {self : WithClientIp} (hinner : self.inner = ⟨[], []⟩) (hbuf : self.buf = []) :
    skipTlv self = (.ready (.ok ()), self) := by
  obtain ⟨inner, buf, tlvBytes, state⟩ := self
  simp only at hinner hbuf
  subst hinner hbuf
  simp [skipTlv, Inner.pollRead, skipTlvInner, UInt16.min_def]

/-- At the end of the stream, with TLV bytes left and none buffered, the loop over `skip_tlv`
never ends: every pass reads nothing and leaves the TLV count as it was. -/
theorem skipTlvLoop_eof {self : WithClientIp} (hinner : self.inner = ⟨[], []⟩)
    (hbuf : self.buf = []) (htlv : 0 < self.tlvBytes) (fuel : ℕ) :
    skipTlvLoop fuel self = none := by
  induction fuel with
  | zero => rfl
  | succ fuel ih =>
    rw [skipTlvLoop, if_pos htlv, skipTlv_eof hinner hbuf]
    exact ih

/-- A header for TCP over IPv4 that announces four TLV bytes after its addresses, on a stream
that ends right after the addresses. -/
def tlvCutStream : List UInt8 :=
  header ++ [0x21, 0x11, 0x00, 0x10] ++ [127, 0, 0, 1, 10, 0, 0, 1, 0x1F, 0x90, 0x15, 0x38]

/-- The stream is parsed and the address is kept, and then `poll_read` loops without end on
the missing TLV bytes: for no fuel does it return. -/
theorem pollRead_tlv_eof (remaining fuel : ℕ) :
    pollRead fuel (new ⟨tlvCutStream, []⟩) remaining = none := by
  -- the parse itself takes two passes of the header loop
  match fuel with
  | 0 => rfl
  | 1 => rfl
  | fuel + 2 =>
    have hip : readIp (fuel + 2) (new ⟨tlvCutStream, []⟩) =
        some (.ready (.ok ()), ⟨⟨[], []⟩, [], 4, .finished (.v4 [127, 0, 0, 1] 8080)⟩) := rfl
    simp only [pollRead, hip, bind, Option.bind]
    rw [skipTlvLoop_eof rfl rfl (by decide)]
    rfl

end WithClientIp

end Protocol2

end NeonStorage

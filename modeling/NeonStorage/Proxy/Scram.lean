import Mathlib
import NeonStorage.Lib.Range
import NeonStorage.Lib.Text
import NeonStorage.Lib.Base64
/-!
# The proxy's SCRAM-SHA-256 server

The proxy authenticates a client by SCRAM-SHA-256 (RFC 5802, RFC 7677) before it connects it to
a compute (`proxy/src/scram`).  The server's side is the `sasl::Mechanism` `Exchange`.  In the
state `Initial` it reads the client-first-message and answers with the server-first-message.  In
the state `SaltSent` it reads the client-final-message, checks the channel binding, the combined
nonce and the client's proof, and answers with the server-final-message.

This file models the messages (`messages.rs`), the channel binding flag
(`sasl/channel_binding.rs`), the signature (`signature.rs`) and the two transitions
(`exchange.rs`), over texts as lists of characters.  SHA-256, HMAC-SHA-256 and the decoding of
the base64 proof are the environment of the model (`Primitives`).  Base64 encoding is modelled:
the code compares what the client sends with its own encodings and with the literals `biws` and
`eSws`.  A panic of the code, a string sliced past its end, is the error `SaslError.panic`.

Each parser is described by the parts it reads (`ClientFirstParts`, `ClientFinalParts`): a text
is accepted exactly when it is such parts joined by commas, and the fields the parser returns are
read off the parts (`ClientFirstMessage.parse_text`, `ClientFirstMessage.exists_parts_of_parse`
and their counterparts for the client-final-message).  Each transition has one lemma that says
when it goes on (`SaslInitial.transition_eq_continue_iff`,
`SaslSentInner.transition_eq_success_iff`).

What RFC 5802 and RFC 7677 ask of an exchange the server accepts is `Accepts`: well-formed
messages, the channel binding the gs2 flag calls for (`CbindData`), the combined nonce sent back,
and a proof whose exclusive or with `ClientSignature` hashes to `StoredKey`, all over the
`AuthMessage` of the RFC.  An exchange succeeds exactly when these hold, and the server then sends
the RFC's server-first-message and server-final-message and returns the client key
(`exchange_success_iff`).  So the slices the code takes (the bare part found by pointer
arithmetic after the authorization identity, the proof split off at the last comma, the combined
nonce kept as a range of the server-first-message) are the RFC's.
-/

namespace NeonStorage

namespace Scram

open Text

/-- `SCRAM_KEY_LEN`. -/
def scramKeyLen : ℕ := 32

/-- `[u8; SCRAM_KEY_LEN]`. -/
structure KeyBytes where
  bytes : List UInt8
  length_bytes : bytes.length = scramKeyLen
deriving DecidableEq

/-- The bytewise exclusive or of two arrays. -/
def KeyBytes.xor (a b : KeyBytes) : KeyBytes :=
  ⟨List.zipWith (· ^^^ ·) a.bytes b.bytes, by simp [a.length_bytes, b.length_bytes]⟩

/-- `ScramKey`: a `ClientKey`, `StoredKey` or `ServerKey`. -/
structure ScramKey where
  bytes : KeyBytes
deriving DecidableEq

/-- The functions of `sha2`, `hmac` and `base64` that the exchange calls, as the environment of
the model. -/
structure Primitives where
  /-- `sha256`, of the concatenation of its parts. -/
  sha256 : List UInt8 → KeyBytes
  /-- `hmac_sha256`, under a key, of the concatenation of its parts. -/
  hmacSha256 : List UInt8 → List UInt8 → KeyBytes
  /-- `base64_decode_array::<SCRAM_KEY_LEN>`. -/
  base64DecodeArray : List Char → Option KeyBytes

/-- `ServerSecret`. -/
structure ServerSecret where
  iterations : UInt32
  saltBase64 : List Char
  storedKey : ScramKey
  serverKey : ScramKey
  doomed : Bool

/-- `config::TlsServerEndPoint`: the SHA-256 hash of the server's certificate, if it has one. -/
inductive Config.TlsServerEndPoint where
  | sha256 (hash : KeyBytes)
  | undefined

/-- `TlsServerEndPoint::supported`. -/
def Config.TlsServerEndPoint.supported : Config.TlsServerEndPoint → Bool
  | .undefined => false
  | .sha256 _ => true

/-- `sasl::Error`, with the panics of the code as one more case.  `Io` comes from reading the
client's messages off the connection, which the model leaves out. -/
inductive SaslError where
  | channelBindingFailed (msg : String)
  | channelBindingBadMethod (method : List Char)
  | badClientMessage (msg : String)
  | missingBinding
  | panic (msg : String)
deriving DecidableEq

/-- `sasl::Step`. -/
inductive Step (T R : Type) where
  | «continue» (next : T) (msg : List Char)
  | success (out : R) (msg : List Char)
  | failure (msg : String)

/-- `ChannelBinding`: the flag of the gs2 header. -/
inductive ChannelBinding (T : Type) where
  | notSupportedClient
  | notSupportedServer
  | required (mode : T)
deriving DecidableEq

namespace ChannelBinding

/-- `ChannelBinding::and_then`. -/
def andThen {T R E : Type} (self : ChannelBinding T) (f : T → Except E R) :
    Except E (ChannelBinding R) :=
  match self with
  | .notSupportedClient => pure .notSupportedClient
  | .notSupportedServer => pure .notSupportedServer
  | .required x => .required <$> f x

/-- `ChannelBinding::parse`. -/
def parse (input : List Char) : Option (ChannelBinding (List Char)) :=
  if input = ['n'] then some .notSupportedClient
  else if input = ['y'] then some .notSupportedServer
  else (input.dropPrefix? ['p', '=']).map .required

/-- `ChannelBinding::encode`, for a mode that `Display` writes as `display`. -/
def encode {T E : Type} (display : T → List Char) (self : ChannelBinding T)
    (getCbindData : T → Except E (List UInt8)) : Except E (List Char) :=
  match self with
  | .notSupportedClient => pure "biws".toList
  | .notSupportedServer => pure "eSws".toList
  | .required mode => do
    let data ← getCbindData mode
    pure (Base64.encode (utf8 ("p=".toList ++ display mode ++ ",,".toList) ++ data))

end ChannelBinding

/-- The one channel binding method the exchange supports (`exchange::TlsServerEndPoint`). -/
structure TlsServerEndPoint where
deriving DecidableEq

/-- Its `Display`. -/
def TlsServerEndPoint.display (_ : TlsServerEndPoint) : List Char :=
  "tls-server-end-point".toList

/-- Its `FromStr`. -/
def TlsServerEndPoint.fromStr (s : List Char) : Except SaslError TlsServerEndPoint :=
  if s = "tls-server-end-point".toList then pure ⟨⟩ else throw (.channelBindingBadMethod s)

/-! ## Messages -/

/-- `validate_sasl_extensions`. -/
def validateSaslExtensions : List (List Char) → Option Unit
  | [] => some ()
  | part :: parts =>
    match part with
    | attr :: eq :: _ => if attr.isAlpha = true ∧ eq = '=' then validateSaslExtensions parts else none
    | _ => none

/-- `ClientFirstMessage`. -/
structure ClientFirstMessage where
  bare : List Char
  cbindFlag : ChannelBinding (List Char)
  username : List Char
  nonce : List Char

/-- `str::split_at`, which panics past the end of the text. -/
def splitAt (input : List Char) (mid : ℕ) : Except SaslError (List Char × List Char) :=
  if mid ≤ input.length then pure (input.take mid, input.drop mid)
  else throw (.panic "byte index is out of bounds")

/-- `ClientFirstMessage::parse`. -/
def ClientFirstMessage.parse (input : List Char) : Except SaslError (Option ClientFirstMessage) :=
  match input.splitOn ',' with
  | [] => pure none
  | flag :: parts =>
    match ChannelBinding.parse flag with
    | none => pure none
    | some cbindFlag =>
      match parts with
      | [] => pure none
      | authzid :: parts =>
        if authzid ≠ [] then pure none
        else do
          -- `authzid.as_ptr() - input.as_ptr() + 1`: the position after the second comma
          let (_, bare) ← splitAt input (flag.length + 1 + 1)
          pure <| match parts with
            | [] => none
            | user :: parts => do
              let username ← user.dropPrefix? ['n', '=']
              match parts with
              | [] => none
              | nonce :: parts => do
                let nonce ← nonce.dropPrefix? ['r', '=']
                validateSaslExtensions parts
                pure ⟨bare, cbindFlag, username, nonce⟩

/-- `OwnedServerFirstMessage`. -/
structure OwnedServerFirstMessage where
  message : List Char
  /-- The field `nonce`: where the combined nonce lies in `message`. -/
  nonceRange : Range ℕ

/-- `OwnedServerFirstMessage::nonce`.  The range lies inside the message by construction, so the
slice does not panic. -/
def OwnedServerFirstMessage.nonce (self : OwnedServerFirstMessage) : List Char :=
  (self.message.drop self.nonceRange.start).take (self.nonceRange.end - self.nonceRange.start)

/-- `OwnedServerFirstMessage::as_str`. -/
def OwnedServerFirstMessage.asStr (self : OwnedServerFirstMessage) : List Char := self.message

/-- `ClientFirstMessage::build_server_first_message`. -/
def ClientFirstMessage.buildServerFirstMessage (self : ClientFirstMessage) (nonce : List UInt8)
    (saltBase64 : List Char) (iterations : UInt32) : OwnedServerFirstMessage :=
  let message := "r=".toList ++ self.nonce ++ Base64.encode nonce
  let combinedNonce : Range ℕ := ⟨2, message.length⟩
  ⟨message ++ ",s=".toList ++ saltBase64 ++ ",i=".toList ++ (Nat.repr iterations.toNat).toList,
    combinedNonce⟩

/-- `ClientFinalMessage`. -/
structure ClientFinalMessage where
  withoutProof : List Char
  channelBinding : List Char
  nonce : List Char
  proof : KeyBytes

section Primitives

variable (P : Primitives)

/-- `ClientFinalMessage::parse`. -/
def ClientFinalMessage.parse (input : List Char) : Option ClientFinalMessage := do
  let (withoutProof, proof) ← rsplitOnce ',' input
  match withoutProof.splitOn ',' with
  | [] => none
  | channelBinding :: parts => do
    let channelBinding ← channelBinding.dropPrefix? ['c', '=']
    match parts with
    | [] => none
    | nonce :: parts => do
      let nonce ← nonce.dropPrefix? ['r', '=']
      validateSaslExtensions parts
      let proof ← P.base64DecodeArray (← proof.dropPrefix? ['p', '='])
      pure ⟨withoutProof, channelBinding, nonce, proof⟩

/-! ## Signatures -/

/-- `ScramKey::sha256`. -/
def ScramKey.sha256 (self : ScramKey) : ScramKey := ⟨P.sha256 self.bytes.bytes⟩

/-- `SignatureBuilder`. -/
structure SignatureBuilder where
  clientFirstMessageBare : List Char
  serverFirstMessage : List Char
  clientFinalMessageWithoutProof : List Char

/-- `Signature`. -/
structure Signature where
  bytes : KeyBytes

/-- `SignatureBuilder::build`: the HMAC of `AuthMessage` under `key`. -/
def SignatureBuilder.build (self : SignatureBuilder) (key : ScramKey) : Signature :=
  ⟨P.hmacSha256 key.bytes.bytes
    [utf8 self.clientFirstMessageBare, utf8 [','], utf8 self.serverFirstMessage, utf8 [','],
      utf8 self.clientFinalMessageWithoutProof].flatten⟩

/-- `Signature::derive_client_key`. -/
def Signature.deriveClientKey (self : Signature) (proof : KeyBytes) : ScramKey :=
  ⟨self.bytes.xor proof⟩

/-- `ClientFinalMessage::build_server_final_message`. -/
def ClientFinalMessage.buildServerFinalMessage (_ : ClientFinalMessage)
    (signatureBuilder : SignatureBuilder) (serverKey : ScramKey) : List Char :=
  "v=".toList ++ Base64.encode (signatureBuilder.build P serverKey).bytes.bytes

end Primitives

/-! ## The exchange -/

/-- `SaslSentInner`. -/
structure SaslSentInner where
  cbindFlag : ChannelBinding TlsServerEndPoint
  clientFirstMessageBare : List Char
  serverFirstMessage : OwnedServerFirstMessage

/-- `SaslInitial`, with the bytes its `nonce` function returns when the transition calls it. -/
structure SaslInitial where
  nonce : List UInt8

/-- `SaslInitial::transition`. -/
def SaslInitial.transition (self : SaslInitial) (secret : ServerSecret)
    (tlsServerEndPoint : Config.TlsServerEndPoint) (input : List Char) :
    Except SaslError (Step SaslSentInner Empty) := do
  match ← ClientFirstMessage.parse input with
  | none => throw (.badClientMessage "invalid client-first-message")
  | some clientFirstMessage =>
    -- a client that thinks the server cannot bind the channel, when it can
    if clientFirstMessage.cbindFlag = .notSupportedServer ∧
        tlsServerEndPoint.supported = true then
      throw (.channelBindingFailed "SCRAM-PLUS not used")
    else
      let serverFirstMessage := clientFirstMessage.buildServerFirstMessage self.nonce
        secret.saltBase64 secret.iterations
      let msg := serverFirstMessage.asStr
      let cbindFlag ← clientFirstMessage.cbindFlag.andThen TlsServerEndPoint.fromStr
      pure (.continue ⟨cbindFlag, clientFirstMessage.bare, serverFirstMessage⟩ msg)

/-- The closure `SaslSentInner::transition` hands to `ChannelBinding::encode`: the hash of the
server's certificate. -/
def certHash (tls : Config.TlsServerEndPoint) : TlsServerEndPoint → Except SaslError (List UInt8) :=
  fun _ => match tls with
    | .sha256 x => pure x.bytes
    | .undefined => throw .missingBinding

section Primitives

variable (P : Primitives)

/-- `SaslSentInner::transition`. -/
def SaslSentInner.transition (self : SaslSentInner) (secret : ServerSecret)
    (tlsServerEndPoint : Config.TlsServerEndPoint) (input : List Char) :
    Except SaslError (Step Empty ScramKey) := do
  match ClientFinalMessage.parse P input with
  | none => throw (.badClientMessage "invalid client-final-message")
  | some clientFinalMessage =>
    let channelBinding ← self.cbindFlag.encode TlsServerEndPoint.display
      (certHash tlsServerEndPoint)
    if clientFinalMessage.channelBinding ≠ channelBinding then
      throw (.channelBindingFailed "insecure connection: secure channel data mismatch")
    else if clientFinalMessage.nonce ≠ self.serverFirstMessage.nonce then
      throw (.badClientMessage "combined nonce doesn't match")
    else
      let signatureBuilder : SignatureBuilder :=
        ⟨self.clientFirstMessageBare, self.serverFirstMessage.asStr,
          clientFinalMessage.withoutProof⟩
      let clientKey :=
        (signatureBuilder.build P secret.storedKey).deriveClientKey clientFinalMessage.proof
      if clientKey.sha256 P ≠ secret.storedKey ∨ secret.doomed = true then
        pure (.failure "password doesn't match")
      else
        pure (.success clientKey
          (clientFinalMessage.buildServerFinalMessage P signatureBuilder secret.serverKey))

/-- `ExchangeState`. -/
inductive ExchangeState where
  | initial (init : SaslInitial)
  | saltSent (sent : SaslSentInner)

/-- `Exchange`. -/
structure Exchange where
  state : ExchangeState
  secret : ServerSecret
  tlsServerEndPoint : Config.TlsServerEndPoint

/-- `Exchange::new`, with the bytes its `nonce` function returns. -/
def Exchange.new (secret : ServerSecret) (nonce : List UInt8)
    (tlsServerEndPoint : Config.TlsServerEndPoint) : Exchange :=
  ⟨.initial ⟨nonce⟩, secret, tlsServerEndPoint⟩

/-- `Mechanism::exchange` for `Exchange`. -/
def Exchange.exchange (self : Exchange) (input : List Char) :
    Except SaslError (Step Exchange ScramKey) := do
  match self.state with
  | .initial init =>
    match ← init.transition self.secret self.tlsServerEndPoint input with
    | .continue sent msg => pure (.continue { self with state := .saltSent sent } msg)
    | .success x _ => nomatch x
    | .failure msg => pure (.failure msg)
  | .saltSent sent =>
    match ← sent.transition P self.secret self.tlsServerEndPoint input with
    | .success keys msg => pure (.success keys msg)
    | .continue x _ => nomatch x
    | .failure msg => pure (.failure msg)

end Primitives

/-! ## What the parsers accept -/

/-- What `validate_sasl_extensions` accepts of one part: an ASCII letter and `=`. -/
def IsExtension (part : List Char) : Prop :=
  ∃ attr rest, part = attr :: '=' :: rest ∧ attr.isAlpha = true

theorem validateSaslExtensions_eq_some_iff :
    ∀ {parts : List (List Char)},
      validateSaslExtensions parts = some () ↔ ∀ part ∈ parts, IsExtension part
  | [] => by simp [validateSaslExtensions]
  | part :: parts => by
    rw [List.forall_mem_cons, ← validateSaslExtensions_eq_some_iff]
    match part with
    | [] => simp [validateSaslExtensions, IsExtension]
    | [attr] => simp [validateSaslExtensions, IsExtension]
    | attr :: eq :: rest =>
      by_cases h : attr.isAlpha = true ∧ eq = '='
      · obtain ⟨halpha, rfl⟩ := h
        simp [validateSaslExtensions, IsExtension, halpha]
      · rw [validateSaslExtensions, if_neg h]
        simp only [IsExtension, List.cons.injEq, reduceCtorEq, false_iff, not_and]
        rintro ⟨a, r, ⟨rfl, rfl, rfl⟩, ha⟩
        exact absurd ⟨ha, rfl⟩ h

/-- The parts of a client-first-message that names no authorization identity, which RFC 5802
writes `gs2-cbind-flag ",," "n=" user ",r=" nonce ("," extension)*`. -/
structure ClientFirstParts where
  flag : List Char
  user : List Char
  nonce : List Char
  extensions : List (List Char)

namespace ClientFirstParts

/-- `client-first-message-bare`. -/
def bare (c : ClientFirstParts) : List Char :=
  [','].intercalate (('n' :: '=' :: c.user) :: ('r' :: '=' :: c.nonce) :: c.extensions)

/-- The message: the flag, an empty authorization identity and the bare part. -/
def text (c : ClientFirstParts) : List Char := c.flag ++ ',' :: ',' :: c.bare

/-- No part holds a comma, and every extension starts with a letter and `=`. -/
structure WellFormed (c : ClientFirstParts) : Prop where
  flag : ',' ∉ c.flag
  user : ',' ∉ c.user
  nonce : ',' ∉ c.nonce
  extensions : ∀ e ∈ c.extensions, ',' ∉ e ∧ IsExtension e

theorem text_eq_intercalate (c : ClientFirstParts) :
    c.text = [','].intercalate
      (c.flag :: [] :: ('n' :: '=' :: c.user) :: ('r' :: '=' :: c.nonce) :: c.extensions) := by
  simp [text, bare, List.intercalate_cons_cons]

theorem splitOn_text {c : ClientFirstParts} (h : c.WellFormed) :
    c.text.splitOn ',' =
      c.flag :: [] :: ('n' :: '=' :: c.user) :: ('r' :: '=' :: c.nonce) :: c.extensions := by
  rw [text_eq_intercalate]
  refine List.splitOn_intercalate ',' (fun l hl => ?_) (List.cons_ne_nil _ _)
  simp only [List.mem_cons] at hl
  rcases hl with rfl | rfl | rfl | rfl | hl
  · exact h.flag
  · exact List.not_mem_nil
  · simpa using h.user
  · simpa using h.nonce
  · exact (h.extensions l hl).1

/-- The bare part starts right after the second comma. -/
theorem drop_text (c : ClientFirstParts) : c.text.drop (c.flag.length + 1 + 1) = c.bare := by
  rw [text, List.drop_append, List.drop_eq_nil_of_le (by omega), List.nil_append,
    show c.flag.length + 1 + 1 - c.flag.length = 2 by omega]
  rfl

theorem le_length_text (c : ClientFirstParts) : c.flag.length + 1 + 1 ≤ c.text.length := by
  simp [text]

end ClientFirstParts

/-- Where a text has a part after its flag and an empty authorization identity, `split_at`
cuts it after the second comma. -/
theorem splitAt_intercalate (flag p : List Char) (ps : List (List Char)) :
    splitAt ([','].intercalate (flag :: [] :: p :: ps)) (flag.length + 1 + 1) =
      .ok (flag ++ [',', ','], [','].intercalate (p :: ps)) := by
  have htext : [','].intercalate (flag :: [] :: p :: ps) =
      flag ++ [',', ','] ++ [','].intercalate (p :: ps) := by
    simp [List.intercalate_cons_cons]
  have hlen : (flag ++ [',', ',']).length = flag.length + 1 + 1 := by simp
  rw [splitAt, htext, if_pos (by simp), List.take_left' hlen, List.drop_left' hlen]
  rfl

/-- Where the text ends after the comma of its flag, `split_at` is asked to cut past the end. -/
theorem splitAt_flag_comma (flag : List Char) :
    splitAt ([','].intercalate [flag, []]) (flag.length + 1 + 1) =
      .error (.panic "byte index is out of bounds") := by
  rw [splitAt, if_neg (by simp [List.intercalate_cons_cons])]
  rfl

namespace ClientFirstMessage

/-- The message `parse` reads from well-formed parts, once their flag parses. -/
theorem parse_text {c : ClientFirstParts} (h : c.WellFormed) :
    parse c.text = .ok ((ChannelBinding.parse c.flag).map fun cbindFlag =>
      ⟨c.bare, cbindFlag, c.user, c.nonce⟩) := by
  have hext := validateSaslExtensions_eq_some_iff.2 fun e he => (h.extensions e he).2
  simp only [parse, c.splitOn_text h]
  cases ChannelBinding.parse c.flag with
  | none => rfl
  | some cbindFlag =>
    simp [splitAt, c.le_length_text, c.drop_text, hext, bind, Except.bind, pure, Except.pure]

/-- A message `parse` reads comes from well-formed parts. -/
theorem exists_parts_of_parse {input : List Char} {m : ClientFirstMessage}
    (h : parse input = .ok (some m)) :
    ∃ c : ClientFirstParts, c.WellFormed ∧ input = c.text ∧
      ChannelBinding.parse c.flag = some m.cbindFlag ∧
      m = ⟨c.bare, m.cbindFlag, c.user, c.nonce⟩ := by
  unfold parse at h
  -- follow the parser through the pieces of the text, which hold no comma
  generalize hls : input.splitOn ',' = ls at h
  obtain ⟨-, hcomma, rfl⟩ := splitOn_eq_iff.1 hls
  clear hls
  rcases ls with _ | ⟨flag, _ | ⟨authzid, parts⟩⟩
  · cases h
  · cases hf : ChannelBinding.parse flag <;> simp [hf, pure, Except.pure] at h
  cases hflag : ChannelBinding.parse flag with
  | none => simp [hflag, pure, Except.pure] at h
  | some cbindFlag =>
  by_cases hauthz : authzid ≠ []
  · simp [hflag, hauthz, pure, Except.pure] at h
  rw [not_not] at hauthz
  subst hauthz
  rcases parts with _ | ⟨user, parts⟩
  · simp only [hflag, ne_eq, not_true_eq_false, if_false, splitAt_flag_comma] at h
    cases h
  simp only [hflag, ne_eq, not_true_eq_false, if_false, splitAt_intercalate, bind, Except.bind,
    pure, Except.pure, Except.ok.injEq] at h
  -- the user, the nonce and the extensions, each as the parser checks it
  cases huser : user.dropPrefix? ['n', '='] with
  | none => simp [huser] at h
  | some user' =>
  rcases parts with _ | ⟨nonce, exts⟩
  · simp [huser] at h
  cases hnonce : nonce.dropPrefix? ['r', '='] with
  | none => simp [huser, hnonce] at h
  | some nonce' =>
  cases hext : validateSaslExtensions exts with
  | none => simp [huser, hnonce, hext] at h
  | some u =>
  simp only [huser, hnonce, hext, Option.bind_some, Option.some.injEq] at h
  rw [dropPrefix?_eq_some_iff'] at huser hnonce
  subst huser hnonce h
  have hpart : ∀ l ∈ flag :: [] :: ('n' :: '=' :: user') :: ('r' :: '=' :: nonce') :: exts,
      ',' ∉ l := hcomma
  have hwf : (⟨flag, user', nonce', exts⟩ : ClientFirstParts).WellFormed :=
    { flag := hpart flag (by simp)
      user := fun hu => hpart ('n' :: '=' :: user') (by simp) (by simp [hu])
      nonce := fun hn => hpart ('r' :: '=' :: nonce') (by simp) (by simp [hn])
      extensions := fun e he =>
        ⟨hpart e (by simp [he]), validateSaslExtensions_eq_some_iff.1 (by rw [hext]) e he⟩ }
  exact ⟨_, hwf, (ClientFirstParts.text_eq_intercalate ⟨flag, user', nonce', exts⟩).symm, hflag,
    rfl⟩

end ClientFirstMessage

/-- The parts of a client-final-message, which RFC 5802 writes
`"c=" cbind-input ",r=" nonce ("," extension)* ",p=" proof`. -/
structure ClientFinalParts where
  channelBinding : List Char
  nonce : List Char
  extensions : List (List Char)
  proof : List Char

namespace ClientFinalParts

/-- `client-final-message-without-proof`. -/
def withoutProof (c : ClientFinalParts) : List Char :=
  [','].intercalate (('c' :: '=' :: c.channelBinding) :: ('r' :: '=' :: c.nonce) :: c.extensions)

/-- The message: the part without the proof, then the proof. -/
def text (c : ClientFinalParts) : List Char := c.withoutProof ++ ',' :: 'p' :: '=' :: c.proof

/-- No part holds a comma, and every extension starts with a letter and `=`. -/
structure WellFormed (c : ClientFinalParts) : Prop where
  channelBinding : ',' ∉ c.channelBinding
  nonce : ',' ∉ c.nonce
  extensions : ∀ e ∈ c.extensions, ',' ∉ e ∧ IsExtension e
  proof : ',' ∉ c.proof

theorem splitOn_withoutProof {c : ClientFinalParts} (h : c.WellFormed) :
    c.withoutProof.splitOn ',' =
      ('c' :: '=' :: c.channelBinding) :: ('r' :: '=' :: c.nonce) :: c.extensions := by
  refine List.splitOn_intercalate ',' (fun l hl => ?_) (List.cons_ne_nil _ _)
  simp only [List.mem_cons] at hl
  rcases hl with rfl | rfl | hl
  · simpa using h.channelBinding
  · simpa using h.nonce
  · exact (h.extensions l hl).1

/-- The proof follows the last comma. -/
theorem rsplitOnce_text {c : ClientFinalParts} (h : c.WellFormed) :
    rsplitOnce ',' c.text = some (c.withoutProof, 'p' :: '=' :: c.proof) :=
  rsplitOnce_append_cons (by simpa using h.proof) c.withoutProof

end ClientFinalParts

section Primitives

variable (P : Primitives)

namespace ClientFinalMessage

/-- The message `parse` reads from well-formed parts, once their proof decodes. -/
theorem parse_text {c : ClientFinalParts} (h : c.WellFormed) :
    parse P c.text = (P.base64DecodeArray c.proof).map fun proof =>
      ⟨c.withoutProof, c.channelBinding, c.nonce, proof⟩ := by
  have hext := validateSaslExtensions_eq_some_iff.2 fun e he => (h.extensions e he).2
  simp only [parse, c.rsplitOnce_text h, Option.bind_eq_bind, Option.bind_some,
    c.splitOn_withoutProof h]
  cases hdec : P.base64DecodeArray c.proof <;> simp [hext, hdec]

/-- A message `parse` reads comes from well-formed parts. -/
theorem exists_parts_of_parse {input : List Char} {m : ClientFinalMessage}
    (h : parse P input = some m) :
    ∃ c : ClientFinalParts, c.WellFormed ∧ input = c.text ∧
      P.base64DecodeArray c.proof = some m.proof ∧
      m = ⟨c.withoutProof, c.channelBinding, c.nonce, m.proof⟩ := by
  unfold parse at h
  -- the proof is what follows the last comma
  cases hsplit : rsplitOnce ',' input with
  | none => simp [hsplit] at h
  | some p =>
  obtain ⟨withoutProof, proof⟩ := p
  obtain ⟨rfl, hproof⟩ := rsplitOnce_eq_some_iff.1 hsplit
  simp only [hsplit, Option.bind_eq_bind, Option.bind_some] at h
  -- the pieces before it, which hold no comma
  generalize hls : withoutProof.splitOn ',' = ls at h
  obtain ⟨-, hcomma, rfl⟩ := splitOn_eq_iff.1 hls
  clear hls
  rcases ls with _ | ⟨cb, _ | ⟨nonce, exts⟩⟩
  · cases h
  · cases hcb : cb.dropPrefix? ['c', '='] <;> simp [hcb] at h
  cases hcb : cb.dropPrefix? ['c', '='] with
  | none => simp [hcb] at h
  | some cb' =>
  cases hnonce : nonce.dropPrefix? ['r', '='] with
  | none => simp [hcb, hnonce] at h
  | some nonce' =>
  cases hext : validateSaslExtensions exts with
  | none => simp [hcb, hnonce, hext] at h
  | some u =>
  cases hp : proof.dropPrefix? ['p', '='] with
  | none => simp [hcb, hnonce, hext, hp] at h
  | some proof' =>
  cases hdec : P.base64DecodeArray proof' with
  | none => simp [hcb, hnonce, hext, hp, hdec] at h
  | some key =>
  simp only [hcb, hnonce, hext, hp, hdec, Option.bind_some, Option.pure_def,
    Option.some.injEq] at h
  rw [dropPrefix?_eq_some_iff'] at hcb hnonce hp
  subst hcb hnonce hp h
  have hpart : ∀ l ∈ ('c' :: '=' :: cb') :: ('r' :: '=' :: nonce') :: exts, ',' ∉ l := hcomma
  have hwf : (⟨cb', nonce', exts, proof'⟩ : ClientFinalParts).WellFormed :=
    { channelBinding := fun hc => hpart ('c' :: '=' :: cb') (by simp) (by simp [hc])
      nonce := fun hn => hpart ('r' :: '=' :: nonce') (by simp) (by simp [hn])
      extensions := fun e he =>
        ⟨hpart e (by simp [he]), validateSaslExtensions_eq_some_iff.1 (by rw [hext]) e he⟩
      proof := fun hc => hproof (by simp [hc]) }
  exact ⟨_, hwf, rfl, hdec, rfl⟩

end ClientFinalMessage

end Primitives

/-! ## The transitions -/

/-- The first transition continues exactly when the client-first-message parses, its flag is not
`y` at a server that binds channels, and a binding it asks for is `tls-server-end-point`. -/
theorem SaslInitial.transition_eq_continue_iff {self : SaslInitial} {secret : ServerSecret}
    {tls : Config.TlsServerEndPoint} {input : List Char} {sent : SaslSentInner}
    {msg : List Char} :
    self.transition secret tls input = .ok (.continue sent msg) ↔
      ∃ (m : ClientFirstMessage) (cbindFlag : ChannelBinding TlsServerEndPoint),
        ClientFirstMessage.parse input = .ok (some m) ∧
        ¬(m.cbindFlag = .notSupportedServer ∧ tls.supported = true) ∧
        m.cbindFlag.andThen TlsServerEndPoint.fromStr = .ok cbindFlag ∧
        sent = ⟨cbindFlag, m.bare,
          m.buildServerFirstMessage self.nonce secret.saltBase64 secret.iterations⟩ ∧
        msg = (m.buildServerFirstMessage self.nonce secret.saltBase64 secret.iterations).asStr := by
  unfold SaslInitial.transition
  cases hp : ClientFirstMessage.parse input with
  | error e => simp [bind, Except.bind]
  | ok r =>
  cases r with
  | none => simp [bind, Except.bind, throw, throwThe, MonadExceptOf.throw]
  | some m =>
  by_cases hy : m.cbindFlag = .notSupportedServer ∧ tls.supported = true
  · simp [hy, bind, Except.bind, throw, throwThe, MonadExceptOf.throw]
  cases hf : m.cbindFlag.andThen TlsServerEndPoint.fromStr with
  | error e => simp [hy, hf, bind, Except.bind]
  | ok g =>
    simp only [hy, if_false, hf, bind, Except.bind, pure, Except.pure, Except.ok.injEq,
      Step.continue.injEq, Option.some.injEq, exists_and_left, exists_eq_left', true_and,
      not_false_eq_true]
    exact and_congr eq_comm eq_comm

section Primitives

variable (P : Primitives)

/-- The second transition succeeds exactly when the client-final-message parses, carries the
channel binding the server encodes and the combined nonce it sent, and its proof gives a client
key whose hash is the stored key of a secret that is not doomed. -/
theorem SaslSentInner.transition_eq_success_iff {self : SaslSentInner} {secret : ServerSecret}
    {tls : Config.TlsServerEndPoint} {input : List Char} {key : ScramKey} {msg : List Char} :
    self.transition P secret tls input = .ok (.success key msg) ↔
      ∃ m : ClientFinalMessage, ClientFinalMessage.parse P input = some m ∧
        self.cbindFlag.encode TlsServerEndPoint.display (certHash tls) = .ok m.channelBinding ∧
        m.nonce = self.serverFirstMessage.nonce ∧
        ((SignatureBuilder.build P ⟨self.clientFirstMessageBare, self.serverFirstMessage.asStr,
          m.withoutProof⟩ secret.storedKey).deriveClientKey m.proof).sha256 P = secret.storedKey ∧
        secret.doomed = false ∧
        key = (SignatureBuilder.build P ⟨self.clientFirstMessageBare,
          self.serverFirstMessage.asStr, m.withoutProof⟩ secret.storedKey).deriveClientKey m.proof ∧
        msg = m.buildServerFinalMessage P ⟨self.clientFirstMessageBare,
          self.serverFirstMessage.asStr, m.withoutProof⟩ secret.serverKey := by
  unfold SaslSentInner.transition
  cases hp : ClientFinalMessage.parse P input with
  | none => simp [throw, throwThe, MonadExceptOf.throw]
  | some m =>
  cases he : self.cbindFlag.encode TlsServerEndPoint.display (certHash tls) with
  | error e => simp [bind, Except.bind]
  | ok cb =>
  simp only [bind, Except.bind, Option.some.injEq, exists_eq_left', Except.ok.injEq]
  by_cases hcb : m.channelBinding = cb
  · subst hcb
    by_cases hn : m.nonce = self.serverFirstMessage.nonce
    · simp only [ne_eq, not_true_eq_false, if_false, hn, true_and]
      -- the client key the proof gives, and the check of its hash
      generalize (SignatureBuilder.build P ⟨self.clientFirstMessageBare,
        self.serverFirstMessage.asStr, m.withoutProof⟩ secret.storedKey).deriveClientKey
          m.proof = clientKey
      split
      · rename_i hk
        simp only [pure, Except.pure, Except.ok.injEq, reduceCtorEq, false_iff, not_and]
        rintro hsha hdoomed -
        rcases hk with hk | hk
        · exact absurd hsha hk
        · simp [hdoomed] at hk
      · rename_i hk
        rw [not_or, not_not, Bool.not_eq_true] at hk
        simp only [pure, Except.pure, Except.ok.injEq, Step.success.injEq, hk, true_and]
        exact and_congr eq_comm eq_comm
    · simp [hn, throw, throwThe, MonadExceptOf.throw]
  · simp [hcb, Ne.symm hcb, throw, throwThe, MonadExceptOf.throw]

/-- The first message moves a new exchange to `SaltSent`. -/
theorem exchange_new_eq_continue_iff {secret : ServerSecret} {nonce : List UInt8}
    {tls : Config.TlsServerEndPoint} {input : List Char} {ex : Exchange} {msg : List Char} :
    (Exchange.new secret nonce tls).exchange P input = .ok (.continue ex msg) ↔
      ∃ sent, (⟨nonce⟩ : SaslInitial).transition secret tls input = .ok (.continue sent msg) ∧
        ex = ⟨.saltSent sent, secret, tls⟩ := by
  simp only [Exchange.exchange, Exchange.new, bind, Except.bind]
  cases (⟨nonce⟩ : SaslInitial).transition secret tls input with
  | error e => simp
  | ok step =>
    cases step with
    | «continue» sent msg' => simp [pure, Except.pure, eq_comm, and_comm]
    | success x _ => exact x.elim
    | failure msg' => simp [pure, Except.pure]

/-- The second message ends an exchange in `SaltSent` as its transition does. -/
theorem exchange_saltSent_eq_success_iff {sent : SaslSentInner} {secret : ServerSecret}
    {tls : Config.TlsServerEndPoint} {input : List Char} {key : ScramKey} {msg : List Char} :
    (⟨.saltSent sent, secret, tls⟩ : Exchange).exchange P input = .ok (.success key msg) ↔
      sent.transition P secret tls input = .ok (.success key msg) := by
  simp only [Exchange.exchange, bind, Except.bind]
  cases sent.transition P secret tls input with
  | error e => simp
  | ok step =>
    cases step with
    | «continue» x _ => exact x.elim
    | success key' msg' => simp [pure, Except.pure]
    | failure msg' => simp [pure, Except.pure]

end Primitives

/-! ## SCRAM-SHA-256 as RFC 5802 and RFC 7677 describe it -/

/-- The gs2 flag of a client-first-message, and the channel binding data that RFC 5802
(section 7) and RFC 5929 put after the gs2 header in `c=`, at a server whose one channel binding
type is `tls-server-end-point`: none for `n`; none for `y`, which a server that can bind refuses
(section 6); the hash of the server's certificate for `p=tls-server-end-point`, which a server
without a certificate cannot give. -/
inductive CbindData (tls : Config.TlsServerEndPoint) : List Char → List UInt8 → Prop
  | notSupportedClient : CbindData tls ['n'] []
  | notSupportedServer (h : tls.supported = false) : CbindData tls ['y'] []
  | tlsServerEndPoint {hash : KeyBytes} (h : tls = .sha256 hash) :
      CbindData tls "p=tls-server-end-point".toList hash.bytes

/-- `server-first-message`: the combined nonce, the client's then the server's in base64, the
salt and the iteration count. -/
def serverFirstMessage (clientNonce : List Char) (nonce : List UInt8) (secret : ServerSecret) :
    List Char :=
  "r=".toList ++ clientNonce ++ Base64.encode nonce ++ ",s=".toList ++ secret.saltBase64 ++
    ",i=".toList ++ (Nat.repr secret.iterations.toNat).toList

/-- `AuthMessage`: the client-first-message-bare, the server-first-message and the
client-final-message-without-proof, joined by commas. -/
def authMessage (nonce : List UInt8) (secret : ServerSecret) (first : ClientFirstParts)
    (final : ClientFinalParts) : List Char :=
  first.bare ++ [','] ++ serverFirstMessage first.nonce nonce secret ++ [','] ++ final.withoutProof

section Primitives

variable (P : Primitives)

/-- `ClientSignature := HMAC(StoredKey, AuthMessage)`. -/
def clientSignature (secret : ServerSecret) (authMessage : List Char) : KeyBytes :=
  P.hmacSha256 secret.storedKey.bytes.bytes (utf8 authMessage)

/-- `ServerSignature := HMAC(ServerKey, AuthMessage)`. -/
def serverSignature (secret : ServerSecret) (authMessage : List Char) : KeyBytes :=
  P.hmacSha256 secret.serverKey.bytes.bytes (utf8 authMessage)

/-- What RFC 5802 and RFC 7677 ask of an exchange the server accepts: two client messages of
well-formed parts, a channel binding as the flag says, the combined nonce sent back, and a proof
whose exclusive or with the client signature is a client key that hashes to the stored key, of a
secret that is not doomed. -/
structure Accepts (secret : ServerSecret) (nonce : List UInt8) (tls : Config.TlsServerEndPoint)
    (first : ClientFirstParts) (final : ClientFinalParts) (proof : KeyBytes) : Prop where
  wellFormed_first : first.WellFormed
  wellFormed_final : final.WellFormed
  channelBinding : ∃ data, CbindData tls first.flag data ∧
    final.channelBinding = Base64.encode (utf8 (first.flag ++ [',', ',']) ++ data)
  combinedNonce : final.nonce = first.nonce ++ Base64.encode nonce
  decodes : P.base64DecodeArray final.proof = some proof
  storedKey : P.sha256
      ((clientSignature P secret (authMessage nonce secret first final)).xor proof).bytes =
    secret.storedKey.bytes
  notDoomed : secret.doomed = false

end Primitives

/-! ## The exchange meets the RFC -/

/-- `base64::encode("n,,")`, which `ChannelBinding::encode` writes as `biws`. -/
theorem encode_gs2Header_n :
    Base64.encode (utf8 (['n'] ++ [',', ',']) ++ []) = "biws".toList := by
  decide

/-- `base64::encode("y,,")`, which `ChannelBinding::encode` writes as `eSws`. -/
theorem encode_gs2Header_y :
    Base64.encode (utf8 (['y'] ++ [',', ',']) ++ []) = "eSws".toList := by
  decide

/-- The flag that asks for `tls-server-end-point`. -/
theorem flag_tlsServerEndPoint :
    ['p', '='] ++ "tls-server-end-point".toList = "p=tls-server-end-point".toList := by
  decide

/-- The gs2 header `encode` writes for `tls-server-end-point`. -/
theorem gs2Header_tlsServerEndPoint :
    "p=".toList ++ TlsServerEndPoint.display ⟨⟩ ++ ",,".toList =
      "p=tls-server-end-point".toList ++ [',', ','] := by
  decide

/-- `encode` of `n` is the base64 of its gs2 header. -/
theorem encode_notSupportedClient {E : Type} (f : TlsServerEndPoint → Except E (List UInt8)) :
    (ChannelBinding.notSupportedClient : ChannelBinding TlsServerEndPoint).encode
      TlsServerEndPoint.display f = .ok (Base64.encode (utf8 (['n'] ++ [',', ',']) ++ [])) := by
  rw [encode_gs2Header_n]
  rfl

/-- `encode` of `y` is the base64 of its gs2 header. -/
theorem encode_notSupportedServer {E : Type} (f : TlsServerEndPoint → Except E (List UInt8)) :
    (ChannelBinding.notSupportedServer : ChannelBinding TlsServerEndPoint).encode
      TlsServerEndPoint.display f = .ok (Base64.encode (utf8 (['y'] ++ [',', ',']) ++ [])) := by
  rw [encode_gs2Header_y]
  rfl

/-- `encode` of `p=tls-server-end-point`, at a server with a certificate, is the base64 of the gs2
header followed by the certificate's hash. -/
theorem encode_tlsServerEndPoint (hash : KeyBytes) :
    (ChannelBinding.required ⟨⟩ : ChannelBinding TlsServerEndPoint).encode
      TlsServerEndPoint.display (certHash (.sha256 hash)) =
      .ok (Base64.encode (utf8 ("p=tls-server-end-point".toList ++ [',', ',']) ++ hash.bytes)) := by
  rw [← gs2Header_tlsServerEndPoint]
  rfl

/-- A server without a certificate has no binding data to encode. -/
theorem encode_required_undefined (mode : TlsServerEndPoint) :
    (ChannelBinding.required mode).encode TlsServerEndPoint.display (certHash .undefined) =
      .error .missingBinding :=
  rfl

/-- `and_then` with `FromStr` keeps a `p=` flag whose method is `tls-server-end-point` and refuses
any other. -/
theorem andThen_fromStr_required {mode : List Char} {g : ChannelBinding TlsServerEndPoint} :
    (ChannelBinding.required mode).andThen TlsServerEndPoint.fromStr = .ok g ↔
      mode = "tls-server-end-point".toList ∧ g = .required ⟨⟩ := by
  rw [ChannelBinding.andThen, TlsServerEndPoint.fromStr]
  by_cases hm : mode = "tls-server-end-point".toList
  · rw [if_pos hm]
    constructor
    · intro h
      cases h
      exact ⟨hm, rfl⟩
    · rintro ⟨-, rfl⟩
      rfl
  · rw [if_neg hm]
    constructor
    · intro h
      cases h
    · rintro ⟨hm', -⟩
      exact absurd hm' hm

/-- What the two transitions make of the gs2 flag: it goes through exactly for the flags of
`CbindData`, and the channel binding expected in `c=` is the base64 of the gs2 header followed by
the data. -/
theorem cbindData_iff {flag : List Char} {tls : Config.TlsServerEndPoint} {cb : List Char} :
    (∃ f, ChannelBinding.parse flag = some f ∧ ¬(f = .notSupportedServer ∧ tls.supported = true) ∧
      ∃ g, f.andThen TlsServerEndPoint.fromStr = .ok g ∧
        g.encode TlsServerEndPoint.display (certHash tls) = .ok cb) ↔
      ∃ data, CbindData tls flag data ∧ cb = Base64.encode (utf8 (flag ++ [',', ',']) ++ data) := by
  constructor
  · rintro ⟨f, hf, hy, g, hg, he⟩
    unfold ChannelBinding.parse at hf
    split_ifs at hf with hn hy'
    · -- `n`: no binding, and `c=biws`
      subst hn
      cases hf
      cases hg
      rw [encode_notSupportedClient] at he
      cases he
      exact ⟨[], .notSupportedClient, rfl⟩
    · -- `y`: no binding at a server that cannot bind, and `c=eSws`
      subst hy'
      cases hf
      cases hg
      rw [encode_notSupportedServer] at he
      cases he
      exact ⟨[], .notSupportedServer (by simpa using hy), rfl⟩
    · -- `p=`: the one binding type, with the certificate's hash
      obtain ⟨mode, hmode, rfl⟩ := Option.map_eq_some_iff.1 hf
      rw [dropPrefix?_eq_some_iff'] at hmode
      subst hmode
      obtain ⟨rfl, rfl⟩ := andThen_fromStr_required.1 hg
      rw [flag_tlsServerEndPoint]
      -- the server must have a certificate, whose hash follows the gs2 header
      cases tls with
      | sha256 hash =>
        rw [encode_tlsServerEndPoint] at he
        cases he
        exact ⟨hash.bytes, .tlsServerEndPoint rfl, rfl⟩
      | undefined =>
        rw [encode_required_undefined] at he
        cases he
  · rintro ⟨data, hdata, rfl⟩
    cases hdata with
    | notSupportedClient =>
      exact ⟨_, rfl, by simp, _, rfl, encode_notSupportedClient _⟩
    | notSupportedServer h =>
      exact ⟨_, rfl, by simp [h], _, rfl, encode_notSupportedServer _⟩
    | tlsServerEndPoint h =>
      subst h
      exact ⟨.required "tls-server-end-point".toList, by decide, by simp, .required ⟨⟩,
        andThen_fromStr_required.2 ⟨rfl, rfl⟩, encode_tlsServerEndPoint _⟩

/-- The combined nonce the server keeps is the client's nonce followed by its own in base64. -/
theorem nonce_buildServerFirstMessage (m : ClientFirstMessage) (nonce : List UInt8)
    (saltBase64 : List Char) (iterations : UInt32) :
    (m.buildServerFirstMessage nonce saltBase64 iterations).nonce =
      m.nonce ++ Base64.encode nonce := by
  have hr : "r=".toList = ['r', '='] := rfl
  unfold ClientFirstMessage.buildServerFirstMessage OwnedServerFirstMessage.nonce
  dsimp only
  -- the range starts after `r=` and ends where the salt's part begins
  rw [hr]
  simp only [List.append_assoc, List.cons_append, List.nil_append, List.drop_succ_cons,
    List.drop_zero, List.length_cons]
  rw [Nat.add_sub_cancel (m := 2), ← List.append_assoc, List.take_left]

/-- The server-first-message the server sends is the RFC's. -/
theorem asStr_buildServerFirstMessage (m : ClientFirstMessage) (nonce : List UInt8)
    (secret : ServerSecret) :
    (m.buildServerFirstMessage nonce secret.saltBase64 secret.iterations).asStr =
      serverFirstMessage m.nonce nonce secret :=
  rfl

section Primitives

variable (P : Primitives) {secret : ServerSecret} {nonce : List UInt8}
  {tls : Config.TlsServerEndPoint}

/-- The signature builder of the second transition signs the `AuthMessage` of the parts. -/
theorem build_authMessage (first : ClientFirstParts) (final : ClientFinalParts) (key : ScramKey) :
    SignatureBuilder.build P ⟨first.bare, serverFirstMessage first.nonce nonce secret,
      final.withoutProof⟩ key =
      ⟨P.hmacSha256 key.bytes.bytes (utf8 (authMessage nonce secret first final))⟩ := by
  simp only [SignatureBuilder.build, authMessage, utf8_append, List.flatten_cons,
    List.flatten_nil, List.append_nil, List.append_assoc]

/-- An exchange that succeeds is one the RFC has the server accept, and the server sends and
returns what the RFC says. -/
theorem accepts_of_exchange {clientFirst serverFirst clientFinal : List Char} {ex : Exchange}
    {clientKey : ScramKey} {serverFinal : List Char}
    (h₁ : (Exchange.new secret nonce tls).exchange P clientFirst = .ok (.continue ex serverFirst))
    (h₂ : ex.exchange P clientFinal = .ok (.success clientKey serverFinal)) :
    ∃ first final proof, Accepts P secret nonce tls first final proof ∧
      clientFirst = first.text ∧ clientFinal = final.text ∧
      serverFirst = serverFirstMessage first.nonce nonce secret ∧
      clientKey = ⟨(clientSignature P secret (authMessage nonce secret first final)).xor proof⟩ ∧
      serverFinal = "v=".toList ++
        Base64.encode (serverSignature P secret (authMessage nonce secret first final)).bytes := by
  -- the first transition: the client-first-message and its flag
  obtain ⟨sent, ht₁, rfl⟩ := (exchange_new_eq_continue_iff P).1 h₁
  obtain ⟨m, cbindFlag, hp₁, hy, hf, rfl, rfl⟩ := SaslInitial.transition_eq_continue_iff.1 ht₁
  obtain ⟨first, hfirst, rfl, hflag, hm⟩ := ClientFirstMessage.exists_parts_of_parse hp₁
  have hbare : m.bare = first.bare := by rw [hm]
  have hnonce : m.nonce = first.nonce := by rw [hm]
  -- the second: the client-final-message, its binding, its nonce and its proof
  rw [exchange_saltSent_eq_success_iff, SaslSentInner.transition_eq_success_iff] at h₂
  obtain ⟨m', hp₂, he, hn, hsha, hdoomed, rfl, rfl⟩ := h₂
  obtain ⟨final, hfinal, rfl, hdec, hm'⟩ := ClientFinalMessage.exists_parts_of_parse P hp₂
  have hwithout : m'.withoutProof = final.withoutProof := by rw [hm']
  obtain ⟨data, hdata, hcb⟩ := cbindData_iff.1 ⟨m.cbindFlag, hflag, hy, cbindFlag, hf, he⟩
  -- what the server signs is the RFC's `AuthMessage`
  simp only [asStr_buildServerFirstMessage, hbare, hnonce, hwithout, build_authMessage,
    ClientFinalMessage.buildServerFinalMessage] at hsha ⊢
  refine ⟨first, final, m'.proof, ⟨hfirst, hfinal, ⟨data, hdata, ?_⟩, ?_, hdec, ?_, hdoomed⟩,
    rfl, rfl, rfl, rfl, rfl⟩
  · rw [← hcb, hm']
  · have hfinalNonce : m'.nonce = final.nonce := by rw [hm']
    rw [← hfinalNonce, hn, ← hnonce]
    exact nonce_buildServerFirstMessage m nonce _ _
  · exact congrArg ScramKey.bytes hsha

/-- An exchange the RFC has the server accept succeeds, with the server-first-message, the client
key and the server-final-message the RFC gives. -/
theorem exchange_of_accepts {first : ClientFirstParts} {final : ClientFinalParts}
    {proof : KeyBytes} (h : Accepts P secret nonce tls first final proof) :
    ∃ ex, (Exchange.new secret nonce tls).exchange P first.text =
        .ok (.continue ex (serverFirstMessage first.nonce nonce secret)) ∧
      ex.exchange P final.text = .ok (.success
        ⟨(clientSignature P secret (authMessage nonce secret first final)).xor proof⟩
        ("v=".toList ++ Base64.encode
          (serverSignature P secret (authMessage nonce secret first final)).bytes)) := by
  obtain ⟨data, hdata, hcb⟩ := h.channelBinding
  obtain ⟨f, hf, hy, g, hg, he⟩ := cbindData_iff.2 ⟨data, hdata, hcb⟩
  -- the first transition reads the parts and sends the RFC's server-first-message
  let m : ClientFirstMessage := ⟨first.bare, f, first.user, first.nonce⟩
  have hp₁ : ClientFirstMessage.parse first.text = .ok (some m) := by
    rw [ClientFirstMessage.parse_text h.wellFormed_first, hf]
    rfl
  let sent : SaslSentInner :=
    ⟨g, first.bare, m.buildServerFirstMessage nonce secret.saltBase64 secret.iterations⟩
  refine ⟨⟨.saltSent sent, secret, tls⟩, (exchange_new_eq_continue_iff P).2
    ⟨sent, SaslInitial.transition_eq_continue_iff.2
      ⟨m, g, hp₁, hy, hg, rfl, (asStr_buildServerFirstMessage m nonce secret).symm⟩, rfl⟩, ?_⟩
  -- the second reads the parts and checks the binding, the nonce and the proof
  rw [exchange_saltSent_eq_success_iff, SaslSentInner.transition_eq_success_iff]
  have hp₂ : ClientFinalMessage.parse P final.text =
      some ⟨final.withoutProof, final.channelBinding, final.nonce, proof⟩ := by
    rw [ClientFinalMessage.parse_text P h.wellFormed_final, h.decodes]
    rfl
  refine ⟨_, hp₂, hcb ▸ he, ?_, ?_, h.notDoomed, ?_, ?_⟩
  · exact h.combinedNonce.trans (nonce_buildServerFirstMessage m nonce _ _).symm
  all_goals
    simp only [sent, m, asStr_buildServerFirstMessage, build_authMessage,
      ClientFinalMessage.buildServerFinalMessage]
  · exact congrArg ScramKey.mk h.storedKey
  · rfl
  · rfl

/-- The SCRAM-SHA-256 exchange succeeds exactly as RFC 5802 and RFC 7677 say it should: its two
client messages are made of well-formed parts, the client binds the channel as its flag says and
sends back the combined nonce, its proof gives a client key that hashes to the stored key, and
the secret is not doomed; the server then sends the RFC's server-first-message and
server-final-message and returns the client key. -/
theorem exchange_success_iff (secret : ServerSecret) (nonce : List UInt8)
    (tls : Config.TlsServerEndPoint) (clientFirst serverFirst clientFinal : List Char)
    (clientKey : ScramKey) (serverFinal : List Char) :
    (∃ ex, (Exchange.new secret nonce tls).exchange P clientFirst =
          .ok (.continue ex serverFirst) ∧
        ex.exchange P clientFinal = .ok (.success clientKey serverFinal)) ↔
      ∃ first final proof, Accepts P secret nonce tls first final proof ∧
        clientFirst = first.text ∧ clientFinal = final.text ∧
        serverFirst = serverFirstMessage first.nonce nonce secret ∧
        clientKey = ⟨(clientSignature P secret (authMessage nonce secret first final)).xor proof⟩ ∧
        serverFinal = "v=".toList ++ Base64.encode
          (serverSignature P secret (authMessage nonce secret first final)).bytes := by
  constructor
  · rintro ⟨ex, h₁, h₂⟩
    exact accepts_of_exchange P h₁ h₂
  · rintro ⟨first, final, proof, h, rfl, rfl, rfl, rfl, rfl⟩
    exact exchange_of_accepts P h

end Primitives

/-- With primitives that hash everything to the zero key, a client that does not bind the
channel and sends back the combined nonce is authenticated. -/
theorem exchange_success_iff_without_binding :
    ∃ ex serverFirst clientKey serverFinal,
      (Exchange.new ⟨4096, "c2FsdA==".toList, ⟨⟨List.replicate 32 0, rfl⟩⟩,
          ⟨⟨List.replicate 32 0, rfl⟩⟩, false⟩ [0, 0, 0] .undefined).exchange
        ⟨fun _ => ⟨List.replicate 32 0, rfl⟩, fun _ _ => ⟨List.replicate 32 0, rfl⟩,
          fun _ => some ⟨List.replicate 32 0, rfl⟩⟩
        "n,,n=user,r=abc".toList = .ok (.continue ex serverFirst) ∧
      ex.exchange ⟨fun _ => ⟨List.replicate 32 0, rfl⟩, fun _ _ => ⟨List.replicate 32 0, rfl⟩,
          fun _ => some ⟨List.replicate 32 0, rfl⟩⟩
        "c=biws,r=abcAAAA,p=AAAA".toList = .ok (.success clientKey serverFinal) := by
  obtain ⟨ex, h₁, h₂⟩ := (exchange_success_iff ⟨fun _ => ⟨List.replicate 32 0, rfl⟩,
      fun _ _ => ⟨List.replicate 32 0, rfl⟩, fun _ => some ⟨List.replicate 32 0, rfl⟩⟩
    ⟨4096, "c2FsdA==".toList, ⟨⟨List.replicate 32 0, rfl⟩⟩, ⟨⟨List.replicate 32 0, rfl⟩⟩, false⟩
    [0, 0, 0] .undefined "n,,n=user,r=abc".toList _ "c=biws,r=abcAAAA,p=AAAA".toList _ _).2
    ⟨⟨['n'], "user".toList, "abc".toList, []⟩,
      ⟨"biws".toList, "abcAAAA".toList, [], "AAAA".toList⟩, ⟨List.replicate 32 0, rfl⟩,
      ⟨⟨by decide, by decide, by decide, by simp⟩, ⟨by decide, by decide, by simp, by decide⟩,
        ⟨[], .notSupportedClient, encode_gs2Header_n.symm⟩, by decide, rfl, rfl, rfl⟩,
      by decide, by decide, rfl, rfl, rfl⟩
  exact ⟨ex, _, _, _, h₁, h₂⟩

end Scram

end NeonStorage

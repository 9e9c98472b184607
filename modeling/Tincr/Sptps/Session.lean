import Tincr.Lib.Endian
import Tincr.Sptps.Crypto
import Tincr.Sptps.Replay

/-!
The session state machine. A method of the source that takes `&mut self` is an action `M` on a
context holding the session, the random source and the outputs pushed so far; the context survives a
failure, as the fields the source has already written do. A failure is an `SptpsError` or a panic at a
named site. The context also keeps a log of what the session sealed, opened, verified and output: no
function of the source reads it, and it is what the properties of whole runs speak about.
-/

set_option linter.dupNamespace false

namespace Tincr.Sptps

inductive Output
  | wire (recordType : UInt8) (bytes : Bytes)
  | record (recordType : UInt8) (bytes : Bytes)
  | handshakeDone
deriving DecidableEq, Repr

/-- The sites where the source would panic: `expect`, `unwrap`, or a slice out of range. -/
inductive Panic
  | bodyFitsInU16
  | mykexPresent
  | hiskexPresent
  | encapSet
  | noKeyMaterial
  | emptyPlaintext
  | sliceOutOfRange
  | bufferOverrun
  | firstSendKex
deriving DecidableEq, Repr

inductive Fault
  | err (e : SptpsError)
  | panic (p : Panic)
deriving DecidableEq, Repr

/-- What the log records. `sealed` and `opened` carry the cipher in use, `none` for plaintext. -/
inductive Event
  | sealed (cipher : Option SptpsCipher) (seqno : UInt32) (ty : UInt8) (body : Bytes)
  | opened (cipher : Option SptpsCipher) (seqno : UInt32) (ty : UInt8) (body : Bytes)
  | verified (msg : Bytes)
  | installed (outcipher : SptpsCipher)
  | output (o : Output)
deriving DecidableEq, Repr

structure StreamBuf where
  buf : Bytes
  reclen : ℕ
deriving DecidableEq, Repr

structure Sptps (C : Crypto) where
  role : Role
  framing : Framing
  state : State
  stream : StreamBuf
  replay : ReplayWindow
  incipher : Option SptpsCipher
  inseqno : UInt32
  outcipher : Option SptpsCipher
  outseqno : UInt64
  outKeyBase : UInt64
  mykex : Option Bytes
  hiskex : Option Bytes
  ecdh : Option C.EcdhPrivate
  mlkem : Option C.MlKemPrivate
  mlkemEncap : Option (Bytes × Bytes)
  key : Option Bytes
  mykey : C.SigningKey
  hiskey : Bytes
  label : Bytes
  aead : SptpsAead
  kex : SptpsKex

structure Cx (C : Crypto) where
  self : Sptps C
  rng : C.Rng
  out : List Output
  log : List Event

abbrev M (C : Crypto) := EStateM Fault (Cx C)

variable {C : Crypto}

namespace M

def self : M C (Sptps C) := fun cx => .ok cx.self cx

def update (f : Sptps C → Sptps C) : M C Unit := fun cx => .ok () { cx with self := f cx.self }

def fail {α : Type} (e : SptpsError) : M C α := fun cx => .error (.err e) cx

def panic {α : Type} (p : Panic) : M C α := fun cx => .error (.panic p) cx

/-- `Option::expect` / `Option::ok_or`. -/
def getOrElse {α : Type} (o : Option α) (f : Fault) : M C α := fun cx =>
  match o with
  | some a => .ok a cx
  | none => .error f cx

def push (o : Output) : M C Unit := fun cx =>
  .ok () { cx with out := cx.out ++ [o], log := cx.log ++ [.output o] }

def note (e : Event) : M C Unit := fun cx => .ok () { cx with log := cx.log ++ [e] }

/-- `if c { x }`. -/
def onlyIf (c : Bool) (x : M C Unit) : M C Unit := if c then x else pure ()

/-- `let mut out = Vec::new()`. -/
def freshOut : M C Unit := fun cx => .ok () { cx with out := [] }

def slice (bs : Bytes) (lo hi : ℕ) : M C Bytes := fun cx =>
  if lo ≤ hi ∧ hi ≤ bs.length then .ok ((bs.take hi).drop lo) cx
  else .error (.panic .sliceOutOfRange) cx

def draw {α : Type} (f : C.Rng → α × C.Rng) : M C α := fun cx =>
  let (a, r) := f cx.rng
  .ok a { cx with rng := r }

end M

open M

namespace Sptps

/-- Records sealed under the current `outcipher` so far. -/
def sealedCount (s : Sptps C) : UInt64 := s.outseqno - s.outKeyBase

def needsRekey (s : Sptps C) : Bool := decide (SEAL_KEY_LIMIT ≤ s.sealedCount.toNat)

/-- App-data send permitted: `confirm` has ciphers but no `handshakeDone` yet. -/
def appSendReady (s : Sptps C) : Bool := s.outcipher.isSome && s.state != .confirm

def outcipherKey (s : Sptps C) : Option Bytes :=
  (s.outcipher.filter fun _ => s.state != .confirm).map (·.key)

def incipherKey (s : Sptps C) : Option Bytes :=
  (s.incipher.filter fun _ => s.state != .confirm).map (·.key)

/-- `receive_kex` precondition. -/
def kexBodyOk (s : Sptps C) (body : Bytes) : Bool :=
  body.length == kexLen s.kex && body.head? == some VERSION && s.hiskex.isNone

end Sptps

/-- The plaintext header of a record: its body length on a stream, its number in a datagram. -/
def recordHeader (framing : Framing) (seqno : UInt32) (body : Bytes) : Bytes :=
  match framing with
  | .stream => BigEndian.encode 2 body.length
  | .datagram => BigEndian.encode 4 seqno.toNat

/-- Header, then type and body, sealed when there is a cipher. -/
def recordWire (framing : Framing) (cipher : Option SptpsCipher) (seqno : UInt32) (ty : UInt8)
    (body : Bytes) : Bytes :=
  recordHeader framing seqno body ++
    match cipher with
    | some c => c.seal C seqno (ty :: body)
    | none => ty :: body

def sendRecordPriv (ty : UInt8) (body : Bytes) : M C Unit := do
  let s ← self
  let seqno := s.outseqno.toUInt32
  update fun s => { s with outseqno := s.outseqno + 1 }
  if s.framing = .stream ∧ 2 ^ 16 ≤ body.length then
    panic .bodyFitsInU16
  else
    note (.sealed s.outcipher seqno ty body)
    push (.wire ty (recordWire (C := C) s.framing s.outcipher seqno ty body))

def sendRecord (ty : UInt8) (body : Bytes) : M C Unit := do
  let s ← self
  if s.appSendReady = false ∨ REC_HANDSHAKE ≤ ty ∨ s.needsRekey then
    fail .invalidState
  else if s.framing = .stream ∧ 65535 < body.length then
    fail .invalidState
  else
    freshOut
    sendRecordPriv ty body

/-- `fetch_add` on the shared counter, then the gate on the value it had, counted from `keyBase`: a
refused reservation has moved the counter all the same. -/
def fetchSeqnos (keyBase : UInt64) (n : UInt32) : M C (Option UInt32) := do
  let s ← self
  update fun s => { s with outseqno := s.outseqno + n.toUInt64 }
  if SEAL_KEY_LIMIT ≤ (s.outseqno - keyBase).toNat then pure none
  else pure (some s.outseqno.toUInt32)

def allocSeqnos (n : UInt32) : M C (Option UInt32) := do
  let s ← self
  fetchSeqnos s.outKeyBase n

/-- The result is the caller's buffer; every refusal leaves that buffer as it was. -/
def sealWithSeqno (seqno : UInt32) (ty : UInt8) (body : Bytes) (headroom : ℕ) : M C Bytes := do
  let s ← self
  if s.framing ≠ .datagram ∨ REC_HANDSHAKE ≤ ty ∨ s.state = .confirm then
    fail .invalidState
  else
    let cipher ← getOrElse s.outcipher (.err .invalidState)
    note (.sealed (some cipher) seqno ty body)
    pure (List.replicate headroom 0 ++ recordWire (C := C) .datagram (some cipher) seqno ty body)

def sealDataInto (ty : UInt8) (body : Bytes) (headroom : ℕ) : M C Bytes := do
  let s ← self
  if s.framing ≠ .datagram ∨ REC_HANDSHAKE ≤ ty then
    fail .invalidState
  else if s.appSendReady = false then
    fail .invalidState
  else
    let base ← allocSeqnos 1
    let seqno ← getOrElse base (.err .invalidState)
    sealWithSeqno seqno ty body headroom

def uncons (pt : Bytes) : M C (UInt8 × Bytes) := fun cx =>
  match pt with
  | ty :: body => .ok (ty, body) cx
  | [] => .error (.panic .emptyPlaintext) cx

/-- The result and the caller's buffer `out`, which some of the refusals have already cleared. -/
def openWithSeqno (data out : Bytes) (headroom : ℕ) :
    M C (Except SptpsError (UInt32 × UInt8) × Bytes) := do
  let s ← self
  if s.framing ≠ .datagram ∨ s.state = .confirm then
    pure (.error .invalidState, out)
  else match s.incipher with
  | none => pure (.error .invalidState, out)
  | some cipher =>
    if data.length < 21 then pure (.error .badSeqno, out)
    else
      let header ← slice data 0 4
      let seqno := UInt32.ofNat (BigEndian.decode header)
      let payload ← slice data 4 data.length
      match cipher.open? C seqno payload with
      | none => pure (.error .decryptFailed, List.replicate headroom 0)
      | some pt => do
        let (ty, body) ← uncons pt
        if REC_HANDSHAKE ≤ ty then pure (.error .badRecord, List.replicate headroom 0)
        else
          note (.opened (some cipher) seqno ty body)
          pure (.ok (seqno, ty), List.replicate headroom 0 ++ pt)

def replayCheck (seqno : UInt32) : M C (Except SptpsError Unit) := do
  let s ← self
  let (verdict, replay) ← getOrElse (s.replay.checked seqno true) (.panic .sliceOutOfRange)
  update fun s => { s with replay := replay }
  pure verdict

/-- `copy_within(headroom + 1.., headroom)` and `truncate(len - 1)`: the type byte goes. -/
def stripType (out : Bytes) (headroom : ℕ) : M C Bytes := do
  let body ← slice out (headroom + 1) out.length
  pure (out.take headroom ++ body)

def openDataInto (data out : Bytes) (headroom : ℕ) : M C (Except SptpsError UInt8 × Bytes) := do
  let s ← self
  if s.framing ≠ .datagram then pure (.error .invalidState, out)
  else
    match ← openWithSeqno data out headroom with
    | (.error e, out) => pure (.error e, out)
    | (.ok (seqno, ty), out) =>
      match ← replayCheck seqno with
      | .error e => pure (.error e, out.take headroom)
      | .ok () => do
        let out ← stripType out headroom
        pure (.ok ty, out)

/-- `version[1] ‖ nonce[32] ‖ ecdh_pubkey[32]`, and the ML-KEM encapsulation key after it. -/
def sendKex : M C Unit := do
  let s ← self
  if s.mykex.isSome then fail .invalidState
  else
    let nonce ← draw (C.fillBytes NONCE_LEN)
    let seed ← draw (C.fillBytes 32)
    let (ecdh, pubkey) := C.ecdhFromSeed seed
    let ek ← generateEk s.kex
    let kex := VERSION :: (nonce ++ pubkey ++ ek)
    sendRecordPriv REC_HANDSHAKE kex
    update fun s => { s with mykex := some kex, ecdh := some ecdh }
where
  /-- Hybrid mode only: the key pair is drawn after the nonce and the ECDH seed. -/
  generateEk : SptpsKex → M C Bytes
    | .x25519 => pure []
    | .x25519MlKem768 => do
      let (dk, ek) ← draw C.mlkemGenerate
      update fun s => { s with mlkem := some dk }
      pure ek

def sendSig : M C Unit := do
  let s ← self
  let mykex ← getOrElse s.mykex (.panic .mykexPresent)
  let hiskex ← getOrElse s.hiskex (.panic .hiskexPresent)
  let sig := C.sign s.mykey (sigTranscript s.role.isInitiator mykex hiskex s.label)
  match s.kex with
  | .x25519 => sendRecordPriv REC_HANDSHAKE sig
  | .x25519MlKem768 => do
    let (ct, _) ← getOrElse s.mlkemEncap (.panic .encapSet)
    sendRecordPriv REC_HANDSHAKE (sig ++ ct)

def sendAck : M C Unit := sendRecordPriv REC_HANDSHAKE []

def forceKex : M C Unit := do
  let s ← self
  if s.outcipher.isNone ∨ s.state ≠ .secondaryKex then fail .invalidState
  else
    update fun s => { s with state := .kex }
    freshOut
    sendKex

/-- Stash the peer's KEX and encapsulate against it; the initiator signs at once. -/
def receiveKex (body : Bytes) : M C Unit := do
  let s ← self
  if s.kexBodyOk body = false then fail .badKex
  else
    update fun s => { s with hiskex := some body }
    encap s.kex
    onlyIf s.role.isInitiator sendSig
where
  encap : SptpsKex → M C Unit
    | .x25519 => pure ()
    | .x25519MlKem768 => do
      let peerEk ← slice body KEX_LEN (KEX_LEN + MLKEM_EK_LEN)
      let sealedSecret ← draw (C.encapsulate peerEk)
      let pair ← getOrElse sealedSecret (.err .badKex)
      update fun s => { s with mlkemEncap := some pair }

def PREFIX : Bytes := "key expansion".toUTF8.toList

/-- The seed of the key material: both nonces, the initiator's first, whichever side this is. -/
def keySeed (initNonce respNonce label kemHash : Bytes) : Bytes :=
  PREFIX ++ initNonce ++ respNonce ++ label ++ kemHash

def generateKeyMaterial (shared kemHash : Bytes) : M C Unit := do
  let s ← self
  let mykex ← getOrElse s.mykex (.panic .mykexPresent)
  let hiskex ← getOrElse s.hiskex (.panic .hiskexPresent)
  let (initKex, respKex) := if s.role.isInitiator then (mykex, hiskex) else (hiskex, mykex)
  let initNonce ← slice initKex 1 (1 + NONCE_LEN)
  let respNonce ← slice respKex 1 (1 + NONCE_LEN)
  let key := C.prf shared (keySeed initNonce respNonce s.label kemHash) (2 * CIPHER_KEY_LEN)
  update fun s => { s with key := some key }

def receiveAck (body : Bytes) : M C Unit := do
  let s ← self
  if body ≠ [] then fail .badAck
  else
    let key ← getOrElse s.key (.panic .noKeyMaterial)
    update fun s => { s with
      key := none
      incipher := some ⟨s.aead, keyHalf key s.role.isInitiator false⟩ }

/-- The check of the peer's signature: the transcript has the roles and the two KEX bodies swapped. -/
def verifySig (body : Bytes) : M C Unit := do
  let s ← self
  if body.length ≠ sigLen s.kex then fail .badSig
  else
    let sig ← slice body 0 SIG_LEN
    let mykex ← getOrElse s.mykex (.panic .mykexPresent)
    let hiskex ← getOrElse s.hiskex (.panic .hiskexPresent)
    let msg := sigTranscript (!s.role.isInitiator) hiskex mykex s.label
    if C.verify s.hiskey msg sig = false then fail .badSig
    else note (.verified msg)

/-- ECDH and, in hybrid mode, decapsulation, down to the 128 bytes of key material. The two private
keys are taken out of the session before anything that can fail. -/
def agreeKey (body : Bytes) : M C Unit := do
  let s ← self
  let mykex ← getOrElse s.mykex (.panic .mykexPresent)
  let hiskex ← getOrElse s.hiskex (.panic .hiskexPresent)
  let peerPub ← slice hiskex (1 + NONCE_LEN) KEX_LEN
  update fun s => { s with ecdh := none }
  let ecdh ← getOrElse s.ecdh (.err .invalidState)
  let x25519 ← getOrElse (C.computeShared ecdh peerPub) (.err .badKex)
  match s.kex with
  | .x25519 => generateKeyMaterial x25519 []
  | .x25519MlKem768 => do
    let peerCt ← slice body SIG_LEN (SIG_LEN + MLKEM_CT_LEN)
    update fun s => { s with mlkem := none }
    let dk ← getOrElse s.mlkem (.err .invalidState)
    let ssDecap := C.decapsulate dk peerCt
    let (myCt, ssEncap) ← getOrElse s.mlkemEncap (.panic .encapSet)
    let init := s.role.isInitiator
    let (ssI2r, ssR2i) := if init then (ssEncap, ssDecap) else (ssDecap, ssEncap)
    let myEk ← slice mykex KEX_LEN mykex.length
    let hisEk ← slice hiskex KEX_LEN hiskex.length
    let (initEk, respEk) := if init then (myEk, hisEk) else (hisEk, myEk)
    let (ctI2r, ctR2i) := if init then (myCt, peerCt) else (peerCt, myCt)
    generateKeyMaterial (x25519 ++ ssI2r ++ ssR2i) (C.kemTranscriptHash initEk respEk ctI2r ctR2i)

/-- The order-sensitive tail: SIG and ACK still go out under the old `outcipher`. -/
def switchOut : M C Bool := do
  let s ← self
  let wasRekey := s.outcipher.isSome
  onlyIf (!s.role.isInitiator) sendSig
  update fun s => { s with mykex := none, hiskex := none, mlkemEncap := none }
  onlyIf wasRekey sendAck
  let s ← self
  let key ← getOrElse s.key (.panic .noKeyMaterial)
  let outcipher : SptpsCipher := ⟨s.aead, keyHalf key s.role.isInitiator true⟩
  update fun s => { s with outcipher := some outcipher, outKeyBase := s.outseqno }
  note (.installed outcipher)
  pure wasRekey

/-- Verify, agree on the key, maybe sign, maybe acknowledge; returns whether this was a rekey. -/
def receiveSig (body : Bytes) : M C Bool := do
  verifySig body
  agreeKey body
  switchOut

/-- `out.push(HandshakeDone)` and the state it comes with. -/
def handshakeDone : M C Unit := do
  push .handshakeDone
  update fun s => { s with state := .secondaryKex }

def receiveHandshake (body : Bytes) : M C Unit := do
  let s ← self
  match s.state with
  | .secondaryKex =>
    if s.kexBodyOk body = false then fail .badKex
    else do
      sendKex
      receiveKex body
      update fun s => { s with state := .sig }
  | .kex => do
    receiveKex body
    update fun s => { s with state := .sig }
  | .sig => do
    if ← receiveSig body then
      update fun s => { s with state := .ack }
    else
      receiveAck []
      match s.kex with
      | .x25519 => handshakeDone
      | .x25519MlKem768 => do
        sendAck
        update fun s => { s with state := .confirm }
  | .ack => do
    receiveAck body
    handshakeDone
  | .confirm =>
    if body ≠ [] then fail .badAck else handshakeDone

def dispatchRecord (ty : UInt8) (body : Bytes) (encrypted : Bool) : M C Unit := do
  if ty < REC_HANDSHAKE then
    let s ← self
    if encrypted = false ∨ s.state = .confirm then fail .badRecord
    else push (.record ty body)
  else if ty = REC_HANDSHAKE then receiveHandshake body
  else fail .badRecord

def receiveDatagram (data : Bytes) : M C Unit := do
  let s ← self
  if data.length < (if s.incipher.isSome then 21 else 5) then fail .badSeqno
  else
    let header ← slice data 0 4
    let seqno := UInt32.ofNat (BigEndian.decode header)
    let payload ← slice data 4 data.length
    match s.incipher with
    | none =>
      -- plaintext handshake: a strict counter, no window yet
      if seqno ≠ s.replay.inseqno then fail .badSeqno
      else
        update fun s => { s with replay := { s.replay with inseqno := seqno + 1 } }
        let (ty, body) ← uncons payload
        if ty ≠ REC_HANDSHAKE then fail .badRecord
        else
          note (.opened none seqno ty body)
          receiveHandshake body
    | some cipher =>
      -- decrypt first, then the window: a forged number must not move it
      let pt ← getOrElse (cipher.open? C seqno payload) (.err .decryptFailed)
      match ← replayCheck seqno with
      | .error e => fail e
      | .ok () =>
        let (ty, body) ← uncons pt
        note (.opened (some cipher) seqno ty body)
        dispatchRecord ty body true

/-- Phase 3 of `receive_stream`: a whole record is in `framed`. -/
def processFramed (framed : Bytes) : M C Unit := do
  let s ← self
  let seqno := s.inseqno
  update fun s => { s with inseqno := s.inseqno + 1, stream := ⟨[], 0⟩ }
  let payload ← slice framed 2 framed.length
  let pt ← match s.incipher with
    | some cipher => getOrElse (cipher.open? C seqno payload) (.err .decryptFailed)
    | none => pure payload
  let (ty, body) ← uncons pt
  note (.opened s.incipher seqno ty body)
  dispatchRecord ty body s.incipher.isSome

/-- Bytes of the record in progress, its two length bytes included. -/
def Sptps.recordTotal (s : Sptps C) : ℕ :=
  2 + (if s.incipher.isSome then s.stream.reclen + 1 + TAG_LEN else s.stream.reclen + 1)

/-- Phases 2 and 3 of `receive_stream`, `consumed` bytes of `data` being used up already. -/
def receiveRest (data : Bytes) (consumed : ℕ) : M C ℕ := do
  let s ← self
  let total := s.recordTotal
  if total < s.stream.buf.length then panic .bufferOverrun
  else
    let take := min (total - s.stream.buf.length) (data.length - consumed)
    let tail ← slice data consumed (consumed + take)
    let buf := s.stream.buf ++ tail
    update fun s => { s with stream := { s.stream with buf := buf } }
    if buf.length < total then pure (consumed + take)
    else
      processFramed buf
      pure (consumed + take)

def receiveStream (data : Bytes) : M C ℕ := do
  let s ← self
  if s.stream.buf.length < 2 then
    let take := min (2 - s.stream.buf.length) data.length
    let head ← slice data 0 take
    let buf := s.stream.buf ++ head
    update fun s => { s with stream := { s.stream with buf := buf } }
    if buf.length < 2 then pure take
    else
      let lenBytes ← slice buf 0 2
      let reclen := BigEndian.decode lenBytes
      update fun s => { s with stream := { s.stream with reclen := reclen } }
      if s.incipher.isNone ∧ MAX_PREAUTH_RECLEN < reclen then
        update fun s => { s with stream := ⟨[], 0⟩ }
        fail .recordTooLong
      else if take = data.length then pure take
      else receiveRest data take
  else receiveRest data 0

/-- The number of bytes consumed; the outputs are the context's. -/
def receive (data : Bytes) : M C ℕ := do
  freshOut
  let s ← self
  match s.framing with
  | .datagram => do
    receiveDatagram data
    pure data.length
  | .stream => receiveStream data

/-- The arguments of `start_with`. -/
structure Config (C : Crypto) where
  role : Role
  framing : Framing
  kex : SptpsKex
  mykey : C.SigningKey
  hiskey : Bytes
  label : Bytes
  aead : SptpsAead
  replaywin : ℕ

/-- The session label: the base label, and a suffix when a mode is not the default one. -/
def Config.sessionLabel (cfg : Config C) : Bytes :=
  if cfg.kex.discriminator ≠ 0 ∨ cfg.aead.discriminator ≠ 0 then
    cfg.label ++ [cfg.kex.discriminator, cfg.aead.discriminator]
  else cfg.label

def Sptps.fresh (cfg : Config C) : Sptps C where
  role := cfg.role
  framing := cfg.framing
  state := .kex
  stream := ⟨[], 0⟩
  replay := ReplayWindow.new cfg.replaywin
  incipher := none
  inseqno := 0
  outcipher := none
  outseqno := 0
  outKeyBase := 0
  mykex := none
  hiskex := none
  ecdh := none
  mlkem := none
  mlkemEncap := none
  key := none
  mykey := cfg.mykey
  hiskey := cfg.hiskey
  label := cfg.sessionLabel
  aead := cfg.aead
  kex := cfg.kex

/-- `send_kex(..).expect("first send_kex")` on the fresh session. -/
def startWith (cfg : Config C) (rng : C.Rng) : EStateM.Result Fault (Cx C) Unit :=
  match sendKex ⟨.fresh cfg, rng, [], []⟩ with
  | .error (.err _) cx => .error (.panic .firstSendKex) cx
  | r => r

end Tincr.Sptps

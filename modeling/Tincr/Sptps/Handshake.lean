import Tincr.Sptps.Effects

/-!
Everything a call can do to a session. `Handled` lists the outcomes of a handshake record, one
constructor per way through the state machine's switch, and `Received` those of `receive` with
arbitrary bytes; both are proved of the code once, and every invariant is then a case analysis on them.
-/

set_option linter.dupNamespace false

namespace Tincr.Sptps

open EStateM M

variable {C : Crypto}

/-- `HandshakeDone` goes out and the session is ready for the next KEX. -/
def Cx.finish (cx : Cx C) : Cx C :=
  { cx with
    self := { cx.self with state := .secondaryKex }
    out := cx.out ++ [.handshakeDone]
    log := cx.log ++ [.output .handshakeDone] }

/-- A SIG has been verified and the key material derived; both private keys are used up. -/
def Cx.agreed (cx : Cx C) (msg : Bytes) (m : Option C.MlKemPrivate) (key : Option Bytes) : Cx C :=
  { cx with
    self := { cx.self with ecdh := none, mlkem := m, key := key }
    log := cx.log ++ [.verified msg] }

def Cx.setState (cx : Cx C) (st : State) : Cx C := { cx with self := { cx.self with state := st } }

/-- A peer KEX is taken in state `kex`, or in `secondaryKex` once the session's own has gone out. -/
inductive Opens (cx : Cx C) : Cx C → Prop
  | kex (hst : cx.self.state = .kex) : Opens cx cx
  | secondary (hst : cx.self.state = .secondaryKex) (hm : cx.self.mykex = none) : Opens cx cx.kexSent

/-- A good SIG in a session that still has its ECDH key: `cx1` has the key material `k`, and has sent
what it had to send and switched its `outcipher`. -/
inductive Signed (cx : Cx C) (k : Bytes) : Cx C → Prop
  | intro {mk hk e m} (sigs acks : List Bytes) (hst : cx.self.state = .sig)
      (hm : cx.self.mykex = some mk) (hh : cx.self.hiskex = some hk) (he : cx.self.ecdh = some e)
      (hs : sigs.length ≤ 1) (ha : acks.length ≤ 1) :
      Signed cx k ((cx.agreed (cx.self.peerTranscript mk hk) m (some k)).switched sigs acks k)

/-- Everything a handshake record can do to a session that does not panic on it. -/
inductive Handled (cx : Cx C) (body : Bytes) : Cx C → Prop
  /-- in the two states that wait for a KEX, only what is no good KEX or comes while one is pending -/
  | rejected (h : cx.self.state = .kex ∨ cx.self.state = .secondaryKex →
      cx.self.kexBodyOk body = false ∨ cx.self.state = .secondaryKex ∧ cx.self.mykex.isSome) :
      Handled cx body cx
  /-- the peer's encapsulation key is malformed: stored, and then refused -/
  | kexRefused {cx1 r} (hopen : Opens cx cx1) (hbody : cx.self.kexBodyOk body = true) :
      Handled cx body (cx1.kexStored body cx1.self.mlkemEncap r)
  | kexTaken {cx1 e r} (sigs : List Bytes) (hopen : Opens cx cx1)
      (hbody : cx.self.kexBodyOk body = true) (hs : sigs.length ≤ 1) (he : Encapsulated cx.self.kex e) :
      Handled cx body (((cx1.kexStored body e r).emitAll sigs).setState .sig)
  /-- the signature is good, the key exchange fails -/
  | sigRefused {mk hk m} (hst : cx.self.state = .sig) (hm : cx.self.mykex = some mk)
      (hh : cx.self.hiskex = some hk) :
      Handled cx body (cx.agreed (cx.self.peerTranscript mk hk) m cx.self.key)
  | sigRekey {k cx1} (hsig : Signed cx k cx1) (hout : cx.self.outcipher.isSome) :
      Handled cx body (cx1.setState .ack)
  | sigFirst {k cx1} (hsig : Signed cx k cx1) (hout : cx.self.outcipher = none)
      (hk : cx.self.kex = .x25519) : Handled cx body (cx1.setIn k).finish
  | sigFirstHybrid {k cx1} (hsig : Signed cx k cx1) (hout : cx.self.outcipher = none)
      (hk : cx.self.kex = .x25519MlKem768) :
      Handled cx body (((cx1.setIn k).emitAll [[]]).setState .confirm)
  | acked {k} (hst : cx.self.state = .ack) (hk : cx.self.key = some k) :
      Handled cx body (cx.setIn k).finish
  | confirmed (hst : cx.self.state = .confirm) : Handled cx body cx.finish

/-- The KEX half of the switch, after the session's own KEX if one was due. -/
theorem receiveKex_handled {cx cx1 : Cx C} {body : Bytes} (hopen : Opens cx cx1)
    (hsame : cx1.self.kexBodyOk body = cx.self.kexBodyOk body) (hkex : cx1.self.kex = cx.self.kex)
    (hbad : cx.self.kexBodyOk body = false → Handled cx body cx1) :
    Ends (receiveKex body) cx1 (fun _ cx' => Handled cx body (cx'.setState .sig)) (Handled cx body) := by
  obtain ⟨hb, h⟩ | ⟨hb, ⟨r, h⟩ | ⟨e, r, he, h⟩⟩ := receiveKex_cases cx1 body <;> rw [hsame] at hb
  · exact (ends_of_err h).mpr (hbad hb)
  · exact (ends_of_err h).mpr (.kexRefused hopen hb)
  · rw [hkex] at he
    have hsig : Ends (onlyIf cx1.self.role.isInitiator sendSig) (cx1.kexStored body e r)
        (fun _ cx' => Handled cx body (cx'.setState .sig)) (Handled cx body) := by
      refine ends_onlyIf.mpr ⟨fun _ => sendSig_ends _ fun sig => ?_, fun _ => ?_⟩
      · exact .kexTaken [sig] hopen hb (by simp) he
      · exact .kexTaken [] hopen hb (by simp) he
    unfold Ends Post at hsig ⊢
    rwa [h]

theorem receiveSig_handled (cx : Cx C) (body : Bytes) (hst : cx.self.state = .sig) :
    Ends (receiveSig body) cx
      (fun wasRekey cx1 => wasRekey = cx.self.outcipher.isSome ∧
        ∃ k, Signed cx k cx1 ∧ cx1.self.key = some k)
      (Handled cx body) := by
  simp only [receiveSig, ends_bind]
  refine verifySig_ends cx body (.rejected (by simp [hst])) fun mk hk hm hh => ?_
  refine agreeKey_ends _ body (fun m => .sigRefused hst hm hh) fun e m k he => ?_
  refine switchOut_ends _ fun sigs acks k' hs ha hk' => ?_
  obtain rfl : k = k' := by simpa using hk'
  exact ⟨rfl, k, .intro sigs acks hst hm hh he hs ha, by simp [Cx.switched, Cx.setOut, Cx.dropKex]⟩

theorem handshakeDone_ends (cx : Cx C) {Q : Unit → Cx C → Prop} {R : Cx C → Prop}
    (h : Q () cx.finish) : Ends handshakeDone cx Q R := by
  simp only [handshakeDone, ends_bind, ends_push, ends_update]
  exact h

theorem receiveHandshake_handled (cx : Cx C) (body : Bytes) :
    Ends (receiveHandshake body) cx (fun _ => Handled cx body) (Handled cx body) := by
  simp only [receiveHandshake, ends_bind, ends_self]
  split
  case h_1 hst =>
    simp only [ends_ite, ends_fail, ends_bind, ends_update]
    refine ⟨fun hb => .rejected fun _ => .inl hb, fun hb => ?_⟩
    cases hm : cx.self.mykex with
    | some mk =>
      have hsome : cx.self.mykex.isSome := by simp [hm]
      exact (ends_of_err (sendKex_busy cx hsome)).mpr (.rejected fun _ => .inr ⟨hst, hsome⟩)
    | none =>
      refine (ends_of_ok (sendKex_apply cx hm)).mpr ?_
      exact receiveKex_handled (.secondary hst hm) rfl rfl fun hb' => absurd hb' hb
  case h_2 hst =>
    simp only [ends_bind, ends_update]
    exact receiveKex_handled (.kex hst) rfl rfl fun hb => .rejected fun _ => .inl hb
  case h_3 hst =>
    simp only [ends_bind]
    refine (receiveSig_handled cx body hst).mono ?_ fun _ h => h
    rintro wasRekey cx1 ⟨rfl, k, hsig, hkey⟩
    cases hout : cx.self.outcipher with
    | some c => exact .sigRekey hsig (by simp [hout])
    | none =>
      simp only [Option.isSome_none, Bool.false_eq_true, if_false, ends_bind]
      refine receiveAck_ends cx1 [] (absurd rfl) fun k' _ hk' => ?_
      obtain rfl : k = k' := Option.some.inj (hkey.symm.trans hk')
      split
      case h_1 hk => exact handshakeDone_ends _ (.sigFirst hsig hout hk)
      case h_2 hk =>
        simp only [ends_bind, ends_update]
        exact sendRecordPriv_ends _ _ _ (.sigFirstHybrid hsig hout hk)
  case h_4 hst =>
    simp only [ends_bind]
    exact receiveAck_ends cx body (fun _ => .rejected (by simp [hst])) fun k _ hk => handshakeDone_ends _ (.acked hst hk)
  case h_5 hst =>
    simp only [ends_ite, ends_fail]
    exact ⟨fun _ => .rejected (by simp [hst]), fun _ => handshakeDone_ends _ (.confirmed hst)⟩

/-- Only the framing fields have changed: bytes buffered, a number counted, a record refused. -/
def Cx.framed (cx : Cx C) (st : StreamBuf) (w : ReplayWindow) (n : UInt32) : Cx C :=
  { cx with self := { cx.self with stream := st, replay := w, inseqno := n } }

def Cx.opening (cx : Cx C) (seqno : UInt32) (ty : UInt8) (body : Bytes) : Cx C :=
  { cx with log := cx.log ++ [.opened cx.self.incipher seqno ty body] }

def Cx.pushed (cx : Cx C) (o : Output) : Cx C :=
  { cx with out := cx.out ++ [o], log := cx.log ++ [.output o] }

inductive Dispatched (cx : Cx C) (ty : UInt8) (body : Bytes) : Cx C → Prop
  | refused (hty : ty ≠ REC_HANDSHAKE) : Dispatched cx ty body cx
  | record (hty : ty < REC_HANDSHAKE) (hin : cx.self.incipher.isSome) (hst : cx.self.state ≠ .confirm) :
      Dispatched cx ty body (cx.pushed (.record ty body))
  | handshake {cx'} (hty : ty = REC_HANDSHAKE) (h : Handled cx body cx') : Dispatched cx ty body cx'

theorem dispatchRecord_ends (cx : Cx C) (ty : UInt8) (body : Bytes) (encrypted : Bool)
    (henc : encrypted = cx.self.incipher.isSome) :
    Ends (dispatchRecord ty body encrypted) cx (fun _ => Dispatched cx ty body)
      (Dispatched cx ty body) := by
  simp only [dispatchRecord, ends_ite, ends_bind, ends_self, ends_fail, ends_push]
  refine ⟨fun hty => ⟨fun _ => .refused (UInt8.ne_of_lt hty), fun h => ?_⟩,
    fun _ => ⟨fun hty => ?_, fun hty => .refused hty⟩⟩
  · have hin : encrypted = true := by cases encrypted <;> simp at h ⊢
    exact .record hty (henc ▸ hin) fun hst => h (.inr hst)
  · exact (receiveHandshake_handled cx body).mono (fun _ _ => .handshake hty) fun _ => .handshake hty

inductive Received (cx : Cx C) : Cx C → Prop
  | framing {st w n} : Received cx (cx.framed st w n)
  | opened {st w n seqno ty body cx'}
      (h : Dispatched ((cx.framed st w n).opening seqno ty body) ty body cx') : Received cx cx'

theorem receiveDatagram_received (cx : Cx C) (data : Bytes) :
    Ends (receiveDatagram data) cx (fun _ => Received cx) (Received cx) := by
  simp only [receiveDatagram, ends_bind, ends_self, ends_ite, ends_fail]
  refine ⟨fun _ => .framing, fun _ => ends_slice _ _ _ |>.mpr fun _ => ends_slice _ _ _ |>.mpr fun _ => ?_⟩
  generalize UInt32.ofNat (BigEndian.decode ((data.take 4).drop 0)) = seqno
  split
  case h_1 hin =>
    simp only [ends_ite, ends_fail, ends_bind, ends_update, ends_uncons, ends_note]
    refine ⟨fun _ => .framing, fun _ ty body _ => ⟨fun _ => .framing, fun hty => ?_⟩⟩
    have key := (receiveHandshake_handled ((cx.framed cx.self.stream
      { cx.self.replay with inseqno := seqno + 1 } cx.self.inseqno).opening seqno ty body) body).mono
      (fun _ _ h => Received.opened (.handshake (not_not.mp hty) h))
      fun _ h => Received.opened (.handshake (not_not.mp hty) h)
    simpa only [Cx.opening, Cx.framed, hin] using key
  case h_2 cipher hin =>
    simp only [ends_bind, ends_okOr, ends_replayCheck]
    refine ⟨fun pt _ => ?_, fun _ => .framing⟩
    split
    · exact .framing
    · simp only [ends_bind, ends_uncons, ends_note]
      intro ty body _
      have key := (dispatchRecord_ends ((cx.framed cx.self.stream (cx.self.replay.check seqno true).2
        cx.self.inseqno).opening seqno ty body) ty body true (by simp [Cx.opening, Cx.framed, hin])).mono
        (fun _ _ => Received.opened) fun _ => Received.opened
      simpa only [Cx.opening, Cx.framed, hin] using key

theorem processFramed_received {cx : Cx C} {st : StreamBuf} (framed : Bytes) :
    Ends (processFramed framed) { cx with self := { cx.self with stream := st } }
      (fun _ => Received cx) (Received cx) := by
  simp only [processFramed, ends_bind, ends_self, ends_update, ends_slice]
  intro _
  have key : ∀ seqno ty body, Ends (dispatchRecord ty body cx.self.incipher.isSome)
      ((cx.framed ⟨[], 0⟩ cx.self.replay (cx.self.inseqno + 1)).opening seqno ty body)
      (fun _ => Received cx) (Received cx) := by
    intro seqno ty body
    refine Ends.mono (dispatchRecord_ends _ ty body cx.self.incipher.isSome ?_)
      (fun _ _ h => Received.opened h) fun _ h => Received.opened h
    rfl
  split
  · simp only [ends_bind, ends_okOr, ends_uncons, ends_note]
    exact ⟨fun _ _ ty body _ => key _ ty body, fun _ => .framing⟩
  · simp only [ends_bind, ends_pure, ends_uncons, ends_note]
    exact fun ty body _ => key _ ty body

theorem receiveRest_received {cx : Cx C} {st : StreamBuf} (data : Bytes) (consumed : ℕ) :
    Ends (receiveRest data consumed) { cx with self := { cx.self with stream := st } }
      (fun _ => Received cx) (Received cx) := by
  simp only [receiveRest, ends_bind, ends_self, ends_ite, ends_panic, ends_slice, ends_update, ends_pure]
  exact ⟨fun _ => trivial, fun _ _ => ⟨fun _ => .framing, fun _ => processFramed_received _⟩⟩

theorem receiveStream_received (cx : Cx C) (data : Bytes) :
    Ends (receiveStream data) cx (fun _ => Received cx) (Received cx) := by
  simp only [receiveStream, ends_bind, ends_self, ends_ite, ends_slice, ends_update, ends_pure, ends_fail]
  exact ⟨fun _ _ => ⟨fun _ => .framing, fun _ _ => ⟨fun _ => .framing,
    fun _ => ⟨fun _ => .framing, fun _ => receiveRest_received _ _⟩⟩⟩, fun _ => receiveRest_received _ _⟩

def Cx.clearOut (cx : Cx C) : Cx C := { cx with out := [] }

theorem receive_received (cx : Cx C) (data : Bytes) :
    Ends (receive data) cx (fun _ => Received cx.clearOut) (Received cx.clearOut) := by
  simp only [receive, ends_bind, ends_freshOut, ends_self]
  split
  · simp only [ends_bind, ends_pure]
    exact receiveDatagram_received cx.clearOut data
  · exact receiveStream_received cx.clearOut data

end Tincr.Sptps

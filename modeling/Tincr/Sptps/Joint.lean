import Tincr.Sptps.Flow

/-!
Where two honest ends can stand at the same time. `Joint` lists the pairs of shapes with the handshake
messages in flight each way, over the first handshake in either mode and over rekeys started by either
end or by both; every message that can arrive leads from one of these pairs to another.
-/

set_option linter.dupNamespace false

namespace Tincr.Sptps

open EStateM M

variable {C : Crypto}

/-- A KEX changes nothing for its receiver's next read. -/
def Hs.kex (p : KexPair C) : Hs := ⟨p.body, none⟩

/-- An ACK in flight from `s`: its receiver then reads with what `s` writes with. -/
def Hs.ack (s : Sptps C) : Hs := ⟨[], some s.sendView⟩

/-- The two ends of a round before its SIGs: keyed in a rekey, without ciphers in the first handshake. -/
inductive Mode (sI sR : Sptps C) : View → View → Prop
  | keyed (hI : sI.outcipher.isSome) (hR : sR.outcipher.isSome) : Mode sI sR sI.sendView sR.sendView
  | first (hoI : sI.outcipher = none) (hoR : sR.outcipher = none) (hiI : sI.incipher = none)
      (hiR : sR.incipher = none) : Mode sI sR ⟨none, false⟩ ⟨none, false⟩

/-- Initiator and responder, the handshake messages in flight from each, and the views that the two
lanes end in. -/
inductive Joint (X : PairConfig C) (sI sR : Sptps C) : List Hs → List Hs → View → View → Prop
  | idle (hI : Idle sI) (hR : Idle sR) (hoI : sI.outcipher.isSome) (hoR : sR.outcipher.isSome) :
      Joint X sI sR [] [] sI.sendView sR.sendView
  | idleKex {pR} (hI : Idle sI) (hR : Kexing sR pR) (hpR : X.Honest pR)
      (hoI : sI.outcipher.isSome) (hoR : sR.outcipher.isSome) :
      Joint X sI sR [] [.kex pR] sI.sendView sR.sendView
  | kexIdle {pI} (hI : Kexing sI pI) (hR : Idle sR) (hpI : X.Honest pI)
      (hoI : sI.outcipher.isSome) (hoR : sR.outcipher.isSome) :
      Joint X sI sR [.kex pI] [] sI.sendView sR.sendView
  | kexKex {pI pR vI vR} (hI : Kexing sI pI) (hR : Kexing sR pR) (hpI : X.Honest pI)
      (hpR : X.Honest pR) (hm : Mode sI sR vI vR) : Joint X sI sR [.kex pI] [.kex pR] vI vR
  | kexSig {pI pR eR vI vR} (hI : Kexing sI pI) (hR : Siging sR pR pI eR) (hpI : X.Honest pI)
      (hpR : X.Honest pR) (heR : X.Encap pI eR) (hm : Mode sI sR vI vR) :
      Joint X sI sR [] [.kex pR] vI vR
  | sigKex {pI pR eI vI vR} (hI : Siging sI pI pR eI) (hR : Kexing sR pR) (hpI : X.Honest pI)
      (hpR : X.Honest pR) (heI : X.Encap pR eI) (hm : Mode sI sR vI vR) :
      Joint X sI sR [.kex pI, ⟨X.sig .initiator pI pR (X.ctOf eI), none⟩] [] vI vR
  | sigSig {pI pR eI eR vI vR} (hI : Siging sI pI pR eI) (hR : Siging sR pR pI eR) (hpI : X.Honest pI)
      (hpR : X.Honest pR) (heI : X.Encap pR eI) (heR : X.Encap pI eR) (hm : Mode sI sR vI vR) :
      Joint X sI sR [⟨X.sig .initiator pI pR (X.ctOf eI), none⟩] [] vI vR
  /-- a rekey: the responder has switched -/
  | sigAck {pI pR eI eR z} (hI : Siging sI pI pR eI) (hr : Round X pI pR eI eR z)
      (hR : Awaiting sR (X.cipherFrom .initiator (X.keyFor .initiator z pI pR eI eR)))
      (hoI : sI.outcipher.isSome)
      (hoR : sR.outcipher = some (X.cipherFrom .responder (X.keyFor .initiator z pI pR eI eR))) :
      Joint X sI sR [] [⟨X.sig .responder pR pI (X.ctOf eR), none⟩, .ack sR] sI.sendView sR.sendView
  /-- the first handshake, classical: the responder is done -/
  | sigIdle {pI pR eI eR z} (hI : Siging sI pI pR eI) (hr : Round X pI pR eI eR z) (hR : Idle sR)
      (hoI : sI.outcipher = none) (hk : X.kex = .x25519)
      (hoR : sR.outcipher = some (X.cipherFrom .responder (X.keyFor .initiator z pI pR eI eR))) :
      Joint X sI sR [] [⟨X.sig .responder pR pI (X.ctOf eR), some sR.sendView⟩]
        ⟨some (X.cipherFrom .initiator (X.keyFor .initiator z pI pR eI eR)), true⟩ sR.sendView
  /-- and has started a rekey before the initiator is -/
  | sigRekex {pI pR pR' eI eR z} (hI : Siging sI pI pR eI) (hr : Round X pI pR eI eR z)
      (hR : Kexing sR pR') (hpR : X.Honest pR') (hoI : sI.outcipher = none) (hk : X.kex = .x25519)
      (hoR : sR.outcipher = some (X.cipherFrom .responder (X.keyFor .initiator z pI pR eI eR))) :
      Joint X sI sR [] [⟨X.sig .responder pR pI (X.ctOf eR), some sR.sendView⟩, .kex pR']
        ⟨some (X.cipherFrom .initiator (X.keyFor .initiator z pI pR eI eR)), true⟩ sR.sendView
  /-- the first handshake, hybrid: the responder waits for the confirmation -/
  | sigConfirm {pI pR eI eR z} (hI : Siging sI pI pR eI) (hr : Round X pI pR eI eR z)
      (hR : Awaiting sR (X.cipherFrom .initiator (X.keyFor .initiator z pI pR eI eR)))
      (hst : sR.state = .confirm) (hoI : sI.outcipher = none) (hk : X.kex = .x25519MlKem768)
      (hoR : sR.outcipher = some (X.cipherFrom .responder (X.keyFor .initiator z pI pR eI eR))) :
      Joint X sI sR []
        [⟨X.sig .responder pR pI (X.ctOf eR), some ⟨sR.outcipher, false⟩⟩, .ack sR]
        ⟨some (X.cipherFrom .initiator (X.keyFor .initiator z pI pR eI eR)), false⟩ sR.sendView
  | ackAck {cI cR} (hI : Awaiting sI cR) (hR : Awaiting sR cI) (hoI : sI.outcipher = some cI)
      (hoR : sR.outcipher = some cR) :
      Joint X sI sR [.ack sI] [.ack sR] sI.sendView sR.sendView
  | idleAck {cI} (hI : Idle sI) (hR : Awaiting sR cI) (hoI : sI.outcipher = some cI)
      (hoR : sR.outcipher.isSome) : Joint X sI sR [.ack sI] [] sI.sendView sR.sendView
  | kexAck {pI cI} (hI : Kexing sI pI) (hpI : X.Honest pI) (hR : Awaiting sR cI)
      (hoI : sI.outcipher = some cI) (hoR : sR.outcipher.isSome) :
      Joint X sI sR [.ack sI, .kex pI] [] sI.sendView sR.sendView
  | ackIdle {cR} (hI : Awaiting sI cR) (hR : Idle sR) (hoI : sI.outcipher.isSome)
      (hoR : sR.outcipher = some cR) : Joint X sI sR [] [.ack sR] sI.sendView sR.sendView
  | ackKex {pR cR} (hI : Awaiting sI cR) (hR : Kexing sR pR) (hpR : X.Honest pR)
      (hoI : sI.outcipher.isSome) (hoR : sR.outcipher = some cR) :
      Joint X sI sR [] [.ack sR, .kex pR] sI.sendView sR.sendView

/-- What the end with role `ρ` does with the handshake message `m` in front of `hs`: how it then reads
fits the lane to it, which now ends in `vIn'`, and what it sends extends the lane from it by `new`. -/
structure Answers (X : PairConfig C) (ρ : Role) (cx cx' : Cx C) (m : Hs) (hs : List Hs) (vIn vIn' : View)
    (new : List Hs) (vOut vOut' : View) : Prop where
  run : (receiveHandshake m.body).run cx = .ok () cx'
  reads : ∀ n n' q, Lane (m.after.getD cx.self.readView) n hs vIn n' q →
    Lane cx'.self.readView n hs vIn' n' q
  sends : ∃ rs, Sends X ρ cx cx' rs ∧
    Lane vOut cx.self.outseqno.toUInt32 new vOut' cx'.self.outseqno.toUInt32 rs ∧ apps rs = []

/-- Handshake records sent under the cipher that the lane ends in. -/
theorem Sends.lane {X : PairConfig C} {ρ : Role} {cx cx' : Cx C} {v : View} {bodies : List Bytes}
    (h : Sends X ρ cx cx' (cx.self.nextRecs bodies)) (hv : v.cipher = cx.self.outcipher)
    (hb : ∀ body ∈ bodies, body.length ≤ MAX_PREAUTH_RECLEN) :
    Lane v cx.self.outseqno.toUInt32 (plain bodies) v cx'.self.outseqno.toUInt32 (cx.self.nextRecs bodies) := by
  rw [h.outseqno, Sptps.nextRecs, length_hsRecs, ← hv]
  exact lane_plain hb

section Answers

variable {X : PairConfig C} {ρ : Role} {cx cx' : Cx C} {m : Hs} {hs : List Hs} {vIn vOut v : View}

/-- The receiver reads on as the message says, and what it sends changes nothing at its peer. -/
theorem Answers.plain {bodies : List Bytes} (hrun : (receiveHandshake m.body).run cx = .ok () cx')
    (hread : cx'.self.readView = m.after.getD cx.self.readView)
    (hsends : Sends X ρ cx cx' (cx.self.nextRecs bodies)) (hv : vOut.cipher = cx.self.outcipher)
    (hb : ∀ body ∈ bodies, body.length ≤ MAX_PREAUTH_RECLEN) :
    Answers X ρ cx cx' m hs vIn vIn (Sptps.plain bodies) vOut vOut :=
  ⟨hrun, fun _ _ _ h => hread ▸ h, _, hsends, hsends.lane hv hb, apps_hsRecs _ _ _⟩

theorem Answers.silent (hrun : (receiveHandshake m.body).run cx = .ok () cx')
    (hread : cx'.self.readView = m.after.getD cx.self.readView) (hsends : Sends X ρ cx cx' []) :
    Answers X ρ cx cx' m hs vIn vIn [] vOut vOut := by
  refine ⟨hrun, fun _ _ _ h => hread ▸ h, _, hsends, ?_, rfl⟩
  rw [hsends.outseqno]
  simpa using Lane.nil vOut cx.self.outseqno.toUInt32

/-- The same with a last message after which the peer reads with `v`. -/
theorem Answers.last {bodies : List Bytes} {body : Bytes}
    (hrun : (receiveHandshake m.body).run cx = .ok () cx')
    (hread : cx'.self.readView = m.after.getD cx.self.readView)
    (hsends : Sends X ρ cx cx' (cx.self.nextRecs (bodies ++ [body]))) (hv : vOut.cipher = cx.self.outcipher)
    (hb : ∀ b ∈ bodies, b.length ≤ MAX_PREAUTH_RECLEN) (hbody : body.length ≤ MAX_PREAUTH_RECLEN) :
    Answers X ρ cx cx' m hs vIn vIn (Sptps.plain bodies ++ [⟨body, some v⟩]) vOut v := by
  refine ⟨hrun, fun _ _ _ h => hread ▸ h, _, hsends, ?_, apps_hsRecs _ _ _⟩
  have hlast := (lane_plain hb).append
    (lane_hs (v := vOut) (n := cx.self.outseqno.toUInt32 + UInt32.ofNat bodies.length) ⟨body, some v⟩ hbody)
  rw [hsends.outseqno, Sptps.nextRecs, length_hsRecs, hsRecs_append, ← hv, List.length_append,
    UInt32.ofNat_add, ← add_assoc]
  exact hlast

theorem readView_of_eq {s s' : Sptps C} (hin : s'.incipher = s.incipher) (h : s.state ≠ .confirm)
    (h' : s'.state ≠ .confirm) : s'.readView = s.readView := by
  have hb : (s.state != .confirm) = (s'.state != .confirm) := by
    rw [bne_iff_ne.mpr h, bne_iff_ne.mpr h']
  simp only [Sptps.readView, hin, hb]

theorem readView_some {s : Sptps C} {c : SptpsCipher} (hin : s.incipher = some c) (h : s.state ≠ .confirm) :
    s.readView = ⟨some c, true⟩ := by
  simp [Sptps.readView, hin, h]

theorem sendView_of_eq {s s' : Sptps C} (h : s'.outcipher = s.outcipher) : s'.sendView = s.sendView := by
  simp only [Sptps.sendView, h]

theorem ack_of_eq {s s' : Sptps C} (h : s'.outcipher = s.outcipher) : Hs.ack s' = Hs.ack s := by
  simp only [Hs.ack, sendView_of_eq h]

/-- Nothing is in flight to a receiver without a cipher, so it may read as it likes from here on. -/
theorem lane_reset {v v' w : View} {n n' : UInt32} {q : List Rec} (hv : v.app = false)
    (h : Lane v n [] v' n' q) : Lane w n [] w n' q := by
  obtain ⟨rfl, -, rfl⟩ := h.closed hv
  exact .nil _ _

theorem PairConfig.Honest.length_le {p : KexPair C} (h : X.Honest p) : p.body.length ≤ MAX_PREAUTH_RECLEN := by
  rw [h.length]
  cases X.kex <;> decide

theorem sig_length_le {his : KexPair C} {e : Bytes × Bytes} (ρ : Role) (mine : KexPair C) (h : X.Encap his e) :
    (X.sig ρ mine his (X.ctOf e)).length ≤ MAX_PREAUTH_RECLEN := by
  rw [length_sig ρ mine h]
  cases X.kex <;> decide

theorem Mode.responder {sI sR sR' : Sptps C} {vI vR : View} (h : Mode sI sR vI vR)
    (hout : sR'.outcipher = sR.outcipher) (hin : sR'.incipher = sR.incipher) : Mode sI sR' vI vR := by
  cases h with
  | keyed hI hR =>
    rw [← sendView_of_eq hout]
    exact .keyed hI (hout ▸ hR)
  | first hoI hoR hiI hiR => exact .first hoI (hout ▸ hoR) hiI (hin ▸ hiR)

theorem Mode.initiator {sI sI' sR : Sptps C} {vI vR : View} (h : Mode sI sR vI vR)
    (hout : sI'.outcipher = sI.outcipher) (hin : sI'.incipher = sI.incipher) : Mode sI' sR vI vR := by
  cases h with
  | keyed hI hR =>
    rw [← sendView_of_eq hout]
    exact .keyed (hout ▸ hI) hR
  | first hoI hoR hiI hiR => exact .first (hout ▸ hoI) hoR (hin ▸ hiI) hiR

theorem Mode.cipherR {sI sR : Sptps C} {vI vR : View} (h : Mode sI sR vI vR) : vR.cipher = sR.outcipher := by
  cases h with
  | keyed => rfl
  | first _ hoR => exact hoR.symm

theorem Mode.cipherI {sI sR : Sptps C} {vI vR : View} (h : Mode sI sR vI vR) : vI.cipher = sI.outcipher := by
  cases h with
  | keyed => rfl
  | first hoI => exact hoI.symm

/-- The end that waits for the ACK of its peer takes it. -/
theorem answers_ack {s : Sptps C} {c : SptpsCipher} (hend : IsEnd X ρ cx.self) (h : Awaiting cx.self c)
    (hout : s.outcipher = some c) : ∃ cx', Idle cx'.self ∧ cx'.self.outcipher = cx.self.outcipher ∧
      Answers X ρ cx cx' (.ack s) hs vIn vIn [] vOut vOut := by
  obtain ⟨cx', hrun, hidle, hin, hout', hsends⟩ := awaiting_ack hend h
  refine ⟨cx', hidle, hout', .silent hrun ?_ hsends⟩
  simpa [Hs.ack, Sptps.sendView, hout] using readView_some hin (by simp [hidle.state])

end Answers

section Responder

variable {X : PairConfig C} {cx : Cx C} {sI : Sptps C} {m : Hs} {hsI hsR : List Hs} {vI vR : View}

theorem joint_responder (hC : C.Correct) (hend : IsEnd X .responder cx.self)
    (hj : Joint X sI cx.self (m :: hsI) hsR vI vR) : ∃ cx' new vI' vR',
    Answers X .responder cx cx' m hsI vI vI' new vR vR' ∧ Joint X sI cx'.self hsI (hsR ++ new) vI' vR' := by
  cases hj with
  | kexIdle hI hR hpI hoI hoR =>
    obtain ⟨mine, e, cx', hrun, hmine, hX, hsig, hin, hout, hsends⟩ := idle_kex hC hend hR hpI
    refine ⟨cx', _, _, _, .plain hrun (readView_of_eq hin (by simp [hR.state]) (by simp [hsig.state])) hsends rfl
      (by simpa [Role.isInitiator] using hmine.length_le), ?_⟩
    exact .kexSig hI hsig hpI hmine hX (sendView_of_eq hout ▸ .keyed hoI (hout ▸ hoR))
  | kexKex hI hR hpI hpR hm =>
    obtain ⟨e, cx', hrun, hX, hsig, hin, hout, hsends⟩ := kexing_kex hC hend hR hpI
    refine ⟨cx', _, _, _, .plain hrun (readView_of_eq hin (by simp [hR.state]) (by simp [hsig.state])) hsends
      hm.cipherR (by simp [Role.isInitiator]), ?_⟩
    exact .kexSig hI hsig hpI hpR hX (hm.responder hout hin)
  | sigKex hI hR hpI hpR heI hm =>
    obtain ⟨e, cx', hrun, hX, hsig, hin, hout, hsends⟩ := kexing_kex hC hend hR hpI
    refine ⟨cx', _, _, _, .plain hrun (readView_of_eq hin (by simp [hR.state]) (by simp [hsig.state])) hsends
      hm.cipherR (by simp [Role.isInitiator]), ?_⟩
    exact .sigSig hI hsig hpI hpR heI hX (hm.responder hout hin)
  | @sigSig pI pR eI eR _ _ hI hR hpI hpR heI heR hm =>
    obtain ⟨z, hr⟩ := Round.intro hC hpR hpI heR heI
    let sig := X.sig .responder pR pI (X.ctOf eR)
    have hlen : sig.length ≤ MAX_PREAUTH_RECLEN := sig_length_le .responder pR heR
    cases hm with
    | keyed hoI hoR =>
      obtain ⟨cx', hrun, hwait, hst, hin, hout, hsends⟩ := siging_rekey hC hend hR hr hoR
      refine ⟨cx', _, _, _, .last (v := cx'.self.sendView) hrun
        (readView_of_eq hin (by simp [hR.state]) (by simp [hst])) hsends rfl ?_ (by simp), ?_⟩
      · simpa [Role.isInitiator] using hlen
      · exact .sigAck hI hr.swap hwait hoI hout
    | first hoI hoR hiI hiR =>
      have hclosed : cx.self.readView.app = false := by simp [Sptps.readView, hiR]
      cases hk : X.kex with
      | x25519 =>
        obtain ⟨cx', hrun, hidle, hin, hout, hsends⟩ := siging_first hC hend hR hr hoR hk
        refine ⟨cx', [⟨sig, some cx'.self.sendView⟩], cx'.self.readView, cx'.self.sendView,
          ⟨hrun, fun _ _ _ => lane_reset hclosed, _, hsends, ?_, rfl⟩, ?_⟩
        · rw [hsends.outseqno, Sptps.nextRecs, hoR]
          exact lane_hs (v := ⟨none, false⟩) ⟨sig, some cx'.self.sendView⟩ hlen
        · rw [readView_some hin (by simp [hidle.state])]
          exact .sigIdle hI hr.swap hidle hoI hk hout
      | x25519MlKem768 =>
        obtain ⟨cx', hrun, hwait, hst, hin, hout, hsends⟩ := siging_confirm hC hend hR hr hoR hk
        have hsends' : Sends X .responder cx cx' [⟨none, cx.self.outseqno.toUInt32, REC_HANDSHAKE, sig⟩,
            ⟨cx'.self.outcipher, cx.self.outseqno.toUInt32 + 1, REC_HANDSHAKE, []⟩] := by
          simpa [Role.isInitiator, Sptps.nextRecs, hsRecs, hoR, hout, sig] using hsends
        refine ⟨cx', [⟨sig, some ⟨cx'.self.outcipher, false⟩⟩, .ack cx'.self], cx'.self.readView,
          cx'.self.sendView, ⟨hrun, fun _ _ _ => lane_reset hclosed, _, hsends', ?_, rfl⟩, ?_⟩
        · have hn : cx'.self.outseqno.toUInt32 = cx.self.outseqno.toUInt32 + 1 + 1 := by
            rw [hsends'.outseqno, add_assoc]
            rfl
          rw [hn]
          exact .hs (v := ⟨none, false⟩) ⟨sig, some ⟨cx'.self.outcipher, false⟩⟩ hlen
            (lane_hs (v := ⟨cx'.self.outcipher, false⟩) (.ack cx'.self) (by simp [Hs.ack]))
        · have hview : cx'.self.readView = ⟨some (X.cipherFrom .initiator
              (X.keyFor .responder z pR pI eR eI)), false⟩ := by
            simpa [Sptps.readView, hst] using hin
          rw [hview]
          exact .sigConfirm hI hr.swap hwait hst hoI hk hout
  | ackAck hI hR hoI hoR =>
    obtain ⟨cx', hidle, hout, hans⟩ := answers_ack hend hR hoI
    refine ⟨cx', [], _, _, hans, ?_⟩
    rw [← sendView_of_eq hout, ← ack_of_eq hout]
    exact .ackIdle hI hidle (by simp [hoI]) (hout.trans hoR)
  | idleAck hI hR hoI hoR =>
    obtain ⟨cx', hidle, hout, hans⟩ := answers_ack hend hR hoI
    refine ⟨cx', [], _, _, hans, ?_⟩
    rw [← sendView_of_eq hout]
    exact .idle hI hidle (by simp [hoI]) (hout ▸ hoR)
  | kexAck hI hpI hR hoI hoR =>
    obtain ⟨cx', hidle, hout, hans⟩ := answers_ack hend hR hoI
    refine ⟨cx', [], _, _, hans, ?_⟩
    rw [← sendView_of_eq hout]
    exact .kexIdle hI hidle hpI (by simp [hoI]) (hout ▸ hoR)

end Responder

section Initiator

variable {X : PairConfig C} {cx : Cx C} {sR : Sptps C} {m : Hs} {hsI hsR : List Hs} {vI vR : View}

theorem joint_initiator (hC : C.Correct) (hend : IsEnd X .initiator cx.self)
    (hj : Joint X cx.self sR hsI (m :: hsR) vI vR) : ∃ cx' new vI' vR',
    Answers X .initiator cx cx' m hsR vR vR' new vI vI' ∧ Joint X cx'.self sR (hsI ++ new) hsR vI' vR' := by
  cases hj with
  | idleKex hI hR hpR hoI hoR =>
    obtain ⟨mine, e, cx', hrun, hmine, hX, hsig, hin, hout, hsends⟩ := idle_kex hC hend hI hpR
    refine ⟨cx', _, _, _, .plain hrun (readView_of_eq hin (by simp [hI.state]) (by simp [hsig.state])) hsends rfl
      (by simpa [Role.isInitiator] using ⟨hmine.length_le, sig_length_le .initiator mine hX⟩), ?_⟩
    exact .sigKex hsig hR hmine hpR hX (sendView_of_eq hout ▸ .keyed (hout ▸ hoI) hoR)
  | kexKex hI hR hpI hpR hm =>
    obtain ⟨e, cx', hrun, hX, hsig, hin, hout, hsends⟩ := kexing_kex hC hend hI hpR
    refine ⟨cx', _, _, _, .plain hrun (readView_of_eq hin (by simp [hI.state]) (by simp [hsig.state])) hsends
      hm.cipherI (by simpa [Role.isInitiator] using sig_length_le .initiator _ hX), ?_⟩
    exact .sigKex hsig hR hpI hpR hX (hm.initiator hout hin)
  | kexSig hI hR hpI hpR heR hm =>
    obtain ⟨e, cx', hrun, hX, hsig, hin, hout, hsends⟩ := kexing_kex hC hend hI hpR
    refine ⟨cx', _, _, _, .plain hrun (readView_of_eq hin (by simp [hI.state]) (by simp [hsig.state])) hsends
      hm.cipherI (by simpa [Role.isInitiator] using sig_length_le .initiator _ hX), ?_⟩
    exact .sigSig hsig hR hpI hpR hX heR (hm.initiator hout hin)
  | sigAck hI hr hR hoI hoR =>
    obtain ⟨cx', hrun, hwait, hst, hin, hout, hsends⟩ := siging_rekey hC hend hI hr hoI
    refine ⟨cx', _, _, _, .last (v := cx'.self.sendView) hrun
      (readView_of_eq hin (by simp [hI.state]) (by simp [hst])) hsends rfl (by simp [Role.isInitiator]) (by simp), ?_⟩
    exact .ackAck hwait hR hout hoR
  | sigIdle hI hr hR hoI hk hoR =>
    obtain ⟨cx', hrun, hidle, hin, hout, hsends⟩ := siging_first hC hend hI hr hoI hk
    refine ⟨cx', [], _, _, .silent hrun ?_ hsends, ?_⟩
    · simpa [Sptps.sendView, hoR] using readView_some hin (by simp [hidle.state])
    · rw [← hout]
      exact .idle hidle hR (by simp [hout]) (by simp [hoR])
  | sigRekex hI hr hR hpR hoI hk hoR =>
    obtain ⟨cx', hrun, hidle, hin, hout, hsends⟩ := siging_first hC hend hI hr hoI hk
    refine ⟨cx', [], _, _, .silent hrun ?_ hsends, ?_⟩
    · simpa [Sptps.sendView, hoR] using readView_some hin (by simp [hidle.state])
    · rw [← hout]
      exact .idleKex hidle hR hpR (by simp [hout]) (by simp [hoR])
  | sigConfirm hI hr hR hst hoI hk hoR =>
    obtain ⟨cx', hrun, hwait, hst', hin, hout, hsends⟩ := siging_confirm hC hend hI hr hoI hk
    have hview : cx'.self.readView = ⟨sR.outcipher, false⟩ := by
      simpa [Sptps.readView, hst', hoR] using hin
    have hsends' : Sends X .initiator cx cx'
        [⟨cx'.self.outcipher, cx.self.outseqno.toUInt32, REC_HANDSHAKE, []⟩] := by
      simpa [Role.isInitiator, Sptps.nextRecs, hsRecs, hout] using hsends
    refine ⟨cx', [.ack cx'.self], cx'.self.sendView, _, ⟨hrun, fun _ _ _ h => hview ▸ h, _, hsends', ?_, rfl⟩, ?_⟩
    · rw [hsends'.outseqno, ← hout]
      exact lane_hs (v := ⟨cx'.self.outcipher, false⟩) (.ack cx'.self) (by simp [Hs.ack])
    · exact .ackAck hwait hR hout hoR
  | ackAck hI hR hoI hoR =>
    obtain ⟨cx', hidle, hout, hans⟩ := answers_ack hend hI hoR
    refine ⟨cx', [], _, _, hans, ?_⟩
    rw [← sendView_of_eq hout, ← ack_of_eq hout]
    exact .idleAck hidle hR (hout.trans hoI) (by simp [hoR])
  | ackIdle hI hR hoI hoR =>
    obtain ⟨cx', hidle, hout, hans⟩ := answers_ack hend hI hoR
    refine ⟨cx', [], _, _, hans, ?_⟩
    rw [← sendView_of_eq hout]
    exact .idle hidle hR (hout ▸ hoI) (by simp [hoR])
  | ackKex hI hR hpR hoI hoR =>
    obtain ⟨cx', hidle, hout, hans⟩ := answers_ack hend hI hoR
    refine ⟨cx', [], _, _, hans, ?_⟩
    rw [← sendView_of_eq hout]
    exact .idleKex hidle hR hpR (hout ▸ hoI) (by simp [hoR])

end Initiator

/-- What the shapes look at: everything but the framing and the counters. -/
def Sptps.handshake (s : Sptps C) :=
  (s.state, s.role, s.kex, s.aead, s.incipher, s.outcipher, s.mykex, s.hiskex, s.ecdh, s.mlkem, s.mlkemEncap,
    s.key)

section Congr

variable {X : PairConfig C} {s s' : Sptps C} (e : s'.handshake = s.handshake)

include e

theorem Idle.congr (h : Idle s) : Idle s' := by
  simp only [Sptps.handshake, Prod.mk.injEq] at e
  obtain ⟨hst, -, -, -, -, -, hm, hh, -⟩ := e
  exact ⟨hst.trans h.state, hm.trans h.mykex, hh.trans h.hiskex⟩

theorem HasKex.congr {p : KexPair C} (h : HasKex s p) : HasKex s' p := by
  simp only [Sptps.handshake, Prod.mk.injEq] at e
  obtain ⟨-, -, hk, -, -, -, hm, -, he, hml, -⟩ := e
  exact ⟨hm.trans h.mykex, he.trans h.ecdh, fun hyb => hml.trans (h.mlkem (hk ▸ hyb))⟩

theorem Kexing.congr {p : KexPair C} (h : Kexing s p) : Kexing s' p := by
  have hhas := h.toHasKex.congr e
  simp only [Sptps.handshake, Prod.mk.injEq] at e
  obtain ⟨hst, -, -, -, -, -, -, hh, -⟩ := e
  exact ⟨hhas, hst.trans h.state, hh.trans h.hiskex⟩

theorem Siging.congr {p p' : KexPair C} {en : Bytes × Bytes} (h : Siging s p p' en) : Siging s' p p' en := by
  have hhas := h.toHasKex.congr e
  simp only [Sptps.handshake, Prod.mk.injEq] at e
  obtain ⟨hst, -, hk, -, -, -, -, hh, -, -, hen, -⟩ := e
  exact ⟨hhas, hst.trans h.state, hh.trans h.hiskex, fun hyb => hen.trans (h.encap (hk ▸ hyb))⟩

theorem Awaiting.congr {c : SptpsCipher} (h : Awaiting s c) : Awaiting s' c := by
  simp only [Sptps.handshake, Prod.mk.injEq] at e
  obtain ⟨hst, hr, -, ha, hi, -, hm, hh, -, -, -, hk⟩ := e
  refine ⟨hm.trans h.mykex, hh.trans h.hiskex, ?_⟩
  rw [hst, hk, ha, hr, hi]
  exact h.phase

theorem outcipher_congr : s'.outcipher = s.outcipher := by
  simp only [Sptps.handshake, Prod.mk.injEq] at e
  exact e.2.2.2.2.2.1

theorem incipher_congr : s'.incipher = s.incipher := by
  simp only [Sptps.handshake, Prod.mk.injEq] at e
  exact e.2.2.2.2.1

theorem state_congr : s'.state = s.state := by
  simp only [Sptps.handshake, Prod.mk.injEq] at e
  exact e.1

end Congr

/-- A joint configuration does not depend on the framing and the counters. -/
theorem Joint.congr {X : PairConfig C} {sI sR sI' sR' : Sptps C} {hsI hsR : List Hs} {vI vR : View}
    (eI : sI'.handshake = sI.handshake) (eR : sR'.handshake = sR.handshake)
    (h : Joint X sI sR hsI hsR vI vR) : Joint X sI' sR' hsI hsR vI vR := by
  have oI := outcipher_congr eI
  have oR := outcipher_congr eR
  have hmode : ∀ {v v'}, Mode sI sR v v' → Mode sI' sR' v v' := fun hm =>
    (hm.initiator oI (incipher_congr eI)).responder oR (incipher_congr eR)
  cases h with
  | kexKex hI hR hpI hpR hm => exact .kexKex (hI.congr eI) (hR.congr eR) hpI hpR (hmode hm)
  | kexSig hI hR hpI hpR heR hm => exact .kexSig (hI.congr eI) (hR.congr eR) hpI hpR heR (hmode hm)
  | sigKex hI hR hpI hpR heI hm => exact .sigKex (hI.congr eI) (hR.congr eR) hpI hpR heI (hmode hm)
  | sigSig hI hR hpI hpR heI heR hm =>
    exact .sigSig (hI.congr eI) (hR.congr eR) hpI hpR heI heR (hmode hm)
  | idle hI hR hoI hoR =>
    rw [← sendView_of_eq oI, ← sendView_of_eq oR]
    exact .idle (hI.congr eI) (hR.congr eR) (oI ▸ hoI) (oR ▸ hoR)
  | idleKex hI hR hpR hoI hoR =>
    rw [← sendView_of_eq oI, ← sendView_of_eq oR]
    exact .idleKex (hI.congr eI) (hR.congr eR) hpR (oI ▸ hoI) (oR ▸ hoR)
  | kexIdle hI hR hpI hoI hoR =>
    rw [← sendView_of_eq oI, ← sendView_of_eq oR]
    exact .kexIdle (hI.congr eI) (hR.congr eR) hpI (oI ▸ hoI) (oR ▸ hoR)
  | sigAck hI hr hR hoI hoR =>
    rw [← sendView_of_eq oI, ← sendView_of_eq oR, ← ack_of_eq oR]
    exact .sigAck (hI.congr eI) hr (hR.congr eR) (oI ▸ hoI) (oR.trans hoR)
  | sigIdle hI hr hR hoI hk hoR =>
    rw [← sendView_of_eq oR]
    exact .sigIdle (hI.congr eI) hr (hR.congr eR) (oI.trans hoI) hk (oR.trans hoR)
  | sigRekex hI hr hR hpR hoI hk hoR =>
    rw [← sendView_of_eq oR]
    exact .sigRekex (hI.congr eI) hr (hR.congr eR) hpR (oI.trans hoI) hk (oR.trans hoR)
  | sigConfirm hI hr hR hst hoI hk hoR =>
    rw [← sendView_of_eq oR, ← ack_of_eq oR, ← oR]
    exact .sigConfirm (hI.congr eI) hr (hR.congr eR) ((state_congr eR).trans hst) (oI.trans hoI) hk
      (oR.trans hoR)
  | ackAck hI hR hoI hoR =>
    rw [← sendView_of_eq oI, ← sendView_of_eq oR, ← ack_of_eq oI, ← ack_of_eq oR]
    exact .ackAck (hI.congr eI) (hR.congr eR) (oI.trans hoI) (oR.trans hoR)
  | idleAck hI hR hoI hoR =>
    rw [← sendView_of_eq oI, ← sendView_of_eq oR, ← ack_of_eq oI]
    exact .idleAck (hI.congr eI) (hR.congr eR) (oI.trans hoI) (oR ▸ hoR)
  | kexAck hI hpI hR hoI hoR =>
    rw [← sendView_of_eq oI, ← sendView_of_eq oR, ← ack_of_eq oI]
    exact .kexAck (hI.congr eI) hpI (hR.congr eR) (oI.trans hoI) (oR ▸ hoR)
  | ackIdle hI hR hoI hoR =>
    rw [← sendView_of_eq oI, ← sendView_of_eq oR, ← ack_of_eq oR]
    exact .ackIdle (hI.congr eI) (hR.congr eR) (oI ▸ hoI) (oR.trans hoR)
  | ackKex hI hR hpR hoI hoR =>
    rw [← sendView_of_eq oI, ← sendView_of_eq oR, ← ack_of_eq oR]
    exact .ackKex (hI.congr eI) (hR.congr eR) hpR (oI ▸ hoI) (oR.trans hoR)

section Calls

variable {X : PairConfig C} {sI sR : Sptps C} {hsI hsR : List Hs} {vI vR : View}

theorem Awaiting.state_ne {s : Sptps C} {c : SptpsCipher} (h : Awaiting s c) : s.state ≠ .secondaryKex := by
  obtain ⟨hst, -⟩ | ⟨hst, -⟩ := h.phase <;> simp [hst]

theorem Mode.ready_initiator (h : Mode sI sR vI vR) (hr : sI.appSendReady = true) : vI = sI.sendView := by
  cases h with
  | keyed => rfl
  | first hoI => simp [Sptps.appSendReady, hoI] at hr

theorem Mode.ready_responder (h : Mode sI sR vI vR) (hr : sR.appSendReady = true) : vR = sR.sendView := by
  cases h with
  | keyed => rfl
  | first _ hoR => simp [Sptps.appSendReady, hoR] at hr

/-- Whoever may send application data writes with what its peer will read with by then. -/
theorem Joint.ready (h : Joint X sI sR hsI hsR vI vR) :
    (sI.appSendReady = true → vI = sI.sendView) ∧ (sR.appSendReady = true → vR = sR.sendView) := by
  cases h with
  | kexKex _ _ _ _ hm | kexSig _ _ _ _ _ hm => exact ⟨hm.ready_initiator, hm.ready_responder⟩
  | sigKex _ _ _ _ _ hm | sigSig _ _ _ _ _ _ hm => exact ⟨hm.ready_initiator, hm.ready_responder⟩
  | sigIdle _ _ _ hoI => exact ⟨fun hr => by simp [Sptps.appSendReady, hoI] at hr, fun _ => rfl⟩
  | sigRekex _ _ _ _ hoI => exact ⟨fun hr => by simp [Sptps.appSendReady, hoI] at hr, fun _ => rfl⟩
  | sigConfirm _ _ _ _ hoI => exact ⟨fun hr => by simp [Sptps.appSendReady, hoI] at hr, fun _ => rfl⟩
  | _ => exact ⟨fun _ => rfl, fun _ => rfl⟩

/-- An initiator that is ready for a KEX can send one. -/
theorem Joint.force_initiator (h : Joint X sI sR hsI hsR vI vR) (hst : sI.state = .secondaryKex) :
    Idle sI ∧ sI.outcipher.isSome ∧ vI = sI.sendView ∧
      ∀ s' mine, Kexing s' mine → X.Honest mine → s'.outcipher = sI.outcipher →
        Joint X s' sR (hsI ++ [.kex mine]) hsR vI vR := by
  cases h with
  | idle hI hR hoI hoR =>
    refine ⟨hI, hoI, rfl, fun s' mine hkex hmine hout => ?_⟩
    rw [← sendView_of_eq hout]
    exact .kexIdle hkex hR hmine (hout ▸ hoI) hoR
  | idleKex hI hR hpR hoI hoR =>
    refine ⟨hI, hoI, rfl, fun s' mine hkex hmine hout => ?_⟩
    rw [← sendView_of_eq hout]
    exact .kexKex hkex hR hmine hpR (.keyed (hout ▸ hoI) hoR)
  | idleAck hI hR hoI hoR =>
    refine ⟨hI, by simp [hoI], rfl, fun s' mine hkex hmine hout => ?_⟩
    rw [← sendView_of_eq hout, ← ack_of_eq hout]
    exact .kexAck hkex hmine hR (hout.trans hoI) hoR
  | kexIdle hI | kexKex hI | kexSig hI | kexAck hI | sigKex hI | sigSig hI | sigAck hI => simp [hI.state] at hst
  | sigIdle hI | sigRekex hI | sigConfirm hI => simp [hI.state] at hst
  | ackAck hI | ackIdle hI | ackKex hI => exact absurd hst hI.state_ne

theorem Joint.force_responder (h : Joint X sI sR hsI hsR vI vR) (hst : sR.state = .secondaryKex) :
    Idle sR ∧ sR.outcipher.isSome ∧ vR = sR.sendView ∧
      ∀ s' mine, Kexing s' mine → X.Honest mine → s'.outcipher = sR.outcipher →
        Joint X sI s' hsI (hsR ++ [.kex mine]) vI vR := by
  cases h with
  | idle hI hR hoI hoR =>
    refine ⟨hR, hoR, rfl, fun s' mine hkex hmine hout => ?_⟩
    rw [← sendView_of_eq hout]
    exact .idleKex hI hkex hmine hoI (hout ▸ hoR)
  | kexIdle hI hR hpI hoI hoR =>
    refine ⟨hR, hoR, rfl, fun s' mine hkex hmine hout => ?_⟩
    rw [← sendView_of_eq hout]
    exact .kexKex hI hkex hpI hmine (.keyed hoI (hout ▸ hoR))
  | ackIdle hI hR hoI hoR =>
    refine ⟨hR, by simp [hoR], rfl, fun s' mine hkex hmine hout => ?_⟩
    rw [← sendView_of_eq hout, ← ack_of_eq hout]
    exact .ackKex hI hkex hmine hoI (hout.trans hoR)
  | sigIdle hI hr hR hoI hk hoR =>
    refine ⟨hR, by simp [hoR], rfl, fun s' mine hkex hmine hout => ?_⟩
    rw [← sendView_of_eq hout]
    exact .sigRekex hI hr hkex hmine hoI hk (hout.trans hoR)
  | idleKex _ hR | kexKex _ hR | kexSig _ hR | sigKex _ hR | sigSig _ hR => simp [hR.state] at hst
  | sigRekex _ _ hR | ackKex _ hR => simp [hR.state] at hst
  | sigAck _ _ hR | sigConfirm _ _ hR | ackAck _ hR | idleAck _ hR => exact absurd hst hR.state_ne
  | kexAck _ _ hR => exact absurd hst hR.state_ne

end Calls

end Tincr.Sptps

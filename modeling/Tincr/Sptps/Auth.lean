import Tincr.Lib.Trace
import Tincr.Sptps.Run

/-!
No application data before authentication completes. The log is read in segments, each closed by a
`HandshakeDone`: `Phase` says where in the handshake a session stands and what its open segment holds,
and `Lawful` what must have come before a `HandshakeDone` and before a record is handed out. Every call
keeps the two together.
-/

set_option linter.dupNamespace false

namespace Tincr.Sptps

open EStateM M Trace

variable {C : Crypto} {cfg : Config C} {cx cx' : Cx C}

def Event.isDone : Event → Bool
  | .output .handshakeDone => true
  | _ => false

/-- The events since the session started or the last `HandshakeDone`. -/
def segment (log : List Event) : List Event := since Event.isDone log

def verifications (g : List Event) : List Bytes :=
  g.filterMap fun
    | .verified msg => some msg
    | _ => none

/-- The bodies of the handshake records the session sent; the first of a segment is its KEX. -/
def sentHandshakes (g : List Event) : List Bytes :=
  g.filterMap fun
    | .sealed _ _ ty body => if ty = REC_HANDSHAKE then some body else none
    | _ => none

/-- The well-formed KEX bodies among the handshake records it received. -/
def receivedKexes (kex : SptpsKex) (g : List Event) : List Bytes :=
  g.filterMap fun
    | .opened _ _ ty body =>
      if ty = REC_HANDSHAKE ∧ body.length = kexLen kex ∧ body.head? = some VERSION then some body
      else none
    | _ => none

/-- The segment holds one successful check, of the transcript made of the session's own KEX, the first
handshake record it sent, and of the peer's, the first well-formed one it received. -/
def Justified (cfg : Config C) (g : List Event) : Prop :=
  ∃ mk hk, verifications g = [sigTranscript (!cfg.role.isInitiator) hk mk cfg.sessionLabel] ∧
    (sentHandshakes g).head? = some mk ∧ (receivedKexes cfg.kex g).head? = some hk

def Lawful (cfg : Config C) (pre : List Event) : Event → Prop
  | .output .handshakeDone => Justified cfg (segment pre)
  | .output (.record _ _) => .output .handshakeDone ∈ pre
  | _ => True

/-- Where the session stands, and what its open segment holds. `stuck` is a hybrid session whose peer
sent a malformed encapsulation key: it never leaves that state. -/
inductive Phase (s : Sptps C) (g : List Event) : Prop
  | kex {mk} (hst : s.state = .kex) (hm : s.mykex = some mk) (hh : s.hiskex = none)
      (hsent : (sentHandshakes g).head? = some mk) (hrecv : receivedKexes s.kex g = [])
      (hver : verifications g = [])
  | idle (hst : s.state = .secondaryKex) (hm : s.mykex = none) (hh : s.hiskex = none)
      (hsent : sentHandshakes g = []) (hrecv : receivedKexes s.kex g = []) (hver : verifications g = [])
  | sig {mk hk} (hst : s.state = .sig) (hm : s.mykex = some mk) (hh : s.hiskex = some hk)
      (hsent : (sentHandshakes g).head? = some mk) (hrecv : (receivedKexes s.kex g).head? = some hk)
      (hver : s.ecdh ≠ none → verifications g = [])
  | stuck (hst : s.state = .kex ∨ s.state = .secondaryKex) (hm : s.mykex.isSome) (hh : s.hiskex.isSome)
  | checked (mk hk : Bytes) (hst : s.state = .ack ∨ s.state = .confirm) (hm : s.mykex = none)
      (hh : s.hiskex = none) (hver : verifications g = [s.peerTranscript mk hk])
      (hsent : (sentHandshakes g).head? = some mk) (hrecv : (receivedKexes s.kex g).head? = some hk)

/-- Before the first `HandshakeDone` there is no cipher, but for the key confirmation of hybrid mode. -/
def Early (s : Sptps C) : Prop :=
  s.state = .confirm ∨ (s.state = .kex ∨ s.state = .sig) ∧ s.incipher = none ∧ s.outcipher = none

structure Auth (cfg : Config C) (cx : Cx C) : Prop where
  role : cx.self.role = cfg.role
  label : cx.self.label = cfg.sessionLabel
  kex : cx.self.kex = cfg.kex
  phase : Phase cx.self (segment cx.log)
  early : .output .handshakeDone ∉ cx.log → Early cx.self
  lawful : Along (Lawful cfg) cx.log

section Views

variable {log g es : List Event} {e : Event} {bodies : List Bytes} {k : SptpsKex}

def Event.isQuiet : Event → Bool
  | .output .handshakeDone | .output (.record ..) => false
  | _ => true

/-- An event that no view of the segment shows: one of the traffic of application records. -/
def Event.isSilent : Event → Bool
  | .sealed _ _ ty _ | .opened _ _ ty _ => ty != REC_HANDSHAKE
  | .output (.wire ..) | .output (.record ..) => true
  | _ => false

theorem segment_quiet (h : ∀ e ∈ es, e.isQuiet = true) : segment (log ++ es) = segment log ++ es := by
  refine since_append fun e he => ?_
  have hq := h e he
  cases e with
  | output o => cases o <;> simp_all [Event.isQuiet, Event.isDone]
  | _ => rfl

theorem lawful_quiet (h : e.isQuiet = true) (pre : List Event) : Lawful cfg pre e := by
  cases e with
  | output o => cases o <;> simp_all [Event.isQuiet, Lawful]
  | _ => trivial

theorem done_notMem_quiet (h : ∀ e ∈ es, e.isQuiet = true) :
    .output .handshakeDone ∉ log ++ es ↔ .output .handshakeDone ∉ log := by
  have hes : Event.output .handshakeDone ∉ es := fun hm => by simpa [Event.isQuiet] using h _ hm
  simp [hes]

@[simp] theorem verifications_append : verifications (g ++ es) = verifications g ++ verifications es :=
  List.filterMap_append

@[simp] theorem sentHandshakes_append :
    sentHandshakes (g ++ es) = sentHandshakes g ++ sentHandshakes es :=
  List.filterMap_append

@[simp] theorem receivedKexes_append :
    receivedKexes k (g ++ es) = receivedKexes k g ++ receivedKexes k es :=
  List.filterMap_append

theorem views_silent (h : ∀ e ∈ es, e.isSilent = true) :
    verifications es = [] ∧ sentHandshakes es = [] ∧ receivedKexes k es = [] := by
  refine ⟨List.filterMap_eq_nil_iff.mpr fun e he => ?_, List.filterMap_eq_nil_iff.mpr fun e he => ?_,
    List.filterMap_eq_nil_iff.mpr fun e he => ?_⟩ <;>
  · have hs := h e he
    cases e <;> simp_all [Event.isSilent]

theorem Phase.silent {s : Sptps C} (h : Phase s g) (hes : ∀ e ∈ es, e.isSilent = true) :
    Phase s (g ++ es) := by
  obtain ⟨hv, hs, hr⟩ := views_silent (k := s.kex) hes
  cases h with
  | kex hst hm hh hsent hrecv hver => exact .kex hst hm hh (by simpa [hs]) (by simpa [hr]) (by simpa [hv])
  | idle hst hm hh hsent hrecv hver =>
    exact .idle hst hm hh (by simpa [hs]) (by simpa [hr]) (by simpa [hv])
  | sig hst hm hh hsent hrecv hver =>
    exact .sig hst hm hh (by simpa [hs]) (by simpa [hr]) fun he => by simpa [hv] using hver he
  | stuck hst hm hh => exact .stuck hst hm hh
  | checked mk hk hst hm hh hver hsent hrecv =>
    exact .checked mk hk hst hm hh (by simpa [hv]) (by simpa [hs]) (by simpa [hr])

end Views

/-- The events of a run of handshake records sent one after the other. -/
theorem emitAll_log (cx : Cx C) (bodies : List Bytes) : ∃ es, (cx.emitAll bodies).log = cx.log ++ es ∧
    (∀ e ∈ es, e.isQuiet = true) ∧ verifications es = [] ∧ sentHandshakes es = bodies ∧
    ∀ k, receivedKexes k es = [] := by
  induction bodies generalizing cx with
  | nil => exact ⟨[], by simp [Cx.emitAll], by simp, rfl, rfl, fun _ => rfl⟩
  | cons body rest ih =>
    obtain ⟨es, hlog, hq, hv, hs, hr⟩ := ih (cx.emit REC_HANDSHAKE body)
    refine ⟨[.sealed cx.self.outcipher cx.self.outseqno.toUInt32 REC_HANDSHAKE body, .output
      (.wire REC_HANDSHAKE (recordWire (C := C) cx.self.framing cx.self.outcipher
        cx.self.outseqno.toUInt32 REC_HANDSHAKE body))] ++ es, ?_, ?_, ?_, ?_, fun k => ?_⟩
    · rw [← List.append_assoc]
      exact hlog
    · simpa [Event.isQuiet] using hq
    · rw [verifications_append, hv]
      rfl
    · rw [sentHandshakes_append, hs]
      rfl
    · rw [receivedKexes_append, hr k]
      rfl

theorem kexSent_log (cx : Cx C) : ∃ es, cx.kexSent.log = cx.log ++ es ∧
    (∀ e ∈ es, e.isQuiet = true) ∧ verifications es = [] ∧
    sentHandshakes es = [(drawKex cx.self.kex cx.rng).1.body] ∧ ∀ k, receivedKexes k es = [] :=
  emitAll_log cx [(drawKex cx.self.kex cx.rng).1.body]

def SameConfig (s s' : Sptps C) : Prop := s'.role = s.role ∧ s'.label = s.label ∧ s'.kex = s.kex

theorem Auth.extend {es : List Event} (h : Auth cfg cx) (hsame : SameConfig cx.self cx'.self)
    (hlog : cx'.log = cx.log ++ es) (hq : ∀ e ∈ es, e.isQuiet = true)
    (hphase : Phase cx'.self (segment cx.log ++ es)) (hearly : Early cx.self → Early cx'.self) :
    Auth cfg cx' where
  role := hsame.1.trans h.role
  label := hsame.2.1.trans h.label
  kex := hsame.2.2.trans h.kex
  phase := by rwa [hlog, segment_quiet hq]
  early hd := hearly (h.early ((done_notMem_quiet hq).mp (hlog ▸ hd)))
  lawful := hlog ▸ along_append h.lawful fun e he pre => lawful_quiet (hq e he) pre

/-- A change of the session that the handshake does not see, with events that the segment does not. -/
theorem Auth.silent {es : List Event} (h : Auth cfg cx) (hlog : cx'.log = cx.log ++ es)
    (hes : ∀ e ∈ es, e.isSilent = true ∧ e.isQuiet = true)
    (hself : ∃ st w n o, cx'.self =
      { cx.self with stream := st, replay := w, inseqno := n, outseqno := o }) : Auth cfg cx' := by
  obtain ⟨st, w, n, o, hself⟩ := hself
  refine h.extend (by rw [hself]; exact ⟨rfl, rfl, rfl⟩) hlog
    (fun e he => (hes e he).2) ?_ (by rw [hself]; exact id)
  rw [hself]
  cases h.phase.silent fun e he => (hes e he).1 with
  | kex hst hm hh hsent hrecv hver => exact .kex hst hm hh hsent hrecv hver
  | idle hst hm hh hsent hrecv hver => exact .idle hst hm hh hsent hrecv hver
  | sig hst hm hh hsent hrecv hver => exact .sig hst hm hh hsent hrecv hver
  | stuck hst hm hh => exact .stuck hst hm hh
  | checked mk hk hst hm hh hver hsent hrecv => exact .checked mk hk hst hm hh hver hsent hrecv

variable {body : Bytes} {cx1 : Cx C} {seqno : UInt32}

/-- A `HandshakeDone` at the end of a segment that justifies it. -/
theorem Auth.finish {es : List Event} (h : Auth cfg cx) (hsame : SameConfig cx.self cx1.self)
    (hlog : cx1.log = cx.log ++ es) (hq : ∀ e ∈ es, e.isQuiet = true)
    (hjust : Justified cfg (segment cx.log ++ es)) (hm : cx1.self.mykex = none) (hh : cx1.self.hiskex = none) :
    Auth cfg cx1.finish where
  role := hsame.1.trans h.role
  label := hsame.2.1.trans h.label
  kex := hsame.2.2.trans h.kex
  phase := by
    have hseg : segment cx1.finish.log = [] := by
      simp [Cx.finish, segment, Event.isDone]
    rw [hseg]
    exact .idle rfl hm hh rfl rfl rfl
  early hd := absurd (by simp [Cx.finish]) hd
  lawful := by
    refine along_concat.mpr ⟨hlog ▸ along_append h.lawful fun e he pre => lawful_quiet (hq e he) pre, ?_⟩
    rw [hlog]
    simpa only [Lawful, segment_quiet hq] using hjust

theorem Auth.not_early (h : Auth cfg cx) (hst : cx.self.state ≠ .confirm)
    (hc : cx.self.incipher.isSome ∨ cx.self.outcipher.isSome) : .output .handshakeDone ∈ cx.log := by
  by_contra hd
  obtain hconf | ⟨-, hin, hout⟩ := h.early hd
  · exact hst hconf
  · simp [hin, hout] at hc

/-- A record handed out after a `HandshakeDone`. -/
theorem Auth.pushed_record {ty : UInt8} (h : Auth cfg cx) (hdone : .output .handshakeDone ∈ cx.log) :
    Auth cfg (cx.pushed (.record ty body)) where
  role := h.role
  label := h.label
  kex := h.kex
  phase := by
    have hseg : segment (cx.log ++ [.output (.record ty body)]) =
        segment cx.log ++ [.output (.record ty body)] := by
      simp [segment, Event.isDone]
    exact hseg ▸ h.phase.silent (by simp [Event.isSilent])
  early hd := absurd (List.mem_append_left _ hdone) hd
  lawful := along_concat.mpr ⟨h.lawful, hdone⟩

/-- A session that has sent its own KEX out of the idle state. -/
theorem Phase.of_kexSent {g : List Event} (h : Phase cx.self g) (hst : cx.self.state = .secondaryKex)
    (hm : cx.self.mykex = none) : cx.self.hiskex = none ∧ sentHandshakes g = [] ∧
      receivedKexes cx.self.kex g = [] ∧ verifications g = [] := by
  cases h with
  | idle _ _ hh hsent hrecv hver => exact ⟨hh, hsent, hrecv, hver⟩
  | stuck _ hm' _ => simp [hm] at hm'
  | kex hst' | sig hst' | checked _ _ hst' => simp [hst] at hst'

theorem receivedKexes_opened (k : SptpsKex) (c : Option SptpsCipher) (n : UInt32) (body : Bytes) :
    receivedKexes k [.opened c n REC_HANDSHAKE body] =
      if body.length = kexLen k ∧ body.head? = some VERSION then [body] else [] := by
  by_cases h : body.length = kexLen k ∧ body.head? = some VERSION <;> simp [receivedKexes, h]

/-- The session once it is ready for the peer's KEX `body`: its own is the first handshake record of
the segment, and no other KEX has come. -/
theorem Opens.ready (h : Auth cfg cx) (hopen : Opens (cx.opening seqno REC_HANDSHAKE body) cx1)
    (hbody : cx.self.kexBodyOk body = true) :
    SameConfig cx.self cx1.self ∧ (Early cx.self → cx1.self.state = .kex ∧
      cx1.self.incipher = none ∧ cx1.self.outcipher = none) ∧
    (cx1.self.state = .kex ∨ cx1.self.state = .secondaryKex) ∧
    ∃ es mk, cx1.log = cx.log ++ es ∧ (∀ e ∈ es, e.isQuiet = true) ∧ cx1.self.mykex = some mk ∧
      (sentHandshakes (segment cx.log ++ es)).head? = some mk ∧
      receivedKexes cx.self.kex (segment cx.log ++ es) = [body] ∧
      verifications (segment cx.log ++ es) = [] := by
  obtain ⟨hwf, hnone⟩ := (kexBodyOk_iff _ _).mp hbody
  have hopened : receivedKexes cx.self.kex [.opened cx.self.incipher seqno REC_HANDSHAKE body] = [body] := by
    rw [receivedKexes_opened, if_pos hwf]
  cases hopen with
  | kex hst =>
    refine ⟨⟨rfl, rfl, rfl⟩, fun he => ?_, .inl hst, ?_⟩
    · obtain hc | ⟨-, hin, hout⟩ := he
      · exact absurd (hst.symm.trans hc) (by decide)
      · exact ⟨hst, hin, hout⟩
    · cases h.phase with
      | kex _ hm _ hsent hrecv hver =>
        refine ⟨[.opened cx.self.incipher seqno REC_HANDSHAKE body], _, rfl, by simp [Event.isQuiet], hm,
          ?_, ?_, ?_⟩
        · simpa [sentHandshakes] using hsent
        · rw [receivedKexes_append, hrecv, hopened, List.nil_append]
        · rw [verifications_append, hver]
          rfl
      | stuck _ _ hh => simp [hnone] at hh
      | idle hst' | sig hst' => exact absurd (hst.symm.trans hst') (by decide)
      | checked _ _ hst' => simp [show cx.self.state = .kex from hst] at hst'
  | secondary hst hm =>
    refine ⟨⟨rfl, rfl, rfl⟩, fun he => ?_, .inr hst, ?_⟩
    · simp [Early, show cx.self.state = .secondaryKex from hst] at he
    · obtain ⟨-, hsent, hrecv, hver⟩ := h.phase.of_kexSent hst hm
      obtain ⟨es, hlog, hq, hv, hs, hr⟩ := kexSent_log (cx.opening seqno REC_HANDSHAKE body)
      refine ⟨.opened cx.self.incipher seqno REC_HANDSHAKE body :: es, _, ?_, ?_, rfl, ?_, ?_, ?_⟩
      · rw [hlog]
        simp [Cx.opening]
      · simpa [Event.isQuiet] using hq
      · rw [← List.singleton_append, sentHandshakes_append, sentHandshakes_append, hsent, hs]
        rfl
      · rw [← List.singleton_append, receivedKexes_append, receivedKexes_append, hrecv, hr, hopened]
        rfl
      · rw [← List.singleton_append, verifications_append, verifications_append, hver, hv]
        rfl

/-- The session once a SIG has passed: one check in the segment, of the right transcript. -/
theorem Signed.checked {k : Bytes} (h : Auth cfg cx) (hsig : Signed (cx.opening seqno REC_HANDSHAKE body) k cx1) :
    SameConfig cx.self cx1.self ∧ cx1.self.mykex = none ∧ cx1.self.hiskex = none ∧
    cx.self.state = .sig ∧ ∃ es mk hk, cx1.log = cx.log ++ es ∧ (∀ e ∈ es, e.isQuiet = true) ∧
      verifications (segment cx.log ++ es) = [cx1.self.peerTranscript mk hk] ∧
      (sentHandshakes (segment cx.log ++ es)).head? = some mk ∧
      (receivedKexes cx1.self.kex (segment cx.log ++ es)).head? = some hk := by
  obtain @⟨mk, hk, e, m, sigs, acks, hst, hm, hh, he, -, -⟩ := hsig
  refine ⟨by simp [SameConfig, Cx.switched, Cx.setOut, Cx.dropKex, Cx.agreed, Cx.opening],
    by simp [Cx.switched, Cx.setOut, Cx.dropKex], by simp [Cx.switched, Cx.setOut, Cx.dropKex], hst, ?_⟩
  obtain ⟨hsent, hrecv, hver⟩ : (sentHandshakes (segment cx.log)).head? = some mk ∧
      (receivedKexes cx.self.kex (segment cx.log)).head? = some hk ∧
      verifications (segment cx.log) = [] := by
    cases h.phase with
    | sig _ hm' hh' hsent hrecv hver =>
      obtain rfl := Option.some.inj (hm.symm.trans hm')
      obtain rfl := Option.some.inj (hh.symm.trans hh')
      exact ⟨hsent, hrecv, hver fun hn => Option.some_ne_none e (he.symm.trans hn)⟩
    | kex hst' | idle hst' => exact absurd (hst.symm.trans hst') (by decide)
    | stuck hst' | checked _ _ hst' => simp [show cx.self.state = .sig from hst] at hst'
  let cx2 := (cx.opening seqno REC_HANDSHAKE body).agreed (cx.self.peerTranscript mk hk) m (some k)
  obtain ⟨es1, hlog1, hq1, hv1, -, -⟩ := emitAll_log cx2 sigs
  obtain ⟨es2, hlog2, hq2, hv2, -, -⟩ := emitAll_log (cx2.emitAll sigs).dropKex acks
  refine ⟨[.opened cx.self.incipher seqno REC_HANDSHAKE body, .verified (cx.self.peerTranscript mk hk)] ++
    es1 ++ es2 ++ [.installed (((cx2.emitAll sigs).dropKex.emitAll acks).self.outCipherOf k)], mk, hk,
    ?_, ?_, ?_, ?_, ?_⟩
  · have hlog : ((cx2.emitAll sigs).dropKex.emitAll acks).log = cx2.log ++ es1 ++ es2 := by
      rw [hlog2]
      exact congrArg (· ++ es2) hlog1
    have hcx2 : cx2.log = cx.log ++ [.opened cx.self.incipher seqno REC_HANDSHAKE body,
        .verified (cx.self.peerTranscript mk hk)] := by simp [cx2, Cx.agreed, Cx.opening]
    change ((cx2.emitAll sigs).dropKex.emitAll acks).log ++ [_] = _
    rw [hlog, hcx2]
    simp only [List.append_assoc]
    rfl
  · intro e he
    simp only [List.mem_append, List.mem_cons, List.not_mem_nil, or_false] at he
    obtain (((rfl | rfl) | he) | he) | rfl := he
    · rfl
    · rfl
    · exact hq1 e he
    · exact hq2 e he
    · rfl
  · simp only [verifications_append, hver, hv1, hv2, List.nil_append, List.append_nil]
    simp [verifications, Sptps.peerTranscript, Cx.switched, Cx.setOut, Cx.dropKex, Cx.agreed, Cx.opening]
  · simp [hsent]
  · rw [List.append_assoc, receivedKexes_append, List.head?_append]
    simp [Cx.switched, Cx.setOut, Cx.dropKex, Cx.agreed, Cx.opening, hrecv]

theorem Auth.justified {es : List Event} {mk hk : Bytes} (h : Auth cfg cx) (hsame : SameConfig cx.self cx1.self)
    (hver : verifications (segment cx.log ++ es) = [cx1.self.peerTranscript mk hk])
    (hsent : (sentHandshakes (segment cx.log ++ es)).head? = some mk)
    (hrecv : (receivedKexes cx1.self.kex (segment cx.log ++ es)).head? = some hk) :
    Justified cfg (segment cx.log ++ es) := by
  refine ⟨mk, hk, ?_, hsent, ?_⟩
  · rw [hver, Sptps.peerTranscript, hsame.1, hsame.2.1, h.role, h.label]
  · rwa [← h.kex, ← hsame.2.2]

/-- A rejected handshake record leaves the phase as it is: where a KEX is awaited, a body that would
pass as one is not rejected. -/
theorem Phase.rejected {s : Sptps C} {g : List Event} {c : Option SptpsCipher} {n : UInt32} (h : Phase s g)
    (hno : s.state = .kex ∨ s.state = .secondaryKex → s.kexBodyOk body = false ∨ s.state = .secondaryKex ∧ s.mykex.isSome) :
    Phase s (g ++ [.opened c n REC_HANDSHAKE body]) := by
  have hnil : s.hiskex = none → s.state = .kex ∨ s.state = .secondaryKex ∧ s.mykex = none →
      receivedKexes s.kex [.opened c n REC_HANDSHAKE body] = [] := by
    intro hh hst
    rw [receivedKexes_opened, if_neg]
    intro hwf
    have hbody : s.kexBodyOk body = true := (kexBodyOk_iff _ _).mpr ⟨hwf, hh⟩
    obtain hb | ⟨hst', hm'⟩ := hno (hst.imp_right And.left)
    · exact absurd (hbody.symm.trans hb) (by decide)
    · obtain hst | ⟨-, hm⟩ := hst
      · exact absurd (hst.symm.trans hst') (by decide)
      · simp [hm] at hm'
  have hv : verifications [.opened c n REC_HANDSHAKE body] = [] := rfl
  have hs : sentHandshakes [.opened c n REC_HANDSHAKE body] = [] := rfl
  cases h with
  | kex hst hm hh hsent hrecv hver =>
    exact .kex hst hm hh (by simp [hsent]) (by simp [hrecv, hnil hh (.inl hst)]) (by simp [hver, hv])
  | idle hst hm hh hsent hrecv hver =>
    exact .idle hst hm hh (by simp [hsent, hs]) (by simp [hrecv, hnil hh (.inr ⟨hst, hm⟩)])
      (by simp [hver, hv])
  | sig hst hm hh hsent hrecv hver =>
    exact .sig hst hm hh (by simp [hsent]) (by simp [hrecv]) fun he => by simp [hver he, hv]
  | stuck hst hm hh => exact .stuck hst hm hh
  | checked mk hk hst hm hh hver hsent hrecv =>
    exact .checked mk hk hst hm hh (by simp [hver, hv]) (by simp [hsent]) (by simp [hrecv])

/-- The ACK that ends a handshake whose SIG has passed. -/
theorem Auth.finish_checked (h : Auth cfg cx) (hst : cx.self.state = .ack ∨ cx.self.state = .confirm)
    (hlog : cx1.log = (cx.opening seqno REC_HANDSHAKE body).log)
    (hself : ∃ k i, cx1.self = { cx.self with key := k, incipher := i }) : Auth cfg cx1.finish := by
  obtain ⟨k, i, hself⟩ := hself
  have hphase : Phase cx.self
      (segment cx.log ++ [.opened cx.self.incipher seqno REC_HANDSHAKE body]) :=
    h.phase.rejected (by rcases hst with hst | hst <;> simp [hst])
  have hsame : SameConfig cx.self cx1.self := by
    rw [hself]
    exact ⟨rfl, rfl, rfl⟩
  cases hphase with
  | checked mk hk _ hm hh hver hsent hrecv =>
    exact h.finish hsame hlog (by simp [Event.isQuiet])
      (h.justified ⟨rfl, rfl, rfl⟩ hver hsent hrecv) (by simp [hself, hm]) (by simp [hself, hh])
  | kex hst' | idle hst' | sig hst' => simp [hst'] at hst
  | stuck hst' => rcases hst with hst | hst <;> simp [hst] at hst'

theorem auth_handled (h : Auth cfg cx) (hd : Handled (cx.opening seqno REC_HANDSHAKE body) body cx') :
    Auth cfg cx' := by
  cases hd with
  | rejected hno =>
    exact h.extend ⟨rfl, rfl, rfl⟩ rfl (by simp [Event.isQuiet]) (h.phase.rejected hno) id
  | kexRefused hopen hbody =>
    obtain ⟨hsame, hearly, hst, es, mk, hlog, hq, hm, -, -, -⟩ := hopen.ready h hbody
    exact h.extend hsame hlog hq (.stuck hst (by simp [Cx.kexStored, hm]) rfl)
      fun he => .inr ⟨.inl (hearly he).1, (hearly he).2⟩
  | @kexTaken cx1 e r sigs hopen hbody hs =>
    obtain ⟨hsame, hearly, -, es, mk, hlog, hq, hm, hsent, hrecv, hver⟩ := hopen.ready h hbody
    obtain ⟨es', hlog', hq', hv', hs', hr'⟩ := emitAll_log (cx1.kexStored body e r) sigs
    have hself : (((cx1.kexStored body e r).emitAll sigs).setState .sig).self =
        { cx1.self with hiskex := some body, mlkemEncap := e, state := .sig
                        outseqno := cx1.self.outseqno + UInt64.ofNat sigs.length } := by
      simp [Cx.setState, Cx.kexStored]
    have hlog2 : (((cx1.kexStored body e r).emitAll sigs).setState .sig).log = cx.log ++ (es ++ es') := by
      rw [← List.append_assoc, ← hlog]
      exact hlog'
    refine h.extend (by rw [hself]; exact hsame) hlog2 ?_ ?_ ?_
    · simpa [or_imp, forall_and] using ⟨hq, hq'⟩
    · rw [hself, ← List.append_assoc]
      refine .sig rfl hm rfl ?_ ?_ fun _ => ?_
      · rw [sentHandshakes_append, List.head?_append, hsent]
        rfl
      · rw [receivedKexes_append, hr', hsame.2.2, hrecv]
        rfl
      · rw [verifications_append, hver, hv']
        rfl
    · rw [hself]
      exact fun he => .inr ⟨.inr rfl, (hearly he).2⟩
  | @sigRefused mk hk m hst hm hh =>
    have hlog : ((cx.opening seqno REC_HANDSHAKE body).agreed (cx.self.peerTranscript mk hk) m
        cx.self.key).log = cx.log ++ [.opened cx.self.incipher seqno REC_HANDSHAKE body,
          .verified (cx.self.peerTranscript mk hk)] := by
      simp [Cx.agreed, Cx.opening]
    refine h.extend ⟨rfl, rfl, rfl⟩ hlog (by simp [Event.isQuiet]) ?_ id
    cases h.phase with
    | sig _ hm hh hsent hrecv _ =>
      refine .sig hst hm hh (by simp [hsent]) ?_ (absurd rfl)
      rw [receivedKexes_append, List.head?_append]
      exact congrArg (Option.or · _) hrecv
    | kex hst' | idle hst' => exact absurd (hst.symm.trans hst') (by decide)
    | stuck hst' | checked _ _ hst' => simp [show cx.self.state = .sig from hst] at hst'
  | @sigRekey k cx1 hsig hout =>
    obtain ⟨hsame, hm, hh, hst, es, mk, hk, hlog, hq, hver, hsent, hrecv⟩ := hsig.checked h
    refine h.extend hsame hlog hq (.checked mk hk (.inl rfl) hm hh hver hsent hrecv) ?_
    rintro (hc | ⟨-, -, ho⟩)
    · exact absurd (hst.symm.trans hc) (by decide)
    · simp [Cx.opening, ho] at hout
  | @sigFirst k cx1 hsig hout hkex =>
    obtain ⟨hsame, hm, hh, -, es, mk, hk, hlog, hq, hver, hsent, hrecv⟩ := hsig.checked h
    exact Auth.finish h hsame hlog hq (h.justified hsame hver hsent hrecv) hm hh
  | @sigFirstHybrid k cx1 hsig hout hkex =>
    obtain ⟨hsame, hm, hh, -, es, mk, hk, hlog, hq, hver, hsent, hrecv⟩ := hsig.checked h
    obtain ⟨es', hlog', hq', hv', -, -⟩ := emitAll_log (cx1.setIn k) [[]]
    have hlog2 : (((cx1.setIn k).emitAll [[]]).setState .confirm).log = cx.log ++ (es ++ es') := by
      rw [← List.append_assoc, ← hlog]
      exact hlog'
    refine h.extend hsame hlog2 ?_ (.checked mk hk (.inr rfl) hm hh ?_ ?_ ?_) fun _ => .inl rfl
    · simpa [or_imp, forall_and] using ⟨hq, hq'⟩
    · rw [← List.append_assoc, verifications_append, hver, hv']
      rfl
    · rw [← List.append_assoc, sentHandshakes_append, List.head?_append, hsent]
      rfl
    · rw [← List.append_assoc, receivedKexes_append, List.head?_append]
      exact congrArg (Option.or · _) hrecv
  | acked hst hk => exact h.finish_checked (.inl hst) rfl ⟨_, _, rfl⟩
  | confirmed hst => exact h.finish_checked (.inr hst) rfl ⟨_, _, rfl⟩

theorem Auth.clearOut (h : Auth cfg cx) : Auth cfg cx.clearOut := ⟨h.1, h.2, h.3, h.4, h.5, h.6⟩

theorem Auth.withRng (h : Auth cfg cx) (rng : C.Rng) : Auth cfg (cx.withRng rng) :=
  ⟨h.1, h.2, h.3, h.4, h.5, h.6⟩

theorem auth_start {rng : C.Rng} (h : startWith cfg rng = .ok () cx) : Auth cfg cx := by
  obtain rfl : Cx.kexSent ⟨.fresh cfg, rng, [], []⟩ = cx := by
    simpa using (startWith_apply cfg rng).symm.trans h
  obtain ⟨es, hlog, hq, hv, hs, hr⟩ := kexSent_log (⟨.fresh cfg, rng, [], []⟩ : Cx C)
  have hseg : segment ([] ++ es) = es := segment_quiet hq
  refine ⟨rfl, rfl, rfl, ?_, fun _ => .inr ⟨.inl rfl, rfl, rfl⟩, ?_⟩
  · rw [hlog, hseg]
    exact .kex rfl rfl rfl (by rw [hs]; rfl) (hr _) hv
  · rw [hlog]
    exact along_append along_nil fun e he pre => lawful_quiet (hq e he) pre

theorem auth_received (h : Auth cfg cx) (hr : Received cx cx') : Auth cfg cx' := by
  cases hr with
  | framing => exact h.silent (List.append_nil _).symm (by simp) ⟨_, _, _, _, rfl⟩
  | @opened st w n seqno ty body _ hd =>
    have hf : Auth cfg (cx.framed st w n) :=
      h.silent (List.append_nil _).symm (by simp) ⟨_, _, _, _, rfl⟩
    have ho : ty ≠ REC_HANDSHAKE → Auth cfg ((cx.framed st w n).opening seqno ty body) := fun hty =>
      hf.silent rfl (by simpa [Event.isSilent, Event.isQuiet] using hty) ⟨_, _, _, _, rfl⟩
    cases hd with
    | refused hty => exact ho hty
    | record hty hin hst =>
      have hauth := ho (UInt8.ne_of_lt hty)
      exact hauth.pushed_record (hauth.not_early hst (.inl hin))
    | handshake hty hh =>
      subst hty
      exact auth_handled hf hh

theorem auth_called (h : Auth cfg cx) (hc : Called cx cx') : Auth cfg cx' := by
  cases hc with
  | received hr => exact auth_received h.clearOut hr
  | refused => exact h
  | reserved n => exact h.silent (List.append_nil _).symm (by simp) ⟨_, _, _, _, rfl⟩
  | @sent ty body hty hready | sealed n hty hready | opened w hty hin hst =>
    refine h.silent rfl ?_ ⟨_, _, _, _, rfl⟩
    simpa [Event.isSilent, Event.isQuiet] using UInt8.ne_of_lt hty
  | windowed w => exact h.silent (List.append_nil _).symm (by simp) ⟨_, _, _, _, rfl⟩
  | forced hst hout hm =>
    obtain ⟨hh, hsent, hrecv, hver⟩ := h.phase.of_kexSent hst hm
    obtain ⟨es, hlog, hq, hv, hs, hr⟩ := kexSent_log (cx.setState .kex).clearOut
    refine h.extend ⟨rfl, rfl, rfl⟩ hlog hq (.kex rfl rfl hh ?_ ?_ ?_) ?_
    · rw [sentHandshakes_append, hsent, hs]
      rfl
    · rw [receivedKexes_append, hr, List.append_nil]
      exact hrecv
    · rw [verifications_append, hver, hv]
      rfl
    · intro he
      simp [Early, hst] at he
  | forceBusy hst hm =>
    refine h.extend ⟨rfl, rfl, rfl⟩ (List.append_nil _).symm (by simp) ?_ fun he => ?_
    · rw [List.append_nil]
      cases h.phase with
      | stuck _ hm hh => exact .stuck (.inl rfl) hm hh
      | idle _ hm' => simp [hm'] at hm
      | kex hst' | sig hst' => exact absurd (hst.symm.trans hst') (by decide)
      | checked _ _ hst' => simp [hst] at hst'
    · simp [Early, hst] at he

theorem auth_run (h : Run cfg cx) : Auth cfg cx :=
  h.invariant (fun rng => auth_start (startWith_apply cfg rng)) (fun _ rng ha => ha.withRng rng)
    fun _ _ => auth_called

/-- While the session is early, a call that carries data does not return `Ok`. -/
theorem early_refuses {c : Call} (he : Early cx.self) (hc : c.carriesData = true) :
    Ends c.exec cx (fun _ _ => False) fun _ => True := by
  have hready : ¬ cx.self.appSendReady = true := by
    rw [appSendReady_iff]
    rintro ⟨hout, hst⟩
    obtain hconf | ⟨-, -, hnone⟩ := he
    · exact hst hconf
    · simp [hnone] at hout
  have hin : cx.self.incipher.isSome → ¬ cx.self.state ≠ .confirm := by
    intro hin hst
    obtain hconf | ⟨-, hnone, -⟩ := he
    · exact hst hconf
    · simp [hnone] at hin
  have hopen : ∀ data out headroom, Ends (openWithSeqno data out headroom) cx
      (fun r cx' => cx' = cx ∧ ∃ e, r.1 = .error e) fun _ => True := fun data out headroom =>
    openWithSeqno_ends cx data out headroom (fun e _ => ⟨rfl, e, rfl⟩)
      fun _ _ _ _ _ hin' hst => absurd hst (hin hin')
  cases c with
  | sendRecord ty body =>
    simp only [Call.exec, sendRecord, ends_bind, ends_self, ends_ite, ends_fail]
    exact ⟨fun _ => trivial, fun h => absurd (.inl (Bool.eq_false_iff.mpr hready)) h⟩
  | sealDataInto ty body headroom =>
    simp only [Call.exec, forget, sealDataInto, ends_bind, ends_self, ends_ite, ends_fail]
    exact ⟨fun _ => trivial, fun _ => ⟨fun _ => trivial,
      fun h => absurd (Bool.eq_false_iff.mpr hready) h⟩⟩
  | sealWithSeqno seqno ty body headroom =>
    exact ends_bind.mpr (sealWithSeqno_ends cx seqno ty body headroom trivial
      fun _ _ hr => absurd hr hready)
  | openDataInto data out headroom =>
    simp only [Call.exec, openDataInto, ends_bind, ends_self, ends_ite, ends_pure]
    refine ⟨fun _ => trivial, fun _ => (hopen data out headroom).mono ?_ fun _ _ => trivial⟩
    rintro ⟨r, out⟩ cx' ⟨-, e, rfl⟩
    trivial
  | openWithSeqno data out headroom =>
    refine ends_bind.mpr ((hopen data out headroom).mono ?_ fun _ _ => trivial)
    rintro ⟨r, out⟩ cx' ⟨-, e, rfl⟩
    trivial
  | receive data | forceKex | allocSeqnos n | replayCheck seqno => simp [Call.carriesData] at hc

theorem Early.keys_none {s : Sptps C} (h : Early s) : s.outcipherKey = none ∧ s.incipherKey = none := by
  obtain hst | ⟨-, hin, hout⟩ := h
  · cases hout : s.outcipher <;> cases hin : s.incipher <;>
      simp [Sptps.outcipherKey, Sptps.incipherKey, hst, hout, hin, Option.filter]
  · simp [Sptps.outcipherKey, Sptps.incipherKey, hin, hout]

/-- Before the first `HandshakeDone` no record has been handed out, no call that carries data returns
`Ok` and both keys are `None`; and each `HandshakeDone` ends a segment with exactly one successful
check, of the transcript of the session's own KEX and of the one it received. -/
theorem no_data_before_done (h : Run cfg cx) :
    (.output .handshakeDone ∉ cx.log →
      (∀ ty body, .output (.record ty body) ∉ cx.log) ∧
      (∀ c : Call, c.carriesData = true → ∀ rng cx', c.exec.run (cx.withRng rng) ≠ .ok () cx') ∧
      cx.self.outcipherKey = none ∧ cx.self.incipherKey = none) ∧
    (∀ pre ty body post, cx.log = pre ++ .output (.record ty body) :: post →
      .output .handshakeDone ∈ pre) ∧
    ∀ pre post, cx.log = pre ++ .output .handshakeDone :: post → Justified cfg (segment pre) := by
  have hauth := auth_run h
  have hrecord : ∀ pre ty body post, cx.log = pre ++ .output (.record ty body) :: post →
      .output .handshakeDone ∈ pre := fun pre ty body post hlog => hauth.lawful pre _ post hlog
  refine ⟨fun hd => ⟨fun ty body hmem => ?_, fun c hc rng cx' hok => ?_, (hauth.early hd).keys_none⟩,
    hrecord, fun pre post hlog => hauth.lawful pre _ post hlog⟩
  · obtain ⟨pre, post, hlog⟩ := List.append_of_mem hmem
    exact hd (hlog ▸ List.mem_append_left _ (hrecord pre ty body post hlog))
  · exact (ends_of_ok hok).mp (early_refuses (hauth.early hd) hc)

/-- A classical stream session and the two records of its peer's handshake. -/
def nullConfig : Config Crypto.null :=
  ⟨.initiator, .stream, .x25519, (), [], [], .chaCha20Poly1305, 16⟩

def nullRecord (body : Bytes) : Bytes :=
  recordWire (C := Crypto.null) .stream none 0 REC_HANDSHAKE body

def nullStart : Cx Crypto.null := Cx.kexSent ⟨.fresh nullConfig, (), [], []⟩

def nullReceive (cx : Cx Crypto.null) (body : Bytes) : EStateM.Result Fault (Cx Crypto.null) Unit :=
  (Call.receive (nullRecord body)).exec.run (cx.withRng ())

def nullTaken : Cx Crypto.null := (nullReceive nullStart (List.replicate 65 0)).last

def nullDone : Cx Crypto.null := (nullReceive nullTaken (List.replicate 64 0)).last

theorem nullDone_run : Run nullConfig nullDone := by
  have hkex : nullReceive nullStart (List.replicate 65 0) = .ok () nullTaken :=
    Result.eq_ok_last (by decide +kernel)
  have hsig : nullReceive nullTaken (List.replicate 64 0) = .ok () nullDone :=
    Result.eq_ok_last (by decide +kernel)
  exact .ok (.ok (.start (startWith_apply _ ())) _ () hkex) _ () hsig

theorem no_data_before_done_null : Run nullConfig nullDone ∧ .output .handshakeDone ∈ nullDone.log ∧
    ∀ pre post, nullDone.log = pre ++ .output .handshakeDone :: post →
      Justified nullConfig (segment pre) :=
  ⟨nullDone_run, by decide +kernel, (no_data_before_done nullDone_run).2.2⟩

end Tincr.Sptps

import Tincr.Net.Receive
import Tincr.Sptps.Nonce

/-!
The fast path against the slow path. A datagram that passes the gates of the fast path is opened by
the slow path with the same cipher and checked against the same window, so the two differ in two cases
only: the window counts a number far ahead when it rejects it, and the slow path then counts it again;
and the fast path delivers a neighbour solicitation, which the slow path drops.
-/

namespace Tincr.Net

open Function Sptps EStateM M

/-- A number so far ahead that the window drops it and counts it. -/
def FarAhead (w : ReplayWindow) (seqno : UInt32) : Prop :=
  let win : UInt32 := UInt32.ofNat w.late.length
  (0 < win ∧ seqno ≠ w.inseqno) ∧ w.inseqno + win * 8 ≤ seqno ∧ w.farfuture < (win >>> 2).toNat

instance (w : ReplayWindow) (seqno : UInt32) : Decidable (FarAhead w seqno) :=
  inferInstanceAs (Decidable (_ ∧ _))

variable {body : Bytes} {w : ReplayWindow} {seqno : UInt32}

theorem check_of_farAhead (h : FarAhead w seqno) :
    w.check seqno true = (.error .badSeqno, { w with farfuture := w.farfuture + 1 }) := by
  obtain ⟨hout, hfar, hearly⟩ := h
  rw [ReplayWindow.check, if_pos hout, if_pos hfar, if_pos hearly, if_pos rfl]

/-- Any other number that is rejected leaves the window as it was. -/
theorem check_of_not_farAhead (h : ¬ FarAhead w seqno) :
    (∃ w', w.check seqno true = (.ok (), w')) ∨ w.check seqno true = (.error .badSeqno, w) := by
  unfold ReplayWindow.check
  by_cases hout : 0 < UInt32.ofNat w.late.length ∧ seqno ≠ w.inseqno
  · simp only [if_pos hout]
    by_cases hfar : w.inseqno + UInt32.ofNat w.late.length * 8 ≤ seqno
    · simp only [if_pos hfar]
      rw [if_neg fun hearly => h ⟨hout, hfar, hearly⟩]
      exact .inl ⟨_, rfl⟩
    · simp only [if_neg hfar]
      by_cases hlt : seqno < w.inseqno
      · rw [if_pos hlt]
        split_ifs
        · exact .inr rfl
        · exact .inl ⟨_, rfl⟩
      · rw [if_neg hlt]
        exact .inl ⟨_, rfl⟩
  · simp only [if_neg hout]
    exact .inl ⟨_, rfl⟩

/-- Checking a far number a second time does not leave the window that checking it once left. -/
theorem check_twice_ne (h : FarAhead w seqno) :
    (ReplayWindow.check { w with farfuture := w.farfuture + 1 } seqno true).2 ≠
      { w with farfuture := w.farfuture + 1 } := by
  obtain ⟨hout, hfar, -⟩ := h
  rw [ReplayWindow.check, if_pos hout, if_pos hfar]
  intro heq
  have hff := congrArg ReplayWindow.farfuture heq
  by_cases hearly : w.farfuture + 1 < (UInt32.ofNat w.late.length >>> 2).toNat
  · rw [if_pos hearly] at hff
    simp at hff
  · rw [if_neg hearly] at hff
    have hwin : 0 < UInt32.ofNat w.late.length := hout.1
    simp only [ReplayWindow.commit, hwin, if_true, and_self] at hff
    split_ifs at hff

variable {C : Crypto} {Addr : Type} {s : Sptps C} {rng : C.Rng} {ct : Bytes}

/-- No cipher yet, or a hybrid handshake that is not confirmed: the session opens nothing. -/
theorem openData_of_closed (hf : s.framing = .datagram) (h : s.state = .confirm ∨ s.incipher = none) :
    openData s rng ct = (.error (.err .invalidState), s) := by
  unfold openData openDataInto openWithSeqno
  by_cases hst : s.state = .confirm
  · simp [run_bind, hf, hst]
  · have hin := h.resolve_left hst
    simp [run_bind, hf, hst, hin]

/-- A datagram that decrypts to a data record is accepted or not as the window says. -/
theorem openData_of_open (rng : C.Rng) {c : SptpsCipher} {ty : UInt8} (hf : s.framing = .datagram)
    (hst : s.state ≠ .confirm) (hin : s.incipher = some c) (hlen : SPTPS_DGRAM_MIN ≤ ct.length)
    (hopen : c.open? C (seqnoOf ct) (ct.drop 4) = some (ty :: body)) (hty : ty < REC_HANDSHAKE) :
    openData s rng ct =
      match s.replay.check (seqnoOf ct) true with
      | (.ok _, w) => (.ok (ty, List.replicate ETH_HLEN 0 ++ body), { s with replay := w })
      | (.error e, w) => (.error (.err e), { s with replay := w }) := by
  replace hlen : 21 ≤ ct.length := hlen
  have hshort : ¬ ct.length < 21 := by omega
  have hdata : ¬ REC_HANDSHAKE ≤ ty := UInt8.not_le.2 hty
  have hseq : UInt32.ofNat (BigEndian.decode (List.drop 0 (ct.take 4))) = seqnoOf ct := rfl
  unfold openData openDataInto openWithSeqno
  simp only [run_bind, self_apply, hf, ne_eq, not_true, if_false, hst, or_self, hin, if_neg hshort,
    slice_of_le _ (Nat.zero_le 4) (show 4 ≤ ct.length by omega), hseq,
    slice_of_le _ (show 4 ≤ ct.length by omega) le_rfl, List.take_length, hopen, uncons_cons, if_neg hdata,
    note_apply, run_pure, replayCheck_apply]
  rcases hcheck : s.replay.check (seqnoOf ct) true with ⟨e | ⟨⟩, w⟩
  · simp only [run_pure]
  · have hstrip : ETH_HLEN + 1 ≤ (List.replicate ETH_HLEN (0 : UInt8) ++ ty :: body).length := by simp
    simp only [stripType, run_bind, slice_of_le _ hstrip le_rfl, run_pure, List.take_length]
    rfl

/-- The session opens data, with this cipher. -/
structure OpensWith (s : Sptps C) (c : SptpsCipher) : Prop where
  framing : s.framing = .datagram
  state : s.state ≠ .confirm
  incipher : s.incipher = some c

/-- The handle is that of the session the slow path opens a datagram with: the session of the tunnel,
or the previous one as long as the new one cannot open anything. -/
def TunnelHandles.Current (h : TunnelHandles Addr) (t : Tunnel C Addr) : Prop :=
  match h.replay with
  | .current => ∃ s, t.sptps = some s ∧ OpensWith s h.incipher
  | .previous =>
    ∃ s p, t.sptps = some s ∧ s.framing = .datagram ∧ (s.state = .confirm ∨ s.incipher = none) ∧
      t.prevSptps = some p ∧ OpensWith p h.incipher
  | .detached _ => False

/-- A window that changes nothing else keeps a handle current. -/
theorem TunnelHandles.Current.setWindow {h : TunnelHandles Addr} {t : Tunnel C Addr}
    (hcur : h.Current t) (w : ReplayWindow) (shared : Shared) : h.Current (t.setWindow w shared) := by
  unfold TunnelHandles.Current at hcur ⊢
  cases hrep : h.replay with
  | current =>
    rw [hrep] at hcur
    obtain ⟨s, hs, hwith⟩ := hcur
    cases shared with
    | current => exact ⟨{ s with replay := w }, by simp [Tunnel.setWindow, hs], ⟨hwith.1, hwith.2, hwith.3⟩⟩
    | previous | detached _ => exact ⟨s, hs, hwith⟩
  | previous =>
    rw [hrep] at hcur
    obtain ⟨s, p, hs, hf, hclosed, hp, hwith⟩ := hcur
    cases shared with
    | current => exact ⟨{ s with replay := w }, p, by simp [Tunnel.setWindow, hs], hf, hclosed, hp, hwith⟩
    | previous =>
      exact ⟨s, { p with replay := w }, hs, hf, hclosed, by simp [Tunnel.setWindow, hp],
        ⟨hwith.1, hwith.2, hwith.3⟩⟩
    | detached _ => exact ⟨s, p, hs, hf, hclosed, hp, hwith⟩
  | detached w' =>
    rw [hrep] at hcur
    exact hcur.elim

theorem Tunnel.udpAddr_setWindow (t : Tunnel C Addr) (w : ReplayWindow) (shared : Shared) :
    (t.setWindow w shared).udpAddr = t.udpAddr ∧ (t.setWindow w shared).udpAddrCached = t.udpAddrCached := by
  cases shared <;> exact ⟨rfl, rfl⟩

/-- The tunnel opens a datagram with the session of a current handle, and with the window it shares. -/
theorem Tunnel.openData_of_current (rng : C.Rng) {t : Tunnel C Addr} {h : TunnelHandles Addr} {ty : UInt8}
    (hcur : h.Current t) (hlen : SPTPS_DGRAM_MIN ≤ ct.length)
    (hopen : h.incipher.open? C (seqnoOf ct) (ct.drop 4) = some (ty :: body)) (hty : ty < REC_HANDSHAKE) :
    ∃ s w, t.sptps = some s ∧ t.window h.replay = some w ∧
      t.openData s rng ct =
        match w.check (seqnoOf ct) true with
        | (.ok _, w') => (.ok (ty, List.replicate ETH_HLEN 0 ++ body), t.setWindow w' h.replay)
        | (.error e, w') => (.error (.err e), t.setWindow w' h.replay) := by
  unfold TunnelHandles.Current at hcur
  cases hrep : h.replay with
  | current =>
    rw [hrep] at hcur
    obtain ⟨s, hs, hwith⟩ := hcur
    refine ⟨s, s.replay, hs, by simp [Tunnel.window, hs], ?_⟩
    have hsess := openData_of_open rng hwith.framing hwith.state hwith.incipher hlen hopen hty
    rw [Tunnel.openData, hsess]
    by_cases hfar : FarAhead s.replay (seqnoOf ct)
    · simp [check_of_farAhead hfar, Tunnel.setWindow, hs]
    · rcases check_of_not_farAhead hfar with ⟨w', hok⟩ | herr
      · simp [hok, Tunnel.setWindow, hs]
      · simp [herr, Tunnel.setWindow, hs]
  | previous =>
    rw [hrep] at hcur
    obtain ⟨s, p, hs, hf, hclosed, hp, hwith⟩ := hcur
    refine ⟨s, p.replay, hs, by simp [Tunnel.window, hp], ?_⟩
    have hsess := openData_of_open rng hwith.framing hwith.state hwith.incipher hlen hopen hty
    rw [Tunnel.openData, openData_of_closed hf hclosed]
    rcases hcheck : p.replay.check (seqnoOf ct) true with ⟨e | ⟨⟩, w'⟩ <;>
      simp [hp, hsess, hcheck, Tunnel.setWindow, hs]
  | detached w =>
    rw [hrep] at hcur
    exact hcur.elim

theorem rxGates_eq_some {snap : TxSnapshot Addr} {target : RxTarget Addr} {frame : Bytes}
    (h : rxGates C snap target = some frame) :
    ∃ body et, target.handles.incipher.open? C (seqnoOf target.ct) (target.ct.drop 4) =
        some (PKT_NORMAL :: body) ∧ body.length ≤ MTU ∧ snap.ownEthertype body = some et ∧
      frame = List.replicate 12 0 ++ et ++ body := by
  unfold rxGates at h
  split at h
  · cases h
  · cases h
  · rename_i ty body hopen
    split_ifs at h with hty hlen
    obtain ⟨et, het, rfl⟩ := Option.map_eq_some_iff.1 h
    obtain rfl : ty = PKT_NORMAL := not_not.1 hty
    exact ⟨body, et, hopen, Nat.not_lt.1 hlen, het, rfl⟩

theorem rxProbe_eq_some {snap : TxSnapshot Addr} {pkt : Bytes} {target : RxTarget Addr}
    (h : rxProbe snap pkt = some target) :
    snap.slowpathAll = false ∧ 12 + SPTPS_DGRAM_MIN ≤ pkt.length ∧ pkt.take 6 = List.replicate 6 0 ∧
      snap.id6 ((pkt.drop 6).take 6) = some target.nid ∧ snap.tunnels target.nid = some target.handles ∧
      target.ct = pkt.drop 12 := by
  unfold rxProbe at h
  split_ifs at h with hslow hlen hdst
  split at h
  · cases h
  · rename_i nid hid
    split at h
    · cases h
    · rename_i hs hhandles
      split_ifs at h
      obtain rfl := Option.some.inj h
      exact ⟨by simpa using hslow, Nat.not_lt.1 hlen, not_not.1 hdst, hid, hhandles, rfl⟩

/-- The tables of the snapshot are those of the daemon, and its handles those of the sessions. -/
structure TxSnapshot.Current (snap : TxSnapshot Addr) (d : Daemon C Addr) : Prop where
  slowpathAll : snap.slowpathAll = d.settings.slowpathAll
  id6 : snap.id6 = d.id6Table
  subnets : snap.subnets = d.subnets
  myselfName : snap.myselfName = d.name
  handles : ∀ nid h, snap.tunnels nid = some h → h.Current (d.tunnels nid)

/-- This node resolves its own name, and its snapshot is current. -/
structure Daemon.Current (d : Daemon C Addr) : Prop where
  resolve : d.resolve d.name = some d.myself
  snap : ∀ snap, d.snap = some snap → snap.Current d

/-- A frame that the slow path takes for a neighbour solicitation. -/
def Solicits (frame : Bytes) : Prop := ethertype frame = ETH_P_IPV6 ∧ isNeighborSolicit frame = true

instance (frame : Bytes) : Decidable (Solicits frame) := inferInstanceAs (Decidable (_ ∧ _))

theorem mine_eq_true {snap : TxSnapshot Addr} {entries : List Entry} {dst : Bytes}
    (h : snap.mine entries dst = true) :
    ∃ s, lookup (fun _ => true) dst none entries = some (s, some snap.myselfName) := by
  unfold TxSnapshot.mine at h
  split at h
  · rename_i s owner hlookup
    obtain rfl : owner = snap.myselfName := by simpa using h
    exact ⟨s, hlookup⟩
  · cases h

/-- A destination the snapshot takes for this node's own is routed to this node. -/
theorem decideOwner_mine {snap : TxSnapshot Addr} {entries : List Entry} {dst : Bytes}
    {resolve : String → Option NodeId} {myself : NodeId} (hres : resolve snap.myselfName = some myself)
    (h : snap.mine entries dst = true) (unknown down : UInt8 × UInt8) :
    decideOwner resolve unknown down (lookup (fun n => (resolve n).isSome) dst none entries) =
      .forward myself := by
  obtain ⟨s, hlookup⟩ := mine_eq_true h
  rw [lookup_of_first (by simp [hres]) hlookup]
  simp [decideOwner, hres]

theorem not_lt_frame {et : Bytes} {n : ℕ} (het : et.length = 2) (h : n ≤ body.length) :
    ¬ (List.replicate 12 0 ++ et ++ body).length < ETHER_SIZE + n := by
  have hsize : ETHER_SIZE = 14 := rfl
  simp only [List.length_append, List.length_replicate, het]
  omega

/-- The frame of a packet the fast path takes: the slow path routes it to this node, unless it is a
solicitation. -/
theorem route_own {snap : TxSnapshot Addr} {et : Bytes} {resolve : String → Option NodeId} {myself : NodeId}
    (hres : resolve snap.myselfName = some myself) (het : snap.ownEthertype body = some et) :
    let frame := List.replicate 12 0 ++ et ++ body
    ethertype frame ≠ ETH_P_ARP ∧
      route frame snap.subnets resolve = if Solicits frame then .neighborSolicit else .forward myself := by
  unfold TxSnapshot.ownEthertype at het
  cases body with
  | nil => cases het
  | cons b rest =>
    dsimp only at het
    split_ifs at het with hv4 hlen hmine hv6 hlen hmine
    · obtain rfl := Option.some.inj het
      have htype : ethertype (List.replicate 12 0 ++ [0x08, 0x00] ++ b :: rest) = ETH_P_IP := by
        simp [ethertype]
      have hroute : route (List.replicate 12 0 ++ [0x08, 0x00] ++ b :: rest) snap.subnets resolve =
          .forward myself := by
        rw [route, if_neg (not_lt_frame rfl (Nat.zero_le _)), if_pos htype, routeIpv4,
          if_neg (not_lt_frame rfl (Nat.not_lt.1 hlen))]
        exact decideOwner_mine hres hmine _ _
      refine ⟨by rw [htype]; decide, ?_⟩
      rw [hroute, if_neg]
      rintro ⟨hsol, -⟩
      exact absurd (htype.symm.trans hsol) (by decide)
    · obtain rfl := Option.some.inj het
      have htype : ethertype (List.replicate 12 0 ++ [0x86, 0xDD] ++ b :: rest) = ETH_P_IPV6 := by
        simp [ethertype]
      refine ⟨by rw [htype]; decide, ?_⟩
      rw [route, if_neg (not_lt_frame rfl (Nat.zero_le _)), if_neg (by rw [htype]; decide), if_pos htype,
        routeIpv6, if_neg (not_lt_frame rfl (Nat.not_lt.1 hlen))]
      by_cases hsol : isNeighborSolicit (List.replicate 12 0 ++ [0x86, 0xDD] ++ b :: rest) = true
      · rw [if_pos hsol, if_pos ⟨htype, hsol⟩]
      · rw [if_neg hsol, if_neg fun h => hsol h.2]
        exact decideOwner_mine hres hmine _ _

namespace Daemon

variable {d : Daemon C Addr} {snap : TxSnapshot Addr}

/-- The slow path on a packet that the fast path takes. -/
theorem receiveSptpsRecord_own (hsnap : snap.Current d) (hres : d.resolve d.name = some d.myself)
    (hslow : snap.slowpathAll = false) (hpcap : d.anyPcap = false) (nid : NodeId) {body et : Bytes}
    (hlen : body.length ≤ MTU) (het : snap.ownEthertype body = some et) :
    d.receiveSptpsRecord nid PKT_NORMAL body =
      if d.settings.kernelForwarding = false ∧ Solicits (List.replicate 12 0 ++ et ++ body) then []
      else [.deliver (List.replicate 12 0 ++ et ++ body)] := by
  have hsettings : d.settings.slowpathAll = false := hsnap.slowpathAll.symm.trans hslow
  simp only [Settings.slowpathAll, Bool.or_eq_false_iff, bne_eq_false_iff_eq] at hsettings
  obtain ⟨⟨⟨-, hmode⟩, -⟩, hmac⟩ := hsettings
  have hip : body.head?.bind ipEthertype = some et := by
    unfold TxSnapshot.ownEthertype at het
    cases body with
    | nil => cases het
    | cons b rest =>
      dsimp only at het
      split_ifs at het with hv4 hlen hmine hv6 hlen hmine
      · simpa [ipEthertype, hv4] using het
      · simpa [ipEthertype, hv4, hv6] using het
  obtain ⟨harp, hroute⟩ := route_own (by rw [hsnap.myselfName]; exact hres) het
  rw [hsnap.subnets] at hroute
  have hown : ∀ frame, d.sendPacketMyself frame = .deliver frame := by
    simp [sendPacketMyself, hmac]
  have hforward : d.receiveSptpsRecord nid PKT_NORMAL body =
      d.forwardPacket nid (List.replicate 12 0 ++ et ++ body) := by
    rw [receiveSptpsRecord, if_neg (Nat.not_lt.2 hlen), if_neg (by decide), if_neg (by decide),
      if_neg fun h => h.1 hmode, if_neg (by decide)]
    dsimp only
    rw [if_neg (by decide), hip]
  rw [hforward]
  generalize List.replicate 12 0 ++ et ++ body = frame at harp hroute ⊢
  rw [forwardPacket, hpcap, hmode, hown, hroute]
  by_cases hkernel : d.settings.kernelForwarding = true
  · simp [hkernel]
  · have hkernel' : d.settings.kernelForwarding = false := by simpa using hkernel
    simp only [hkernel', if_neg fun h : _ ∧ _ => harp h.2]
    by_cases hsol : Solicits frame
    · simp [hsol]
    · simp [hsol]

/-- The datagram passes every gate of the fast path before the replay window. -/
def attempt (d : Daemon C Addr) (pkt : Bytes) : Option (RxTarget Addr × Bytes) :=
  match if d.anyPcap then none else d.snap with
  | none => none
  | some snap =>
    match rxProbe snap pkt with
    | none => none
    | some target => (rxGates C snap target).map (target, ·)

theorem rxOpen_eq_some {d' : Daemon C Addr} {target : RxTarget Addr} {frame : Bytes}
    (h : d.rxOpen snap target = (d', some frame)) :
    ∃ w w', rxGates C snap target = some frame ∧
      (d.tunnels target.nid).window target.handles.replay = some w ∧
      w.check (seqnoOf target.ct) true = (.ok (), w') ∧
      d' = d.setWindow target.nid w' target.handles.replay := by
  unfold rxOpen at h
  split at h
  · rename_i frame' w hgates hw
    split at h
    · rename_i w' hok
      obtain ⟨rfl, heq⟩ := Prod.mk.inj h
      exact ⟨w, w', hgates.trans heq, hw, hok, rfl⟩
    · cases h
  · cases h

theorem attempt_eq_some {pkt : Bytes} {target : RxTarget Addr} {frame : Bytes}
    (h : d.attempt pkt = some (target, frame)) :
    ∃ snap, d.anyPcap = false ∧ d.snap = some snap ∧ rxProbe snap pkt = some target ∧
      rxGates C snap target = some frame := by
  unfold attempt at h
  split at h
  · cases h
  · rename_i snap hsnap
    split at h
    · cases h
    · rename_i target' hprobe
      obtain ⟨frame', hgates, heq⟩ := Option.map_eq_some_iff.1 h
      obtain ⟨rfl, rfl⟩ := Prod.mk.inj heq
      split_ifs at hsnap with hpcap
      exact ⟨snap, by simpa using hpcap, hsnap, hprobe, hgates⟩

variable {nid : NodeId} {h : TunnelHandles Addr}

theorem setWindow_of_current (hcur : h.Current (d.tunnels nid)) (w : ReplayWindow) :
    d.setWindow nid w h.replay = d.setTunnel nid ((d.tunnels nid).setWindow w h.replay) := by
  unfold TunnelHandles.Current at hcur
  cases hrep : h.replay with
  | current => rfl
  | previous => rfl
  | detached w =>
    rw [hrep] at hcur
    exact hcur.elim

theorem Current.setWindow (hcur : d.Current) (hhc : h.Current (d.tunnels nid)) (w : ReplayWindow) :
    (d.setWindow nid w h.replay).Current := by
  rw [setWindow_of_current hhc]
  refine ⟨hcur.resolve, fun snap hsnap => ?_⟩
  have hsc := hcur.snap snap hsnap
  refine ⟨hsc.slowpathAll, hsc.id6, hsc.subnets, hsc.myselfName, fun nid' h' hh' => ?_⟩
  have hold := hsc.handles nid' h' hh'
  by_cases heq : nid' = nid
  · subst heq
    simpa [setTunnel] using hold.setWindow w h.replay
  · simpa [setTunnel, update_of_ne heq] using hold

/-- The handles made when a handshake is done keep the snapshot current. -/
theorem Current.installHandles {s : Sptps C} {c : SptpsCipher} (hcur : d.Current)
    (hs : (d.tunnels nid).sptps = some s) (hwith : OpensWith s c) (haead : c.aead = s.aead) :
    (d.installHandles nid).Current := by
  have hkey : s.incipherKey = some c.key := by
    simp [Sptps.incipherKey, hwith.incipher, hwith.state]
  unfold Daemon.installHandles
  rw [hs]
  dsimp only
  rw [hkey]
  refine ⟨hcur.resolve, fun snap hsnap => ?_⟩
  obtain ⟨old, hold, rfl⟩ := Option.map_eq_some_iff.1 hsnap
  have hsc := hcur.snap old hold
  refine ⟨hsc.slowpathAll, hsc.id6, hsc.subnets, hsc.myselfName, fun nid' h' hh' => ?_⟩
  by_cases heq : nid' = nid
  · subst heq
    simp only [update_self, Option.some.injEq] at hh'
    subst hh'
    exact ⟨s, hs, by rw [← haead]; exact hwith⟩
  · simp only [update_of_ne heq] at hh'
    exact hsc.handles nid' h' hh'

theorem Current.handles (hcur : d.Current) {pkt : Bytes} {target : RxTarget Addr} {frame : Bytes}
    (h : d.attempt pkt = some (target, frame)) :
    target.handles.Current (d.tunnels target.nid) := by
  obtain ⟨snap, -, hsnap, hprobe, -⟩ := attempt_eq_some h
  exact (hcur.snap snap hsnap).handles _ _ (rxProbe_eq_some hprobe).2.2.2.2.1

theorem window_setWindow (hhc : h.Current (d.tunnels nid)) (w : ReplayWindow) :
    ((d.setWindow nid w h.replay).tunnels nid).window h.replay = some w := by
  rw [setWindow_of_current hhc]
  unfold TunnelHandles.Current at hhc
  cases hrep : h.replay with
  | current =>
    rw [hrep] at hhc
    obtain ⟨s, hs, -⟩ := hhc
    simp [setTunnel, Tunnel.setWindow, Tunnel.window, hs]
  | previous =>
    rw [hrep] at hhc
    obtain ⟨s, p, -, -, -, hp, -⟩ := hhc
    simp [setTunnel, Tunnel.setWindow, Tunnel.window, hp]
  | detached w' =>
    rw [hrep] at hhc
    exact hhc.elim

theorem setWindow_self {w : ReplayWindow} (hhc : h.Current (d.tunnels nid))
    (hw : (d.tunnels nid).window h.replay = some w) : d.setWindow nid w h.replay = d := by
  have htunnel : (d.tunnels nid).setWindow w h.replay = d.tunnels nid := by
    generalize d.tunnels nid = t at hw
    cases hrep : h.replay with
    | current =>
      rw [hrep] at hw
      obtain ⟨s, hs, rfl⟩ := Option.map_eq_some_iff.1 hw
      cases t
      simp_all [Tunnel.setWindow]
    | previous =>
      rw [hrep] at hw
      obtain ⟨p, hp, rfl⟩ := Option.map_eq_some_iff.1 hw
      cases t
      simp_all [Tunnel.setWindow]
    | detached w' => rfl
  rw [setWindow_of_current hhc, htunnel, setTunnel, update_eq_self]

theorem parsePortProbeReply_of_null {pkt : Bytes} (h : pkt.take 6 = List.replicate 6 0) :
    parsePortProbeReply pkt = none := by
  cases pkt with
  | nil => rfl
  | cons b rest =>
    obtain ⟨rfl, -⟩ := List.cons.inj h
    rfl

section Attempt

variable [DecidableEq Addr] {peer : Option Addr} {rng : C.Rng} {pkt : Bytes} {target : RxTarget Addr}
  {frame : Bytes}

theorem receiveSptpsRecord_opened (nid nid' : NodeId) (t : Tunnel C Addr) (direct : Bool) :
    ((d.setTunnel nid t).opened peer nid' direct).1.receiveSptpsRecord = d.receiveSptpsRecord := by
  unfold opened
  cases direct with
  | false => rfl
  | true =>
    cases peer with
    | none => rfl
    | some a =>
      simp only [if_true, confirmUdpAddr]
      split_ifs <;> rfl

/-- The slow path on a datagram that the fast path would take if the window let it. -/
theorem handleIncoming_of_attempt (hcur : d.Current) (h : d.attempt pkt = some (target, frame))
    (peer : Option Addr) (rng : C.Rng) :
    ∃ w, (d.tunnels target.nid).window target.handles.replay = some w ∧
      d.handleIncoming peer rng pkt =
        match w.check (seqnoOf target.ct) true with
        | (.ok _, w') =>
          (((d.setWindow target.nid w' target.handles.replay).opened peer target.nid true).1,
            if d.settings.kernelForwarding = false ∧ Solicits frame then [] else [.deliver frame])
        | (.error _, w') => (d.setWindow target.nid w' target.handles.replay, [.restart target.nid]) := by
  obtain ⟨snap, hpcap, hsnap, hprobe, hgates⟩ := attempt_eq_some h
  obtain ⟨hslow, hlen, hdst, hid, hhandles, hct⟩ := rxProbe_eq_some hprobe
  obtain ⟨body, et, hopen, hmtu, het, rfl⟩ := rxGates_eq_some hgates
  have hsc := hcur.snap snap hsnap
  have hhc := hsc.handles _ _ hhandles
  have hctlen : SPTPS_DGRAM_MIN ≤ target.ct.length := by
    have hmin : SPTPS_DGRAM_MIN = 21 := rfl
    rw [hct, List.length_drop]
    omega
  obtain ⟨s, w, hs, hw, htunnel⟩ := Tunnel.openData_of_current rng hhc hctlen hopen (by decide)
  refine ⟨w, hw, ?_⟩
  have hown : d.handleIncoming peer rng pkt = d.receiveOwn peer rng target.nid true target.ct := by
    rw [handleIncoming, parsePortProbeReply_of_null hdst, ite_self]
    dsimp only
    rw [if_neg (by omega), ← hsc.id6, hid]
    dsimp only
    rw [if_pos hdst, hct]
  rw [hown, receiveOwn, hs]
  dsimp only
  rw [htunnel]
  have hset := setWindow_of_current hhc
  by_cases hfar : FarAhead w (seqnoOf target.ct)
  · simp only [check_of_farAhead hfar, hset]
  · rcases check_of_not_farAhead hfar with ⟨w', hok⟩ | herr
    · have hquiet : ((d.setTunnel target.nid ((d.tunnels target.nid).setWindow w' target.handles.replay)).opened
          peer target.nid true).2 = [] := by
        unfold opened
        cases peer <;> rfl
      have hbody : List.drop ETH_HLEN (List.replicate ETH_HLEN 0 ++ body) = body := rfl
      simp only [hok, hset, hquiet, hbody, receiveSptpsRecord_opened, List.nil_append,
        receiveSptpsRecord_own hsc hcur.resolve hslow hpcap target.nid hmtu het]
    · simp only [herr, hset]

theorem window_opened (nid nid' : NodeId) (direct : Bool) (shared : Shared) :
    ((d.opened peer nid direct).1.tunnels nid').window shared = (d.tunnels nid').window shared := by
  unfold opened
  cases direct with
  | false => rfl
  | true =>
    cases peer with
    | none => rfl
    | some a =>
      simp only [if_true, confirmUdpAddr]
      split_ifs
      · rfl
      · by_cases heq : nid' = nid
        · subst heq
          simp only [setTunnel, update_self]
          cases shared <;> rfl
        · simp only [setTunnel, update_of_ne heq]

/-- The window after the slow path has had such a datagram. -/
theorem window_handleIncoming {w : ReplayWindow} (hcur : d.Current) (peer : Option Addr) (rng : C.Rng)
    (h : d.attempt pkt = some (target, frame))
    (hw : (d.tunnels target.nid).window target.handles.replay = some w) :
    ((d.handleIncoming peer rng pkt).1.tunnels target.nid).window target.handles.replay =
      some (w.check (seqnoOf target.ct) true).2 := by
  have hhc := hcur.handles h
  obtain ⟨w', hw', hslow⟩ := handleIncoming_of_attempt hcur h peer rng
  obtain rfl : w' = w := Option.some.inj (hw'.symm.trans hw)
  rw [hslow]
  rcases w'.check (seqnoOf target.ct) true with ⟨e | ⟨⟩, w''⟩
  · exact window_setWindow hhc w''
  · exact (window_opened _ _ _ _).trans (window_setWindow hhc w'')

theorem recv_of_attempt {w : ReplayWindow} (peer : Option Addr) (rng : C.Rng)
    (h : d.attempt pkt = some (target, frame))
    (hw : (d.tunnels target.nid).window target.handles.replay = some w) :
    d.recv peer rng pkt =
      match w.check (seqnoOf target.ct) true with
      | (.ok _, w') => (d.setWindow target.nid w' target.handles.replay, [.deliver frame])
      | (.error _, w') => (d.setWindow target.nid w' target.handles.replay).handleIncoming peer rng pkt := by
  obtain ⟨snap, hpcap, hsnap, hprobe, hgates⟩ := attempt_eq_some h
  have hwhich : (if d.anyPcap = true then none else d.snap) = some snap := by
    rw [hpcap, ← hsnap]
    rfl
  rw [recv, hwhich]
  dsimp only
  rw [hprobe]
  dsimp only
  rw [rxOpen, hgates, hw]
  dsimp only
  rcases w.check (seqnoOf target.ct) true with ⟨e | ⟨⟩, w'⟩ <;> rfl

theorem recv_of_not_attempt (h : d.attempt pkt = none) :
    d.recv peer rng pkt = d.handleIncoming peer rng pkt := by
  unfold attempt at h
  unfold recv
  cases hsnap : if d.anyPcap = true then none else d.snap with
  | none => rfl
  | some snap =>
    rw [hsnap] at h
    dsimp only at h ⊢
    cases hprobe : rxProbe snap pkt with
    | none => rfl
    | some target =>
      rw [hprobe] at h
      dsimp only at h ⊢
      rw [rxOpen, Option.map_eq_none_iff.1 h]

end Attempt

/-- The same windows in every session, the same frames and the same replies. -/
def Same (r r' : Daemon C Addr × List Effect) : Prop :=
  (∀ nid, (r.1.tunnels nid).window .current = (r'.1.tunnels nid).window .current ∧
    (r.1.tunnels nid).window .previous = (r'.1.tunnels nid).window .previous) ∧ r.2 = r'.2

/-- The fast path shows: the window counts the number, or the frame is a neighbour solicitation. -/
def Visible (d : Daemon C Addr) (pkt : Bytes) : Prop :=
  ∃ target frame w, d.attempt pkt = some (target, frame) ∧
    (d.tunnels target.nid).window target.handles.replay = some w ∧
    (FarAhead w (seqnoOf target.ct) ∨
      (w.check (seqnoOf target.ct) true).1 = .ok () ∧ d.settings.kernelForwarding = false ∧ Solicits frame)

theorem Same.window {r r' : Daemon C Addr × List Effect} (h : Same r r') (nid : NodeId)
    {handles : TunnelHandles Addr} {t : Tunnel C Addr} (hhc : handles.Current t) :
    (r.1.tunnels nid).window handles.replay = (r'.1.tunnels nid).window handles.replay := by
  unfold TunnelHandles.Current at hhc
  cases hrep : handles.replay with
  | current => exact (h.1 nid).1
  | previous => exact (h.1 nid).2
  | detached w =>
    rw [hrep] at hhc
    exact hhc.elim

theorem same_opened_iff [DecidableEq Addr] {c : Prop} [Decidable c] {peer : Option Addr} {direct : Bool}
    {fx : Effect} : Same (d, [fx]) ((d.opened peer nid direct).1, if c then [] else [fx]) ↔ ¬ c := by
  have hwindows : ∀ nid' shared, ((d.opened peer nid direct).1.tunnels nid').window shared =
      (d.tunnels nid').window shared := fun nid' shared => window_opened _ _ _ _
  by_cases hc : c
  · simp [Same, hc]
  · simp [Same, hc, hwindows]

/-- On a current snapshot, trying the fast path first shows exactly in these cases. -/
theorem same_iff [DecidableEq Addr] (hcur : d.Current) (peer : Option Addr) (rng : C.Rng) (pkt : Bytes) :
    Same (d.recv peer rng pkt) (d.handleIncoming peer rng pkt) ↔ ¬ d.Visible pkt := by
  cases hatt : d.attempt pkt with
  | none =>
    rw [recv_of_not_attempt hatt]
    refine ⟨fun _ => ?_, fun _ => ⟨fun _ => ⟨rfl, rfl⟩, rfl⟩⟩
    rintro ⟨target, frame, w, hsome, -⟩
    rw [hatt] at hsome
    cases hsome
  | some found =>
    obtain ⟨target, frame⟩ := found
    have hhc := hcur.handles hatt
    obtain ⟨w, hw, hslow⟩ := handleIncoming_of_attempt hcur hatt peer rng
    have hfast := recv_of_attempt peer rng hatt hw
    have hvis : d.Visible pkt ↔ FarAhead w (seqnoOf target.ct) ∨
        (w.check (seqnoOf target.ct) true).1 = .ok () ∧ d.settings.kernelForwarding = false ∧
          Solicits frame := by
      constructor
      · rintro ⟨target', frame', w', hatt', hw', hcase⟩
        obtain ⟨rfl, rfl⟩ := Prod.mk.inj (Option.some.inj (hatt.symm.trans hatt'))
        obtain rfl := Option.some.inj (hw.symm.trans hw')
        exact hcase
      · exact fun hcase => ⟨target, frame, w, hatt, hw, hcase⟩
    rw [hvis]
    by_cases hfar : FarAhead w (seqnoOf target.ct)
    · -- the slow path counts the number a second time
      rw [check_of_farAhead hfar] at hfast
      have hatt' : (d.setWindow target.nid { w with farfuture := w.farfuture + 1 }
          target.handles.replay).attempt pkt = some (target, frame) := by
        rw [setWindow_of_current hhc]
        exact hatt
      have hfastw := window_handleIncoming (hcur.setWindow hhc _) peer rng hatt' (window_setWindow hhc _)
      have hsloww := window_handleIncoming hcur peer rng hatt hw
      rw [check_of_farAhead hfar] at hsloww
      refine ⟨fun hsame => ?_, fun hnot => absurd (.inl hfar) hnot⟩
      have heq := hsame.window target.nid hhc
      rw [hfast, hfastw, hsloww] at heq
      exact absurd (Option.some.inj heq) (check_twice_ne hfar)
    · rcases check_of_not_farAhead hfar with ⟨w', hok⟩ | herr
      · rw [hok] at hfast hslow
        rw [hfast, hslow, hok]
        rw [same_opened_iff]
        simp [hfar]
      · rw [herr] at hfast
        dsimp only at hfast
        rw [setWindow_self hhc hw] at hfast
        rw [hfast, herr]
        simp [Same, hfar]

end Daemon

/-- A datagram as the socket gives it, with what the random source yields if the session needs it. -/
structure Arrival (C : Crypto) (Addr : Type) where
  peer : Option Addr
  rng : C.Rng
  pkt : Bytes

/-- A datagram that the fast path takes comes from the confirmed address of its sender, so that the
slow path would not change the address. -/
def Daemon.Settled (d : Daemon C Addr) (a : Arrival C Addr) : Prop :=
  ∀ target frame p, d.attempt a.pkt = some (target, frame) → a.peer = some p →
    (d.tunnels target.nid).udpAddrCached.isSome ∧ (d.tunnels target.nid).udpAddr = some p

section Run

variable [DecidableEq Addr] {d : Daemon C Addr}

/-- With a current snapshot and a settled address, what does not show leaves the very same state. -/
theorem Daemon.recv_eq {a : Arrival C Addr} (hcur : d.Current) (hvis : ¬ d.Visible a.pkt)
    (hset : d.Settled a) : d.recv a.peer a.rng a.pkt = d.handleIncoming a.peer a.rng a.pkt := by
  cases hatt : d.attempt a.pkt with
  | none => exact recv_of_not_attempt hatt
  | some found =>
    obtain ⟨target, frame⟩ := found
    have hhc := hcur.handles hatt
    obtain ⟨w, hw, hslow⟩ := handleIncoming_of_attempt hcur hatt a.peer a.rng
    rw [recv_of_attempt a.peer a.rng hatt hw]
    have hfar : ¬ FarAhead w (seqnoOf target.ct) := fun h => hvis ⟨target, frame, w, hatt, hw, .inl h⟩
    rcases check_of_not_farAhead hfar with ⟨w', hok⟩ | herr
    · have hsol : ¬ (d.settings.kernelForwarding = false ∧ Solicits frame) := fun h =>
        hvis ⟨target, frame, w, hatt, hw, .inr ⟨by rw [hok], h⟩⟩
      have hopened : ((d.setWindow target.nid w' target.handles.replay).opened a.peer target.nid true).1 =
          d.setWindow target.nid w' target.handles.replay := by
        unfold opened
        cases hpeer : a.peer with
        | none => rfl
        | some p =>
          obtain ⟨hcached, haddr⟩ := hset target frame p hatt hpeer
          rw [setWindow_of_current hhc]
          simp only [if_true, confirmUdpAddr]
          rw [if_pos]
          simp only [setTunnel, update_self]
          rw [(Tunnel.udpAddr_setWindow _ _ _).1, (Tunnel.udpAddr_setWindow _ _ _).2]
          exact ⟨hcached, haddr⟩
      rw [hslow, hok]
      dsimp only
      rw [hopened, if_neg hsol]
    · rw [herr]
      dsimp only
      rw [setWindow_self hhc hw]

/-- The daemon over a sequence of datagrams: `react` is whatever the rest of it does with the effects. -/
def runWith (handle : Daemon C Addr → Arrival C Addr → Daemon C Addr × List Effect)
    (react : Daemon C Addr → List Effect → Daemon C Addr) :
    Daemon C Addr → List (Arrival C Addr) → Daemon C Addr × List (List Effect)
  | d, [] => (d, [])
  | d, a :: as =>
    let (d', fx) := handle d a
    let (d'', log) := runWith handle react (react d' fx) as
    (d'', fx :: log)

def fastThenSlow (d : Daemon C Addr) (a : Arrival C Addr) : Daemon C Addr × List Effect :=
  d.recv a.peer a.rng a.pkt

def slowOnly (d : Daemon C Addr) (a : Arrival C Addr) : Daemon C Addr × List Effect :=
  d.handleIncoming a.peer a.rng a.pkt

/-- At every datagram of the run the snapshot is current, the address is settled and nothing shows. -/
def Quiet (react : Daemon C Addr → List Effect → Daemon C Addr) :
    Daemon C Addr → List (Arrival C Addr) → Prop
  | _, [] => True
  | d, a :: as =>
    (d.Current ∧ d.Settled a ∧ ¬ d.Visible a.pkt) ∧ Quiet react (react (slowOnly d a).1 (slowOnly d a).2) as

theorem runWith_eq (react : Daemon C Addr → List Effect → Daemon C Addr) {as : List (Arrival C Addr)}
    (h : Quiet react d as) : runWith fastThenSlow react d as = runWith slowOnly react d as := by
  induction as generalizing d with
  | nil => rfl
  | cons a as ih =>
    obtain ⟨⟨hcur, hset, hvis⟩, hrest⟩ := h
    have hstep : fastThenSlow d a = slowOnly d a := Daemon.recv_eq hcur hvis hset
    simp only [runWith, hstep, ih hrest]

/-- From a state with a current snapshot a datagram leaves the same windows, frames and replies with and
without the fast path iff the fast path does not show; and a whole run in which it never shows, and
takes datagrams from confirmed addresses only, is the same run. -/
theorem fastPath_invisible_iff :
    (∀ d : Daemon C Addr, d.Current → ∀ a : Arrival C Addr,
      Daemon.Same (fastThenSlow d a) (slowOnly d a) ↔ ¬ d.Visible a.pkt) ∧
    ∀ react (d : Daemon C Addr) (as : List (Arrival C Addr)), Quiet react d as →
      runWith fastThenSlow react d as = runWith slowOnly react d as :=
  ⟨fun _ hcur a => Daemon.same_iff hcur a.peer a.rng a.pkt, fun react _ _ => runWith_eq react⟩

end Run

namespace Sample

def settings : Settings := ⟨.router, false, false, false, false⟩

def table : RouteTable where
  ipv4 := [(.v4 ⟨10, 0, 0, 0⟩ 8 10, some "me")]
  ipv6 := [(.v6 ⟨[1, 0, 0, 0, 0, 0, 0, 0], rfl⟩ 16 10, some "me")]

def id6 (id : Bytes) : Option NodeId := if id = List.replicate 6 1 then some 1 else none

def resolve (name : String) : Option NodeId := if name = "me" then some 0 else none

def daemon : Daemon Crypto.null ℕ :=
  Daemon.installHandles
    { settings := settings, anyPcap := false, name := "me", myself := 0, mymac := List.replicate 6 0
      id6Table := id6, subnets := table, resolve := resolve, reachable := fun _ => true, via := fun _ => none
      dhtProbeSent := fun _ => false, discovery := false, decompress := fun _ _ => none, nodes := [0, 1]
      tunnels := fun nid => if nid = 1 then ⟨some nullReady.self, none, false, some 7, some 7, true⟩
        else ⟨none, none, false, none, none, false⟩
      snap := some ⟨false, id6, table, "me", fun _ => none⟩ } 1

def datagram (seqno : ℕ) (body : Bytes) : Arrival Crypto.null ℕ :=
  ⟨some 7, (), List.replicate 6 0 ++ List.replicate 6 1 ++ BigEndian.encode 4 seqno ++ PKT_NORMAL :: body ++
    List.replicate 16 0⟩

def packetV4 : Bytes := 0x45 :: List.replicate 15 0 ++ [10, 0, 0, 1]

def solicitation : Bytes :=
  [0x60, 0, 0, 0, 0, 8, 58, 255] ++ List.replicate 16 0 ++ 0 :: 1 :: List.replicate 14 0 ++
    135 :: List.replicate 7 0

/-- The slow path has dropped three numbers far ahead. -/
def ahead : Daemon Crypto.null ℕ :=
  [1000, 1001, 1002].foldl (fun d n => (slowOnly d (datagram n packetV4)).1) daemon

theorem current_daemon : daemon.Current := by
  obtain ⟨hframing, hst, hin, -, haead⟩ := nullReady_self
  refine Daemon.Current.installHandles (s := nullReady.self) (c := ⟨.chaCha20Poly1305, List.replicate 64 0⟩)
    ⟨rfl, ?_⟩ rfl ⟨hframing, hst, hin⟩ haead.symm
  intro snap hsnap
  obtain rfl := Option.some.inj hsnap
  exact ⟨rfl, rfl, rfl, rfl, nofun⟩

def target (a : Arrival Crypto.null ℕ) : RxTarget ℕ :=
  ⟨1, ⟨⟨.chaCha20Poly1305, List.replicate 64 0⟩, .current, some 7, true⟩, a.pkt.drop 12⟩

def snap : TxSnapshot ℕ :=
  ⟨false, id6, table, "me", update (fun _ => none) 1 (some (target (datagram 2 packetV4)).handles)⟩

theorem snap_daemon : daemon.snap = some snap := by
  obtain ⟨-, -, -, hkey, haead⟩ := nullReady_self
  simp [daemon, Daemon.installHandles, hkey, haead, snap, target]

def frameV4 : Bytes := List.replicate 12 0 ++ [0x08, 0x00] ++ packetV4

theorem packetV4_taken : rxProbe snap (datagram 2 packetV4).pkt = some (target (datagram 2 packetV4)) ∧
    daemon.attempt (datagram 2 packetV4).pkt = some (target (datagram 2 packetV4), frameV4) ∧
    (daemon.rxOpen snap (target (datagram 2 packetV4))).2 = some frameV4 ∧
    (daemon.tunnels 1).window .current = some ⟨2, List.replicate 16 0, 0⟩ ∧
    ¬ FarAhead ⟨2, List.replicate 16 0, 0⟩ (seqnoOf (target (datagram 2 packetV4)).ct) ∧ ¬ Solicits frameV4 := by
  decide +kernel

theorem not_visible_packetV4 : ¬ daemon.Visible (datagram 2 packetV4).pkt := by
  rintro ⟨t, frame, w, hatt, hw, hcase⟩
  obtain ⟨-, hattempt, -, hwindow, hnear, hplain⟩ := packetV4_taken
  obtain ⟨rfl, rfl⟩ := Prod.mk.inj (Option.some.inj (hattempt.symm.trans hatt))
  obtain rfl := Option.some.inj (hwindow.symm.trans hw)
  rcases hcase with hfar | ⟨-, -, hsolicits⟩
  · exact hnear hfar
  · exact hplain hsolicits

end Sample

/-- The fourth number far ahead is dropped by the slow path, and accepted if the fast path has counted
it before. -/
theorem not_same_farAhead :
    ¬ Daemon.Same (fastThenSlow Sample.ahead (Sample.datagram 1003 Sample.packetV4))
      (slowOnly Sample.ahead (Sample.datagram 1003 Sample.packetV4)) := by
  rintro ⟨-, heq⟩
  revert heq
  decide +kernel

theorem fastPath_invisible_packetV4 :
    Daemon.Same (fastThenSlow Sample.daemon (Sample.datagram 2 Sample.packetV4))
        (slowOnly Sample.daemon (Sample.datagram 2 Sample.packetV4)) ∧
      runWith fastThenSlow (fun d _ => d) Sample.daemon [Sample.datagram 2 Sample.packetV4] =
        runWith slowOnly (fun d _ => d) Sample.daemon [Sample.datagram 2 Sample.packetV4] := by
  refine ⟨(fastPath_invisible_iff.1 _ Sample.current_daemon _).2 Sample.not_visible_packetV4,
    fastPath_invisible_iff.2 _ _ _ ⟨⟨Sample.current_daemon, ?_, Sample.not_visible_packetV4⟩, trivial⟩⟩
  intro t frame p hatt hpeer
  obtain ⟨rfl, rfl⟩ := Prod.mk.inj (Option.some.inj (Sample.packetV4_taken.2.1.symm.trans hatt))
  obtain rfl : 7 = p := Option.some.inj hpeer
  exact ⟨rfl, rfl⟩

end Tincr.Net

import Tincr.Net.Route
import Tincr.Sptps.Session

/-!
Receiving a datagram. `handleIncoming` is the slow path: it finds the sender, relays or opens the
datagram and routes the frame inside. `recv` tries the fast path first, which opens the datagram with
the handles of a snapshot and writes the frame to the device if it is an ordinary packet for this
node; whatever it does not take goes to the slow path. The handles share the replay window of the
session they were made from. What a path hands on to the rest of the daemon is collected as effects.
-/

namespace Tincr.Net

open Sptps

abbrev MTU : ℕ := 1518
abbrev ETH_HLEN : ℕ := 14
abbrev SPTPS_DGRAM_MIN : ℕ := 21
abbrev PKT_NORMAL : UInt8 := 0
abbrev PKT_COMPRESSED : UInt8 := 1
abbrev PKT_MAC : UInt8 := 2
abbrev PKT_PROBE : UInt8 := 4

inductive RoutingMode
  | router
  | switch
  | hub
deriving DecidableEq

structure Settings where
  routingMode : RoutingMode
  /-- `forwarding_mode == Kernel`. -/
  kernelForwarding : Bool
  priorityInheritance : Bool
  overwriteMac : Bool
  /-- The DNS stub is on. -/
  dns : Bool

def Settings.slowpathAll (s : Settings) : Bool :=
  s.dns || s.routingMode != .router || s.priorityInheritance || s.overwriteMac

variable {C : Crypto} {Addr : Type}

structure Tunnel (C : Crypto) (Addr : Type) where
  sptps : Option (Sptps C)
  /-- The session before a restart, kept for datagrams still under its key. -/
  prevSptps : Option (Sptps C)
  waitingForKey : Bool
  udpAddr : Option Addr
  udpAddrCached : Option Addr
  udpConfirmed : Bool

/-- The session whose replay window a handle shares; `detached` if no tunnel holds it any more. -/
inductive Shared
  | current
  | previous
  | detached (w : ReplayWindow)
deriving DecidableEq

structure TunnelHandles (Addr : Type) where
  incipher : SptpsCipher
  replay : Shared
  udpAddr : Option Addr
  /-- The daemon's own table has this handle too, so that confirmed addresses reach it. -/
  mirrored : Bool
deriving DecidableEq

structure TxSnapshot (Addr : Type) where
  slowpathAll : Bool
  id6 : Bytes → Option NodeId
  subnets : RouteTable
  myselfName : String
  tunnels : NodeId → Option (TunnelHandles Addr)

structure Daemon (C : Crypto) (Addr : Type) where
  settings : Settings
  anyPcap : Bool
  name : String
  myself : NodeId
  mymac : Bytes
  id6Table : Bytes → Option NodeId
  subnets : RouteTable
  /-- The reachable node of this name. -/
  resolve : String → Option NodeId
  reachable : NodeId → Bool
  via : NodeId → Option NodeId
  dhtProbeSent : Addr → Bool
  discovery : Bool
  decompress : NodeId → Bytes → Option Bytes
  /-- The ids in use. -/
  nodes : List NodeId
  tunnels : NodeId → Tunnel C Addr
  snap : Option (TxSnapshot Addr)

inductive Effect
  | reflexive (addr : Bytes)
  | relay (dst src : NodeId) (ct : Bytes)
  | udpInfo (nid : NodeId)
  | mtuInfo (nid : NodeId)
  | reqKey (nid : NodeId)
  /-- `maybe_restart_stuck_tunnel`. -/
  | restart (nid : NodeId)
  /-- `dispatch_tunnel_outputs`. -/
  | outputs (nid : NodeId) (outs : List Output)
  /-- `udp_probe_h`. -/
  | probe (nid : NodeId) (body : Bytes)
  | pcap (frame : Bytes)
  | arp (nid : NodeId) (frame : Bytes)
  /-- `route_packet_mac`. -/
  | switched (nid : NodeId) (frame : Bytes)
  /-- `dispatch_route_result`, for another node than this one. -/
  | routed (nid : NodeId) (result : RouteResult) (frame : Bytes)
  /-- `send_packet_myself`: a frame for the device. -/
  | deliver (frame : Bytes)
  | panicked
deriving DecidableEq

namespace Daemon

variable (d : Daemon C Addr) (nid : NodeId)

def setTunnel (t : Tunnel C Addr) : Daemon C Addr := { d with tunnels := Function.update d.tunnels nid t }

def sendPacketMyself (frame : Bytes) : Effect :=
  if d.settings.overwriteMac ∧ 12 ≤ frame.length then
    .deliver (d.mymac ++ d.mymac.set 5 (d.mymac.getD 5 0 ^^^ 0xFF) ++ frame.drop 12)
  else .deliver frame

/-- `forward_packet(frame, Some(nid))`. A neighbour solicitation from a peer is only logged. -/
def forwardPacket (frame : Bytes) : List Effect :=
  (if d.anyPcap then [.pcap frame] else []) ++
    if d.settings.kernelForwarding then [d.sendPacketMyself frame]
    else match d.settings.routingMode with
    | .switch => [.switched nid frame]
    | .hub => [.routed nid .broadcast frame]
    | .router =>
      if ETHER_SIZE ≤ frame.length ∧ ethertype frame = ETH_P_ARP then [.arp nid frame]
      else match route frame d.subnets d.resolve with
      | .forward dst =>
        if dst = d.myself then [d.sendPacketMyself frame] else [.routed nid (.forward dst) frame]
      | .unreachable t c => [.routed nid (.unreachable t c) frame]
      | .broadcast => [.routed nid .broadcast frame]
      | .neighborSolicit => []
      | .unsupported => []
      | .tooShort _ _ => []

/-- The ethertype for the version nibble of an IP packet, as it stands in the header. -/
def ipEthertype (b : UInt8) : Option Bytes :=
  if b >>> 4 = 4 then some [0x08, 0x00] else if b >>> 4 = 6 then some [0x86, 0xDD] else none

/-- `receive_sptps_record` of a record that came over UDP. -/
def receiveSptpsRecord (ty : UInt8) (body : Bytes) : List Effect :=
  if MTU < body.length then []
  else if ty = PKT_PROBE then [.probe nid body]
  else if ty &&& ~~~ (PKT_COMPRESSED ||| PKT_MAC) ≠ 0 then []
  else if d.settings.routingMode ≠ .router ∧ ty &&& PKT_MAC = 0 then []
  else
    match if ty &&& PKT_COMPRESSED ≠ 0 then d.decompress nid body else some body with
    | none => []
    | some body =>
      if ty &&& PKT_MAC ≠ 0 then d.forwardPacket nid body
      else match body.head?.bind ipEthertype with
      | none => []
      | some et => d.forwardPacket nid (List.replicate 12 0 ++ et ++ body)

def confirmUdpAddr [DecidableEq Addr] (peer : Addr) : Daemon C Addr :=
  let t := d.tunnels nid
  if t.udpAddrCached.isSome ∧ t.udpAddr = some peer then d
  else
    { d.setTunnel nid { t with udpAddr := some peer, udpAddrCached := some peer, udpConfirmed := true } with
      snap := d.snap.map fun s =>
        { s with tunnels := Function.update s.tunnels nid <| (s.tunnels nid).map fun h =>
            if h.mirrored then { h with udpAddr := some peer } else h } }

end Daemon

def openData (s : Sptps C) (rng : C.Rng) (ct : Bytes) : Except Sptps.Fault (UInt8 × Bytes) × Sptps C :=
  match (openDataInto ct [] ETH_HLEN).run ⟨s, rng, [], []⟩ with
  | .ok (.ok ty, out) cx => (.ok (ty, out), cx.self)
  | .ok (.error e, _) cx => (.error (.err e), cx.self)
  | .error f cx => (.error f, cx.self)

/-- The session of the tunnel, and the previous one if this one cannot open the datagram. -/
def Tunnel.openData (t : Tunnel C Addr) (s : Sptps C) (rng : C.Rng) (ct : Bytes) :
    Except Sptps.Fault (UInt8 × Bytes) × Tunnel C Addr :=
  let (r, s') := Net.openData s rng ct
  let t' := { t with sptps := some s' }
  match r, t'.prevSptps with
  | .error (.err .invalidState), some p | .error (.err .decryptFailed), some p =>
    let (r', p') := Net.openData p rng ct
    (r', { t' with prevSptps := some p' })
  | _, _ => (r, t')

def parsePortProbeReply (pkt : Bytes) : Option Bytes :=
  if pkt.head? = some 0x64 then
    match (List.range pkt.length).find? fun i => (pkt.drop i).take 6 == "2:ip6:".toUTF8.toList with
    | none => none
    | some i => if i + 12 ≤ pkt.length then some ((pkt.drop (i + 6)).take 6) else none
  else none

namespace Daemon

variable (d : Daemon C Addr)

section Slow

variable [DecidableEq Addr] (peer : Option Addr)

/-- A datagram with a destination: consumed unless it is for this node. -/
def handleRelayReceive (nid : NodeId) (dst ct : Bytes) : Bool × List Effect :=
  match d.id6Table dst with
  | none => (true, [])
  | some to_ =>
    if d.reachable to_ = false then (true, [])
    else if to_ ≠ d.myself then
      let confirmed := peer.any fun a =>
        d.nodes.any fun n => (d.tunnels n).udpConfirmed && decide ((d.tunnels n).udpAddr = some a)
      (true, if confirmed then [.relay to_ nid ct] else [])
    else (false, if d.via nid = some d.myself then [.udpInfo nid] else [])

/-- The bookkeeping after a datagram was opened: a direct one confirms the address of its sender, a
relayed one is answered with the MTU. -/
def opened (nid : NodeId) (direct : Bool) : Daemon C Addr × List Effect :=
  if direct then
    match peer with
    | some a => (d.confirmUdpAddr nid a, [])
    | none => (d, [])
  else (d, [.mtuInfo nid])

/-- The general decoder of the session, for handshake records and before there is a key. -/
def receiveSession (rng : C.Rng) (nid : NodeId) (direct : Bool) (ct : Bytes) : Daemon C Addr × List Effect :=
  match (d.tunnels nid).sptps with
  | none => (d, [])
  | some s =>
    match (receive ct).run ⟨s, rng, [], []⟩ with
    | .ok _ cx =>
      let (d', fx) := (d.setTunnel nid { d.tunnels nid with sptps := some cx.self }).opened peer nid direct
      (d', fx ++ [.outputs nid cx.out])
    | .error (.err _) cx => (d.setTunnel nid { d.tunnels nid with sptps := some cx.self }, [.restart nid])
    | .error (.panic _) _ => (d, [.panicked])

def receiveOwn (rng : C.Rng) (nid : NodeId) (direct : Bool) (ct : Bytes) : Daemon C Addr × List Effect :=
  match (d.tunnels nid).sptps with
  | none => (d, if (d.tunnels nid).waitingForKey then [] else [.reqKey nid])
  | some s =>
    let (r, t) := (d.tunnels nid).openData s rng ct
    match r with
    | .ok (ty, out) =>
      let (d', fx) := (d.setTunnel nid t).opened peer nid direct
      (d', fx ++ d'.receiveSptpsRecord nid ty (out.drop ETH_HLEN))
    | .error (.err .invalidState) | .error (.err .badRecord) =>
      (d.setTunnel nid t).receiveSession peer rng nid direct ct
    | .error (.err _) => (d.setTunnel nid t, [.restart nid])
    | .error (.panic _) => (d, [.panicked])

def handleIncoming (rng : C.Rng) (pkt : Bytes) : Daemon C Addr × List Effect :=
  match if peer.any d.dhtProbeSent ∧ d.discovery then parsePortProbeReply pkt else none with
  | some addr => (d, [.reflexive addr])
  | none =>
    if pkt.length < 12 then (d, [])
    else
      let dst := pkt.take 6
      let ct := pkt.drop 12
      match d.id6Table ((pkt.drop 6).take 6) with
      | none => (d, [])
      | some nid =>
        if dst = List.replicate 6 0 then d.receiveOwn peer rng nid true ct
        else
          match d.handleRelayReceive peer nid dst ct with
          | (true, fx) => (d, fx)
          | (false, fx) =>
            let (d', fx') := d.receiveOwn peer rng nid false ct
            (d', fx ++ fx')

end Slow

end Daemon

/-- A datagram that may take the fast path: its sender, the handles, and the datagram itself. -/
structure RxTarget (Addr : Type) where
  nid : NodeId
  handles : TunnelHandles Addr
  ct : Bytes
deriving DecidableEq

def rxProbe (snap : TxSnapshot Addr) (pkt : Bytes) : Option (RxTarget Addr) :=
  if snap.slowpathAll then none
  else if pkt.length < 12 + SPTPS_DGRAM_MIN then none
  else if pkt.take 6 ≠ List.replicate 6 0 then none
  else
    match snap.id6 ((pkt.drop 6).take 6) with
    | none => none
    | some nid =>
      match snap.tunnels nid with
      | none => none
      | some h => if h.udpAddr.isNone then none else some ⟨nid, h, pkt.drop 12⟩

/-- `probe_v4` and `probe_v6`: the first entry that covers the address belongs to this node. -/
def TxSnapshot.mine (snap : TxSnapshot Addr) (entries : List Entry) (dst : Bytes) : Bool :=
  match lookup (fun _ => true) dst none entries with
  | some (_, some owner) => owner == snap.myselfName
  | _ => false

/-- The gate on the destination: the ethertype of a packet for this node. -/
def TxSnapshot.ownEthertype (snap : TxSnapshot Addr) (body : Bytes) : Option Bytes :=
  match body with
  | [] => none
  | b :: _ =>
    if b >>> 4 = 4 then
      if body.length < IP_SIZE then none
      else if snap.mine snap.subnets.ipv4 ((body.drop 16).take 4) then some [0x08, 0x00] else none
    else if b >>> 4 = 6 then
      if body.length < IP6_SIZE then none
      else if snap.mine snap.subnets.ipv6 ((body.drop 24).take 16) then some [0x86, 0xDD] else none
    else none

def seqnoOf (ct : Bytes) : UInt32 := UInt32.ofNat (BigEndian.decode (ct.take 4))

/-- Steps 1 to 4 and 6 of `rx_open`: the frame for the device, if the datagram passes every gate before
the replay window. -/
def rxGates (C : Crypto) (snap : TxSnapshot Addr) (target : RxTarget Addr) : Option Bytes :=
  match target.handles.incipher.open? C (seqnoOf target.ct) (target.ct.drop 4) with
  | none => none
  | some [] => none
  | some (ty :: body) =>
    if ty ≠ PKT_NORMAL then none
    else if MTU < body.length then none
    else (snap.ownEthertype body).map fun et => List.replicate 12 0 ++ et ++ body

def Tunnel.window (t : Tunnel C Addr) : Shared → Option ReplayWindow
  | .current => t.sptps.map (·.replay)
  | .previous => t.prevSptps.map (·.replay)
  | .detached w => some w

def Tunnel.setWindow (t : Tunnel C Addr) (w : ReplayWindow) : Shared → Tunnel C Addr
  | .current => { t with sptps := t.sptps.map fun s => { s with replay := w } }
  | .previous => { t with prevSptps := t.prevSptps.map fun s => { s with replay := w } }
  | .detached _ => t

namespace Daemon

variable (d : Daemon C Addr)

def setWindow (nid : NodeId) (w : ReplayWindow) : Shared → Daemon C Addr
  | .detached _ =>
    { d with snap := d.snap.map fun s =>
        { s with tunnels := Function.update s.tunnels nid <| (s.tunnels nid).map fun h =>
            { h with replay := .detached w } } }
  | shared => d.setTunnel nid ((d.tunnels nid).setWindow w shared)

/-- `rx_open`: step 5 commits the number to the window, after every other gate. -/
def rxOpen (snap : TxSnapshot Addr) (target : RxTarget Addr) : Daemon C Addr × Option Bytes :=
  match rxGates C snap target, (d.tunnels target.nid).window target.handles.replay with
  | some frame, some w =>
    match w.check (seqnoOf target.ct) true with
    | (.ok _, w') => (d.setWindow target.nid w' target.handles.replay, some frame)
    | (.error _, w') => (d.setWindow target.nid w' target.handles.replay, none)
  | _, _ => (d, none)

/-- One datagram of a batch: the fast path, and the slow path for what it does not take. -/
def recv [DecidableEq Addr] (peer : Option Addr) (rng : C.Rng) (pkt : Bytes) : Daemon C Addr × List Effect :=
  match if d.anyPcap then none else d.snap with
  | none => d.handleIncoming peer rng pkt
  | some snap =>
    match rxProbe snap pkt with
    | none => d.handleIncoming peer rng pkt
    | some target =>
      match d.rxOpen snap target with
      | (d', some frame) => (d', [.deliver frame])
      | (d', none) => d'.handleIncoming peer rng pkt

/-- The `HandshakeDone` arm: the handles of the session that has just finished its handshake. -/
def installHandles (nid : NodeId) : Daemon C Addr :=
  match (d.tunnels nid).sptps with
  | none => d
  | some s =>
    match s.incipherKey with
    | none => d
    | some key =>
      let handles : TunnelHandles Addr := ⟨⟨s.aead, key⟩, .current, (d.tunnels nid).udpAddrCached, true⟩
      { d with snap := d.snap.map fun snap =>
          { snap with tunnels := Function.update snap.tunnels nid (some handles) } }

end Daemon

end Tincr.Net

import Tincr.Proto.Subnet

/-!
The forwarding decision of router mode: a frame, the subnets in tree order and a way to resolve the
name of an owner to a reachable node give what is to be done with the frame. The tree lists the longer
prefixes first, so the first entry that covers the destination and whose owner is reachable wins.
-/

namespace Tincr.Net

open Proto IpText

abbrev NodeId := ℕ

def maskcmp (a b : List UInt8) (prefixLen : UInt8) : Bool :=
  let full := prefixLen.toNat / 8
  let bits := prefixLen.toNat % 8
  let mask : UInt8 := 0xFF <<< UInt8.ofNat (8 - bits)
  a.take full == b.take full && (bits == 0 || a.getD full 0 &&& mask == b.getD full 0 &&& mask)

def octetsV6 (addr : Ipv6Addr) : List UInt8 :=
  addr.segments.flatMap fun g => [UInt8.ofNat (g.toNat / 256), UInt8.ofNat g.toNat]

/-- `Subnet::matches` against a single address. -/
def covers : Subnet → List UInt8 → Bool
  | .v4 addr prefixLen _, q => maskcmp addr.octets q prefixLen
  | .v6 addr prefixLen _, q => maskcmp (octetsV6 addr) q prefixLen
  | .mac .., _ => false

abbrev Entry := Subnet × Option String

/-- `lookup_ipv4` and `lookup_ipv6`: the first entry with a reachable owner, or else the last one that
covers the address. -/
def lookup (isReachable : String → Bool) (q : List UInt8) (lastHit : Option Entry) :
    List Entry → Option Entry
  | [] => lastHit
  | k :: ks =>
    if covers k.1 q then
      if k.2.all isReachable then some k else lookup isReachable q (some k) ks
    else lookup isReachable q lastHit ks

structure RouteTable where
  ipv4 : List Entry
  ipv6 : List Entry

abbrev ETHER_SIZE : ℕ := 14
abbrev IP_SIZE : ℕ := 20
abbrev IP6_SIZE : ℕ := 40
abbrev ICMP6_SIZE : ℕ := 8
abbrev ETH_P_IP : ℕ := 0x0800
abbrev ETH_P_ARP : ℕ := 0x0806
abbrev ETH_P_IPV6 : ℕ := 0x86DD
abbrev IPPROTO_ICMPV6 : UInt8 := 58
abbrev ND_NEIGHBOR_SOLICIT : UInt8 := 135

inductive RouteResult
  | forward (nid : NodeId)
  | unreachable (icmpType icmpCode : UInt8)
  | unsupported
  | neighborSolicit
  | broadcast
  | tooShort (need got : ℕ)
deriving DecidableEq

/-- What the entry found says: no entry, a broadcast subnet, an owner that is down, or the owner. -/
def decideOwner (resolve : String → Option NodeId) (unknown down : UInt8 × UInt8) :
    Option Entry → RouteResult
  | none => .unreachable unknown.1 unknown.2
  | some (_, none) => .broadcast
  | some (_, some owner) =>
    match resolve owner with
    | none => .unreachable down.1 down.2
    | some nid => .forward nid

def routeIpv4 (data : List UInt8) (table : RouteTable) (resolve : String → Option NodeId) : RouteResult :=
  if data.length < ETHER_SIZE + IP_SIZE then .tooShort (ETHER_SIZE + IP_SIZE) data.length
  else
    decideOwner resolve (3, 6) (3, 0)
      (lookup (fun n => (resolve n).isSome) ((data.drop (ETHER_SIZE + 16)).take 4) none table.ipv4)

/-- A neighbour solicitation, whoever it is for. -/
def isNeighborSolicit (data : List UInt8) : Bool :=
  data.getD 20 0 == IPPROTO_ICMPV6 && decide (ETHER_SIZE + IP6_SIZE + ICMP6_SIZE ≤ data.length) &&
    data.getD 54 0 == ND_NEIGHBOR_SOLICIT

def routeIpv6 (data : List UInt8) (table : RouteTable) (resolve : String → Option NodeId) : RouteResult :=
  if data.length < ETHER_SIZE + IP6_SIZE then .tooShort (ETHER_SIZE + IP6_SIZE) data.length
  else if isNeighborSolicit data then .neighborSolicit
  else
    decideOwner resolve (1, 3) (1, 0)
      (lookup (fun n => (resolve n).isSome) ((data.drop (ETHER_SIZE + 24)).take 16) none table.ipv6)

def ethertype (data : List UInt8) : ℕ := (data.getD 12 0).toNat * 256 + (data.getD 13 0).toNat

def route (data : List UInt8) (table : RouteTable) (resolve : String → Option NodeId) : RouteResult :=
  if data.length < ETHER_SIZE then .tooShort ETHER_SIZE data.length
  else if ethertype data = ETH_P_IP then routeIpv4 data table resolve
  else if ethertype data = ETH_P_IPV6 then routeIpv6 data table resolve
  else .unsupported

/-- If the first entry that covers an address belongs to a reachable node, asking for a reachable owner
finds the same entry. -/
theorem lookup_of_first {isReachable : String → Bool} {q : List UInt8} {s : Subnet} {owner : String}
    (hreach : isReachable owner = true) {ks : List Entry}
    (h : lookup (fun _ => true) q none ks = some (s, some owner)) :
    lookup isReachable q none ks = some (s, some owner) := by
  induction ks with
  | nil => cases h
  | cons k ks ih =>
    unfold lookup at h ⊢
    by_cases hcov : covers k.1 q = true
    · rw [if_pos hcov, if_pos (by simp)] at h
      obtain rfl := Option.some.inj h
      rw [if_pos hcov, if_pos (by simpa using hreach)]
    · rw [if_neg hcov] at h ⊢
      exact ih h

end Tincr.Net

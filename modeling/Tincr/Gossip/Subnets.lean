import Tincr.Proto.Msg

/-!
The handlers of `ADD_SUBNET` and `DEL_SUBNET`. Both parse the line, drop it if it was seen before, and
then change the subnet tree and, for a MAC address, the forwarding table of the switch, which are kept
in step by hand. What they send and the scripts they start are collected as effects.
-/

namespace Tincr.Gossip

open Words Proto IpText

abbrev NodeId := ℕ

/-- The cache is full at this size, and every new line then counts as seen. -/
abbrev SEEN_CAP : ℕ := 4096

abbrev MAX_NODES : ℕ := 65536

/-- `normalize_key`: the line without its second token, the nonce. -/
def normalizeKey (line : String) : String :=
  match words line.toList with
  | [] => ""
  | [req] => req
  | req :: _ :: rest => unwords (req :: rest)

structure SeenRequests where
  cache : List (String × ℕ)

/-- Whether the line was seen before; if not, it is now. -/
def SeenRequests.check (s : SeenRequests) (line : String) (now : ℕ) : Bool × SeenRequests :=
  let key := normalizeKey line
  if (s.cache.lookup key).isSome then (true, s)
  else if SEEN_CAP ≤ s.cache.length then (true, s)
  else (false, ⟨(key, now) :: s.cache⟩)

/-- One ordered set for each family; broadcast subnets have no owner. -/
structure SubnetTree where
  ipv4 : Finset (Subnet × Option String)
  ipv6 : Finset (Subnet × Option String)
  mac : Finset (Subnet × Option String)

namespace SubnetTree

def empty : SubnetTree := ⟨∅, ∅, ∅⟩

def family (t : SubnetTree) : Subnet → Finset (Subnet × Option String)
  | .v4 .. => t.ipv4
  | .v6 .. => t.ipv6
  | .mac .. => t.mac

def add (t : SubnetTree) (subnet : Subnet) (owner : String) : SubnetTree :=
  match subnet with
  | .v4 .. => { t with ipv4 := insert (subnet, some owner) t.ipv4 }
  | .v6 .. => { t with ipv6 := insert (subnet, some owner) t.ipv6 }
  | .mac .. => { t with mac := insert (subnet, some owner) t.mac }

def del (t : SubnetTree) (subnet : Subnet) (owner : String) : Bool × SubnetTree :=
  (decide ((subnet, some owner) ∈ t.family subnet),
    match subnet with
    | .v4 .. => { t with ipv4 := t.ipv4.erase (subnet, some owner) }
    | .v6 .. => { t with ipv6 := t.ipv6.erase (subnet, some owner) }
    | .mac .. => { t with mac := t.mac.erase (subnet, some owner) })

def contains (t : SubnetTree) (subnet : Subnet) (owner : String) : Bool :=
  decide ((subnet, some owner) ∈ t.family subnet)

end SubnetTree

/-- `is_multicast_subnet`: inside `224.0.0.0/4` or `ff00::/8`. -/
def isMulticastSubnet : Subnet → Bool
  | .v4 addr prefixLen _ => 4 ≤ prefixLen && 224 ≤ addr.a && addr.a ≤ 239
  | .v6 addr prefixLen _ => 8 ≤ prefixLen && addr.segments.head?.any fun g => g &&& 0xff00 == 0xff00
  | .mac .. => false

abbrev MacTable := Mac → Option String

/-- The last owner to announce an address is its entry. -/
def MacTable.announce (t : MacTable) (subnet : Subnet) (owner : String) : MacTable :=
  match subnet with
  | .mac addr _ => Function.update t addr (some owner)
  | _ => t

/-- The entry goes if it names the owner that withdraws. -/
def MacTable.withdraw (t : MacTable) (subnet : Subnet) (owner : String) : MacTable :=
  match subnet with
  | .mac addr _ => if t addr = some owner then Function.update t addr none else t
  | _ => t

structure Daemon where
  name : String
  myself : NodeId
  tunnelserver : Bool
  strictsubnets : Bool
  nodeIds : List (String × NodeId)
  reachable : NodeId → Bool
  seen : SeenRequests
  subnets : SubnetTree
  macTable : MacTable
  macLeases : List Mac

inductive Effect
  | forward (body : ByteArray)
  | sendSubnet (which : Request) (owner : String) (subnet : Subnet)
  | script (up : Bool) (owner : String) (subnet : Subnet)
  | refreshSubnets

inductive DispatchError
  | badSubnet (reason : String)
deriving DecidableEq

inductive Kind
  | addSubnet
  | delSubnet
deriving DecidableEq

/-- A message from a peer. `fresh` is the slot the graph gives to the next new node. -/
structure Msg where
  kind : Kind
  connName : String
  body : ByteArray
  now : ℕ
  fresh : NodeId

def parseSubnetBody (body : ByteArray) : Except DispatchError SubnetMsg :=
  match String.fromUTF8? body with
  | none => .error (.badSubnet "not UTF-8")
  | some s =>
    match SubnetMsg.parse s with
    | none => .error (.badSubnet "parse failed")
    | some m => .ok m

namespace Daemon

def nodeId (d : Daemon) (name : String) : Option NodeId := d.nodeIds.lookup name

def lookupOrAddNode (d : Daemon) (name : String) (fresh : NodeId) : NodeId × Daemon :=
  match d.nodeId name with
  | some id => (id, d)
  | none => (fresh, { d with
      nodeIds := (name, fresh) :: d.nodeIds
      reachable := Function.update d.reachable fresh false })

/-- A body that is not text is not marked as seen. -/
def seenRequest (d : Daemon) (body : ByteArray) (now : ℕ) : Bool × Daemon :=
  match String.fromUTF8? body with
  | none => (false, d)
  | some s => ((d.seen.check s now).1, { d with seen := (d.seen.check s now).2 })

/-- In tunnel server mode, gossip about neither us nor the peer is dropped. -/
def tunnelserverRejectIndirect (d : Daemon) (connName : String) (about : List String) : Bool :=
  d.tunnelserver && !about.any fun n => n == d.name || n == connName

def leased (d : Daemon) : Subnet → Bool
  | .mac addr _ => decide (addr ∈ d.macLeases)
  | _ => false

def floodedPrologue (d : Daemon) (m : Msg) (about : List String) : Bool × Daemon :=
  let (seen, d) := d.seenRequest m.body m.now
  if seen then (false, d)
  else if d.tunnelserverRejectIndirect m.connName about then (false, d)
  else (true, d)

def onAddSubnet (d : Daemon) (m : Msg) : Except DispatchError (Daemon × List Effect) := do
  let ⟨owner, subnet⟩ ← parseSubnetBody m.body
  let (proceed, d) := d.floodedPrologue m [owner]
  if !proceed then return (d, [])
  if d.subnets.contains subnet owner then return (d, [])
  if MAX_NODES ≤ d.nodeIds.length ∧ (d.nodeId owner).isNone then return (d, [])
  let (id, d) := d.lookupOrAddNode owner m.fresh
  if id = d.myself then return (d, [.sendSubnet .delSubnet d.name subnet])
  if d.tunnelserver then return (d, [])
  if d.strictsubnets then return (d, [.forward m.body])
  if isMulticastSubnet subnet then return (d, [.forward m.body])
  if d.leased subnet then return (d, [])
  let script := if d.reachable id then [.script true owner subnet] else []
  return ({ d with subnets := d.subnets.add subnet owner, macTable := d.macTable.announce subnet owner },
    [.refreshSubnets] ++ script ++ [.forward m.body])

def onDelSubnet (d : Daemon) (m : Msg) : Except DispatchError (Daemon × List Effect) := do
  let ⟨owner, subnet⟩ ← parseSubnetBody m.body
  let (proceed, d) := d.floodedPrologue m [owner]
  if !proceed then return (d, [])
  let some id := d.nodeId owner | return (d, [])
  if id = d.myself then
    if !d.subnets.contains subnet d.name then return (d, [])
    return (d, [.sendSubnet .addSubnet d.name subnet])
  if d.tunnelserver then return (d, [])
  if d.strictsubnets then return (d, [.forward m.body])
  let (didDel, subnets) := d.subnets.del subnet owner
  if !didDel then return ({ d with subnets := subnets }, [.forward m.body])
  let script := if d.reachable id then [.script false owner subnet] else []
  return ({ d with subnets := subnets, macTable := d.macTable.withdraw subnet owner },
    [.forward m.body, .refreshSubnets] ++ script)

/-- The request number of the line picks the handler. -/
def handle (d : Daemon) (m : Msg) : Except DispatchError (Daemon × List Effect) :=
  match m.kind with
  | .addSubnet => d.onAddSubnet m
  | .delSubnet => d.onDelSubnet m

/-- The daemon after a message; a line that does not parse changes nothing. -/
def step (d : Daemon) (m : Msg) : Daemon :=
  match d.handle m with
  | .ok (d', _) => d'
  | .error _ => d

def run (d : Daemon) (ms : List Msg) : Daemon := ms.foldl step d

end Daemon

end Tincr.Gossip

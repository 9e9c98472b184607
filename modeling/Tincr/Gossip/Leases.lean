import Tincr.Gossip.MacTable

/-!
Switch mode: the addresses seen on the local device. A frame from a new address takes out a lease for
it, announces it as a subnet of ours and enters it in the forwarding table; a sweep takes back what has
run out. Three tables are changed by hand in five handlers, and the reload is the one that does not look
at the leases: it replaces all our subnets by those of the configuration.
-/

namespace Tincr.Gossip

open Words Proto

abbrev ETH_HDR_LEN : ℕ := 14
abbrev MAX_MAC_LEASES : ℕ := 4096
abbrev MAX_DURATION_SECS : ℕ := 365 * 24 * 3600
abbrev NANOS_PER_SEC : ℕ := 1000000000

/-- When each lease runs out, in nanoseconds. -/
structure MacLeases where
  leases : List (Mac × ℕ)
deriving DecidableEq

namespace MacLeases

def macs (l : MacLeases) : List Mac := l.leases.map Prod.fst

def contains (l : MacLeases) (mac : Mac) : Bool := decide (mac ∈ l.macs)

def setExpiry (l : MacLeases) (mac : Mac) (expires : ℕ) : MacLeases :=
  ⟨l.leases.map fun e => if e.1 = mac then (mac, expires) else e⟩

def learn (l : MacLeases) (mac : Mac) (now expire_secs : ℕ) : Bool × MacLeases :=
  let expires := now + expire_secs * NANOS_PER_SEC
  if l.contains mac then (false, l.setExpiry mac expires)
  else (l.leases.isEmpty, ⟨(mac, expires) :: l.leases⟩)

def refresh (l : MacLeases) (mac : Mac) (now expire_secs : ℕ) : Bool × MacLeases :=
  if l.contains mac then (true, l.setExpiry mac (now + expire_secs * NANOS_PER_SEC)) else (false, l)

def age (l : MacLeases) (now : ℕ) : List Mac × MacLeases :=
  ((l.leases.filter fun e => e.2 < now).map Prod.fst, ⟨l.leases.filter fun e => ¬ e.2 < now⟩)

@[simp] theorem macs_setExpiry (l : MacLeases) (mac : Mac) (expires : ℕ) : (l.setExpiry mac expires).macs = l.macs := by
  simp only [macs, setExpiry, List.map_map]
  refine List.map_congr_left fun e _ => ?_
  by_cases h : e.1 = mac <;> simp [h]

variable {l : MacLeases} {a : Mac} {now : ℕ}

theorem mem_learn {mac : Mac} {expire_secs : ℕ} :
    a ∈ (l.learn mac now expire_secs).2.macs ↔ a = mac ∨ a ∈ l.macs := by
  unfold learn
  by_cases h : l.contains mac = true
  · have hin : mac ∈ l.macs := by simpa [contains] using h
    rw [if_pos h, macs_setExpiry]
    constructor
    · exact .inr
    · rintro (rfl | ha)
      · exact hin
      · exact ha
  · rw [if_neg h]
    simp [macs]

theorem macs_refresh (l : MacLeases) (mac : Mac) (now expire_secs : ℕ) :
    (l.refresh mac now expire_secs).2.macs = l.macs := by
  unfold refresh
  split_ifs <;> simp

theorem mem_age (h : a ∈ l.macs) : a ∈ (l.age now).1 ∨ a ∈ (l.age now).2.macs := by
  obtain ⟨e, he, rfl⟩ := List.mem_map.1 h
  by_cases hold : e.2 < now
  · exact .inl (List.mem_map.2 ⟨e, List.mem_filter.2 ⟨he, by simpa using hold⟩, rfl⟩)
  · exact .inr (List.mem_map.2 ⟨e, List.mem_filter.2 ⟨he, by simpa using hold⟩, rfl⟩)

theorem not_mem_age (hnd : l.macs.Nodup) (h : a ∈ (l.age now).2.macs) : a ∉ (l.age now).1 := by
  intro hout
  obtain ⟨e, he, rfl⟩ := List.mem_map.1 h
  obtain ⟨e', he', heq⟩ := List.mem_map.1 hout
  obtain ⟨hin, hleft⟩ := List.mem_filter.1 he
  obtain ⟨hin', hgone⟩ := List.mem_filter.1 he'
  obtain rfl : e' = e := List.inj_on_of_nodup_map hnd hin' hin heq
  simp only [decide_eq_true_eq] at hleft hgone
  exact hleft hgone

theorem nodup_learn (hnd : l.macs.Nodup) (mac : Mac) (now expire_secs : ℕ) :
    (l.learn mac now expire_secs).2.macs.Nodup := by
  unfold learn
  by_cases h : l.contains mac = true
  · rw [if_pos h, macs_setExpiry]
    exact hnd
  · have hnew : mac ∉ l.macs := by simpa [contains] using h
    rw [if_neg h]
    exact List.nodup_cons.2 ⟨hnew, hnd⟩

theorem nodup_age (hnd : l.macs.Nodup) (now : ℕ) : (l.age now).2.macs.Nodup :=
  hnd.sublist (List.filter_sublist.map Prod.fst)

end MacLeases

/-! ### Frames -/

inductive LearnAction
  | notOurs
  | new (mac : Mac)
  | refresh (mac : Mac)
deriving DecidableEq

inductive MacRoute
  | tooShort (need have_ : ℕ)
  | broadcast
  | unsupported (reason : String)
  | forward (nid : NodeId)
deriving DecidableEq

def macAt (frame : List UInt8) (at_ : ℕ) (h : at_ + 6 ≤ frame.length) : Mac :=
  ⟨(frame.drop at_).take 6, by simp; omega⟩

theorem src_room {frame : List UInt8} (h : ¬ frame.length < ETH_HDR_LEN) : 6 + 6 ≤ frame.length := by
  simp only [ETH_HDR_LEN] at h
  omega

theorem dst_room {frame : List UInt8} (h : ¬ frame.length < ETH_HDR_LEN) : 0 + 6 ≤ frame.length := by
  have := src_room h
  omega

/-- Where a frame goes, and whether its source address is to be learned. Both are decided on the table
alone. -/
def routeMac (frame : List UInt8) (from_myself : Bool) (source : String) (mac_table : MacTable)
    (resolve : String → Option NodeId) : MacRoute × LearnAction :=
  if h : frame.length < ETH_HDR_LEN then (.tooShort ETH_HDR_LEN frame.length, .notOurs)
  else
    let src := macAt frame 6 (src_room h)
    let dst := macAt frame 0 (dst_room h)
    let learn :=
      if from_myself then if (mac_table src).isSome then .refresh src else .new src else .notOurs
    match mac_table dst with
    | none => (.broadcast, learn)
    | some owner =>
      if owner = source then (.unsupported "MAC routing loop (owner == source)", learn)
      else match resolve owner with
        | some nid => (.forward nid, learn)
        | none => (.broadcast, learn)

/-! ### The daemon in switch mode -/

/-- The tables of the daemon, its leases and the subnets in the configuration last read. -/
structure Switch where
  daemon : Daemon
  leases : MacLeases
  macexpire : ℕ
  ageTimer : Bool
  config : Finset Subnet

/-- What a reload reads. A value that is not set stays as it is. -/
structure Config where
  subnets : Finset Subnet
  tunnelserver : Option Bool
  strictsubnets : Option Bool
  macexpire : Option ℕ

/-- The entry of an address goes, whoever it names. -/
def MacTable.forget (t : MacTable) (subnet : Subnet) : MacTable :=
  match subnet with
  | .mac addr _ => Function.update t addr none
  | _ => t

def SubnetTree.ownedBy (t : SubnetTree) (name : String) : Finset Subnet :=
  ((t.ipv4 ∪ t.ipv6 ∪ t.mac).filter fun e => e ∈ t.family e.1 ∧ e.2 = some name).image Prod.fst

theorem SubnetTree.del_comm (t : SubnetTree) (a b : Subnet) (owner : String) :
    ((t.del a owner).2.del b owner).2 = ((t.del b owner).2.del a owner).2 := by
  cases a <;> cases b <;> simp [SubnetTree.del, Finset.erase_right_comm]

theorem SubnetTree.add_comm (t : SubnetTree) (a b : Subnet) (owner : String) :
    (t.add a owner).add b owner = (t.add b owner).add a owner := by
  cases a <;> cases b <;> simp [SubnetTree.add, Finset.insert_comm]

theorem MacTable.forget_comm (t : MacTable) (a b : Subnet) : (t.forget a).forget b = (t.forget b).forget a := by
  funext x
  cases a <;> cases b <;> simp only [MacTable.forget, Function.update_apply]
  split_ifs <;> rfl

theorem MacTable.announce_comm (t : MacTable) (a b : Subnet) (owner : String) :
    (t.announce a owner).announce b owner = (t.announce b owner).announce a owner := by
  funext x
  cases a <;> cases b <;> simp only [MacTable.announce, Function.update_apply]
  split_ifs <;> rfl

namespace Daemon

def dropOwn (d : Daemon) (subnet : Subnet) : Daemon :=
  { d with subnets := (d.subnets.del subnet d.name).2, macTable := d.macTable.forget subnet }

def addOwn (d : Daemon) (subnet : Subnet) : Daemon :=
  { d with subnets := d.subnets.add subnet d.name, macTable := d.macTable.announce subnet d.name }

instance : RightCommutative dropOwn :=
  ⟨fun d a b => by simp only [dropOwn, SubnetTree.del_comm d.subnets a b, MacTable.forget_comm d.macTable a b]⟩

instance : RightCommutative addOwn :=
  ⟨fun d a b => by simp only [addOwn, SubnetTree.add_comm d.subnets a b, MacTable.announce_comm d.macTable a b]⟩

/-- The subnet diff of a reload: what is ours and not in the configuration goes, then what is new comes.
Both loops are over hash sets, so in no particular order. -/
def reloadSubnets (d : Daemon) (new : Finset Subnet) : Daemon :=
  let current := d.subnets.ownedBy d.name
  (new \ current).val.foldl addOwn ((current \ new).val.foldl dropOwn d)

end Daemon

namespace Switch

def withLeases (s : Switch) (l : MacLeases) : Switch :=
  { s with leases := l, daemon := { s.daemon with macLeases := l.macs } }

def learnMac (s : Switch) (mac : Mac) (now : ℕ) : Switch × List Effect :=
  if MAX_MAC_LEASES ≤ s.leases.leases.length then (s, [])
  else
    let subnet := Subnet.mac mac 10
    let (arm_timer, leases) := s.leases.learn mac now s.macexpire
    let s := { s with daemon := s.daemon.addOwn subnet, ageTimer := s.ageTimer || arm_timer }
    (s.withLeases leases, [.refreshSubnets, .script true s.daemon.name subnet,
      .sendSubnet .addSubnet s.daemon.name subnet])

def routePacketMac (s : Switch) (data : List UInt8) (now : ℕ) : Switch × List Effect :=
  match (routeMac data true s.daemon.name s.daemon.macTable s.daemon.nodeId).2 with
  | .notOurs => (s, [])
  | .new mac => s.learnMac mac now
  | .refresh mac =>
    if s.daemon.macTable mac = some s.daemon.name then
      (s.withLeases (s.leases.refresh mac now s.macexpire).2, [])
    else s.learnMac mac now

def onAgeSubnets (s : Switch) (now : ℕ) : Switch × List Effect :=
  let (expired, leases) := s.leases.age now
  let daemon := expired.foldl (fun d mac => d.dropOwn (.mac mac 10)) s.daemon
  let sent := expired.map fun mac => .sendSubnet .delSubnet s.daemon.name (.mac mac 10)
  ({ s with daemon, ageTimer := s.ageTimer && !leases.leases.isEmpty }.withLeases leases,
    if expired.isEmpty then sent else sent ++ [.refreshSubnets])

/-- A configuration that cannot be read changes nothing. -/
def reloadConfiguration (s : Switch) : Option Config → Switch
  | none => s
  | some c =>
    let tunnelserver := c.tunnelserver.getD s.daemon.tunnelserver
    let daemon := { s.daemon with
      tunnelserver
      strictsubnets := c.strictsubnets.getD s.daemon.strictsubnets || tunnelserver }
    { s with
      daemon := daemon.reloadSubnets c.subnets
      macexpire := (c.macexpire.map (min MAX_DURATION_SECS)).getD s.macexpire
      config := c.subnets }

end Switch

inductive SwitchEvent
  | frame (data : List UInt8) (now : ℕ)
  | message (m : Msg)
  | ageSubnets (now : ℕ)
  | reload (c : Option Config)

namespace Switch

def step (s : Switch) : SwitchEvent → Switch
  | .frame data now => (s.routePacketMac data now).1
  | .message m => { s with daemon := s.daemon.step m }
  | .ageSubnets now => (s.onAgeSubnets now).1
  | .reload c => s.reloadConfiguration c

def run (s : Switch) (es : List SwitchEvent) : Switch := es.foldl step s

end Switch

/-! ### Our subnets through a reload -/

theorem SubnetTree.mem_ownedBy {t : SubnetTree} {name : String} {addr : Mac} {weight : Int32} :
    Subnet.mac addr weight ∈ t.ownedBy name ↔ t.Owns addr weight name := by
  simp only [SubnetTree.ownedBy, Finset.mem_image, Finset.mem_filter, SubnetTree.Owns]
  constructor
  · rintro ⟨⟨subnet, owner⟩, ⟨-, hin, howner⟩, rfl⟩
    dsimp only at howner
    rw [howner] at hin
    exact hin
  · intro h
    exact ⟨(.mac addr weight, some name), ⟨Finset.mem_union_right _ h, h, rfl⟩, rfl⟩

namespace Daemon

variable {d d' : Daemon}

structure SameNode (d d' : Daemon) : Prop where
  name : d'.name = d.name
  myself : d'.myself = d.myself
  nodeIds : d'.nodeIds = d.nodeIds
  macLeases : d'.macLeases = d.macLeases

theorem SameNode.refl (d : Daemon) : SameNode d d := ⟨rfl, rfl, rfl, rfl⟩

theorem SameNode.trans {a b c : Daemon} (h : SameNode a b) (h' : SameNode b c) : SameNode a c :=
  ⟨h'.name.trans h.name, h'.myself.trans h.myself, h'.nodeIds.trans h.nodeIds, h'.macLeases.trans h.macLeases⟩

theorem sameNode_addOwn (d : Daemon) (subnet : Subnet) : SameNode d (d.addOwn subnet) := ⟨rfl, rfl, rfl, rfl⟩

theorem sameNode_dropOwn (d : Daemon) (subnet : Subnet) : SameNode d (d.dropOwn subnet) := ⟨rfl, rfl, rfl, rfl⟩

variable {addr : Mac}

theorem owns_addOwn {subnet : Subnet} {weight : Int32} {o : String} :
    (d.addOwn subnet).subnets.Owns addr weight o ↔
      d.subnets.Owns addr weight o ∨ subnet = .mac addr weight ∧ d.name = o :=
  SubnetTree.owns_add

theorem owns_dropOwn {subnet : Subnet} {weight : Int32} {o : String} :
    (d.dropOwn subnet).subnets.Owns addr weight o ↔
      d.subnets.Owns addr weight o ∧ ¬ (subnet = .mac addr weight ∧ d.name = o) :=
  SubnetTree.owns_del

theorem macTable_dropOwn (d : Daemon) (subnet : Subnet) (addr : Mac) :
    (d.dropOwn subnet).macTable addr = if ∃ w, subnet = .mac addr w then none else d.macTable addr := by
  cases subnet with
  | mac a w =>
    simp only [dropOwn, MacTable.forget, Function.update_apply, Subnet.mac.injEq, exists_and_left, exists_eq', and_true,
      eq_comm (a := addr)]
  | v4 a p w | v6 a p w => simp [dropOwn, MacTable.forget]

theorem macTable_addOwn (d : Daemon) (subnet : Subnet) (addr : Mac) :
    (d.addOwn subnet).macTable addr = if ∃ w, subnet = .mac addr w then some d.name else d.macTable addr := by
  cases subnet with
  | mac a w =>
    simp only [addOwn, MacTable.announce, Function.update_apply, Subnet.mac.injEq, exists_and_left, exists_eq', and_true,
      eq_comm (a := addr)]
  | v4 a p w | v6 a p w => simp [addOwn, MacTable.announce]

theorem foldl_dropOwn (l : List Subnet) (d : Daemon) : SameNode d (l.foldl dropOwn d) ∧
    (∀ addr w o, (l.foldl dropOwn d).subnets.Owns addr w o ↔
      d.subnets.Owns addr w o ∧ ¬ (.mac addr w ∈ l ∧ d.name = o)) ∧
    ∀ addr, (l.foldl dropOwn d).macTable addr = if ∃ w, .mac addr w ∈ l then none else d.macTable addr := by
  induction l generalizing d with
  | nil => exact ⟨.refl d, fun addr w o => by simp, fun addr => by simp⟩
  | cons subnet l ih =>
    obtain ⟨hsame, howns, htable⟩ := ih (d.dropOwn subnet)
    rw [List.foldl_cons]
    refine ⟨(d.sameNode_dropOwn subnet).trans hsame, fun addr w o => ?_, fun addr => ?_⟩
    · rw [howns, owns_dropOwn, List.mem_cons, eq_comm (a := Subnet.mac addr w)]
      have hname : (d.dropOwn subnet).name = d.name := rfl
      rw [hname]
      tauto
    · rw [htable, macTable_dropOwn]
      simp only [List.mem_cons, exists_or, eq_comm (b := subnet)]
      split_ifs <;> first | rfl | tauto

theorem foldl_addOwn (l : List Subnet) (d : Daemon) : SameNode d (l.foldl addOwn d) ∧
    (∀ addr w o, (l.foldl addOwn d).subnets.Owns addr w o ↔
      d.subnets.Owns addr w o ∨ .mac addr w ∈ l ∧ d.name = o) ∧
    ∀ addr, (l.foldl addOwn d).macTable addr = if ∃ w, .mac addr w ∈ l then some d.name else d.macTable addr := by
  induction l generalizing d with
  | nil => exact ⟨.refl d, fun addr w o => by simp, fun addr => by simp⟩
  | cons subnet l ih =>
    obtain ⟨hsame, howns, htable⟩ := ih (d.addOwn subnet)
    rw [List.foldl_cons]
    have hname : (d.addOwn subnet).name = d.name := rfl
    refine ⟨(d.sameNode_addOwn subnet).trans hsame, fun addr w o => ?_, fun addr => ?_⟩
    · rw [howns, owns_addOwn, List.mem_cons, eq_comm (a := Subnet.mac addr w), hname]
      tauto
    · rw [htable, macTable_addOwn, hname]
      simp only [List.mem_cons, exists_or, eq_comm (b := subnet)]
      split_ifs <;> first | rfl | tauto

theorem reloadSubnets_eq (d : Daemon) (new : Finset Subnet) : ∃ removed added : List Subnet,
    d.reloadSubnets new = added.foldl addOwn (removed.foldl dropOwn d) ∧
    (∀ s, s ∈ removed ↔ s ∈ d.subnets.ownedBy d.name ∧ s ∉ new) ∧
    ∀ s, s ∈ added ↔ s ∈ new ∧ s ∉ d.subnets.ownedBy d.name := by
  obtain ⟨added, hadded⟩ := Quotient.exists_rep (new \ d.subnets.ownedBy d.name).val
  obtain ⟨removed, hremoved⟩ := Quotient.exists_rep (d.subnets.ownedBy d.name \ new).val
  refine ⟨removed, added, ?_, fun s => ?_, fun s => ?_⟩
  · rw [reloadSubnets, ← hadded, ← hremoved]
    rfl
  · rw [← Multiset.mem_coe, ← Finset.mem_sdiff, ← Finset.mem_val, ← hremoved]
    rfl
  · rw [← Multiset.mem_coe, ← Finset.mem_sdiff, ← Finset.mem_val, ← hadded]
    rfl

theorem sameNode_reloadSubnets (d : Daemon) (new : Finset Subnet) : SameNode d (d.reloadSubnets new) := by
  obtain ⟨removed, added, heq, -⟩ := reloadSubnets_eq d new
  rw [heq]
  exact (foldl_dropOwn removed d).1.trans (foldl_addOwn added _).1

/-- Of our MAC subnets exactly the configured ones are left. -/
theorem owns_reloadSubnets {new : Finset Subnet} {w : Int32} :
    (d.reloadSubnets new).subnets.Owns addr w d.name ↔ .mac addr w ∈ new := by
  obtain ⟨removed, added, heq, hremoved, hadded⟩ := reloadSubnets_eq d new
  obtain ⟨hsame, howns, -⟩ := foldl_dropOwn removed d
  obtain ⟨-, howns', -⟩ := foldl_addOwn added (removed.foldl dropOwn d)
  rw [heq, howns', howns, hsame.name, hadded, hremoved, SubnetTree.mem_ownedBy]
  tauto

/-- The table names us for an address that comes anew, and for one that it did and that loses nothing. -/
theorem macTable_reloadSubnets {new : Finset Subnet} :
    (d.reloadSubnets new).macTable addr = some d.name ↔
      (∃ w, .mac addr w ∈ new ∧ ¬ d.subnets.Owns addr w d.name) ∨
        (¬ ∃ w, d.subnets.Owns addr w d.name ∧ .mac addr w ∉ new) ∧ d.macTable addr = some d.name := by
  obtain ⟨removed, added, heq, hremoved, hadded⟩ := reloadSubnets_eq d new
  obtain ⟨hsame, -, htable⟩ := foldl_dropOwn removed d
  obtain ⟨-, -, htable'⟩ := foldl_addOwn added (removed.foldl dropOwn d)
  have hcome : (∃ w, .mac addr w ∈ added) ↔ ∃ w, .mac addr w ∈ new ∧ ¬ d.subnets.Owns addr w d.name := by
    simp only [hadded, SubnetTree.mem_ownedBy]
  have hgo : (∃ w, .mac addr w ∈ removed) ↔ ∃ w, d.subnets.Owns addr w d.name ∧ .mac addr w ∉ new := by
    simp only [hremoved, SubnetTree.mem_ownedBy]
  rw [heq, htable', htable, hsame.name, ← hcome, ← hgo]
  split_ifs with h1 h2
  · simp [h1]
  · simp [h1, h2]
  · simp [h1, h2]

/-! ### Messages -/

theorem floodedPrologue_snd (d : Daemon) (m : Msg) (about : List String) :
    ∃ cache, (d.floodedPrologue m about).2 = { d with seen := cache } := by
  obtain ⟨cache, hcache⟩ := seenRequest_eq d m.body m.now
  refine ⟨cache, ?_⟩
  unfold floodedPrologue
  dsimp only
  split_ifs <;> exact hcache

/-- A message may add a node to those we know; of our own data it changes nothing. -/
structure Told (d d' : Daemon) (fresh : NodeId) : Prop where
  name : d'.name = d.name
  myself : d'.myself = d.myself
  macLeases : d'.macLeases = d.macLeases
  nodeId : ∀ n, d'.nodeId n = d.nodeId n ∨ d.nodeId n = none ∧ d'.nodeId n = some fresh

theorem Told.of_eq {fresh : NodeId} (hname : d'.name = d.name) (hmyself : d'.myself = d.myself)
    (hleases : d'.macLeases = d.macLeases) (hnodes : d'.nodeIds = d.nodeIds) : Told d d' fresh :=
  ⟨hname, hmyself, hleases, fun n => .inl (by rw [Daemon.nodeId, Daemon.nodeId, hnodes])⟩

/-- What it does to the tables is about a subnet of another node, and not one we hold a lease for. -/
def OthersOnly (d d' : Daemon) : Prop :=
  d'.subnets = d.subnets ∧ d'.macTable = d.macTable ∨
  ∃ subnet owner, owner ≠ d.name ∧
    (d.leased subnet = false ∧ d'.subnets = d.subnets.add subnet owner ∧
        d'.macTable = d.macTable.announce subnet owner ∨
      d'.subnets = (d.subnets.del subnet owner).2 ∧
        (d'.macTable = d.macTable ∨ d'.macTable = d.macTable.withdraw subnet owner))

theorem lookupOrAddNode_told (d : Daemon) (name : String) (fresh : NodeId) :
    Told d (d.lookupOrAddNode name fresh).2 fresh ∧ (d.lookupOrAddNode name fresh).2.subnets = d.subnets ∧
      (d.lookupOrAddNode name fresh).2.macTable = d.macTable ∧
      ∀ id, d.nodeId name = some id → (d.lookupOrAddNode name fresh).1 = id := by
  unfold lookupOrAddNode
  cases hid : d.nodeId name with
  | some id =>
    refine ⟨.of_eq rfl rfl rfl rfl, rfl, rfl, fun id' h => ?_⟩
    exact Option.some.inj h
  | none =>
    refine ⟨⟨rfl, rfl, rfl, fun n => ?_⟩, rfl, rfl, fun id' h => by simp at h⟩
    by_cases hn : n = name
    · subst hn
      exact .inr ⟨hid, by simp [nodeId]⟩
    · refine .inl ?_
      simp only [nodeId, List.lookup_cons]
      rw [beq_eq_false_iff_ne.2 hn]

theorem onAddSubnet_others {m : Msg} {es : List Effect} (hme : d.nodeId d.name = some d.myself)
    (h : d.onAddSubnet m = .ok (d', es)) : Told d d' m.fresh ∧ OthersOnly d d' := by
  unfold onAddSubnet at h
  cases hparse : parseSubnetBody m.body with
  | error e => simp [hparse, bind, Except.bind] at h
  | ok msg =>
    obtain ⟨owner, subnet⟩ := msg
    simp only [hparse, bind, Except.bind, pure, Except.pure] at h
    obtain ⟨cache, hcache⟩ := floodedPrologue_snd d m [owner]
    generalize d.floodedPrologue m [owner] = prologue at *
    obtain ⟨proceed, d₁⟩ := prologue
    dsimp only at hcache h
    subst hcache
    obtain ⟨htold, hsubnets, hmac, hid⟩ := lookupOrAddNode_told { d with seen := cache } owner m.fresh
    generalize lookupOrAddNode { d with seen := cache } owner m.fresh = found at *
    obtain ⟨id, d₂⟩ := found
    dsimp only at htold hsubnets hmac hid h
    have hold : Told d { d with seen := cache } m.fresh := .of_eq rfl rfl rfl rfl
    have htold₂ : Told d d₂ m.fresh := ⟨htold.name, htold.myself, htold.macLeases, htold.nodeId⟩
    split_ifs at h with hproceed hthere hfull hours htunnel hstrict hmulticast hleased hreach <;>
      simp only [Except.ok.injEq, Prod.mk.injEq] at h <;> obtain ⟨rfl, -⟩ := h
    -- seen before, in the tree already, no room for the node
    iterate 3 exact ⟨hold, .inl ⟨rfl, rfl⟩⟩
    -- about us, tunnel server, strict subnets, multicast, leased
    iterate 5 exact ⟨htold₂, .inl ⟨hsubnets, hmac⟩⟩
    all_goals
      have hother : owner ≠ d.name := by
        rintro rfl
        exact hours ((hid _ hme).trans htold.myself.symm)
      have hfree : d.leased subnet = false := by
        have hno := Bool.eq_false_iff.2 hleased
        rw [← hno]
        unfold leased
        rw [htold.macLeases]
      refine ⟨⟨htold.name, htold.myself, htold.macLeases, htold.nodeId⟩, .inr ⟨subnet, owner, hother, .inl ⟨hfree, ?_, ?_⟩⟩⟩
      · dsimp only
        rw [hsubnets]
      · dsimp only
        rw [hmac]

theorem onDelSubnet_others {m : Msg} {es : List Effect} (hme : d.nodeId d.name = some d.myself)
    (h : d.onDelSubnet m = .ok (d', es)) : Told d d' m.fresh ∧ OthersOnly d d' := by
  unfold onDelSubnet at h
  cases hparse : parseSubnetBody m.body with
  | error e => simp [hparse, bind, Except.bind] at h
  | ok msg =>
    obtain ⟨owner, subnet⟩ := msg
    simp only [hparse, bind, Except.bind, pure, Except.pure] at h
    obtain ⟨cache, hcache⟩ := floodedPrologue_snd d m [owner]
    generalize d.floodedPrologue m [owner] = prologue at *
    obtain ⟨proceed, d₁⟩ := prologue
    dsimp only at hcache h
    subst hcache
    have hold : Told d { d with seen := cache } m.fresh := .of_eq rfl rfl rfl rfl
    by_cases hproceed : (!proceed) = true
    · rw [if_pos hproceed] at h
      obtain ⟨rfl, -⟩ := Prod.mk.inj (Except.ok.inj h)
      exact ⟨hold, .inl ⟨rfl, rfl⟩⟩
    rw [if_neg hproceed] at h
    have hnode : Daemon.nodeId { d with seen := cache } owner = d.nodeId owner := rfl
    rw [hnode] at h
    cases hid : d.nodeId owner with
    | none =>
      rw [hid] at h
      obtain ⟨rfl, -⟩ := Prod.mk.inj (Except.ok.inj h)
      exact ⟨hold, .inl ⟨rfl, rfl⟩⟩
    | some id =>
      rw [hid] at h
      dsimp only at h
      split_ifs at h with hours hthere htunnel hstrict hdel hreach <;>
        simp only [Except.ok.injEq, Prod.mk.injEq] at h <;> obtain ⟨rfl, -⟩ := h
      -- about us, tunnel server, strict subnets
      iterate 4 exact ⟨hold, .inl ⟨rfl, rfl⟩⟩
      all_goals
        have hother : owner ≠ d.name := by
          rintro rfl
          exact hours (Option.some.inj (hid.symm.trans hme))
      · exact ⟨.of_eq rfl rfl rfl rfl, .inr ⟨subnet, owner, hother, .inr ⟨rfl, .inl rfl⟩⟩⟩
      iterate 2 exact ⟨.of_eq rfl rfl rfl rfl, .inr ⟨subnet, owner, hother, .inr ⟨rfl, .inr rfl⟩⟩⟩

theorem step_others (hme : d.nodeId d.name = some d.myself) (m : Msg) :
    Told d (d.step m) m.fresh ∧ OthersOnly d (d.step m) := by
  have hnone : Told d d m.fresh ∧ OthersOnly d d := ⟨.of_eq rfl rfl rfl rfl, .inl ⟨rfl, rfl⟩⟩
  unfold step handle
  cases m.kind with
  | addSubnet =>
    dsimp only
    cases h : d.onAddSubnet m with
    | error e => exact hnone
    | ok r => exact onAddSubnet_others hme h
  | delSubnet =>
    dsimp only
    cases h : d.onDelSubnet m with
    | error e => exact hnone
    | ok r => exact onDelSubnet_others hme h

theorem OthersOnly.owns_iff (h : OthersOnly d d') {w : Int32} :
    d'.subnets.Owns addr w d.name ↔ d.subnets.Owns addr w d.name := by
  rcases h with ⟨hsubnets, -⟩ | ⟨subnet, owner, hother, ⟨-, hsubnets, -⟩ | ⟨hsubnets, -⟩⟩
  · rw [hsubnets]
  · rw [hsubnets, SubnetTree.owns_add]
    simp [hother]
  · rw [hsubnets, SubnetTree.owns_del]
    simp [hother]

theorem OthersOnly.macTable_eq (h : OthersOnly d d') (hleased : addr ∈ d.macLeases)
    (hours : d.macTable addr = some d.name) : d'.macTable addr = some d.name := by
  rcases h with ⟨-, hmac⟩ | ⟨subnet, owner, hother, ⟨hfree, -, hmac⟩ | ⟨-, hmac | hmac⟩⟩
  · rw [hmac, hours]
  · rw [hmac]
    cases subnet with
    | mac a w =>
      have hne : addr ≠ a := by
        rintro rfl
        simp [leased, hleased] at hfree
      rw [MacTable.announce, Function.update_of_ne hne, hours]
    | v4 a p w | v6 a p w => exact hours
  · rw [hmac, hours]
  · rw [hmac]
    cases subnet with
    | mac a w =>
      rw [MacTable.withdraw]
      split_ifs with hnames
      · have hne : addr ≠ a := by
          rintro rfl
          exact hother (Option.some.inj (hnames.symm.trans hours))
        rw [Function.update_of_ne hne, hours]
      · exact hours
    | v4 a p w | v6 a p w => exact hours

end Daemon

/-! ### Leases, subnets and the table -/

namespace Switch

variable {s s' : Switch}

/-- An address has one lease; we know ourselves under our name and no other node under our number. -/
structure Wf (s : Switch) : Prop where
  keys : s.daemon.macLeases = s.leases.macs
  nodup : s.leases.macs.Nodup
  me : s.daemon.nodeId s.daemon.name = some s.daemon.myself
  others : ∀ n, s.daemon.nodeId n = some s.daemon.myself → n = s.daemon.name

/-- Every lease has its subnet and its entry in the table. -/
def Backed (s : Switch) : Prop :=
  ∀ mac ∈ s.leases.macs, s.daemon.subnets.Owns mac 10 s.daemon.name ∧ s.daemon.macTable mac = some s.daemon.name

/-- Every MAC subnet of ours is configured or that of a lease. -/
def Accounted (s : Switch) : Prop :=
  ∀ mac w, s.daemon.subnets.Owns mac w s.daemon.name → .mac mac w ∈ s.config ∨ w = 10 ∧ mac ∈ s.leases.macs

structure Agrees (s : Switch) : Prop where
  backed : s.Backed
  accounted : s.Accounted

/-- A reload in which an address with a lease loses its subnet, or loses another one and gets none. -/
def Drops (s : Switch) (e : SwitchEvent) : Prop :=
  ∃ c, e = .reload (some c) ∧ ∃ mac ∈ s.leases.macs, .mac mac 10 ∉ c.subnets ∨
    (∃ w, s.daemon.subnets.Owns mac w s.daemon.name ∧ .mac mac w ∉ c.subnets) ∧
      ∀ w, .mac mac w ∈ c.subnets → s.daemon.subnets.Owns mac w s.daemon.name

theorem learnMac_cases (s : Switch) (mac : Mac) (now : ℕ) : (s.learnMac mac now).1 = s ∨
    ∃ l timer, l.macs.Nodup = ((s.leases.learn mac now s.macexpire).2.macs.Nodup) ∧
      (∀ a, a ∈ l.macs ↔ a = mac ∨ a ∈ s.leases.macs) ∧
      (s.learnMac mac now).1 = withLeases { s with daemon := s.daemon.addOwn (.mac mac 10), ageTimer := timer } l := by
  unfold learnMac
  split_ifs
  · exact .inl rfl
  · exact .inr ⟨_, _, rfl, fun a => MacLeases.mem_learn, rfl⟩

theorem learnMac_wf (hw : s.Wf) (mac : Mac) (now : ℕ) : (s.learnMac mac now).1.Wf := by
  obtain h | ⟨l, timer, hnd, -, h⟩ := s.learnMac_cases mac now
  · rw [h]
    exact hw
  · rw [h]
    exact ⟨rfl, hnd ▸ MacLeases.nodup_learn hw.nodup mac now s.macexpire, hw.me, hw.others⟩

theorem learnMac_backed (h : s.Backed) (mac : Mac) (now : ℕ) : (s.learnMac mac now).1.Backed := by
  obtain heq | ⟨l, timer, -, hmem, heq⟩ := s.learnMac_cases mac now
  · rw [heq]
    exact h
  · rw [heq]
    intro a ha
    rcases (hmem a).1 ha with rfl | hold
    · exact ⟨Daemon.owns_addOwn.2 (.inr ⟨rfl, rfl⟩), by simp [withLeases, Daemon.addOwn, MacTable.announce]⟩
    · obtain ⟨howns, htable⟩ := h a hold
      refine ⟨Daemon.owns_addOwn.2 (.inl howns), ?_⟩
      have hadd := Daemon.macTable_addOwn s.daemon (.mac mac 10) a
      rw [htable, ite_self] at hadd
      exact hadd

theorem learnMac_accounted (h : s.Accounted) (mac : Mac) (now : ℕ) : (s.learnMac mac now).1.Accounted := by
  obtain heq | ⟨l, timer, -, hmem, heq⟩ := s.learnMac_cases mac now
  · rw [heq]
    exact h
  · rw [heq]
    intro a w howns
    rcases Daemon.owns_addOwn.1 howns with hold | ⟨hnew, -⟩
    · exact (h a w hold).imp_right fun ⟨hw, ha⟩ => ⟨hw, (hmem a).2 (.inr ha)⟩
    · obtain ⟨rfl, rfl⟩ := Subnet.mac.inj hnew
      exact .inr ⟨rfl, (hmem mac).2 (.inl rfl)⟩

theorem routePacketMac_cases (s : Switch) (data : List UInt8) (now : ℕ) :
    (s.routePacketMac data now).1 = s ∨ (∃ mac, (s.routePacketMac data now).1 = (s.learnMac mac now).1) ∨
      ∃ l, l.macs = s.leases.macs ∧ (s.routePacketMac data now).1 = s.withLeases l := by
  unfold routePacketMac
  cases (routeMac data true s.daemon.name s.daemon.macTable s.daemon.nodeId).2 with
  | notOurs => exact .inl rfl
  | new mac => exact .inr (.inl ⟨mac, rfl⟩)
  | refresh mac =>
    dsimp only
    split_ifs
    · exact .inr (.inr ⟨_, MacLeases.macs_refresh _ _ _ _, rfl⟩)
    · exact .inr (.inl ⟨mac, rfl⟩)

theorem onAgeSubnets_eq (s : Switch) (now : ℕ) :
    ∃ timer, (s.onAgeSubnets now).1 = withLeases { s with
      daemon := ((s.leases.age now).1.map fun mac => Subnet.mac mac 10).foldl Daemon.dropOwn s.daemon
      ageTimer := timer } (s.leases.age now).2 := by
  rw [List.foldl_map]
  exact ⟨_, rfl⟩

theorem mem_expired {l : List Mac} {mac : Mac} {w : Int32} :
    Subnet.mac mac w ∈ l.map (fun mac => Subnet.mac mac 10) ↔ mac ∈ l ∧ w = 10 := by
  simp only [List.mem_map, Subnet.mac.injEq]
  constructor
  · rintro ⟨a, ha, rfl, rfl⟩
    exact ⟨ha, rfl⟩
  · rintro ⟨ha, rfl⟩
    exact ⟨mac, ha, rfl, rfl⟩

theorem onAgeSubnets_wf (hw : s.Wf) (now : ℕ) : (s.onAgeSubnets now).1.Wf := by
  obtain ⟨timer, heq⟩ := s.onAgeSubnets_eq now
  obtain ⟨hsame, -⟩ := Daemon.foldl_dropOwn ((s.leases.age now).1.map fun mac => Subnet.mac mac 10) s.daemon
  have hnode : ∀ n, Daemon.nodeId (((s.leases.age now).1.map fun mac => Subnet.mac mac 10).foldl Daemon.dropOwn s.daemon) n =
      s.daemon.nodeId n := fun n => by rw [Daemon.nodeId, Daemon.nodeId, hsame.nodeIds]
  rw [heq]
  refine ⟨rfl, MacLeases.nodup_age hw.nodup now, ?_, fun n hn => ?_⟩
  · have hme := hnode s.daemon.name
    rw [hw.me, ← hsame.name, ← hsame.myself] at hme
    exact hme
  · have hn' := (hnode n).symm.trans hn
    exact (hw.others n (hn'.trans (congrArg some hsame.myself))).trans hsame.name.symm

theorem onAgeSubnets_backed (hw : s.Wf) (h : s.Backed) (now : ℕ) : (s.onAgeSubnets now).1.Backed := by
  obtain ⟨timer, heq⟩ := s.onAgeSubnets_eq now
  obtain ⟨hsame, howns, htable⟩ :=
    Daemon.foldl_dropOwn ((s.leases.age now).1.map fun mac => Subnet.mac mac 10) s.daemon
  rw [heq]
  intro mac hmac
  have hkept : mac ∉ (s.leases.age now).1 := MacLeases.not_mem_age hw.nodup hmac
  have hold : mac ∈ s.leases.macs := (List.filter_sublist.map Prod.fst).subset hmac
  obtain ⟨hown, hentry⟩ := h mac hold
  constructor
  · refine (howns mac 10 _).2 ⟨?_, fun hgone => hkept (mem_expired.1 hgone.1).1⟩
    rw [withLeases, hsame.name]
    exact hown
  · have hnone : ¬ ∃ w, Subnet.mac mac w ∈ (s.leases.age now).1.map fun mac => Subnet.mac mac 10 := by
      rintro ⟨w, hgone⟩
      exact hkept (mem_expired.1 hgone).1
    have hafter := htable mac
    rw [if_neg hnone, hentry, ← hsame.name] at hafter
    exact hafter

theorem onAgeSubnets_accounted (h : s.Accounted) (now : ℕ) : (s.onAgeSubnets now).1.Accounted := by
  obtain ⟨timer, heq⟩ := s.onAgeSubnets_eq now
  obtain ⟨hsame, howns, -⟩ :=
    Daemon.foldl_dropOwn ((s.leases.age now).1.map fun mac => Subnet.mac mac 10) s.daemon
  rw [heq]
  intro mac w hown
  obtain ⟨hold, hkept⟩ := (howns mac w _).1 hown
  rw [withLeases, hsame.name] at hold hkept
  rcases h mac w hold with hconf | ⟨rfl, hleased⟩
  · exact .inl hconf
  · refine .inr ⟨rfl, (MacLeases.mem_age hleased).resolve_left fun hgone => ?_⟩
    exact hkept ⟨mem_expired.2 ⟨hgone, rfl⟩, rfl⟩

/-- A reload keeps the leases backed exactly when it drops none. -/
theorem reload_backed_iff (h : s.Backed) (c : Config) :
    (s.reloadConfiguration (some c)).Backed ↔ ¬ s.Drops (.reload (some c)) := by
  have hsame := Daemon.sameNode_reloadSubnets { s.daemon with
    tunnelserver := c.tunnelserver.getD s.daemon.tunnelserver
    strictsubnets := c.strictsubnets.getD s.daemon.strictsubnets || c.tunnelserver.getD s.daemon.tunnelserver } c.subnets
  have hlease : ∀ mac ∈ s.leases.macs,
      ((s.reloadConfiguration (some c)).daemon.subnets.Owns mac 10 (s.reloadConfiguration (some c)).daemon.name ∧
        (s.reloadConfiguration (some c)).daemon.macTable mac = some (s.reloadConfiguration (some c)).daemon.name) ↔
      ¬ (.mac mac 10 ∉ c.subnets ∨
        (∃ w, s.daemon.subnets.Owns mac w s.daemon.name ∧ .mac mac w ∉ c.subnets) ∧
          ∀ w, .mac mac w ∈ c.subnets → s.daemon.subnets.Owns mac w s.daemon.name) := by
    intro mac hmac
    simp only [reloadConfiguration, hsame.name]
    rw [Daemon.owns_reloadSubnets, Daemon.macTable_reloadSubnets]
    dsimp only
    rw [and_iff_left (h mac hmac).2]
    constructor
    · rintro ⟨hin, ⟨w, hnew, hnot⟩ | hnone⟩ (hout | ⟨hgone, hall⟩)
      · exact hout hin
      · exact hnot (hall w hnew)
      · exact hout hin
      · exact hnone hgone
    · intro hkeep
      push Not at hkeep
      refine ⟨hkeep.1, ?_⟩
      by_cases hgone : ∃ w, s.daemon.subnets.Owns mac w s.daemon.name ∧ .mac mac w ∉ c.subnets
      · obtain ⟨w, hnew, hnot⟩ := hkeep.2 hgone
        exact .inl ⟨w, hnew, hnot⟩
      · exact .inr hgone
  constructor
  · rintro hbacked ⟨c', heq, mac, hmac, hdrop⟩
    obtain rfl : c = c' := by simpa using heq
    exact (hlease mac hmac).1 (hbacked mac hmac) hdrop
  · intro hnone mac hmac
    exact (hlease mac hmac).2 fun hdrop => hnone ⟨c, rfl, mac, hmac, hdrop⟩

theorem reload_accounted (c : Config) : (s.reloadConfiguration (some c)).Accounted := by
  have hsame := Daemon.sameNode_reloadSubnets { s.daemon with
    tunnelserver := c.tunnelserver.getD s.daemon.tunnelserver
    strictsubnets := c.strictsubnets.getD s.daemon.strictsubnets || c.tunnelserver.getD s.daemon.tunnelserver } c.subnets
  intro mac w hown
  simp only [reloadConfiguration, hsame.name] at hown
  exact .inl (Daemon.owns_reloadSubnets.1 hown)

/-! ### Steps and runs -/

theorem Wf.message (hw : s.Wf) {m : Msg} (hfresh : m.fresh ≠ s.daemon.myself) : (s.step (.message m)).Wf := by
  obtain ⟨htold, -⟩ := Daemon.step_others hw.me m
  refine ⟨htold.macLeases.trans hw.keys, hw.nodup, ?_, fun n hn => ?_⟩
  · rw [step, htold.name, htold.myself]
    rcases htold.nodeId s.daemon.name with hold | ⟨hnone, -⟩
    · rw [hold, hw.me]
    · rw [hw.me] at hnone
      simp at hnone
  · rw [step, htold.myself] at hn
    rw [step, htold.name]
    rcases htold.nodeId n with hold | ⟨-, hnew⟩
    · exact hw.others n (hold.symm.trans hn)
    · exact absurd (Option.some.inj (hnew.symm.trans hn)) hfresh

theorem Wf.reload (hw : s.Wf) (c : Option Config) : (s.step (.reload c)).Wf := by
  cases c with
  | none => exact hw
  | some c =>
    have hsame := Daemon.sameNode_reloadSubnets { s.daemon with
      tunnelserver := c.tunnelserver.getD s.daemon.tunnelserver
      strictsubnets := c.strictsubnets.getD s.daemon.strictsubnets || c.tunnelserver.getD s.daemon.tunnelserver }
      c.subnets
    refine ⟨hsame.macLeases.trans hw.keys, hw.nodup, ?_, fun n hn => ?_⟩
    · simp only [step, reloadConfiguration, Daemon.nodeId, hsame.nodeIds, hsame.name, hsame.myself]
      exact hw.me
    · simp only [step, reloadConfiguration, Daemon.nodeId, hsame.nodeIds, hsame.myself] at hn
      simp only [step, reloadConfiguration, hsame.name]
      exact hw.others n hn

theorem Wf.frame (hw : s.Wf) (data : List UInt8) (now : ℕ) : (s.step (.frame data now)).Wf := by
  rw [step]
  obtain heq | ⟨mac, heq⟩ | ⟨l, hmacs, heq⟩ := s.routePacketMac_cases data now
  · rw [heq]
    exact hw
  · rw [heq]
    exact learnMac_wf hw mac now
  · rw [heq]
    exact ⟨rfl, hmacs ▸ hw.nodup, hw.me, hw.others⟩

/-- The slot of a new node is not our own. -/
def SwitchEvent.Fresh (myself : NodeId) (e : SwitchEvent) : Prop := ∀ m, e = .message m → m.fresh ≠ myself

theorem Wf.step (hw : s.Wf) {e : SwitchEvent} (hfresh : SwitchEvent.Fresh s.daemon.myself e) : (s.step e).Wf := by
  cases e with
  | frame data now => exact hw.frame data now
  | message m => exact hw.message (hfresh m rfl)
  | ageSubnets now => exact onAgeSubnets_wf hw now
  | reload c => exact hw.reload c

theorem step_myself (hw : s.Wf) (e : SwitchEvent) : (s.step e).daemon.myself = s.daemon.myself := by
  cases e with
  | frame data now =>
    rw [step]
    obtain heq | ⟨mac, heq⟩ | ⟨l, -, heq⟩ := s.routePacketMac_cases data now
    · rw [heq]
    · rw [heq]
      obtain heq' | ⟨l, timer, -, -, heq'⟩ := s.learnMac_cases mac now <;> rw [heq'] <;> rfl
    · rw [heq]
      rfl
  | message m => exact (Daemon.step_others hw.me m).1.myself
  | ageSubnets now =>
    obtain ⟨timer, heq⟩ := s.onAgeSubnets_eq now
    rw [step, heq]
    exact (Daemon.foldl_dropOwn _ s.daemon).1.myself
  | reload c =>
    cases c with
    | none => rfl
    | some c => exact (Daemon.sameNode_reloadSubnets _ c.subnets).myself

theorem Agrees.frame (h : s.Agrees) (data : List UInt8) (now : ℕ) : (s.step (.frame data now)).Agrees := by
  rw [step]
  obtain heq | ⟨mac, heq⟩ | ⟨l, hmacs, heq⟩ := s.routePacketMac_cases data now
  · rw [heq]
    exact h
  · rw [heq]
    exact ⟨learnMac_backed h.backed mac now, learnMac_accounted h.accounted mac now⟩
  · rw [heq]
    refine ⟨fun a ha => h.backed a (hmacs ▸ ha), fun a w hown => ?_⟩
    exact (h.accounted a w hown).imp_right fun ⟨hw, ha⟩ => ⟨hw, hmacs ▸ ha⟩

theorem Agrees.message (hw : s.Wf) (h : s.Agrees) (m : Msg) : (s.step (.message m)).Agrees := by
  obtain ⟨htold, hothers⟩ := Daemon.step_others hw.me m
  constructor
  · intro mac hmac
    obtain ⟨hown, htable⟩ := h.backed mac hmac
    rw [step, htold.name]
    exact ⟨hothers.owns_iff.2 hown, hothers.macTable_eq (hw.keys ▸ hmac) htable⟩
  · intro mac w hown
    rw [step, htold.name] at hown
    exact h.accounted mac w (hothers.owns_iff.1 hown)

theorem step_agrees_iff (hw : s.Wf) (h : s.Agrees) (e : SwitchEvent) : (s.step e).Agrees ↔ ¬ s.Drops e := by
  cases e with
  | frame data now => exact iff_of_true (h.frame data now) (by rintro ⟨c, heq, -⟩; cases heq)
  | message m => exact iff_of_true (h.message hw m) (by rintro ⟨c, heq, -⟩; cases heq)
  | ageSubnets now =>
    exact iff_of_true ⟨onAgeSubnets_backed hw h.backed now, onAgeSubnets_accounted h.accounted now⟩
      (by rintro ⟨c, heq, -⟩; cases heq)
  | reload c =>
    cases c with
    | none => exact iff_of_true h (by rintro ⟨c, heq, -⟩; cases heq)
    | some c =>
      rw [← reload_backed_iff h.backed c]
      exact ⟨fun hagrees => hagrees.backed, fun hbacked => ⟨hbacked, reload_accounted c⟩⟩

/-- A daemon that has been set up: no leases, and our MAC subnets are from the configuration. -/
structure Starts (s : Switch) : Prop where
  leases : s.leases = ⟨[]⟩
  macLeases : s.daemon.macLeases = []
  configured : ∀ mac w, s.daemon.subnets.Owns mac w s.daemon.name → .mac mac w ∈ s.config
  me : s.daemon.nodeId s.daemon.name = some s.daemon.myself
  others : ∀ n, s.daemon.nodeId n = some s.daemon.myself → n = s.daemon.name

theorem Starts.wf (h : s.Starts) : s.Wf :=
  ⟨by rw [h.macLeases, h.leases]; rfl, by rw [h.leases]; exact List.nodup_nil, h.me, h.others⟩

theorem Starts.agrees (h : s.Starts) : s.Agrees := by
  refine ⟨fun mac hmac => ?_, fun mac w hown => .inl (h.configured mac w hown)⟩
  rw [h.leases] at hmac
  simp [MacLeases.macs] at hmac

/-- Leases, subnets and forwarding table agree after every event, from a daemon that has just been set
up, exactly when no reload drops an address with a lease. -/
theorem leases_agree_iff {s : Switch} (hs : s.Starts) {es : List SwitchEvent}
    (hfresh : ∀ e ∈ es, SwitchEvent.Fresh s.daemon.myself e) :
    (∀ k ≤ es.length, (s.run (es.take k)).Agrees) ↔
      ∀ k e, es[k]? = some e → ¬ (s.run (es.take k)).Drops e := by
  refine @Trace.forall_take_iff _ _ step Agrees (fun t => t.Wf ∧ t.daemon.myself = s.daemon.myself)
    (SwitchEvent.Fresh s.daemon.myself) Drops ?_ ?_ s es hfresh ⟨hs.wf, rfl⟩ hs.agrees
  · rintro t e he ⟨hw, hme⟩
    exact ⟨hw.step (hme ▸ he), (step_myself hw e).trans hme⟩
  · rintro t e - ⟨hw, -⟩ h
    exact step_agrees_iff hw h e

def sampleSwitch : Switch := ⟨Daemon.sampleDaemon, ⟨[]⟩, 600, false, ∅⟩

theorem sampleSwitch_starts : sampleSwitch.Starts := by
  refine ⟨rfl, rfl, fun mac w hown => ?_, rfl, fun n hn => ?_⟩
  · simp [sampleSwitch, Daemon.sampleDaemon, SubnetTree.Owns, SubnetTree.empty] at hown
  · have hlook : List.lookup n [("alice", 0)] = some 0 := hn
    rw [List.lookup_cons] at hlook
    cases hb : n == "alice" with
    | true => exact eq_of_beq hb
    | false =>
      rw [hb] at hlook
      simp at hlook

def sampleFrame : List UInt8 := List.replicate 6 0xFF ++ [2, 0, 0, 0, 0, 1] ++ [8, 0]

def sampleEvents : List SwitchEvent := [.frame sampleFrame 0, .ageSubnets 5]

theorem leases_agree_iff_frame : sampleSwitch.Starts ∧
    ((∀ k ≤ sampleEvents.length, (sampleSwitch.run (sampleEvents.take k)).Agrees) ↔
      ∀ k e, sampleEvents[k]? = some e → ¬ (sampleSwitch.run (sampleEvents.take k)).Drops e) := by
  refine ⟨sampleSwitch_starts, leases_agree_iff sampleSwitch_starts fun e he m hm => ?_⟩
  subst hm
  simp [sampleEvents] at he

/-- A reload of the unchanged, empty configuration: the lease stays, its subnet is gone. -/
theorem not_agrees_reload : sampleSwitch.Starts ∧
    ¬ (sampleSwitch.run [.frame sampleFrame 0, .reload (some ⟨∅, none, none, none⟩)]).Agrees := by
  refine ⟨sampleSwitch_starts, fun h => ?_⟩
  have hleased : Daemon.sampleMac ∈
      (sampleSwitch.run [.frame sampleFrame 0, .reload (some ⟨∅, none, none, none⟩)]).leases.macs := by
    decide
  have hgone : (sampleSwitch.run [.frame sampleFrame 0, .reload (some ⟨∅, none, none, none⟩)]).daemon.macTable
      Daemon.sampleMac = none := by
    decide
  have hback := (h.backed _ hleased).2
  rw [hgone] at hback
  simp at hback

end Switch

end Tincr.Gossip

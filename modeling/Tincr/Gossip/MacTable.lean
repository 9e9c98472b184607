import Tincr.Gossip.Subnets
import Tincr.Lib.Trace

/-!
The forwarding table against the subnet tree. A MAC address can have several entries in the tree, one
for each weight and owner, but only one in the table. Announcing keeps the two in step; withdrawing does
unless the entry it removes is the one the table names while the tree has another for the address: the
table then forgets an address that still has an owner.
-/

namespace Tincr.Gossip

open Words Proto

/-- The tree has an entry for the address, of this weight and owner. -/
def SubnetTree.Owns (t : SubnetTree) (addr : Mac) (weight : Int32) (owner : String) : Prop :=
  (Subnet.mac addr weight, some owner) ∈ t.mac

variable {t : SubnetTree} {subnet : Subnet} {owner : String}

theorem SubnetTree.owns_add {addr : Mac} {weight : Int32} {o : String} :
    (t.add subnet owner).Owns addr weight o ↔
      t.Owns addr weight o ∨ (subnet = .mac addr weight ∧ owner = o) := by
  cases subnet with
  | mac a w =>
    simp only [SubnetTree.Owns, SubnetTree.add, Finset.mem_insert, Prod.mk.injEq, Option.some.injEq]
    constructor
    · rintro (⟨h, rfl⟩ | h)
      · exact .inr ⟨h.symm, rfl⟩
      · exact .inl h
    · rintro (h | ⟨h, rfl⟩)
      · exact .inr h
      · exact .inl ⟨h.symm, rfl⟩
  | v4 a p w | v6 a p w => simp [SubnetTree.Owns, SubnetTree.add]

theorem SubnetTree.owns_del {addr : Mac} {weight : Int32} {o : String} :
    (t.del subnet owner).2.Owns addr weight o ↔
      t.Owns addr weight o ∧ ¬ (subnet = .mac addr weight ∧ owner = o) := by
  cases subnet with
  | mac a w =>
    simp only [SubnetTree.Owns, SubnetTree.del, Finset.mem_erase, ne_eq, Prod.mk.injEq, Option.some.injEq]
    rw [and_comm, eq_comm (a := Subnet.mac a w), eq_comm (a := owner)]
  | v4 a p w | v6 a p w => simp [SubnetTree.Owns, SubnetTree.del]

theorem SubnetTree.del_absent (h : (t.del subnet owner).1 = false) : (t.del subnet owner).2 = t := by
  simp only [SubnetTree.del, decide_eq_false_iff_not] at h
  cases subnet <;> simp only [SubnetTree.family] at h <;>
    simp only [SubnetTree.del, Finset.erase_eq_of_notMem h]

namespace Daemon

/-- The table has an entry for an address iff the tree has an owner for it, and names one of them. -/
structure Follows (d : Daemon) : Prop where
  present : ∀ addr, (d.macTable addr).isSome ↔ ∃ weight owner, d.subnets.Owns addr weight owner
  named : ∀ addr owner, d.macTable addr = some owner → ∃ weight, d.subnets.Owns addr weight owner

/-- Neither `tunnelserver` nor `strictsubnets` is set. -/
structure Open (d : Daemon) : Prop where
  tunnelserver : d.tunnelserver = false
  strictsubnets : d.strictsubnets = false

structure Same (d d' : Daemon) : Prop where
  subnets : d'.subnets = d.subnets
  macTable : d'.macTable = d.macTable
  tunnelserver : d'.tunnelserver = d.tunnelserver
  strictsubnets : d'.strictsubnets = d.strictsubnets

theorem Same.refl (d : Daemon) : Same d d := ⟨rfl, rfl, rfl, rfl⟩

theorem Same.trans {a b c : Daemon} (h : Same a b) (h' : Same b c) : Same a c :=
  ⟨h'.subnets.trans h.subnets, h'.macTable.trans h.macTable, h'.tunnelserver.trans h.tunnelserver,
    h'.strictsubnets.trans h.strictsubnets⟩

variable {d d' : Daemon} {m : Msg} {subnet : Subnet} {owner : String}

theorem Same.open (h : Same d d') (ho : d.Open) : d'.Open :=
  ⟨h.tunnelserver.trans ho.tunnelserver, h.strictsubnets.trans ho.strictsubnets⟩

theorem same_lookupOrAddNode (d : Daemon) (name : String) (fresh : NodeId) :
    Same d (d.lookupOrAddNode name fresh).2 := by
  unfold lookupOrAddNode
  split
  · exact .refl d
  · exact ⟨rfl, rfl, rfl, rfl⟩

theorem seenRequest_eq (d : Daemon) (body : ByteArray) (now : ℕ) :
    ∃ cache, (d.seenRequest body now).2 = { d with seen := cache } := by
  unfold seenRequest
  split
  · exact ⟨d.seen, rfl⟩
  · exact ⟨_, rfl⟩

theorem same_seenRequest (d : Daemon) (body : ByteArray) (now : ℕ) : Same d (d.seenRequest body now).2 := by
  obtain ⟨cache, h⟩ := seenRequest_eq d body now
  rw [h]
  exact ⟨rfl, rfl, rfl, rfl⟩

theorem floodedPrologue_eq (ho : d.Open) (m : Msg) (about : List String) :
    d.floodedPrologue m about = (!(d.seenRequest m.body m.now).1, (d.seenRequest m.body m.now).2) := by
  have hts := ((same_seenRequest d m.body m.now).open ho).tunnelserver
  unfold floodedPrologue
  simp only [tunnelserverRejectIndirect, hts, Bool.false_and, Bool.false_eq_true, if_false]
  split_ifs with h <;> simp [h]

theorem onAddSubnet_cases {es : List Effect} (ho : d.Open) (h : d.onAddSubnet m = .ok (d', es)) :
    Same d d' ∨ ∃ subnet owner, d'.Open ∧ d'.subnets = d.subnets.add subnet owner ∧
      d'.macTable = d.macTable.announce subnet owner := by
  unfold onAddSubnet at h
  cases hparse : parseSubnetBody m.body with
  | error e => simp [hparse, bind, Except.bind] at h
  | ok msg =>
    obtain ⟨owner, subnet⟩ := msg
    have hseen := same_seenRequest d m.body m.now
    simp only [hparse, floodedPrologue_eq ho, bind, Except.bind, pure, Except.pure] at h
    generalize (d.seenRequest m.body m.now).2 = d₁ at *
    have hadd := hseen.trans (same_lookupOrAddNode d₁ owner m.fresh)
    generalize d₁.lookupOrAddNode owner m.fresh = p at *
    have hinstall : ∀ d'' : Daemon, d''.tunnelserver = p.2.tunnelserver → d''.strictsubnets = p.2.strictsubnets →
        d''.subnets = p.2.subnets.add subnet owner → d''.macTable = p.2.macTable.announce subnet owner →
        ∃ subnet owner, d''.Open ∧ d''.subnets = d.subnets.add subnet owner ∧
          d''.macTable = d.macTable.announce subnet owner := by
      intro d'' hts hss hsub hmac
      rw [hadd.subnets] at hsub
      rw [hadd.macTable] at hmac
      have hopen := hadd.open ho
      exact ⟨subnet, owner, ⟨hts.trans hopen.tunnelserver, hss.trans hopen.strictsubnets⟩, hsub, hmac⟩
    split_ifs at h <;> simp only [Except.ok.injEq, Prod.mk.injEq] at h <;> obtain ⟨rfl, -⟩ := h
    -- seen before, in the tree already, no room for the node
    iterate 3 exact .inl hseen
    -- about us, tunnel server, strict subnets, multicast, leased
    iterate 5 exact .inl hadd
    iterate 2 exact .inr (hinstall _ rfl rfl rfl rfl)

/-- The message withdraws an entry of the tree: it is new, and the owner is another node we know. -/
structure Deletes (d : Daemon) (m : Msg) (subnet : Subnet) (owner : String) : Prop where
  kind : m.kind = .delSubnet
  parsed : parseSubnetBody m.body = .ok ⟨owner, subnet⟩
  unseen : (d.seenRequest m.body m.now).1 = false
  known : ∃ id, d.nodeId owner = some id ∧ id ≠ d.myself
  present : d.subnets.contains subnet owner = true

theorem seenRequest_nodes (d : Daemon) (m : Msg) (owner : String) :
    (d.seenRequest m.body m.now).2.nodeId owner = d.nodeId owner ∧
      (d.seenRequest m.body m.now).2.myself = d.myself := by
  obtain ⟨cache, hcache⟩ := seenRequest_eq d m.body m.now
  rw [hcache]
  exact ⟨rfl, rfl⟩

/-- A message that withdraws an entry takes it from both tables. -/
theorem onDelSubnet_deletes (ho : d.Open) (hdel : d.Deletes m subnet owner) :
    ∃ d' es, d.onDelSubnet m = .ok (d', es) ∧ d'.Open ∧ d'.subnets = (d.subnets.del subnet owner).2 ∧
      d'.macTable = d.macTable.withdraw subnet owner := by
  obtain ⟨id, hid, hne⟩ := hdel.known
  have hseen := same_seenRequest d m.body m.now
  have ho₁ := hseen.open ho
  obtain ⟨hnode, hmyself⟩ := seenRequest_nodes d m owner
  have hfound : ((d.subnets.del subnet owner).1) = true := hdel.present
  unfold onDelSubnet
  simp only [hdel.parsed, floodedPrologue_eq ho, hdel.unseen, bind, Except.bind, pure, Except.pure,
    hnode, hid, hmyself, hne, ho₁.tunnelserver, ho₁.strictsubnets, hseen.subnets, hseen.macTable, hfound,
    Bool.not_false, Bool.not_true, Bool.false_eq_true, if_false]
  exact ⟨_, _, rfl, ⟨rfl, rfl⟩, rfl, rfl⟩

theorem onDelSubnet_same {es : List Effect} (hkind : m.kind = .delSubnet) (ho : d.Open)
    (hno : ∀ subnet owner, ¬ d.Deletes m subnet owner) (h : d.onDelSubnet m = .ok (d', es)) : Same d d' := by
  unfold onDelSubnet at h
  cases hparse : parseSubnetBody m.body with
  | error e => simp [hparse, bind, Except.bind] at h
  | ok msg =>
    obtain ⟨owner, subnet⟩ := msg
    have hseen := same_seenRequest d m.body m.now
    have ho₁ := hseen.open ho
    obtain ⟨hnode, hmyself⟩ := seenRequest_nodes d m owner
    simp only [hparse, floodedPrologue_eq ho, bind, Except.bind, pure, Except.pure, hnode, hmyself] at h
    generalize (d.seenRequest m.body m.now).2 = d₁ at *
    by_cases hunseen : (d.seenRequest m.body m.now).1 = true
    · simp only [hunseen, Bool.not_true, Bool.not_false, if_true, Except.ok.injEq, Prod.mk.injEq] at h
      obtain ⟨rfl, -⟩ := h
      exact hseen
    · rw [if_neg (by simpa using hunseen)] at h
      cases hknown : d.nodeId owner with
      | none =>
        simp only [hknown, Except.ok.injEq, Prod.mk.injEq] at h
        obtain ⟨rfl, -⟩ := h
        exact hseen
      | some id =>
        simp only [hknown] at h
        split_ifs at h with hme _ _ _ hfound <;> simp only [Except.ok.injEq, Prod.mk.injEq] at h <;>
          obtain ⟨rfl, -⟩ := h
        -- about us, tunnel server, strict subnets
        iterate 4 exact hseen
        · -- not in the tree
          have hdel : (d₁.subnets.del subnet owner).2 = d₁.subnets :=
            SubnetTree.del_absent (by simpa using hfound)
          exact ⟨hdel.trans hseen.subnets, hseen.macTable, hseen.tunnelserver, hseen.strictsubnets⟩
        iterate 2
          rw [hseen.subnets] at hfound
          have hpresent : (d.subnets.del subnet owner).1 = true := by simpa using hfound
          exact absurd ⟨hkind, hparse, by simpa using hunseen, ⟨id, hknown, hme⟩, hpresent⟩
            (hno subnet owner)

theorem step_cases (ho : d.Open) (m : Msg) :
    ((∀ subnet owner, ¬ d.Deletes m subnet owner) ∧ (Same d (d.step m) ∨
      ∃ subnet owner, (d.step m).Open ∧ (d.step m).subnets = d.subnets.add subnet owner ∧
        (d.step m).macTable = d.macTable.announce subnet owner)) ∨
    ∃ subnet owner, d.Deletes m subnet owner ∧ (d.step m).Open ∧
      (d.step m).subnets = (d.subnets.del subnet owner).2 ∧
      (d.step m).macTable = d.macTable.withdraw subnet owner := by
  cases hkind : m.kind with
  | addSubnet =>
    refine .inl ⟨fun subnet owner hdel => absurd (hkind.symm.trans hdel.kind) (by decide), ?_⟩
    simp only [step, handle, hkind]
    cases h : d.onAddSubnet m with
    | error e => exact .inl (.refl d)
    | ok r => exact onAddSubnet_cases ho h
  | delSubnet =>
    by_cases hdel : ∃ subnet owner, d.Deletes m subnet owner
    · obtain ⟨subnet, owner, hdel⟩ := hdel
      obtain ⟨d', es, h, hopen, hsubnets, hmac⟩ := onDelSubnet_deletes ho hdel
      refine .inr ⟨subnet, owner, hdel, ?_⟩
      simp only [step, handle, hkind, h]
      exact ⟨hopen, hsubnets, hmac⟩
    · simp only [not_exists] at hdel
      refine .inl ⟨hdel, .inl ?_⟩
      simp only [step, handle, hkind]
      cases h : d.onDelSubnet m with
      | error e => exact .refl d
      | ok r => exact onDelSubnet_same hkind ho hdel h

theorem step_open (ho : d.Open) (m : Msg) : (d.step m).Open := by
  rcases step_cases ho m with ⟨-, h | ⟨_, _, h, -⟩⟩ | ⟨_, _, -, h, -⟩
  · exact h.open ho
  · exact h
  · exact h

/-- The entry that goes is the one the table names, and the tree keeps another for the address. -/
def Displaces (d : Daemon) (m : Msg) : Prop :=
  ∃ addr weight owner, d.Deletes m (.mac addr weight) owner ∧ d.macTable addr = some owner ∧
    ∃ weight' owner', d.subnets.Owns addr weight' owner' ∧ ¬ (weight' = weight ∧ owner' = owner)

theorem Follows.congr (h : d.Follows) (hmac : d'.macTable = d.macTable)
    (howns : ∀ addr weight owner, d'.subnets.Owns addr weight owner ↔ d.subnets.Owns addr weight owner) :
    d'.Follows := by
  refine ⟨fun addr => ?_, fun addr owner => ?_⟩
  · simp only [hmac, howns]
    exact h.present addr
  · simp only [hmac, howns]
    exact h.named addr owner

theorem follows_of_announce (h : d.Follows) (hsubnets : d'.subnets = d.subnets.add subnet owner)
    (hmac : d'.macTable = d.macTable.announce subnet owner) : d'.Follows := by
  have howns : ∀ addr weight o, d'.subnets.Owns addr weight o ↔
      d.subnets.Owns addr weight o ∨ (subnet = .mac addr weight ∧ owner = o) := by
    intro addr weight o
    rw [hsubnets, SubnetTree.owns_add]
  cases subnet with
  | v4 a p w | v6 a p w => exact h.congr hmac (by simpa using howns)
  | mac a w =>
    have hself : d'.subnets.Owns a w owner := (howns a w owner).2 (.inr ⟨rfl, rfl⟩)
    have hother : ∀ addr, addr ≠ a → ∀ weight o,
        d'.subnets.Owns addr weight o ↔ d.subnets.Owns addr weight o := by
      intro addr hne weight o
      rw [howns]
      simp [Ne.symm hne]
    refine ⟨fun addr => ?_, fun addr o ho => ?_⟩ <;> rcases eq_or_ne addr a with rfl | hne
    · refine iff_of_true ?_ ⟨w, owner, hself⟩
      simp [hmac, MacTable.announce]
    · simp only [hmac, MacTable.announce, Function.update_of_ne hne, hother addr hne]
      exact h.present addr
    · obtain rfl : owner = o := by simpa [hmac, MacTable.announce] using ho
      exact ⟨w, hself⟩
    · simp only [hmac, MacTable.announce, Function.update_of_ne hne] at ho
      simp only [hother addr hne]
      exact h.named addr o ho

theorem Deletes.inj {subnet' : Subnet} {owner' : String} (h : d.Deletes m subnet owner)
    (h' : d.Deletes m subnet' owner') : subnet' = subnet ∧ owner' = owner := by
  have heq := h'.parsed.symm.trans h.parsed
  rw [Except.ok.injEq, SubnetMsg.mk.injEq] at heq
  exact ⟨heq.2, heq.1⟩

theorem follows_withdraw_iff (h : d.Follows) (hdel : d.Deletes m subnet owner)
    (hsubnets : d'.subnets = (d.subnets.del subnet owner).2)
    (hmac : d'.macTable = d.macTable.withdraw subnet owner) : d'.Follows ↔ ¬ d.Displaces m := by
  have howns : ∀ addr weight o, d'.subnets.Owns addr weight o ↔
      d.subnets.Owns addr weight o ∧ ¬ (subnet = .mac addr weight ∧ owner = o) := by
    intro addr weight o
    rw [hsubnets, SubnetTree.owns_del]
  by_cases hnamed : ∃ addr weight, subnet = .mac addr weight ∧ d.macTable addr = some owner
  · obtain ⟨a, w, rfl, hnamed⟩ := hnamed
    have htable : d'.macTable = Function.update d.macTable a none := by
      rw [hmac, MacTable.withdraw, if_pos hnamed]
    -- the table has forgotten the address, so the tree must have no other entry for it
    have hrest : (∃ weight o, d'.subnets.Owns a weight o) ↔ d.Displaces m := by
      constructor
      · rintro ⟨weight, o, hown⟩
        obtain ⟨hown, hne⟩ := (howns a weight o).1 hown
        refine ⟨a, w, owner, hdel, hnamed, weight, o, hown, ?_⟩
        rintro ⟨rfl, rfl⟩
        exact hne ⟨rfl, rfl⟩
      · rintro ⟨a', w', owner', hdel', -, weight, o, hown, hne⟩
        obtain ⟨heq, rfl⟩ := hdel.inj hdel'
        obtain ⟨rfl, rfl⟩ := Subnet.mac.inj heq
        refine ⟨weight, o, (howns _ _ _).2 ⟨hown, ?_⟩⟩
        rintro ⟨heq, rfl⟩
        exact hne ⟨(Subnet.mac.inj heq).2.symm, rfl⟩
    rw [← hrest]
    constructor
    · intro hfollows hsome
      have := (hfollows.present a).2 hsome
      rw [htable] at this
      simp at this
    · intro hnone
      refine ⟨fun addr => ?_, fun addr o ho => ?_⟩ <;> rcases eq_or_ne addr a with rfl | hne
      · exact iff_of_false (by simp [htable]) hnone
      · rw [htable, Function.update_of_ne hne, h.present addr]
        simp [howns, Ne.symm hne]
      · simp [htable] at ho
      · rw [htable, Function.update_of_ne hne] at ho
        obtain ⟨weight, hown⟩ := h.named addr o ho
        exact ⟨weight, (howns _ _ _).2 ⟨hown, by simp [Ne.symm hne]⟩⟩
  · have htable : d'.macTable = d.macTable := by
      rw [hmac]
      cases subnet with
      | mac a w => exact if_neg fun hmem => hnamed ⟨a, w, rfl, hmem⟩
      | v4 a p w => rfl
      | v6 a p w => rfl
    refine iff_of_true ?_ ?_
    · -- the owner the table names is another one, and stays
      have hkeeps : ∀ addr o, d.macTable addr = some o → ∃ weight, d'.subnets.Owns addr weight o := by
        intro addr o ho
        obtain ⟨weight, hown⟩ := h.named addr o ho
        refine ⟨weight, (howns _ _ _).2 ⟨hown, ?_⟩⟩
        rintro ⟨rfl, rfl⟩
        exact hnamed ⟨addr, weight, rfl, ho⟩
      refine ⟨fun addr => ?_, fun addr o ho => hkeeps addr o (htable ▸ ho)⟩
      rw [htable]
      constructor
      · intro hsome
        obtain ⟨o, ho⟩ := Option.isSome_iff_exists.1 hsome
        obtain ⟨weight, hown⟩ := hkeeps addr o ho
        exact ⟨weight, o, hown⟩
      · rintro ⟨weight, o, hown⟩
        exact (h.present addr).2 ⟨weight, o, ((howns _ _ _).1 hown).1⟩
    · rintro ⟨a, w, owner', hdel', hmem, -⟩
      obtain ⟨rfl, rfl⟩ := hdel.inj hdel'
      exact hnamed ⟨a, w, rfl, hmem⟩

/-- One message keeps the tables in step exactly when it does not displace an owner. -/
theorem step_follows_iff (ho : d.Open) (h : d.Follows) (m : Msg) : (d.step m).Follows ↔ ¬ d.Displaces m := by
  rcases step_cases ho m with ⟨hno, hstep⟩ | ⟨subnet, owner, hdel, -, hsubnets, hmac⟩
  · have hdisp : ¬ d.Displaces m := fun ⟨addr, weight, owner, hdel, _⟩ => hno _ _ hdel
    refine iff_of_true ?_ hdisp
    rcases hstep with hsame | ⟨subnet, owner, -, hsubnets, hmac⟩
    · refine ⟨?_, ?_⟩
      · rw [hsame.macTable, hsame.subnets]
        exact h.present
      · rw [hsame.macTable, hsame.subnets]
        exact h.named
    · exact follows_of_announce h hsubnets hmac
  · exact follows_withdraw_iff h hdel hsubnets hmac

structure NoTables (d : Daemon) : Prop where
  subnets : d.subnets = SubnetTree.empty
  macTable : ∀ addr, d.macTable addr = none

theorem NoTables.follows (h : d.NoTables) : d.Follows := by
  refine ⟨fun addr => ?_, fun addr owner ho => ?_⟩
  · simp [h.macTable, h.subnets, SubnetTree.Owns, SubnetTree.empty]
  · simp [h.macTable] at ho

theorem run_follows_iff (ho : d.Open) (h : d.Follows) (ms : List Msg) :
    (∀ k ≤ ms.length, (d.run (ms.take k)).Follows) ↔
      ∀ k m, ms[k]? = some m → ¬ (d.run (ms.take k)).Displaces m :=
  @Trace.forall_take_iff _ _ step Follows Open (fun _ => True) Displaces (fun _ m _ ho => step_open ho m)
    (fun _ m _ ho h => step_follows_iff ho h m) d ms (fun _ _ => trivial) ho h

/-- The forwarding table follows the subnet tree after every message of a sequence, from empty tables,
exactly when no message displaces an owner. -/
theorem macTable_follows_iff (d : Daemon) (hempty : d.NoTables) (ho : d.Open) (ms : List Msg) :
    (∀ k ≤ ms.length, (d.run (ms.take k)).Follows) ↔
      ∀ k m, ms[k]? = some m → ¬ (d.run (ms.take k)).Displaces m :=
  run_follows_iff ho hempty.follows ms

def sampleMac : Mac := ⟨[2, 0, 0, 0, 0, 1], rfl⟩

def sampleDaemon : Daemon where
  name := "alice"
  myself := 0
  tunnelserver := false
  strictsubnets := false
  nodeIds := [("alice", 0)]
  reachable := fun _ => false
  seen := ⟨[]⟩
  subnets := .empty
  macTable := fun _ => none
  macLeases := []

def sampleMsg (kind : Kind) (which : Request) (owner : String) (nonce : UInt32) (fresh : NodeId) : Msg where
  kind := kind
  connName := owner
  body := (SubnetMsg.format ⟨owner, .mac sampleMac 10⟩ which nonce).toUTF8
  now := 0
  fresh := fresh

/-- Two owners announce one address, and the second withdraws it. -/
def displacing : List Msg :=
  [sampleMsg .addSubnet .addSubnet "bob" 1 1, sampleMsg .addSubnet .addSubnet "carol" 2 2,
    sampleMsg .delSubnet .delSubnet "carol" 3 3]

theorem sampleDaemon_noTables : sampleDaemon.NoTables := ⟨rfl, fun _ => rfl⟩

theorem sampleDaemon_open : sampleDaemon.Open := ⟨rfl, rfl⟩

theorem macTable_follows_iff_displacing :
    sampleDaemon.NoTables ∧ sampleDaemon.Open ∧
      ((∀ k ≤ displacing.length, (sampleDaemon.run (displacing.take k)).Follows) ↔
        ∀ k m, displacing[k]? = some m → ¬ (sampleDaemon.run (displacing.take k)).Displaces m) :=
  ⟨sampleDaemon_noTables, sampleDaemon_open,
    macTable_follows_iff sampleDaemon sampleDaemon_noTables sampleDaemon_open displacing⟩

/-- The address is still bob's, and the table has no entry for it. -/
theorem not_follows_displacing :
    sampleDaemon.NoTables ∧ sampleDaemon.Open ∧ ¬ (sampleDaemon.run displacing).Follows := by
  refine ⟨sampleDaemon_noTables, sampleDaemon_open, fun h => ?_⟩
  have htable : (sampleDaemon.run displacing).macTable sampleMac = none := by decide
  have htree : (sampleDaemon.run displacing).subnets.Owns sampleMac 10 "bob" := by
    unfold SubnetTree.Owns
    decide
  have hsome := (h.present sampleMac).2 ⟨10, "bob", htree⟩
  rw [htable] at hsome
  exact absurd hsome (by decide)

end Daemon

end Tincr.Gossip

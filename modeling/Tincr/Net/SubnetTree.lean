import Tincr.Gossip.Subnets
import Tincr.Lib.PrefixBits
import Tincr.Net.Route

/-!
The subnet tree as ordered sets, and what a lookup in it finds. The sets are ordered by prefix, longest first,
then address, weight and owner. Canonical subnets of one prefix that cover an address have the same address, so
among the entries that cover it the order is the one of the route choice, and the scan of `lookup` takes its
first entry with a reachable owner, or else its last.
-/

namespace Tincr.Net

open Proto IpText PrefixBits

def maskcheck (bytes : List UInt8) (prefixLen : UInt8) : Bool :=
  let full := prefixLen.toNat / 8
  let bits := prefixLen.toNat % 8
  if bits != 0 then
    bytes.getD full 0 &&& 0xFF >>> UInt8.ofNat bits == 0 && (bytes.drop (full + 1)).all (· == 0)
  else (bytes.drop full).all (· == 0)

def isCanonical : Subnet → Bool
  | .mac .. => true
  | .v4 addr prefixLen _ => maskcheck addr.octets prefixLen
  | .v6 addr prefixLen _ => maskcheck (octetsV6 addr) prefixLen

structure IpKey (Addr : Type) where
  addr : Addr
  prefixLen : UInt8
  weight : Int32
  owner : Option String
deriving DecidableEq

/-- The order of the keys: longest prefix first. -/
def IpKey.cmp {Addr : Type} (octets : Addr → List UInt8) : IpKey Addr → IpKey Addr → Ordering :=
  compareLex (fun k k' => compareOn (fun k : IpKey Addr => k.prefixLen) k' k)
    (compareLex (compareOn fun k => octets k.addr)
      (compareLex (compareOn fun k => k.weight) (compareOn fun k => k.owner)))

structure MacKey where
  addr : Mac
  weight : Int32
  owner : Option String
deriving DecidableEq

def MacKey.cmp : MacKey → MacKey → Ordering :=
  compareLex (compareOn fun k => k.addr.octets) (compareLex (compareOn fun k => k.weight) (compareOn fun k => k.owner))

structure SubnetTree where
  ipv4 : Std.TreeSet (IpKey Ipv4Addr) (IpKey.cmp Ipv4Addr.octets)
  ipv6 : Std.TreeSet (IpKey Ipv6Addr) (IpKey.cmp octetsV6)
  mac : Std.TreeSet MacKey MacKey.cmp

namespace SubnetTree

def new : SubnetTree := ⟨∅, ∅, ∅⟩

/-- `add` and `add_broadcast`, which has no owner. -/
def put (t : SubnetTree) (subnet : Subnet) (owner : Option String) : SubnetTree :=
  match subnet with
  | .v4 addr prefixLen weight => { t with ipv4 := t.ipv4.insert ⟨addr, prefixLen, weight, owner⟩ }
  | .v6 addr prefixLen weight => { t with ipv6 := t.ipv6.insert ⟨addr, prefixLen, weight, owner⟩ }
  | .mac addr weight => { t with mac := t.mac.insert ⟨addr, weight, owner⟩ }

def add (t : SubnetTree) (subnet : Subnet) (owner : String) : SubnetTree := t.put subnet (some owner)

def addBroadcast (t : SubnetTree) (subnet : Subnet) : SubnetTree := t.put subnet none

/-- Whether the entry was there, and the tree without it. -/
def del (t : SubnetTree) (subnet : Subnet) (owner : String) : Bool × SubnetTree :=
  match subnet with
  | .v4 addr prefixLen weight =>
    (t.ipv4.contains ⟨addr, prefixLen, weight, some owner⟩,
      { t with ipv4 := t.ipv4.erase ⟨addr, prefixLen, weight, some owner⟩ })
  | .v6 addr prefixLen weight =>
    (t.ipv6.contains ⟨addr, prefixLen, weight, some owner⟩,
      { t with ipv6 := t.ipv6.erase ⟨addr, prefixLen, weight, some owner⟩ })
  | .mac addr weight =>
    (t.mac.contains ⟨addr, weight, some owner⟩, { t with mac := t.mac.erase ⟨addr, weight, some owner⟩ })

def v4Entry (k : IpKey Ipv4Addr) : Entry := (.v4 k.addr k.prefixLen k.weight, k.owner)

def v6Entry (k : IpKey Ipv6Addr) : Entry := (.v6 k.addr k.prefixLen k.weight, k.owner)

def table (t : SubnetTree) : RouteTable := ⟨t.ipv4.toList.map v4Entry, t.ipv6.toList.map v6Entry⟩

/-- The entries with an owner, hardware addresses first. -/
def iter (t : SubnetTree) : List (Subnet × String) :=
  (t.mac.toList.map (fun k => (Subnet.mac k.addr k.weight, k.owner)) ++ t.table.ipv4 ++ t.table.ipv6).filterMap
    fun (s, o) => o.map (s, ·)

def lookupIpv4 (t : SubnetTree) (addr : Ipv4Addr) (isReachable : String → Bool) : Option Entry :=
  lookup isReachable addr.octets none t.table.ipv4

def lookupIpv6 (t : SubnetTree) (addr : Ipv6Addr) (isReachable : String → Bool) : Option Entry :=
  lookup isReachable (octetsV6 addr) none t.table.ipv6

inductive Op
  | add (subnet : Subnet) (owner : String)
  | addBroadcast (subnet : Subnet)
  | del (subnet : Subnet) (owner : String)

def Op.subnet : Op → Subnet
  | add s _ | addBroadcast s | del s _ => s

def Op.apply (t : SubnetTree) : Op → SubnetTree
  | add s owner => t.add s owner
  | addBroadcast s => t.addBroadcast s
  | del s owner => (t.del s owner).2

def build (ops : List Op) : SubnetTree := ops.foldl Op.apply new

end SubnetTree

/-! ### The order of the keys -/

section Cmp

variable {Addr : Type} {octets : Addr → List UInt8}

theorem compareLex_eq_lt {α : Type} {cmp cmp' : α → α → Ordering} {a b : α} :
    compareLex cmp cmp' a b = .lt ↔ cmp a b = .lt ∨ cmp a b = .eq ∧ cmp' a b = .lt := by
  simp [compareLex, Ordering.then_eq_lt]

instance : Std.TransCmp (IpKey.cmp octets) := by
  have : Std.TransCmp fun k k' : IpKey Addr => compareOn (fun k : IpKey Addr => k.prefixLen) k' k := .opposite
  unfold IpKey.cmp
  infer_instance

theorem IpKey.eq_of_cmp (hinj : Function.Injective octets) {k k' : IpKey Addr} (h : cmp octets k k' = .eq) : k = k' := by
  simp only [cmp, compareLex_eq_eq, compareOn, Std.compare_eq_iff_eq] at h
  obtain ⟨hsize, haddr, hweight, howner⟩ := h
  cases k
  cases k'
  simp_all [hinj.eq_iff]

instance : Std.LawfulEqCmp (IpKey.cmp Ipv4Addr.octets) := ⟨IpKey.eq_of_cmp fun x y h => by
  cases x
  cases y
  simpa [Ipv4Addr.octets] using h⟩

theorem segment_eq {g h : UInt16} (hhigh : UInt8.ofNat (g.toNat / 256) = UInt8.ofNat (h.toNat / 256))
    (hlow : UInt8.ofNat g.toNat = UInt8.ofNat h.toNat) : g = h := by
  have hhigh' := congrArg UInt8.toNat hhigh
  have hlow' := congrArg UInt8.toNat hlow
  have hg := g.toNat_lt
  have hh := h.toNat_lt
  simp only [UInt8.toNat_ofNat'] at hhigh' hlow'
  exact UInt16.toNat_inj.1 (by omega)

theorem flatMap_octets_injective : ∀ {gs hs : List UInt16},
    gs.flatMap (fun g => [UInt8.ofNat (g.toNat / 256), UInt8.ofNat g.toNat]) =
      hs.flatMap (fun g => [UInt8.ofNat (g.toNat / 256), UInt8.ofNat g.toNat]) → gs = hs
  | [], [], _ => rfl
  | [], _ :: _, h | _ :: _, [], h => by simp at h
  | g :: gs, k :: ks, h => by
    simp only [List.flatMap_cons, List.cons_append, List.nil_append, List.cons.injEq] at h
    obtain ⟨hhigh, hlow, hrest⟩ := h
    rw [segment_eq hhigh hlow, flatMap_octets_injective hrest]

theorem octetsV6_injective : Function.Injective octetsV6 := by
  rintro ⟨gs, hgs⟩ ⟨hs, hhs⟩ h
  simpa using flatMap_octets_injective h

instance : Std.LawfulEqCmp (IpKey.cmp octetsV6) := ⟨IpKey.eq_of_cmp octetsV6_injective⟩

instance : Std.TransCmp MacKey.cmp := by
  unfold MacKey.cmp
  infer_instance

instance : Std.LawfulEqCmp MacKey.cmp := ⟨fun {k k'} h => by
  simp only [MacKey.cmp, compareLex_eq_eq, compareOn, Std.compare_eq_iff_eq] at h
  obtain ⟨⟨k, hk⟩, _, _⟩ := k
  obtain ⟨⟨k', hk'⟩, _, _⟩ := k'
  simp_all⟩

end Cmp

/-! ### The entries of the tree -/

namespace SubnetTree

def Has (t : SubnetTree) : Entry → Prop
  | (.v4 addr prefixLen weight, owner) => ⟨addr, prefixLen, weight, owner⟩ ∈ t.ipv4
  | (.v6 addr prefixLen weight, owner) => ⟨addr, prefixLen, weight, owner⟩ ∈ t.ipv6
  | (.mac addr weight, owner) => ⟨addr, weight, owner⟩ ∈ t.mac

theorem has_put (t : SubnetTree) (subnet : Subnet) (owner : Option String) (e : Entry) :
    (t.put subnet owner).Has e ↔ (subnet, owner) = e ∨ t.Has e := by
  obtain ⟨s, o⟩ := e
  cases subnet <;> cases s <;> simp [put, Has, and_assoc]

theorem has_del (t : SubnetTree) (subnet : Subnet) (owner : String) (e : Entry) :
    (t.del subnet owner).2.Has e ↔ (subnet, some owner) ≠ e ∧ t.Has e := by
  obtain ⟨s, o⟩ := e
  cases subnet <;> cases s <;> simp [del, Has]

def Op.hold (entries : Finset Entry) : Op → Finset Entry
  | add s owner => insert (s, some owner) entries
  | addBroadcast s => insert (s, none) entries
  | del s owner => entries.erase (s, some owner)

def held (ops : List Op) : Finset Entry := ops.foldl Op.hold ∅

theorem has_apply {t : SubnetTree} {entries : Finset Entry} (h : ∀ e, t.Has e ↔ e ∈ entries) (op : Op) (e : Entry) :
    (op.apply t).Has e ↔ e ∈ op.hold entries := by
  cases op with
  | add s owner => rw [Op.apply, add, has_put, Op.hold, Finset.mem_insert, h, eq_comm]
  | addBroadcast s => rw [Op.apply, addBroadcast, has_put, Op.hold, Finset.mem_insert, h, eq_comm]
  | del s owner => rw [Op.apply, has_del, Op.hold, Finset.mem_erase, h, ne_comm]

theorem has_foldl {t : SubnetTree} {entries : Finset Entry} (h : ∀ e, t.Has e ↔ e ∈ entries) (ops : List Op) (e : Entry) :
    (ops.foldl Op.apply t).Has e ↔ e ∈ ops.foldl Op.hold entries := by
  induction ops generalizing t entries with
  | nil => exact h e
  | cons op ops ih => exact ih (has_apply h op)

theorem has_build (ops : List Op) (e : Entry) : (build ops).Has e ↔ e ∈ held ops := by
  refine has_foldl (fun e => ?_) ops e
  obtain ⟨s, o⟩ := e
  cases s <;> simp [Has, new]

theorem nodup_toList {α β : Type} {cmp : α → α → Ordering} [Std.TransCmp cmp] (t : Std.TreeSet α cmp) {f : α → β}
    (hf : f.Injective) : (t.toList.map f).Nodup := by
  refine .map hf (t.distinct_toList.imp ?_)
  rintro a _ h rfl
  exact h Std.ReflCmp.compare_self

/-- What a daemon tells a new peer: every entry with an owner that the operations left, and each once. -/
theorem iter_build (ops : List Op) : (build ops).iter.Nodup ∧
    ∀ s owner, (s, owner) ∈ (build ops).iter ↔ (s, some owner) ∈ held ops := by
  constructor
  · have hv4 : v4Entry.Injective := by
      rintro ⟨⟩ ⟨⟩ h
      simpa [v4Entry, and_assoc] using h
    have hv6 : v6Entry.Injective := by
      rintro ⟨⟩ ⟨⟩ h
      simpa [v6Entry, and_assoc] using h
    have hmac : Function.Injective fun k : MacKey => (Subnet.mac k.addr k.weight, k.owner) := by
      rintro ⟨⟩ ⟨⟩ h
      simpa [and_assoc] using h
    refine List.Nodup.filterMap ?_ ?_
    · rintro ⟨s, _ | o⟩ ⟨s', _ | o'⟩ <;> simp_all
    · simp only [table, List.nodup_append, nodup_toList _ hv4, nodup_toList _ hv6, nodup_toList _ hmac]
      grind [v4Entry, v6Entry]
  · intro s owner
    rw [← has_build]
    cases s
    all_goals
      simp only [iter, table, v4Entry, v6Entry, Has, List.mem_filterMap, List.mem_append, List.mem_map,
        Std.TreeSet.mem_toList]
      constructor
      · rintro ⟨_, (⟨⟨⟩, hk, rfl⟩ | ⟨⟨⟩, hk, rfl⟩) | ⟨⟨⟩, hk, rfl⟩, h⟩ <;> simp_all
      · exact fun hk => ⟨(_, some owner), by grind, rfl⟩

/-- The ordered tree and the table that the gossip handlers change hold the same entries. -/
def Refines (t : SubnetTree) (table : Gossip.SubnetTree) : Prop := ∀ e, t.Has e ↔ e ∈ table.family e.1

theorem Refines.add {t : SubnetTree} {table : Gossip.SubnetTree} (h : t.Refines table) (subnet : Subnet)
    (owner : String) : (t.add subnet owner).Refines (table.add subnet owner) := by
  intro e
  rw [SubnetTree.add, has_put, h]
  obtain ⟨s, o⟩ := e
  cases subnet <;> cases s <;> simp [Gossip.SubnetTree.add, Gossip.SubnetTree.family, eq_comm]

theorem Refines.del {t : SubnetTree} {table : Gossip.SubnetTree} (h : t.Refines table) (subnet : Subnet)
    (owner : String) : (t.del subnet owner).1 = (table.del subnet owner).1 ∧
      (t.del subnet owner).2.Refines (table.del subnet owner).2 := by
  constructor
  · have hentry := h (subnet, some owner)
    cases subnet <;> exact Bool.eq_iff_iff.2 (hentry.trans decide_eq_true_iff.symm)
  · intro e
    rw [has_del, h]
    obtain ⟨s, o⟩ := e
    cases subnet <;> cases s <;> simp [Gossip.SubnetTree.del, Gossip.SubnetTree.family, eq_comm]

def Canonical (s : Subnet) : Prop := s.WellFormed ∧ isCanonical s = true

theorem canonical_hold {entries : Finset Entry} (h : ∀ e ∈ entries, Canonical e.1) {op : Op} (hop : Canonical op.subnet) :
    ∀ e ∈ op.hold entries, Canonical e.1 := by
  intro e he
  cases op with
  | add s owner | addBroadcast s =>
    rcases Finset.mem_insert.1 he with rfl | he
    · exact hop
    · exact h e he
  | del s owner => exact h e (Finset.mem_of_mem_erase he)

theorem canonical_held {ops : List Op} (hops : ∀ op ∈ ops, Canonical op.subnet) : ∀ e ∈ held ops, Canonical e.1 := by
  have hfold : ∀ (ops : List Op) (entries : Finset Entry), (∀ op ∈ ops, Canonical op.subnet) →
      (∀ e ∈ entries, Canonical e.1) → ∀ e ∈ ops.foldl Op.hold entries, Canonical e.1 := by
    intro ops
    induction ops with
    | nil => exact fun _ _ h => h
    | cons op ops ih =>
      intro entries hops h
      exact ih _ (fun op' hop' => hops op' (List.mem_cons_of_mem _ hop')) (canonical_hold h (hops op List.mem_cons_self))
  exact hfold ops ∅ hops (by simp)

end SubnetTree

/-! ### What covers an address -/

section Covers

theorem maskcmp_iff {a b : List UInt8} {p : UInt8} (ha : p.toNat ≤ 8 * a.length) (hb : p.toNat ≤ 8 * b.length) :
    maskcmp a b p = true ↔ ∀ i < p.toNat, bit a i = bit b i := by
  have hbits : p.toNat % 8 < 8 := Nat.mod_lt _ (by decide)
  rw [agree_iff, ← take_eq_iff (by omega) (by omega)]
  simp only [maskcmp, Bool.and_eq_true, beq_iff_eq, Bool.or_eq_true]
  refine and_congr_right fun _ => ?_
  by_cases hzero : p.toNat % 8 = 0
  · simp [hzero]
  · rw [headMask_eq_iff (Nat.pos_of_ne_zero hzero) hbits]
    simp [hzero]

theorem drop_all_iff {bs : List UInt8} {n : ℕ} :
    (bs.drop n).all (· == 0) = true ↔ ∀ j, n ≤ j → bs.getD j 0 = 0 := by
  rw [List.all_eq_true]
  constructor
  · intro h j hj
    rw [List.getD_eq_getElem?_getD]
    cases hget : bs[j]? with
    | none => rfl
    | some b =>
      have hmem : b ∈ bs.drop n := List.mem_iff_getElem?.2 ⟨j - n, by rw [List.getElem?_drop, ← hget]; congr 1; omega⟩
      simpa using h b hmem
  · intro h b hb
    obtain ⟨i, hi⟩ := List.mem_iff_getElem?.1 hb
    rw [List.getElem?_drop] at hi
    have hzero := h (n + i) (by omega)
    rw [List.getD_eq_getElem?_getD, hi] at hzero
    simpa using hzero

theorem maskcheck_iff {bs : List UInt8} {p : UInt8} :
    maskcheck bs p = true ↔ ∀ i, p.toNat ≤ i → bit bs i = false := by
  have hbits : p.toNat % 8 < 8 := Nat.mod_lt _ (by decide)
  rw [zero_iff, maskcheck]
  by_cases hzero : p.toNat % 8 = 0
  · simp only [hzero, bne_self_eq_false, Bool.false_eq_true, if_false, drop_all_iff]
    constructor
    · intro h
      exact ⟨fun i _ _ => by rw [h _ le_rfl, high_zero], fun j hj => h j hj.le⟩
    · rintro ⟨hbyte, hrest⟩ j hj
      rcases hj.eq_or_lt with rfl | hlt
      · exact eq_of_high fun i hi => by rw [hbyte i hi (Nat.zero_le i), high_zero]
      · exact hrest j hlt
  · rw [if_pos (by simpa using hzero), Bool.and_eq_true, beq_iff_eq, tailMask_eq_zero_iff hbits, drop_all_iff]
    rfl

inductive IpAddr
  | v4 (addr : Ipv4Addr)
  | v6 (addr : Ipv6Addr)

def IpAddr.octets : IpAddr → List UInt8
  | v4 addr => addr.octets
  | v6 addr => octetsV6 addr

/-- The subnet contains the address: they are of one family, and the top bits, as many as the prefix has, agree. -/
def Contains : IpAddr → Subnet → Prop
  | .v4 q, .v4 addr prefixLen _ => ∀ i < prefixLen.toNat, bit addr.octets i = bit q.octets i
  | .v6 q, .v6 addr prefixLen _ => ∀ i < prefixLen.toNat, bit (octetsV6 addr) i = bit (octetsV6 q) i
  | _, _ => False

def prefixBits : Subnet → ℕ
  | .v4 _ prefixLen _ | .v6 _ prefixLen _ => prefixLen.toNat
  | .mac .. => 0

/-- Ownerless before owned, then by name. -/
def OwnerBefore : Option String → Option String → Prop
  | none, some _ => True
  | some a, some b => a < b
  | _, none => False

def Preferred (e e' : Entry) : Prop :=
  prefixBits e'.1 < prefixBits e.1 ∨ prefixBits e.1 = prefixBits e'.1 ∧
    (e.1.weight < e'.1.weight ∨ e.1.weight = e'.1.weight ∧ OwnerBefore e.2 e'.2)

/-- The best route among the entries that contain the address: the first one in the order of choice that is ownerless
or has a reachable owner; without one, the last of all. -/
def LongestPrefix (isReachable : String → Bool) (entries : Finset Entry) (q : IpAddr) (result : Option Entry) : Prop :=
  (∃ e ∈ entries, result = some e ∧ Contains q e.1 ∧ e.2.all isReachable = true ∧
    ∀ e' ∈ entries, Contains q e'.1 → e'.2.all isReachable = true → e' = e ∨ Preferred e e') ∨
  ((∀ e ∈ entries, Contains q e.1 → e.2.all isReachable = false) ∧
    ∃ e ∈ entries, result = some e ∧ Contains q e.1 ∧
      ∀ e' ∈ entries, Contains q e'.1 → e' = e ∨ Preferred e' e) ∨
  ((∀ e ∈ entries, ¬ Contains q e.1) ∧ result = none)

theorem compare_owner {o o' : Option String} (h : compare o o' = .lt) : OwnerBefore o o' := by
  cases o with
  | none =>
    cases o' with
    | none => cases h
    | some b => trivial
  | some a =>
    cases o' with
    | none => cases h
    | some b => exact compare_lt_iff_lt.1 h

/-- Two keys in tree order that cover one address: where the prefixes are the same, so are the canonical addresses. -/
theorem IpKey.cmp_preferred {Addr : Type} {octets : Addr → List UInt8} {q : List UInt8} {k k' : IpKey Addr}
    (hlen : (octets k.addr).length = (octets k'.addr).length)
    (hk : maskcheck (octets k.addr) k.prefixLen = true) (hk' : maskcheck (octets k'.addr) k'.prefixLen = true)
    (hq : ∀ i < k.prefixLen.toNat, bit (octets k.addr) i = bit q i)
    (hq' : ∀ i < k'.prefixLen.toNat, bit (octets k'.addr) i = bit q i) (hlt : cmp octets k k' = .lt) :
    k'.prefixLen.toNat < k.prefixLen.toNat ∨ k.prefixLen.toNat = k'.prefixLen.toNat ∧
      (k.weight < k'.weight ∨ k.weight = k'.weight ∧ OwnerBefore k.owner k'.owner) := by
  rw [maskcheck_iff] at hk hk'
  rw [cmp, compareLex_eq_lt] at hlt
  rcases hlt with hlt | ⟨heq, hlt⟩
  · exact .inl (UInt8.lt_iff_toNat_lt.1 (Std.compare_eq_lt.1 hlt))
  · have hsize : k.prefixLen = k'.prefixLen := (Std.compare_eq_iff_eq.1 heq).symm
    have haddr : octets k.addr = octets k'.addr := by
      refine eq_of_bit hlen fun i => ?_
      by_cases hi : i < k.prefixLen.toNat
      · rw [hq i hi, hq' i (hsize ▸ hi)]
      · rw [hk i (not_lt.1 hi), hk' i (hsize ▸ not_lt.1 hi)]
    refine .inr ⟨by rw [hsize], ?_⟩
    rw [compareLex_eq_lt, compareLex_eq_lt] at hlt
    rcases hlt with hlt | ⟨-, hlt | ⟨heq, hlt⟩⟩
    · rw [compareOn, haddr, Std.ReflOrd.compare_self] at hlt
      cases hlt
    · exact .inl (Std.compare_eq_lt.1 hlt)
    · exact .inr ⟨Std.compare_eq_iff_eq.1 heq, compare_owner hlt⟩

end Covers

/-! ### The scan -/

section Scan

variable {isReachable : String → Bool}

/-- The scan stops at the first entry that covers the address and can be used, or remembers the last that covers it. -/
theorem lookup_cases (q : List UInt8) (last : Option Entry) (ks : List Entry) :
    (∃ pre k post, ks = pre ++ k :: post ∧ covers k.1 q = true ∧ k.2.all isReachable = true ∧
      (∀ k' ∈ pre, covers k'.1 q = true → k'.2.all isReachable = false) ∧ lookup isReachable q last ks = some k) ∨
    ((∀ k ∈ ks, covers k.1 q = true → k.2.all isReachable = false) ∧
      ((∃ pre k post, ks = pre ++ k :: post ∧ covers k.1 q = true ∧ (∀ k' ∈ post, covers k'.1 q = false) ∧
        lookup isReachable q last ks = some k) ∨
      (∀ k ∈ ks, covers k.1 q = false) ∧ lookup isReachable q last ks = last)) := by
  induction ks generalizing last with
  | nil => exact .inr ⟨by simp, .inr ⟨by simp, rfl⟩⟩
  | cons k ks ih =>
    cases hcov : covers k.1 q with
    | false =>
      have hskip : lookup isReachable q last (k :: ks) = lookup isReachable q last ks := by simp [lookup, hcov]
      rw [hskip]
      rcases ih last with ⟨pre, e, post, rfl, he, hok, hpre, hrun⟩ | ⟨hno, ⟨pre, e, post, rfl, he, hpost, hrun⟩ | ⟨hnone, hrun⟩⟩
      · refine .inl ⟨k :: pre, e, post, rfl, he, hok, ?_, hrun⟩
        simpa [hcov] using hpre
      · exact .inr ⟨by simpa [hcov] using hno, .inl ⟨k :: pre, e, post, rfl, he, hpost, hrun⟩⟩
      · exact .inr ⟨by simpa [hcov] using hno, .inr ⟨by simpa [hcov] using hnone, hrun⟩⟩
    | true =>
      cases hok : k.2.all isReachable with
      | true => exact .inl ⟨[], k, ks, rfl, hcov, hok, by simp, by simp [lookup, hcov, hok]⟩
      | false =>
        have hnext : lookup isReachable q last (k :: ks) = lookup isReachable q (some k) ks := by simp [lookup, hcov, hok]
        rw [hnext]
        rcases ih (some k) with
          ⟨pre, e, post, rfl, he, hok', hpre, hrun⟩ | ⟨hno, ⟨pre, e, post, rfl, he, hpost, hrun⟩ | ⟨hnone, hrun⟩⟩
        · refine .inl ⟨k :: pre, e, post, rfl, he, hok', ?_, hrun⟩
          intro k' hk'
          rcases List.mem_cons.1 hk' with rfl | hk'
          · exact fun _ => hok
          · exact hpre k' hk'
        · refine .inr ⟨?_, .inl ⟨k :: pre, e, post, rfl, he, hpost, hrun⟩⟩
          intro k' hk'
          rcases List.mem_cons.1 hk' with rfl | hk'
          · exact fun _ => hok
          · exact hno k' hk'
        · refine .inr ⟨?_, .inl ⟨[], k, ks, rfl, hcov, hnone, hrun⟩⟩
          intro k' hk'
          rcases List.mem_cons.1 hk' with rfl | hk'
          · exact fun _ => hok
          · exact hno k' hk'

/-- In a list that is sorted by choice, as far as its entries contain the address, the scan finds the best route. -/
theorem longestPrefix_of_sorted {entries : Finset Entry} {q : IpAddr} {l : List Entry} (hsub : ∀ e ∈ l, e ∈ entries)
    (hall : ∀ e ∈ entries, Contains q e.1 → e ∈ l) (hcov : ∀ e ∈ l, covers e.1 q.octets = true ↔ Contains q e.1)
    (hsorted : l.Pairwise fun e e' => Contains q e.1 → Contains q e'.1 → Preferred e e') :
    LongestPrefix isReachable entries q (lookup isReachable q.octets none l) := by
  rcases lookup_cases q.octets none l with
    ⟨pre, e, post, rfl, he, hok, hpre, hrun⟩ | ⟨hno, hrest⟩
  · obtain ⟨-, hpost, -⟩ := List.pairwise_append.1 hsorted
    have hmem : e ∈ pre ++ e :: post := by simp
    refine .inl ⟨e, hsub e hmem, hrun, (hcov e hmem).1 he, hok, fun e' he' hq hok' => ?_⟩
    rcases List.mem_append.1 (hall e' he' hq) with hin | hin
    · have hdown := hpre e' hin ((hcov e' (List.mem_append_left _ hin)).2 hq)
      rw [hok'] at hdown
      cases hdown
    · rcases List.mem_cons.1 hin with rfl | hin
      · exact .inl rfl
      · exact .inr (List.rel_of_pairwise_cons hpost hin ((hcov e hmem).1 he) hq)
  · have hno' : ∀ e ∈ entries, Contains q e.1 → e.2.all isReachable = false := fun e he hq =>
      hno e (hall e he hq) ((hcov e (hall e he hq)).2 hq)
    rcases hrest with ⟨pre, e, post, rfl, he, hpost, hrun⟩ | ⟨hnone, hrun⟩
    · have hmem : e ∈ pre ++ e :: post := by simp
      obtain ⟨-, -, hbefore⟩ := List.pairwise_append.1 hsorted
      refine .inr (.inl ⟨hno', e, hsub e hmem, hrun, (hcov e hmem).1 he, fun e' he' hq => ?_⟩)
      rcases List.mem_append.1 (hall e' he' hq) with hin | hin
      · exact .inr (hbefore e' hin e List.mem_cons_self hq ((hcov e hmem).1 he))
      · rcases List.mem_cons.1 hin with rfl | hin
        · exact .inl rfl
        · have hcover := (hcov e' (List.mem_append_right _ (List.mem_cons_of_mem _ hin))).2 hq
          rw [hpost e' hin] at hcover
          cases hcover
    · refine .inr (.inr ⟨fun e he hq => ?_, hrun⟩)
      have hcover := (hcov e (hall e he hq)).2 hq
      rw [hnone e (hall e he hq)] at hcover
      cases hcover

end Scan

/-- What the two families of keys have in common. -/
structure Family (Addr : Type) (octets : Addr → List UInt8) where
  width : ℕ
  length_octets : ∀ a, (octets a).length = width
  address : Addr → IpAddr
  octets_address : ∀ a, (address a).octets = octets a
  entry : IpKey Addr → Entry
  prefixBits_entry : ∀ k, prefixBits (entry k).1 = k.prefixLen.toNat
  weight_entry : ∀ k, (entry k).1.weight = k.weight
  owner_entry : ∀ k, (entry k).2 = k.owner
  covers_entry : ∀ k q, covers (entry k).1 q = maskcmp (octets k.addr) q k.prefixLen
  canonical_entry : ∀ k, SubnetTree.Canonical (entry k).1 →
    k.prefixLen.toNat ≤ 8 * width ∧ maskcheck (octets k.addr) k.prefixLen = true
  contains_entry : ∀ a e, Contains (address a) e.1 ↔
    ∃ k, entry k = e ∧ ∀ i < k.prefixLen.toNat, bit (octets k.addr) i = bit (octets a) i
  entry_injective : Function.Injective entry

/-- The best route is found in the set of either family. -/
theorem Family.longest_of_lookup {Addr : Type} {octets : Addr → List UInt8} [Std.LawfulEqCmp (IpKey.cmp octets)]
    (F : Family Addr octets) {entries : Finset Entry} {t : Std.TreeSet (IpKey Addr) (IpKey.cmp octets)}
    (ht : ∀ k, k ∈ t ↔ F.entry k ∈ entries) (hcanon : ∀ e ∈ entries, SubnetTree.Canonical e.1) (a : Addr)
    (isReachable : String → Bool) :
    LongestPrefix isReachable entries (F.address a) (lookup isReachable (octets a) none (t.toList.map F.entry)) := by
  have hlen := F.length_octets
  have hkey : ∀ k ∈ t, k.prefixLen.toNat ≤ 8 * F.width ∧ maskcheck (octets k.addr) k.prefixLen = true :=
    fun k hk => F.canonical_entry k (hcanon _ ((ht k).1 hk))
  have hcontains : ∀ k, Contains (F.address a) (F.entry k).1 ↔
      ∀ i < k.prefixLen.toNat, bit (octets k.addr) i = bit (octets a) i := by
    intro k
    rw [F.contains_entry]
    constructor
    · rintro ⟨k', hentry, hbits⟩
      exact F.entry_injective hentry ▸ hbits
    · exact fun hbits => ⟨k, rfl, hbits⟩
  rw [← F.octets_address a]
  refine longestPrefix_of_sorted (fun e he => ?_) (fun e he hq => ?_) (fun e he => ?_) ?_
  · obtain ⟨k, hk, rfl⟩ := List.mem_map.1 he
    exact (ht k).1 (Std.TreeSet.mem_toList.1 hk)
  · obtain ⟨k, rfl, -⟩ := (F.contains_entry a e).1 hq
    exact List.mem_map_of_mem (Std.TreeSet.mem_toList.2 ((ht k).2 he))
  · obtain ⟨k, hk, rfl⟩ := List.mem_map.1 he
    have hp := (hkey k (Std.TreeSet.mem_toList.1 hk)).1
    rw [hcontains, F.covers_entry, F.octets_address]
    exact maskcmp_iff (by rw [hlen]; exact hp) (by rw [hlen]; exact hp)
  · rw [List.pairwise_map]
    refine Std.TreeSet.ordered_toList.imp_of_mem fun {k k'} hk hk' hlt hq hq' => ?_
    rw [Preferred, F.prefixBits_entry, F.prefixBits_entry, F.weight_entry, F.weight_entry, F.owner_entry, F.owner_entry]
    exact IpKey.cmp_preferred (by rw [hlen, hlen]) (hkey k (Std.TreeSet.mem_toList.1 hk)).2
      (hkey k' (Std.TreeSet.mem_toList.1 hk')).2 ((hcontains k).1 hq) ((hcontains k').1 hq') hlt

theorem length_octetsV4 (a : Ipv4Addr) : a.octets.length = 4 := rfl

theorem length_octetsV6 (a : Ipv6Addr) : (octetsV6 a).length = 16 := by
  simp [octetsV6, List.length_flatMap, a.length_eq]

def familyV4 : Family Ipv4Addr Ipv4Addr.octets where
  width := 4
  length_octets := length_octetsV4
  address := .v4
  octets_address _ := rfl
  entry := SubnetTree.v4Entry
  prefixBits_entry _ := rfl
  weight_entry _ := rfl
  owner_entry _ := rfl
  covers_entry _ _ := rfl
  canonical_entry _ h := ⟨UInt8.le_iff_toNat_le.1 h.1, h.2⟩
  contains_entry a e := by
    obtain ⟨s, o⟩ := e
    cases s with
    | v4 addr p w =>
      constructor
      · exact fun h => ⟨⟨addr, p, w, o⟩, rfl, h⟩
      · rintro ⟨k, hk, h⟩
        obtain ⟨⟨rfl, rfl, rfl⟩, rfl⟩ : (k.addr = addr ∧ k.prefixLen = p ∧ k.weight = w) ∧ k.owner = o := by
          simpa [SubnetTree.v4Entry] using hk
        exact h
    | v6 addr p w => simp [Contains, SubnetTree.v4Entry]
    | mac addr w => simp [Contains, SubnetTree.v4Entry]
  entry_injective k k' h := by
    cases k
    cases k'
    simpa [SubnetTree.v4Entry, and_assoc] using h

def familyV6 : Family Ipv6Addr octetsV6 where
  width := 16
  length_octets := length_octetsV6
  address := .v6
  octets_address _ := rfl
  entry := SubnetTree.v6Entry
  prefixBits_entry _ := rfl
  weight_entry _ := rfl
  owner_entry _ := rfl
  covers_entry _ _ := rfl
  canonical_entry _ h := ⟨UInt8.le_iff_toNat_le.1 h.1, h.2⟩
  contains_entry a e := by
    obtain ⟨s, o⟩ := e
    cases s with
    | v6 addr p w =>
      constructor
      · exact fun h => ⟨⟨addr, p, w, o⟩, rfl, h⟩
      · rintro ⟨k, hk, h⟩
        obtain ⟨⟨rfl, rfl, rfl⟩, rfl⟩ : (k.addr = addr ∧ k.prefixLen = p ∧ k.weight = w) ∧ k.owner = o := by
          simpa [SubnetTree.v6Entry] using hk
        exact h
    | v4 addr p w => simp [Contains, SubnetTree.v6Entry]
    | mac addr w => simp [Contains, SubnetTree.v6Entry]
  entry_injective k k' h := by
    cases k
    cases k'
    simpa [SubnetTree.v6Entry, and_assoc] using h

namespace SubnetTree

/-- Lookups in a tree that was built from canonical subnets find the longest prefix. -/
theorem lookup_longest {ops : List Op} (hops : ∀ op ∈ ops, Canonical op.subnet) (isReachable : String → Bool) :
    (∀ addr : Ipv4Addr, LongestPrefix isReachable (held ops) (.v4 addr) ((build ops).lookupIpv4 addr isReachable)) ∧
      ∀ addr : Ipv6Addr, LongestPrefix isReachable (held ops) (.v6 addr) ((build ops).lookupIpv6 addr isReachable) :=
  ⟨fun addr => familyV4.longest_of_lookup (fun k => has_build ops (v4Entry k)) (canonical_held hops) addr isReachable,
    fun addr => familyV6.longest_of_lookup (fun k => has_build ops (v6Entry k)) (canonical_held hops) addr isReachable⟩

/-- A network, a part of it whose owner is down, and a default route that was replaced. -/
def threeNets : List Op :=
  [.add (.v4 ⟨0, 0, 0, 0⟩ 0 10) "gate", .add (.v4 ⟨10, 0, 0, 0⟩ 8 10) "core", .add (.v4 ⟨10, 1, 128, 0⟩ 17 10) "edge",
    .del (.v4 ⟨0, 0, 0, 0⟩ 0 10) "gate", .addBroadcast (.v4 ⟨224, 0, 0, 0⟩ 4 10)]

instance (s : Subnet) : Decidable (Canonical s) := inferInstanceAs (Decidable (_ ∧ _))

theorem lookup_longest_threeNets :
    ((build threeNets).lookupIpv4 ⟨10, 1, 200, 7⟩ (· != "edge") = some (.v4 ⟨10, 0, 0, 0⟩ 8 10, some "core")) ∧
    LongestPrefix (· != "edge") (held threeNets) (.v4 ⟨10, 1, 200, 7⟩)
      ((build threeNets).lookupIpv4 ⟨10, 1, 200, 7⟩ (· != "edge")) :=
  ⟨by decide +kernel, (lookup_longest (by decide +kernel) _).1 _⟩

end SubnetTree

end Tincr.Net

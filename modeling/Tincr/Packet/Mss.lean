import Tincr.Lib.Checked

/-!
The clamp of the TCP maximum segment size (`mss.rs`), with every index, store and addition of the
source as an operation that can fault. `locate` is the part before the option walk: it finds the TCP
header behind the Ethernet, VLAN and IP headers and the length of its options. `walk` is the loop over
the options.
-/

namespace Tincr.Mss

open Checked

abbrev Frame := List UInt8

def ETH_P_IP : UInt16 := 0x0800
def ETH_P_IPV6 : UInt16 := 0x86DD
def ETH_P_8021Q : UInt16 := 0x8100
abbrev ETHER_SIZE : ℕ := 14

def word (packet : Frame) (i : ℕ) : Checked UInt16 := do
  let hi ← load packet i
  let lo ← load packet (i + 1)
  return hi.toUInt16 <<< 8 ||| lo.toUInt16

/-- Past the Ethernet header and one VLAN tag: where the payload starts and its ethertype. -/
def skipLink (packet : Frame) : Checked (Option (ℕ × UInt16)) := do
  if packet.length < ETHER_SIZE then return none
  let ethertype ← word packet 12
  if ethertype = ETH_P_8021Q then
    let start ← offset [ETHER_SIZE, 4]
    if packet.length < 18 then return none
    let ethertype ← word packet 16
    return some (start, ethertype)
  return some (ETHER_SIZE, ethertype)

/-- Past the outer header of an IP-in-IP packet, which is taken to have no options. -/
def skipTunnel (packet : Frame) (start : ℕ) (ethertype : UInt16) : Checked (Option ℕ) := do
  if ethertype = ETH_P_IP then
    let at9 ← offset [start, 9]
    if packet.length ≤ at9 then return none
    if (← load packet at9) = 4 then
      return some (← offset [start, 20])
  return some start

/-- `ethertype == want && packet[start + field] == 6`; the byte is read for that ethertype only. -/
def carriesTcp (packet : Frame) (start : ℕ) (ethertype want : UInt16) (field : ℕ) : Checked Bool := do
  if ethertype = want then
    return (← load packet (← offset [start, field])) = 6
  return false

def skipIp (packet : Frame) (start : ℕ) (ethertype : UInt16) : Checked (Option ℕ) := do
  if packet.length ≤ (← offset [start, 20]) then return none
  if ← carriesTcp packet start ethertype ETH_P_IP 9 then
    let ihl := ((← load packet start) &&& 0x0f).toNat
    return some (← offset [start, ← mul usizeBound ihl 4])
  if ← carriesTcp packet start ethertype ETH_P_IPV6 6 then
    return some (← offset [start, 40])
  return none

/-- The number of option bytes of the TCP header at `start`. -/
def optLen (packet : Frame) (start : ℕ) : Checked (Option ℕ) := do
  if packet.length ≤ (← offset [start, 20]) then return none
  let doff := ((← load packet (← offset [start, 12])) >>> 4).toNat
  if doff < 5 then return none
  let opt_len ← mul usizeBound (← sub doff 5) 4
  if packet.length < (← offset [start, 20, opt_len]) then return none
  return some opt_len

/-- The start of the TCP header and the length of its options, if the frame holds one. -/
def locate (packet : Frame) : Checked (Option (ℕ × ℕ)) := do
  let some (start, ethertype) ← skipLink packet | return none
  let some start ← skipTunnel packet start ethertype | return none
  let some start ← skipIp packet start ethertype | return none
  let some opt_len ← optLen packet start | return none
  return some (start, opt_len)

/-- The checksum after one word of the segment changed from `oldmss` to `newmss` (RFC 1624). -/
def adjust (oldcsum oldmss newmss : ℕ) : Checked UInt16 := do
  let csum ← add (2 ^ 32) (oldcsum ^^^ 0xffff) (oldmss ^^^ 0xffff)
  let csum ← add (2 ^ 32) csum newmss
  let csum ← add (2 ^ 32) (csum &&& 0xffff) (csum >>> 16)
  let csum ← add (2 ^ 32) csum (csum >>> 16)
  return ~~~ UInt16.ofNat csum

/-- The part of the loop body that has arrived at an MSS option at `i`. -/
def rewrite (packet : Frame) (start i : ℕ) (mtu : UInt16) : Checked (Bool × Frame) := do
  let hi ← load packet (← offset [start, 22, i])
  let lo ← load packet (← offset [start, 23, i])
  let oldmss := hi.toUInt16 <<< 8 ||| lo.toUInt16
  let hdrs ← offset [start, 20]
  if 2 ^ 16 ≤ hdrs then return (false, packet)
  if mtu.toNat < hdrs then return (false, packet)
  let newmss := mtu - UInt16.ofNat hdrs
  if oldmss ≤ newmss then return (false, packet)
  let packet ← store packet (← offset [start, 22, i]) (newmss >>> 8).toUInt8
  let packet ← store packet (← offset [start, 23, i]) (newmss &&& 0xff).toUInt8
  let chi ← load packet (← offset [start, 16])
  let clo ← load packet (← offset [start, 17])
  let csum ← adjust (chi.toUInt16 <<< 8 ||| clo.toUInt16).toNat oldmss.toNat newmss.toNat
  let packet ← store packet (← offset [start, 16]) (csum >>> 8).toUInt8
  let packet ← store packet (← offset [start, 17]) csum.toUInt8
  return (true, packet)

def walk (packet : Frame) (start opt_len : ℕ) (mtu : UInt16) : ℕ → ℕ → Checked (Bool × Frame)
  | 0, i => if i < opt_len then .error .diverges else return (false, packet)
  | rounds + 1, i => do
    if opt_len ≤ i then return (false, packet)
    let kind ← load packet (← offset [start, 20, i])
    if kind = 0 then return (false, packet)
    if kind = 1 then
      walk packet start opt_len mtu rounds (← offset [i, 1])
    else
      if opt_len < (← offset [i, 2]) then return (false, packet)
      let this_len ← load packet (← offset [start, 21, i])
      if (← sub opt_len i) < this_len.toNat then return (false, packet)
      if kind ≠ 2 then
        if this_len < 2 then return (false, packet)
        walk packet start opt_len mtu rounds (← offset [i, this_len.toNat])
      else
        -- the length byte tested here is the first option's, not this one's
        if (← load packet (← offset [start, 21])) ≠ 4 then return (false, packet)
        rewrite packet start i mtu

/-- Every round moves on by a byte at least, so there are no more rounds than option bytes. -/
def clamp (packet : Frame) (mtu : UInt16) : Checked (Bool × Frame) := do
  let some (start, opt_len) ← locate packet | return (false, packet)
  walk packet start opt_len mtu opt_len 0

variable {packet : Frame} {start opt_len : ℕ} {mtu : UInt16}

theorem skipLink_returns :
    Returns (skipLink packet) fun r => ∀ p ∈ r, p.1 ≤ 18 := by
  simp only [skipLink, word, ETHER_SIZE, usizeBound, returns_ite, returns_pure, returns_bind,
    returns_load, returns_offset, Option.mem_def, Option.some.injEq, forall_eq', List.sum_cons,
    List.sum_nil, reduceCtorEq, IsEmpty.forall_iff, implies_true, true_and]
  intro h
  refine ⟨by omega, by omega, fun _ => ⟨by omega, fun h18 => ⟨by omega, by omega, ?_⟩⟩, fun _ => ?_⟩
  · omega
  · omega

theorem skipTunnel_returns {ethertype : UInt16} (h : start ≤ 18) :
    Returns (skipTunnel packet start ethertype) fun r => ∀ s ∈ r, s ≤ 38 := by
  simp only [skipTunnel, usizeBound, returns_ite, returns_pure, returns_bind, returns_load,
    returns_offset, Option.mem_def, Option.some.injEq, forall_eq', List.sum_cons, List.sum_nil,
    reduceCtorEq, IsEmpty.forall_iff, implies_true, true_and]
  refine ⟨fun _ => ⟨by omega, fun h9 => ⟨by omega, fun _ => ?_, fun _ => ?_⟩⟩, fun _ => ?_⟩
  · omega
  · omega
  · omega

theorem low_nibble_le (b : UInt8) : (b &&& 0x0f).toNat ≤ 15 := by
  rw [UInt8.toNat_and]
  exact Nat.and_le_right

theorem high_nibble_le (b : UInt8) : (b >>> 4).toNat ≤ 15 := by
  have h : (b >>> 4).toNat = b.toNat >>> 4 := rfl
  have := b.toNat_lt
  omega

theorem carriesTcp_returns {ethertype want : UInt16} {field : ℕ} (hs : start ≤ 38) (hf : field < 20)
    (h : start + 20 < packet.length) :
    Returns (carriesTcp packet start ethertype want field) fun _ => True := by
  simp only [carriesTcp, usizeBound, returns_ite, returns_pure, returns_bind, returns_load,
    returns_offset, List.sum_cons, List.sum_nil, implies_true, and_true]
  intro _
  exact ⟨by omega, by omega, trivial⟩

theorem skipIp_returns {ethertype : UInt16} (h : start ≤ 38) :
    Returns (skipIp packet start ethertype) fun r => ∀ s ∈ r, s ≤ 98 := by
  simp only [skipIp, usizeBound, returns_ite, returns_pure, returns_bind, returns_load,
    returns_offset, returns_mul, Option.mem_def, Option.some.injEq, forall_eq', List.sum_cons,
    List.sum_nil, reduceCtorEq, IsEmpty.forall_iff, implies_true, true_and, Nat.add_zero, and_true]
  refine ⟨by omega, fun h20 => (carriesTcp_returns h (by omega) (by omega)).mono fun v4 _ => ?_⟩
  refine ⟨fun _ => ⟨by omega, ?_⟩, fun _ => ?_⟩
  · have := low_nibble_le (packet.get ⟨start, by omega⟩)
    simp only [List.get_eq_getElem] at this
    omega
  · refine (carriesTcp_returns h (by omega) (by omega)).mono fun v6 _ => fun _ => ?_
    omega

theorem optLen_returns (h : start ≤ 98) :
    Returns (optLen packet start) fun r => ∀ n ∈ r, n ≤ 40 ∧ start + 20 < packet.length ∧
      start + 20 + n ≤ packet.length := by
  simp only [optLen, usizeBound, returns_ite, returns_pure, returns_bind, returns_load,
    returns_offset, returns_mul, returns_sub, Option.mem_def, Option.some.injEq, forall_eq',
    List.sum_cons, List.sum_nil, reduceCtorEq, IsEmpty.forall_iff, implies_true, true_and,
    Nat.add_zero]
  refine ⟨by omega, fun h20 => ⟨by omega, by omega, fun hd => ?_⟩⟩
  have := high_nibble_le (packet.get ⟨start + 12, by omega⟩)
  simp only [List.get_eq_getElem] at this
  omega

/-- Whatever the frame, the part before the walk returns, and what it finds lies in the frame. -/
theorem locate_returns :
    Returns (locate packet) fun r => ∀ p ∈ r, p.1 ≤ 98 ∧ p.2 ≤ 40 ∧ p.1 + 20 < packet.length ∧
      p.1 + 20 + p.2 ≤ packet.length := by
  simp only [locate, returns_bind]
  refine skipLink_returns.mono fun r hr => ?_
  rcases r with _ | ⟨start, ethertype⟩
  · simp
  simp only [returns_bind]
  refine (skipTunnel_returns (hr _ rfl)).mono fun r hr => ?_
  rcases r with _ | start
  · simp
  simp only [returns_bind]
  refine (skipIp_returns (hr _ rfl)).mono fun r hr => ?_
  rcases r with _ | start
  · simp
  simp only [returns_bind]
  refine (optLen_returns (hr _ rfl)).mono fun r hr' => ?_
  rcases r with _ | opt_len
  · simp
  simpa using ⟨hr _ rfl, hr' _ rfl⟩

/-- The walk steps from the option at `i` to the one at `j`: over a NOP, or over an option other than
MSS by its own length. -/
def NextOption (packet : Frame) (start opt_len i j : ℕ) : Prop :=
  i < opt_len ∧ (packet[start + 20 + i]? = some 1 ∧ j = i + 1 ∨
    ∃ kind len : UInt8, packet[start + 20 + i]? = some kind ∧ 2 < kind ∧ i + 2 ≤ opt_len ∧
      packet[start + 21 + i]? = some len ∧ 2 ≤ len ∧ i + len.toNat ≤ opt_len ∧ j = i + len.toNat)

def MssOption (packet : Frame) (start opt_len i : ℕ) : Prop :=
  packet[start + 20 + i]? = some 2 ∧ i + 2 ≤ opt_len ∧
    (∃ len : UInt8, packet[start + 21 + i]? = some len ∧ i + len.toNat ≤ opt_len) ∧
    packet[start + 21]? = some 4

/-- Every MSS option the walk comes to from `i` has its four bytes in the frame. -/
def MssInFrame (packet : Frame) (start opt_len i : ℕ) : Prop :=
  ∀ j, Relation.ReflTransGen (NextOption packet start opt_len) i j →
    MssOption packet start opt_len j → start + 24 + j ≤ packet.length

variable {i j : ℕ}

theorem NextOption.kind_ne (h : NextOption packet start opt_len i j) :
    packet[start + 20 + i]? ≠ some 2 := by
  intro h2
  rcases h with ⟨-, ⟨h1, -⟩ | ⟨kind, len, hk, hlt, -⟩⟩
  · rw [h1] at h2
    exact absurd h2 (by decide)
  · rw [hk, Option.some.injEq] at h2
    exact absurd (h2 ▸ hlt) (by decide)

theorem NextOption.not_mss (h : NextOption packet start opt_len i j) :
    ¬ MssOption packet start opt_len i :=
  fun hm => h.kind_ne hm.1

theorem NextOption.unique {k : ℕ} (hj : NextOption packet start opt_len i j)
    (hk : NextOption packet start opt_len i k) : j = k := by
  rcases hj with ⟨-, ⟨h1, rfl⟩ | ⟨kind, len, hkind, hlt, -, hlen, -, -, rfl⟩⟩ <;>
    rcases hk with ⟨-, ⟨h1', rfl⟩ | ⟨kind', len', hkind', hlt', -, hlen', -, -, rfl⟩⟩
  · rfl
  · rw [h1, Option.some.injEq] at hkind'
    exact absurd (hkind' ▸ hlt') (by decide)
  · rw [h1', Option.some.injEq] at hkind
    exact absurd (hkind ▸ hlt) (by decide)
  · rw [hlen, Option.some.injEq] at hlen'
    rw [hlen']

theorem mssInFrame_of_stuck (h : ∀ j, ¬ NextOption packet start opt_len i j) :
    MssInFrame packet start opt_len i ↔
      (MssOption packet start opt_len i → start + 24 + i ≤ packet.length) := by
  constructor
  · intro hi
    exact hi i .refl
  · intro hi j hj hmss
    rcases hj.cases_head with rfl | ⟨k, hk, -⟩
    · exact hi hmss
    · exact absurd hk (h k)

theorem mssInFrame_next (h : NextOption packet start opt_len i j) :
    MssInFrame packet start opt_len i ↔ MssInFrame packet start opt_len j := by
  constructor
  · intro hi k hk
    exact hi k (hk.head h)
  · intro hj k hk hmss
    rcases hk.cases_head with rfl | ⟨k', hk', hrest⟩
    · exact absurd hmss h.not_mss
    · rw [hk'.unique h] at hrest
      exact hj k hrest hmss

theorem adjust_returns {oldcsum oldmss newmss : ℕ} (hc : oldcsum < 2 ^ 16) (ho : oldmss < 2 ^ 16)
    (hn : newmss < 2 ^ 16) : Returns (adjust oldcsum oldmss newmss) fun _ => True := by
  have h1 : oldcsum ^^^ 0xffff < 2 ^ 16 := Nat.xor_lt_two_pow hc (by norm_num)
  have h2 : oldmss ^^^ 0xffff < 2 ^ 16 := Nat.xor_lt_two_pow ho (by norm_num)
  simp only [adjust, returns_bind, returns_add, returns_pure, and_true, Nat.shiftRight_eq_div_pow,
    Nat.and_two_pow_sub_one_eq_mod _ 16, show 0xffff = 2 ^ 16 - 1 from rfl] at h1 h2 ⊢
  omega

theorem rewrite_returns (hs : start ≤ 98) (hi : i ≤ 40) (h : start + 20 < packet.length) :
    Returns (rewrite packet start i mtu) (fun _ => True) ↔ start + 24 + i ≤ packet.length := by
  simp only [rewrite, usizeBound, returns_ite, returns_pure, returns_bind, returns_load,
    returns_offset, returns_store, List.sum_cons, List.sum_nil, Nat.add_zero, implies_true, true_and,
    List.length_set]
  constructor
  · rintro ⟨-, -, -, h23, -⟩
    omega
  · intro hlen
    refine ⟨by omega, by omega, by omega, by omega, by omega, fun _ _ _ => ?_⟩
    refine ⟨by omega, by omega, by omega, by omega, by omega, by omega, by omega, by omega, ?_⟩
    refine (adjust_returns (UInt16.toNat_lt _) (UInt16.toNat_lt _) (UInt16.toNat_lt _)).mono ?_
    intro _ _
    exact ⟨by omega, by omega, by omega, by omega, trivial⟩

/-- What one round of the walk at `i` can come to: the walk from the next option, an end without a
change, or the rewriting of an MSS option. -/
inductive Round (packet : Frame) (start opt_len : ℕ) (mtu : UInt16) (rounds i : ℕ) :
    Checked (Bool × Frame) → Prop
  | next (j : ℕ) (hij : i < j) (hn : NextOption packet start opt_len i j) :
    Round packet start opt_len mtu rounds i (walk packet start opt_len mtu rounds j)
  | stop (hn : ∀ j, ¬ NextOption packet start opt_len i j) (hm : ¬ MssOption packet start opt_len i) :
    Round packet start opt_len mtu rounds i (.ok (false, packet))
  | mss (hn : ∀ j, ¬ NextOption packet start opt_len i j) (hm : MssOption packet start opt_len i) :
    Round packet start opt_len mtu rounds i (rewrite packet start i mtu)

theorem nextOption_iff {kind : UInt8} (hk : packet[start + 20 + i]? = some kind) :
    NextOption packet start opt_len i j ↔ i < opt_len ∧ (kind = 1 ∧ j = i + 1 ∨
      2 < kind ∧ i + 2 ≤ opt_len ∧ ∃ len : UInt8, packet[start + 21 + i]? = some len ∧ 2 ≤ len ∧
        i + len.toNat ≤ opt_len ∧ j = i + len.toNat) := by
  simp [NextOption, hk]

theorem mssOption_iff {kind : UInt8} (hk : packet[start + 20 + i]? = some kind) :
    MssOption packet start opt_len i ↔ kind = 2 ∧ i + 2 ≤ opt_len ∧
      (∃ len : UInt8, packet[start + 21 + i]? = some len ∧ i + len.toNat ≤ opt_len) ∧
      packet[start + 21]? = some 4 := by
  simp [MssOption, hk]

theorem two_lt_of_ne {kind : UInt8} (h0 : kind ≠ 0) (h1 : kind ≠ 1) (h2 : kind ≠ 2) : 2 < kind := by
  rw [UInt8.lt_iff_toNat_lt]
  have e0 : kind.toNat ≠ 0 := fun e => h0 (UInt8.toNat_inj.1 e)
  have e1 : kind.toNat ≠ 1 := fun e => h1 (UInt8.toNat_inj.1 e)
  have e2 : kind.toNat ≠ 2 := fun e => h2 (UInt8.toNat_inj.1 e)
  change 2 < kind.toNat
  omega

theorem walk_succ (hs : start ≤ 98) (ho : opt_len ≤ 40) (h : start + 20 < packet.length)
    (hlen : start + 20 + opt_len ≤ packet.length) (rounds : ℕ) :
    Round packet start opt_len mtu rounds i (walk packet start opt_len mtu (rounds + 1) i) := by
  rw [walk]
  by_cases hi : opt_len ≤ i
  · rw [if_pos hi]
    refine .stop (fun j hj => ?_) (fun hm => ?_)
    · have := hj.1; omega
    · have := hm.2.1; omega
  have h20 : start + 20 + i < packet.length := by omega
  have hkind : packet[start + 20 + i]? = some packet[start + 20 + i] := List.getElem?_eq_getElem h20
  rw [if_neg hi, offset_eq (n := start + 20 + i) (by simp; omega) (by omega), ok_bind, load_eq h20,
    ok_bind]
  generalize packet[start + 20 + i] = kind at hkind ⊢
  by_cases h0 : kind = 0
  · rw [if_pos h0]
    exact .stop (by simp [nextOption_iff hkind, h0]) (by simp [mssOption_iff hkind, h0])
  rw [if_neg h0]
  by_cases h1 : kind = 1
  · rw [if_pos h1, offset_eq (n := i + 1) (by simp) (by omega), ok_bind]
    exact .next (i + 1) (by omega) ((nextOption_iff hkind).2 ⟨by omega, .inl ⟨h1, rfl⟩⟩)
  rw [if_neg h1, offset_eq (n := i + 2) (by simp) (by omega), ok_bind]
  by_cases h2 : opt_len < i + 2
  · rw [if_pos h2]
    refine .stop (fun j hj => ?_) (fun hm => ?_)
    · rcases ((nextOption_iff hkind).1 hj).2 with ⟨e, -⟩ | ⟨-, hle, -⟩
      · exact h1 e
      · omega
    · have := hm.2.1; omega
  have h21 : start + 21 + i < packet.length := by omega
  have hthis : packet[start + 21 + i]? = some packet[start + 21 + i] := List.getElem?_eq_getElem h21
  rw [if_neg h2, offset_eq (n := start + 21 + i) (by simp; omega) (by omega), ok_bind, load_eq h21,
    ok_bind, sub_eq (by omega), ok_bind]
  generalize packet[start + 21 + i] = this_len at hthis ⊢
  by_cases hover : opt_len - i < this_len.toNat
  · rw [if_pos hover]
    refine .stop (fun j hj => ?_) (fun hm => ?_)
    · rcases ((nextOption_iff hkind).1 hj).2 with ⟨e, -⟩ | ⟨-, -, len, hl, -, hle, -⟩
      · exact h1 e
      · cases hthis.symm.trans hl; omega
    · obtain ⟨-, -, ⟨len, hl, hle⟩, -⟩ := hm
      cases hthis.symm.trans hl; omega
  rw [if_neg hover]
  by_cases hmss : kind = 2
  · have hn : ∀ j, ¬ NextOption packet start opt_len i j := by
      simp [nextOption_iff hkind, hmss]
    rw [if_neg (not_not.2 hmss), offset_eq (n := start + 21) (by simp) (by omega), ok_bind,
      load_eq (by omega), ok_bind]
    by_cases h4 : packet[start + 21] = 4
    · rw [if_neg (not_not.2 h4)]
      refine .mss hn ((mssOption_iff hkind).2 ⟨hmss, by omega, ⟨this_len, hthis, by omega⟩, ?_⟩)
      rw [List.getElem?_eq_getElem (by omega), h4]
    · rw [if_pos h4]
      refine .stop hn fun hm => h4 ?_
      have := hm.2.2.2
      rwa [List.getElem?_eq_getElem (by omega), Option.some.injEq] at this
  · have hgt := two_lt_of_ne h0 h1 hmss
    rw [if_pos hmss]
    by_cases hshort : this_len < 2
    · rw [if_pos hshort]
      refine .stop (fun j hj => ?_) (fun hm => hmss ((mssOption_iff hkind).1 hm).1)
      rcases ((nextOption_iff hkind).1 hj).2 with ⟨e, -⟩ | ⟨-, -, len, hl, hge, -⟩
      · exact h1 e
      · cases hthis.symm.trans hl
        exact absurd hshort (UInt8.not_lt.2 hge)
    · have hge := UInt8.not_lt.1 hshort
      have : 2 ≤ this_len.toNat := UInt8.le_iff_toNat_le.1 hge
      rw [if_neg hshort, offset_eq (n := i + this_len.toNat) (by simp) (by omega), ok_bind]
      refine .next _ (by omega) ((nextOption_iff hkind).2 ⟨by omega, .inr ⟨hgt, by omega, ?_⟩⟩)
      exact ⟨this_len, hthis, hge, by omega, rfl⟩

theorem walk_returns (hs : start ≤ 98) (ho : opt_len ≤ 40) (h : start + 20 < packet.length)
    (hlen : start + 20 + opt_len ≤ packet.length) (rounds : ℕ) (hr : opt_len ≤ rounds + i) :
    Returns (walk packet start opt_len mtu rounds i) (fun _ => True) ↔
      MssInFrame packet start opt_len i := by
  induction rounds generalizing i with
  | zero =>
    have hstuck : ∀ j, ¬ NextOption packet start opt_len i j := fun j hj => by
      have := hj.1
      omega
    rw [walk, if_neg (by omega), returns_pure, mssInFrame_of_stuck hstuck, true_iff]
    rintro ⟨-, h2, -⟩
    omega
  | succ rounds ih =>
    have hround : Round packet start opt_len mtu rounds i _ := walk_succ hs ho h hlen rounds
    generalize walk packet start opt_len mtu (rounds + 1) i = out at hround ⊢
    cases hround with
    | next j hij hn => rw [ih (by omega), mssInFrame_next hn]
    | stop hn hm => simp [mssInFrame_of_stuck hn, hm]
    | mss hn hm =>
      have hi := hm.2.1
      rw [rewrite_returns hs (by omega) h, mssInFrame_of_stuck hn]
      simp [hm]

/-- The clamp returns for exactly the frames in which every MSS option the walk comes to has its
four bytes in the frame. -/
theorem clamp_returns_iff (packet : Frame) (mtu : UInt16) :
    (∃ r, clamp packet mtu = .ok r) ↔
      ∀ start opt_len, locate packet = .ok (some (start, opt_len)) →
        MssInFrame packet start opt_len 0 := by
  have hreturns : (∃ r, clamp packet mtu = .ok r) ↔ Returns (clamp packet mtu) fun _ => True := by
    simp [Returns]
  obtain ⟨r, hloc, hbounds⟩ : Returns (locate packet) _ := locate_returns
  rw [hreturns, clamp, hloc, ok_bind]
  rcases r with _ | ⟨start, opt_len⟩
  · simp
  · obtain ⟨hs, ho, h, hlen⟩ := hbounds _ rfl
    simp only [Except.ok.injEq, Option.some.injEq, Prod.mk.injEq]
    rw [walk_returns hs ho h hlen opt_len (by omega)]
    constructor
    · rintro hin _ _ ⟨rfl, rfl⟩
      exact hin
    · intro hin
      exact hin start opt_len ⟨rfl, rfl⟩

/-- An IPv4 frame whose TCP options end, with the frame, in the kind and length byte of an MSS
option; the first option has length 4. -/
def cutMssFrame : Frame :=
  List.replicate 12 0 ++ [0x08, 0x00] ++
    ([0x45] ++ List.replicate 8 0 ++ [6] ++ List.replicate 10 0) ++
    (List.replicate 12 0 ++ [0x70] ++ List.replicate 7 0) ++ [3, 4, 0, 0, 1, 1, 2, 2]

theorem clamp_cutMssFrame : clamp cutMssFrame 1500 = .error .index := by
  decide +kernel

end Tincr.Mss

import Tincr.Net.Route
import Tincr.Lib.Checked
import Tincr.Lib.OnesComplement

/-!
The hop count of a frame that is forwarded. For IPv4 the header checksum is updated from the one word
that holds the TTL, in one's-complement arithmetic, and not computed anew. The sum over the header is
the same modulo `0xffff` afterwards and not 0, so a header that verified still does, after any number
of hops.
-/

namespace Tincr.Net

open Checked OnesComplement

abbrev ETH_P_8021Q : ℕ := 0x8100
abbrev IPPROTO_ICMP : UInt8 := 1
abbrev ICMP_TIME_EXCEEDED : UInt8 := 11
abbrev ICMP_EXC_TTL : UInt8 := 0
abbrev ICMP6_TIME_EXCEEDED : UInt8 := 3
abbrev ICMP6_TIME_EXCEED_TRANSIT : UInt8 := 0

inductive TtlResult
  | decremented
  | dropSilent
  | sendIcmp (icmpType icmpCode : UInt8)
  | tooShort
deriving DecidableEq, Repr

def be16 (data : List UInt8) (o : ℕ) : Checked ℕ := do
  return (← load data o).toNat * 256 + (← load data (o + 1)).toNat

/-- The ethertype and where the header behind it starts; a VLAN tag is skipped. -/
def readEthertype (data : List UInt8) : Checked (Option (ℕ × ℕ)) := do
  if data.length < ETHER_SIZE then return none
  let ethertype ← be16 data 12
  if ethertype = ETH_P_8021Q then
    if data.length < ETHER_SIZE + 4 then return none
    return some (← be16 data 16, ETHER_SIZE + 4)
  return some (ethertype, ETHER_SIZE)

/-- The guard against answering an error with an error reads the protocol and the ICMP type at the
wrong offsets. The folding loop is done after two rounds. -/
def decrementIpv4 (data : List UInt8) (ethlen : ℕ) : Checked (TtlResult × List UInt8) := do
  if data.length < ethlen + IP_SIZE then return (.tooShort, data)
  let ttl ← load data (ethlen + 8)
  if ttl ≤ 1 then
    if (← load data (ethlen + 11)) ≠ IPPROTO_ICMP ∨ data[ethlen + 32]? ≠ some ICMP_TIME_EXCEEDED then
      return (.sendIcmp ICMP_TIME_EXCEEDED ICMP_EXC_TTL, data)
    return (.dropSilent, data)
  let old ← be16 data (ethlen + 8)
  let data ← store data (ethlen + 8) (UInt8.ofNat (← sub ttl.toNat 1))
  let new ← be16 data (ethlen + 8)
  let csum ← be16 data (ethlen + 10)
  let csum ← Checked.add (2 ^ 32) csum (← Checked.add (2 ^ 32) old (0xffff - new))
  let csum := carry 3 csum
  let data ← store data (ethlen + 10) (UInt8.ofNat (csum / 256))
  let data ← store data (ethlen + 11) (UInt8.ofNat csum)
  return (.decremented, data)

def decrementIpv6 (data : List UInt8) (ethlen : ℕ) : Checked (TtlResult × List UInt8) := do
  if data.length < ethlen + IP6_SIZE then return (.tooShort, data)
  let hlim ← load data (ethlen + 7)
  if hlim ≤ 1 then
    if (← load data (ethlen + 6)) ≠ IPPROTO_ICMPV6 ∨ data[ethlen + 40]? ≠ some ICMP6_TIME_EXCEEDED then
      return (.sendIcmp ICMP6_TIME_EXCEEDED ICMP6_TIME_EXCEED_TRANSIT, data)
    return (.dropSilent, data)
  let data ← store data (ethlen + 7) (UInt8.ofNat (← sub hlim.toNat 1))
  return (.decremented, data)

def decrementTtl (data : List UInt8) : Checked (TtlResult × List UInt8) := do
  let some (ethertype, ethlen) ← readEthertype data | return (.tooShort, data)
  if ethertype = ETH_P_IP then decrementIpv4 data ethlen
  else if ethertype = ETH_P_IPV6 then decrementIpv6 data ethlen
  else return (.decremented, data)

/-! ### What the frame carries -/

def wordAt (data : List UInt8) (o : ℕ) : Option ℕ := do
  return (← data[o]?).toNat * 256 + (← data[o + 1]?).toNat

/-- The frame has this ethertype and its payload starts at `ethlen`, behind a VLAN tag or not. -/
def Carries (data : List UInt8) (ethlen ethertype : ℕ) : Prop :=
  ethlen = 14 ∧ wordAt data 12 = some ethertype ∧ ethertype ≠ ETH_P_8021Q ∨
    ethlen = 18 ∧ wordAt data 12 = some ETH_P_8021Q ∧ wordAt data 16 = some ethertype

/-- As many words of four bytes as the header says it has. -/
def ipHeader (data : List UInt8) (ethlen : ℕ) : List UInt8 :=
  (data.drop ethlen).take ((data.getD ethlen 0 &&& 0x0f).toNat * 4)

/-- The TTL is one less, the checksum is right if it was, and no other byte has changed. -/
structure IpDecremented (data data' : List UInt8) (ethlen : ℕ) : Prop where
  ttl : ∃ ttl, data[ethlen + 8]? = some ttl ∧ 1 < ttl ∧ data'[ethlen + 8]? = some (ttl - 1)
  same : ∀ k, k ≠ ethlen + 8 → k ≠ ethlen + 10 → k ≠ ethlen + 11 → data'[k]? = data[k]?
  checksum : Verifies (ipHeader data ethlen) → Verifies (ipHeader data' ethlen)

structure Ip6Decremented (data data' : List UInt8) (ethlen : ℕ) : Prop where
  hlim : ∃ hlim, data[ethlen + 7]? = some hlim ∧ 1 < hlim ∧ data'[ethlen + 7]? = some (hlim - 1)
  same : ∀ k, k ≠ ethlen + 7 → data'[k]? = data[k]?

variable {data data' : List UInt8} {ethlen ethertype o w : ℕ}

theorem be16_of_wordAt (h : wordAt data o = some w) : be16 data o = .ok w := by
  simp only [wordAt, Option.pure_def, Option.bind_eq_bind, Option.bind_eq_some_iff, Option.some.injEq] at h
  obtain ⟨hi, hhi, lo, hlo, rfl⟩ := h
  rw [be16, load_some hhi, ok_bind, load_some hlo, ok_bind]
  rfl

theorem wordAt_of_getElem? {hi lo : UInt8} (hhi : data[o]? = some hi) (hlo : data[o + 1]? = some lo) :
    wordAt data o = some (hi.toNat * 256 + lo.toNat) := by
  simp [wordAt, hhi, hlo]

theorem wordAt_isSome (h : o + 1 < data.length) : ∃ w, wordAt data o = some w :=
  ⟨_, wordAt_of_getElem? (List.getElem?_eq_getElem (by omega)) (List.getElem?_eq_getElem h)⟩

theorem readEthertype_returns (data : List UInt8) : Returns (readEthertype data) fun _ => True := by
  rw [readEthertype]
  by_cases h14 : data.length < ETHER_SIZE
  · rw [if_pos h14]
    exact returns_pure.2 trivial
  rw [if_neg h14]
  obtain ⟨tpid, htpid⟩ := @wordAt_isSome data 12 (by simp only [ETHER_SIZE] at h14; omega)
  rw [be16_of_wordAt htpid, ok_bind]
  split_ifs with htag h18
  · exact returns_pure.2 trivial
  · obtain ⟨inner, hinner⟩ := @wordAt_isSome data 16 (by simp only [ETHER_SIZE] at h18; omega)
    rw [be16_of_wordAt hinner, ok_bind]
    exact returns_pure.2 trivial
  · exact returns_pure.2 trivial

theorem lt_of_wordAt (h : wordAt data o = some w) : o + 1 < data.length := by
  simp only [wordAt, Option.pure_def, Option.bind_eq_bind, Option.bind_eq_some_iff] at h
  obtain ⟨hi, hhi, lo, hlo, -⟩ := h
  exact (List.getElem?_eq_some_iff.1 hlo).1

theorem Carries.read (h : Carries data ethlen ethertype) :
    readEthertype data = .ok (some (ethertype, ethlen)) := by
  rcases h with ⟨rfl, htype, hne⟩ | ⟨rfl, htpid, htype⟩
  · have hlen := lt_of_wordAt htype
    rw [readEthertype, if_neg (by simp only [ETHER_SIZE]; omega), be16_of_wordAt htype, ok_bind, if_neg hne]
    rfl
  · have hlen := lt_of_wordAt htype
    rw [readEthertype, if_neg (by simp only [ETHER_SIZE]; omega), be16_of_wordAt htpid, ok_bind, if_pos rfl,
      if_neg (by simp only [ETHER_SIZE]; omega), be16_of_wordAt htype, ok_bind]
    rfl

theorem toNat_sub_one {b : UInt8} (h : 1 < b) : UInt8.ofNat (b.toNat - 1) = b - 1 := by
  have h1 : (1 : UInt8).toNat < b.toNat := UInt8.lt_iff_toNat_lt.1 h
  have hb := b.toNat_lt
  have hle : 1 ≤ b := UInt8.le_iff_toNat_le.2 h1.le
  rw [← UInt8.toNat_inj, UInt8.toNat_sub_of_le _ _ hle, UInt8.toNat_ofNat_of_lt' (show _ < 2 ^ 8 by omega)]
  rfl

/-! ### The checksum -/

/-- One byte of the sum. -/
theorem weight_le_total {bs : List UInt8} {k : ℕ} {a : UInt8} (h : bs[k]? = some a) :
    weight k * a.toNat ≤ total bs := by
  have hset := total_set h 0
  simp only [UInt8.toNat_zero, Nat.mul_zero, Nat.add_zero] at hset
  omega

theorem toNat_pred {b : UInt8} (h : 1 < b) : 1 < b.toNat ∧ (b - 1).toNat = b.toNat - 1 := by
  have h1 : (1 : UInt8).toNat < b.toNat := UInt8.lt_iff_toNat_lt.1 h
  exact ⟨h1, UInt8.toNat_sub_of_le _ _ (UInt8.le_iff_toNat_le.2 h1.le)⟩

/-- The update adds what the word with the TTL has lost. -/
theorem csum_update {c p t t' csum : ℕ} (ht : 1 < t) (ht' : t' = t - 1) (hc : c < 2 ^ 16) (hp : p < 2 ^ 8)
    (hlt : t < 2 ^ 8) (h : csum = carry 3 (c + (t * 256 + p + (0xffff - (t' * 256 + p))))) :
    csum < 0x10000 ∧ csum % 0xffff = (c + 256) % 0xffff := by
  have hsum : c + (t * 256 + p + (0xffff - (t' * 256 + p))) = c + 256 + 0xffff := by omega
  rw [hsum] at h
  rw [h]
  refine ⟨carry_lt (by omega) 1, ?_⟩
  rw [(carry_mod 3 _).1, Nat.add_mod_right]

/-- The three bytes of a header after the update: the sum is the same modulo `0xffff`, and positive
since the TTL is. -/
theorem verifies_update {hd : List UInt8} {ttl proto c0 c1 : UInt8} (hlen : 11 < hd.length)
    (httl : hd[8]? = some ttl) (hlt : 1 < ttl) (hc0 : hd[10]? = some c0) (hc1 : hd[11]? = some c1)
    {csum : ℕ} (hcsum : csum = carry 3 (c0.toNat * 256 + c1.toNat + (ttl.toNat * 256 + proto.toNat +
      (0xffff - ((ttl - 1).toNat * 256 + proto.toNat))))) (h : Verifies hd) :
    Verifies (((hd.set 8 (ttl - 1)).set 10 (UInt8.ofNat (csum / 256))).set 11 (UInt8.ofNat csum)) := by
  obtain ⟨hlow, hpred⟩ := toNat_pred hlt
  have hc := c0.toNat_lt
  have hc' := c1.toNat_lt
  have hword := csum_update hlow hpred (by omega) proto.toNat_lt ttl.toNat_lt hcsum
  generalize hhi : UInt8.ofNat (csum / 256) = hi
  generalize hlo : UInt8.ofNat csum = lo
  have hbytes : hi.toNat * 256 + lo.toNat = csum := by
    rw [← hhi, ← hlo, UInt8.toNat_ofNat_of_lt' (show _ < 2 ^ 8 by omega), UInt8.toNat_ofNat']
    omega
  -- each of the three bytes in turn
  have hset8 : (hd.set 8 (ttl - 1))[8]? = some (ttl - 1) := List.getElem?_set_self (by omega)
  have hset10 : (hd.set 8 (ttl - 1))[10]? = some c0 := by simpa using hc0
  have hset11 : ((hd.set 8 (ttl - 1)).set 10 hi)[11]? = some c1 := by simpa using hc1
  have hlast8 : (((hd.set 8 (ttl - 1)).set 10 hi).set 11 lo)[8]? = some (ttl - 1) := by simpa using hset8
  have h8 := total_set httl (ttl - 1)
  have h10 := total_set hset10 hi
  have h11 := total_set hset11 lo
  have hpos := weight_le_total hlast8
  have hw8 : weight 8 = 256 := rfl
  have hw10 : weight 10 = 256 := rfl
  have hw11 : weight 11 = 1 := rfl
  rw [verifies_iff] at h ⊢
  rw [hw8] at h8 hpos
  rw [hw10] at h10
  rw [hw11] at h11
  omega

/-- The header of a frame in which the three bytes are written is the header with them written, and a
header of fewer than three words has none of them. -/
theorem verifies_ipHeader_update {ttl proto c0 c1 : UInt8} (hlen : ethlen + IP_SIZE ≤ data.length)
    (httl : data[ethlen + 8]? = some ttl) (hlt : 1 < ttl) (hc0 : data[ethlen + 10]? = some c0)
    (hc1 : data[ethlen + 11]? = some c1) {csum : ℕ}
    (hcsum : csum = carry 3 (c0.toNat * 256 + c1.toNat + (ttl.toNat * 256 + proto.toNat +
      (0xffff - ((ttl - 1).toNat * 256 + proto.toNat))))) (h : Verifies (ipHeader data ethlen)) :
    Verifies (ipHeader (((data.set (ethlen + 8) (ttl - 1)).set (ethlen + 10) (UInt8.ofNat (csum / 256))).set
      (ethlen + 11) (UInt8.ofNat csum)) ethlen) := by
  simp only [IP_SIZE] at hlen
  have hfirst : (((data.set (ethlen + 8) (ttl - 1)).set (ethlen + 10) (UInt8.ofNat (csum / 256))).set
      (ethlen + 11) (UInt8.ofNat csum)).getD ethlen 0 = data.getD ethlen 0 := by
    simp [List.getD_eq_getElem?_getD]
  have hheader : ipHeader (((data.set (ethlen + 8) (ttl - 1)).set (ethlen + 10) (UInt8.ofNat (csum / 256))).set
      (ethlen + 11) (UInt8.ofNat csum)) ethlen = (((ipHeader data ethlen).set 8 (ttl - 1)).set 10
        (UInt8.ofNat (csum / 256))).set 11 (UInt8.ofNat csum) := by
    rw [ipHeader, hfirst, ipHeader]
    simp only [List.drop_set, List.take_set, Nat.not_lt.2 (Nat.le_add_right _ _), if_false,
      Nat.add_sub_cancel_left]
  rw [hheader]
  have hsize : (ipHeader data ethlen).length =
      min ((data.getD ethlen 0 &&& 0x0f).toNat * 4) (data.length - ethlen) := by
    rw [ipHeader, List.length_take, List.length_drop]
  have hbyte : ∀ {k : ℕ} {b : UInt8}, k < (ipHeader data ethlen).length → data[ethlen + k]? = some b →
      (ipHeader data ethlen)[k]? = some b := by
    intro k b hk hb
    rwa [ipHeader, List.getElem?_take_of_lt (by omega), List.getElem?_drop]
  rcases Nat.lt_or_ge 11 (ipHeader data ethlen).length with hlong | hshort
  · exact verifies_update hlong (hbyte (by omega) httl) hlt (hbyte (by omega) hc0) (hbyte hlong hc1) hcsum h
  · have h8 : (ipHeader data ethlen).length ≤ 8 := by omega
    rw [List.set_eq_of_length_le h8, List.set_eq_of_length_le (by rw [List.length_set]; omega),
      List.set_eq_of_length_le (by omega)]
    exact h

/-! ### One hop -/

/-- What one hop does to a frame whose header starts at `ethlen`. -/
def Hop (P : List UInt8 → List UInt8 → ℕ → Prop) (data : List UInt8) (ethlen : ℕ)
    (r : TtlResult × List UInt8) : Prop :=
  (r.1 ≠ .decremented → r.2 = data) ∧ (r.1 = .decremented → P data r.2 ethlen)

theorem decrementIpv4_hop (data : List UInt8) (ethlen : ℕ) :
    Returns (decrementIpv4 data ethlen) (Hop IpDecremented data ethlen) := by
  rw [decrementIpv4]
  by_cases hlen : data.length < ethlen + IP_SIZE
  · rw [if_pos hlen]
    exact returns_pure.2 ⟨fun _ => rfl, by simp⟩
  rw [if_neg hlen]
  have hin : ∀ k < 20, ∃ b, data[ethlen + k]? = some b := fun k hk =>
    ⟨_, List.getElem?_eq_getElem (by simp only [IP_SIZE] at hlen; omega)⟩
  obtain ⟨ttl, httl⟩ := hin 8 (by omega)
  obtain ⟨proto, hproto⟩ := hin 9 (by omega)
  obtain ⟨c0, hc0⟩ := hin 10 (by omega)
  obtain ⟨c1, hc1⟩ := hin 11 (by omega)
  rw [load_some httl, ok_bind]
  split_ifs with hle
  · rw [load_some hc1, ok_bind]
    split_ifs with hguard <;> exact returns_pure.2 ⟨fun _ => rfl, by simp⟩
  have hlt : 1 < ttl := UInt8.not_le.1 hle
  obtain ⟨hlow, hpred⟩ := toNat_pred hlt
  have hset8 : (data.set (ethlen + 8) (ttl - 1))[ethlen + 8]? = some (ttl - 1) :=
    List.getElem?_set_self (by simp only [IP_SIZE] at hlen; omega)
  have hset : ∀ {k : ℕ} {b : UInt8}, k ≠ 8 → data[ethlen + k]? = some b →
      (data.set (ethlen + 8) (ttl - 1))[ethlen + k]? = some b := by
    intro k b hk hb
    rwa [List.getElem?_set_ne (by omega)]
  rw [be16_of_wordAt (wordAt_of_getElem? httl hproto), ok_bind, sub_eq hlow.le, ok_bind, toNat_sub_one hlt,
    store_eq (by simp only [IP_SIZE] at hlen; omega), ok_bind,
    be16_of_wordAt (wordAt_of_getElem? hset8 (hset (by omega) hproto)), ok_bind,
    be16_of_wordAt (wordAt_of_getElem? (hset (by omega) hc0) (hset (by omega) hc1)), ok_bind]
  have hc0lt := c0.toNat_lt
  have hc1lt := c1.toNat_lt
  have hplt := proto.toNat_lt
  have htlt := ttl.toNat_lt
  simp only [returns_bind, returns_add, returns_store, returns_pure, List.length_set]
  simp only [IP_SIZE] at hlen
  refine ⟨by omega, by omega, by omega, by omega, by simp, fun _ => ⟨?_, ?_, ?_⟩⟩
  · refine ⟨ttl, httl, hlt, ?_⟩
    rwa [List.getElem?_set_ne (by omega), List.getElem?_set_ne (by omega)]
  · intro k h8 h10 h11
    rw [List.getElem?_set_ne (Ne.symm h11), List.getElem?_set_ne (Ne.symm h10),
      List.getElem?_set_ne (Ne.symm h8)]
  · exact verifies_ipHeader_update (Nat.not_lt.1 hlen) httl hlt hc0 hc1 rfl

theorem decrementIpv6_hop (data : List UInt8) (ethlen : ℕ) :
    Returns (decrementIpv6 data ethlen) (Hop Ip6Decremented data ethlen) := by
  rw [decrementIpv6]
  by_cases hlen : data.length < ethlen + IP6_SIZE
  · rw [if_pos hlen]
    exact returns_pure.2 ⟨fun _ => rfl, by simp⟩
  rw [if_neg hlen]
  simp only [IP6_SIZE, Nat.not_lt] at hlen
  have hin : ∀ k < 40, ∃ b, data[ethlen + k]? = some b := fun k hk =>
    ⟨_, List.getElem?_eq_getElem (by omega)⟩
  obtain ⟨hlim, hhlim⟩ := hin 7 (by omega)
  obtain ⟨nxt, hnxt⟩ := hin 6 (by omega)
  rw [load_some hhlim, ok_bind]
  split_ifs with hle
  · rw [load_some hnxt, ok_bind]
    split_ifs with hguard <;> exact returns_pure.2 ⟨fun _ => rfl, by simp⟩
  have hlt : 1 < hlim := UInt8.not_le.1 hle
  rw [sub_eq (toNat_pred hlt).1.le, ok_bind, toNat_sub_one hlt, store_eq (by omega), ok_bind]
  refine returns_pure.2 ⟨by simp, fun _ => ⟨⟨hlim, hhlim, hlt, List.getElem?_set_self (by omega)⟩, ?_⟩⟩
  intro k hk
  exact List.getElem?_set_ne (Ne.symm hk)

/-- For every frame: a result other than `decremented` leaves it unchanged, and so does an ethertype
other than the two. With IPv4 the TTL is one less, the checksum verifies if it did, and only these
three bytes have changed; with IPv6 only the hop limit has. -/
theorem decrementTtl_keeps_header (data : List UInt8) :
    Returns (decrementTtl data) fun r =>
      (r.1 ≠ .decremented → r.2 = data) ∧
        ∀ ethlen ethertype, Carries data ethlen ethertype → r.1 = .decremented →
          (ethertype = ETH_P_IP → IpDecremented data r.2 ethlen) ∧
          (ethertype = ETH_P_IPV6 → Ip6Decremented data r.2 ethlen) ∧
          (ethertype ≠ ETH_P_IP → ethertype ≠ ETH_P_IPV6 → r.2 = data) := by
  obtain ⟨link, hlink, -⟩ := readEthertype_returns data
  rw [decrementTtl, hlink, ok_bind]
  cases link with
  | none => exact returns_pure.2 ⟨fun _ => rfl, fun _ _ _ h => by simp at h⟩
  | some link =>
    obtain ⟨ethertype, ethlen⟩ := link
    have hcarries : ∀ ethlen' ethertype', Carries data ethlen' ethertype' →
        ethertype = ethertype' ∧ ethlen = ethlen' := by
      intro ethlen' ethertype' h
      simpa [hlink] using h.read
    dsimp only
    split_ifs with h4 h6
    · refine (decrementIpv4_hop data ethlen).mono fun r hr => ⟨hr.1, fun ethlen' ethertype' h hdec => ?_⟩
      obtain ⟨rfl, rfl⟩ := hcarries _ _ h
      exact ⟨fun _ => hr.2 hdec, fun h6 => by simp [h4] at h6, fun hne => absurd h4 hne⟩
    · refine (decrementIpv6_hop data ethlen).mono fun r hr => ⟨hr.1, fun ethlen' ethertype' h hdec => ?_⟩
      obtain ⟨rfl, rfl⟩ := hcarries _ _ h
      exact ⟨fun h => absurd h h4, fun _ => hr.2 hdec, fun _ hne => absurd h6 hne⟩
    · refine returns_pure.2 ⟨fun _ => rfl, fun ethlen' ethertype' h _ => ?_⟩
      obtain ⟨rfl, rfl⟩ := hcarries _ _ h
      exact ⟨fun h => absurd h h4, fun h => absurd h h6, fun _ _ => rfl⟩

/-! ### Any number of hops -/

theorem Carries.of_same (h : Carries data ethlen ethertype) (hsame : ∀ k < 18, data'[k]? = data[k]?) :
    Carries data' ethlen ethertype := by
  have hword : ∀ o < 17, wordAt data' o = wordAt data o := fun o ho => by
    rw [wordAt, wordAt, hsame o (by omega), hsame (o + 1) (by omega)]
  rwa [Carries, hword 12 (by omega), hword 16 (by omega)]

theorem hop_ip (hcarries : Carries data ethlen ETH_P_IP) (hhop : decrementTtl data = .ok (.decremented, data')) :
    Carries data' ethlen ETH_P_IP ∧ IpDecremented data data' ethlen := by
  have hlen : 14 ≤ ethlen := by
    rcases hcarries with ⟨rfl, -⟩ | ⟨rfl, -⟩ <;> omega
  obtain ⟨r, hr, hdec⟩ := decrementIpv4_hop data ethlen
  rw [decrementTtl, hcarries.read, ok_bind] at hhop
  obtain rfl : r = (.decremented, data') := by simpa [hr] using hhop
  have hsame := (hdec.2 rfl).same
  exact ⟨hcarries.of_same fun k hk => hsame k (by omega) (by omega) (by omega), hdec.2 rfl⟩

/-- A header that verifies does so after any number of hops, of which there are no more than its TTL says. -/
theorem hops_keep_checksum {hops : List (List UInt8)} {ttl : UInt8} (hcarries : Carries data ethlen ETH_P_IP)
    (hverifies : Verifies (ipHeader data ethlen)) (httl : data[ethlen + 8]? = some ttl)
    (hrun : (data :: hops).IsChain fun d d' => decrementTtl d = .ok (.decremented, d')) :
    (∀ d ∈ hops, Verifies (ipHeader d ethlen)) ∧ hops.length ≤ ttl.toNat := by
  induction hops generalizing data ttl with
  | nil => simp
  | cons next rest ih =>
    obtain ⟨hhop, hrest⟩ := List.isChain_cons_cons.1 hrun
    obtain ⟨hcarries', ⟨t, ht, hlt, ht'⟩, -, hchecksum⟩ := hop_ip hcarries hhop
    obtain rfl : t = ttl := Option.some.inj (ht.symm.trans httl)
    obtain ⟨hall, hle⟩ := ih hcarries' (hchecksum hverifies) ht' hrest
    obtain ⟨hpos, hpred⟩ := toNat_pred hlt
    refine ⟨List.forall_mem_cons.2 ⟨hchecksum hverifies, hall⟩, ?_⟩
    rw [List.length_cons]
    omega

/-- A frame with a TTL of 2. -/
def twoHopsLeft : List UInt8 :=
  List.replicate 12 0 ++ [8, 0, 0x45, 0, 0, 20, 0, 0, 0, 0, 2, 17, 0xa4, 0xd7, 10, 0, 0, 1, 10, 0, 0, 2]

theorem hops_keep_checksum_twoHopsLeft : Verifies (ipHeader twoHopsLeft 14) ∧
    decrementTtl twoHopsLeft = .ok (.decremented, (twoHopsLeft.set 22 1).set 24 0xa5) ∧
    Verifies (ipHeader ((twoHopsLeft.set 22 1).set 24 0xa5) 14) := by
  have hverifies : Verifies (ipHeader twoHopsLeft 14) := by decide
  have httl : twoHopsLeft[14 + 8]? = some 2 := by decide
  have hhop : decrementTtl twoHopsLeft = .ok (.decremented, (twoHopsLeft.set 22 1).set 24 0xa5) := by
    decide +kernel
  obtain ⟨hall, -⟩ := hops_keep_checksum (.inl ⟨rfl, by decide, by decide⟩) hverifies httl (List.isChain_pair.2 hhop)
  exact ⟨hverifies, hhop, hall _ (by simp)⟩

end Tincr.Net

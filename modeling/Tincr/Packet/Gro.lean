import Tincr.Packet.TsoStream

/-!
The bucket that collects TCP packets of one flow into a super-packet (`tso.rs`), the reverse of the
split. Whether a packet may join is decided from fields of the first one. TOS, flags and TTL of an
IPv4 header are compared as one word, in which the flags overlap the two low bits of the TOS, and of
an IPv6 header the flow label is not compared at all.
-/

namespace Tincr.Gro

open Checked Tso

abbrev GRO_MAX_IP_LEN : ℕ := 65535
abbrev TCP_FLAG_PSH : UInt8 := 0x08
abbrev TCP_FLAG_ACK : UInt8 := 0x10

inductive GroVerdict
  | coalesced
  | flushFirst
  | notCandidate
deriving DecidableEq, Repr

/-- What `offer` reads from a packet that may be collected. -/
structure Candidate where
  is_v6 : Bool
  iphlen : ℕ
  tcphlen : ℕ
  psh_set : Bool
  payload_len : ℕ
  seq : UInt32
  ack : UInt32
  sport : UInt16
  dport : UInt16
  addrs : List UInt8
  ip_meta : UInt16
deriving DecidableEq, Repr

/-- The checks on the IP header: TCP with no options, not a fragment, and the length is that of the
packet. -/
def readFamily (ip : List UInt8) : Checked (Option Bool) := do
  if ip.length < 40 then return none
  let first ← load ip 0
  if first >>> 4 = 4 then
    if first &&& 0x0F ≠ 5 ∨ (← load ip 9) ≠ 6 then return none
    let flags ← load ip 6
    if flags &&& 0x20 ≠ 0 ∨ flags &&& 0x1F ≠ 0 ∨ (← load ip 7) ≠ 0 then return none
    if (← be16 ip 2).toNat ≠ ip.length then return none
    return some false
  else if first >>> 4 = 6 then
    if ip.length < 60 ∨ (← load ip 6) ≠ 6 then return none
    if (← be16 ip 4).toNat ≠ ip.length - 40 then return none
    return some true
  else return none

def ipMeta (is_v6 : Bool) (b0 b1 b6 b7 b8 : UInt8) : UInt16 :=
  if is_v6 then (b0 &&& 0x0F).toUInt16 <<< 12 ||| (b1 &&& 0xF0).toUInt16 <<< 4 ||| b7.toUInt16
  else b1.toUInt16 <<< 8 ||| (b6 >>> 5).toUInt16 <<< 7 ||| b8.toUInt16

def classify (ip : List UInt8) : Checked (Option Candidate) := do
  let some is_v6 ← readFamily ip | return none
  let iphlen := if is_v6 then 40 else 20
  let tcphlen := ((← load ip (iphlen + 12)) >>> 4).toNat * 4
  if ¬ (20 ≤ tcphlen ∧ tcphlen ≤ 60) ∨ ip.length < iphlen + tcphlen then return none
  let flags ← load ip (iphlen + 13)
  if flags &&& ~~~ TCP_FLAG_PSH ≠ TCP_FLAG_ACK then return none
  let payload_len ← sub (← sub ip.length iphlen) tcphlen
  if payload_len = 0 then return none
  let (addr_off, addr_len) := ipAddrSpan is_v6
  return some {
    is_v6, iphlen, tcphlen, payload_len
    psh_set := flags &&& TCP_FLAG_PSH ≠ 0
    seq := ← be32 ip (iphlen + 4)
    ack := ← be32 ip (iphlen + 8)
    sport := ← be16 ip iphlen
    dport := ← be16 ip (iphlen + 2)
    addrs := ← slice ip addr_off (addr_off + addr_len)
    ip_meta := ipMeta is_v6 (← load ip 0) (← load ip 1) (← load ip 6) (← load ip 7) (← load ip 8) }

/-- The part of the buffer that is in use is `pkt`; it is empty when the bucket is. -/
structure GroBucket where
  pkt : List UInt8
  is_v6 : Bool
  iphlen : ℕ
  tcphlen : ℕ
  addrs : List UInt8
  sport : UInt16
  dport : UInt16
  ack : UInt32
  ip_meta : UInt16
  next_seq : UInt32
  gso_size : UInt16
  psh_set : Bool
  short_tail : Bool
  num_merged : ℕ
deriving DecidableEq, Repr

namespace GroBucket

def new : GroBucket := ⟨[], false, 0, 0, [], 0, 0, 0, 0, 0, 0, false, false, 0⟩

/-- A packet into the empty bucket. The copy is out of range for one that is longer than the buffer. -/
def seed (b : GroBucket) (ip : List UInt8) (c : Candidate) : Checked GroBucket := do
  if GRO_MAX_IP_LEN < ip.length then .error .slice
  return { b with
    pkt := ip
    is_v6 := c.is_v6
    iphlen := c.iphlen
    tcphlen := c.tcphlen
    addrs := c.addrs
    sport := c.sport
    dport := c.dport
    ack := c.ack
    ip_meta := c.ip_meta
    next_seq := c.seq + (UInt16.ofNat c.payload_len).toUInt32
    gso_size := UInt16.ofNat c.payload_len
    psh_set := c.psh_set
    short_tail := false
    num_merged := 1 }

def keyDiffers (b : GroBucket) (c : Candidate) : Bool :=
  c.is_v6 != b.is_v6 || c.iphlen != b.iphlen || c.tcphlen != b.tcphlen || c.sport != b.sport ||
    c.dport != b.dport || c.ack != b.ack || c.ip_meta != b.ip_meta || c.addrs != b.addrs

def optionsDiffer (b : GroBucket) (ip : List UInt8) (c : Candidate) : Checked Bool := do
  if c.tcphlen ≤ 20 then return false
  return (← slice ip (c.iphlen + 20) (c.iphlen + c.tcphlen)) ≠
    (← slice b.pkt (c.iphlen + 20) (c.iphlen + c.tcphlen))

/-- The PSH flag goes into the header of the first packet. -/
def pushFlag (pkt : List UInt8) (flags_at : ℕ) (psh_set : Bool) : Checked (List UInt8) := do
  if psh_set then store pkt flags_at ((← load pkt flags_at) ||| TCP_FLAG_PSH) else return pkt

def append (b : GroBucket) (ip : List UInt8) (c : Candidate) : Checked GroBucket := do
  let gso_size := UInt16.ofNat c.payload_len
  let payload ← slice ip (c.iphlen + c.tcphlen) ip.length
  let pkt ← pushFlag (b.pkt ++ payload) (c.iphlen + 13) c.psh_set
  return { b with
    pkt := pkt
    next_seq := b.next_seq + gso_size.toUInt32
    psh_set := c.psh_set || b.psh_set
    short_tail := decide (gso_size < b.gso_size) || b.short_tail
    num_merged := ← Checked.add (2 ^ 16) b.num_merged 1 }

def offer (b : GroBucket) (ip : List UInt8) : Checked (GroVerdict × GroBucket) := do
  let some c ← classify ip | return (.notCandidate, b)
  if b.pkt = [] then return (.coalesced, ← b.seed ip c)
  if b.keyDiffers c then return (.flushFirst, b)
  if ← b.optionsDiffer ip c then return (.flushFirst, b)
  if c.seq ≠ b.next_seq then return (.flushFirst, b)
  if b.psh_set || b.short_tail then return (.flushFirst, b)
  if b.gso_size < UInt16.ofNat c.payload_len then return (.flushFirst, b)
  if GRO_MAX_IP_LEN < b.pkt.length + c.payload_len then return (.flushFirst, b)
  return (.coalesced, ← b.append ip c)

def VIRTIO_NET_HDR_F_NEEDS_CSUM : UInt8 := 1
def VIRTIO_NET_HDR_GSO_TCPV4 : UInt8 := 1
def VIRTIO_NET_HDR_GSO_TCPV6 : UInt8 := 4

def fixIp (b : GroBucket) : Checked (List UInt8) := do
  let totlen := b.pkt.length % 2 ^ 16
  if b.is_v6 then copyTo b.pkt 4 6 (BigEndian.encode 2 (← sub totlen 40))
  else ipv4WriteCsum (← copyTo b.pkt 2 4 (BigEndian.encode 2 totlen)) b.iphlen

/-- In place of the TCP checksum comes the sum over the pseudo header. -/
def fixUp (b : GroBucket) : Checked (List UInt8) := do
  let pkt ← b.fixIp
  let (addr_off, addr_len) := ipAddrSpan b.is_v6
  let l4_len := (← sub pkt.length b.iphlen) % 2 ^ 16
  let pseudo ← pseudoHeaderChecksumNofold IPPROTO_TCP (← slice pkt addr_off (addr_off + addr_len)) l4_len
  let p ← fold16 pseudo
  copyTo pkt (b.iphlen + 16) (b.iphlen + 18) (BigEndian.encode 2 p.toNat)

def gsoHdr (b : GroBucket) : VirtioNetHdr :=
  { flags := VIRTIO_NET_HDR_F_NEEDS_CSUM
    gso_type := if b.is_v6 then VIRTIO_NET_HDR_GSO_TCPV6 else VIRTIO_NET_HDR_GSO_TCPV4
    hdr_len := UInt16.ofNat (b.iphlen + b.tcphlen)
    gso_size := b.gso_size
    csum_start := UInt16.ofNat b.iphlen
    csum_offset := 16 }

/-- A packet that nothing joined goes out as it came in, with a header of zeros. -/
def flush (b : GroBucket) : Checked (Option (VirtioNetHdr × List UInt8) × GroBucket) := do
  if b.pkt = [] then return (none, b)
  if 1 < b.num_merged then
    return (some (b.gsoHdr, ← b.fixUp), { b with pkt := [] })
  return (some (⟨0, 0, 0, 0, 0, 0⟩, b.pkt), { b with pkt := [] })

end GroBucket

/-! ### Runs -/

inductive Event
  | offer (ip : List UInt8)
  | flush

/-- A bucket and its history: the packets in it, the super-packets that came out, each with what went
into it, and the packets offered, by whether they were taken. -/
structure Run where
  bucket : GroBucket
  held : List (List UInt8)
  flushed : List ((VirtioNetHdr × List UInt8) × List (List UInt8))
  coalesced : List (List UInt8)
  returned : List (List UInt8)

namespace Run

def start : Run := ⟨.new, [], [], [], []⟩

def step (r : Run) : Event → Checked Run
  | .offer ip => do
    let (verdict, bucket) ← r.bucket.offer ip
    if verdict = .coalesced then
      return { r with bucket, held := r.held ++ [ip], coalesced := r.coalesced ++ [ip] }
    return { r with bucket, returned := r.returned ++ [ip] }
  | .flush => do
    match ← r.bucket.flush with
    | (none, bucket) => return { r with bucket }
    | (some out, bucket) => return { r with bucket, held := [], flushed := r.flushed ++ [(out, r.held)] }

def events (r : Run) (es : List Event) : Checked Run := es.foldlM step r

end Run

/-! ### What a candidate is -/

/-- The packet is one that may be collected, with these fields. -/
structure Reads (ip : List UInt8) (c : Candidate) : Prop where
  iphlen : c.iphlen = if c.is_v6 then 40 else 20
  version : ip.getD 0 0 >>> 4 = if c.is_v6 then 6 else 4
  ihl : c.is_v6 = false → ip.getD 0 0 &&& 0x0F = 5
  proto : ip.getD (if c.is_v6 then 6 else 9) 0 = 6
  fragment : c.is_v6 = false → ip.getD 6 0 &&& 0x20 = 0 ∧ ip.getD 6 0 &&& 0x1F = 0
  length : if c.is_v6 then field 2 ip 4 + 40 = ip.length else field 2 ip 2 = ip.length
  tcphlen : c.tcphlen = tcpLen ip c.iphlen
  tcp : 20 ≤ c.tcphlen
  parts : ip.length = c.iphlen + c.tcphlen + c.payload_len
  payload : 0 < c.payload_len
  flags : ip.getD (c.iphlen + 13) 0 = if c.psh_set then TCP_FLAG_ACK ||| TCP_FLAG_PSH else TCP_FLAG_ACK
  seq : c.seq = UInt32.ofNat (field 4 ip (c.iphlen + 4))
  ack : c.ack = UInt32.ofNat (field 4 ip (c.iphlen + 8))
  sport : c.sport = UInt16.ofNat (field 2 ip c.iphlen)
  dport : c.dport = UInt16.ofNat (field 2 ip (c.iphlen + 2))
  addrs : c.addrs = (ip.drop (ipAddrSpan c.is_v6).1).take (ipAddrSpan c.is_v6).2
  ip_meta : c.ip_meta = ipMeta c.is_v6 (ip.getD 0 0) (ip.getD 1 0) (ip.getD 6 0) (ip.getD 7 0) (ip.getD 8 0)

variable {ip : List UInt8} {c : Candidate} {b b' : GroBucket}

theorem load_getD {k : ℕ} (h : k < ip.length) : load ip k = .ok (ip.getD k 0) := by
  rw [load_eq h, List.getD_eq_getElem?_getD, List.getElem?_eq_getElem h, Option.getD_some]

theorem be16_field {o : ℕ} (h : o + 2 ≤ ip.length) (ho : o + 2 < 2 ^ 64) :
    be16 ip o = .ok (UInt16.ofNat (field 2 ip o)) := by
  rw [be16, offset_eq (by simp) ho, ok_bind, slice_eq (by omega) h, ok_bind, Nat.add_sub_cancel_left]
  rfl

theorem be32_field {o : ℕ} (h : o + 4 ≤ ip.length) (ho : o + 4 < 2 ^ 64) :
    be32 ip o = .ok (UInt32.ofNat (field 4 ip o)) := by
  rw [be32, offset_eq (by simp) ho, ok_bind, slice_eq (by omega) h, ok_bind, Nat.add_sub_cancel_left]
  rfl

theorem toNat_field (o : ℕ) : (UInt16.ofNat (field 2 ip o)).toNat = field 2 ip o :=
  UInt16.toNat_ofNat_of_lt' (field_two_lt ip o)

/-- The version, and what the checks on the header of that version say. -/
theorem readFamily_returns (ip : List UInt8) :
    Returns (readFamily ip) fun r => ∀ v6, r = some v6 →
      (if v6 then 60 else 40) ≤ ip.length ∧ ip.getD 0 0 >>> 4 = (if v6 then 6 else 4) ∧
      (v6 = false → ip.getD 0 0 &&& 0x0F = 5) ∧ ip.getD (if v6 then 6 else 9) 0 = 6 ∧
      (v6 = false → ip.getD 6 0 &&& 0x20 = 0 ∧ ip.getD 6 0 &&& 0x1F = 0) ∧
      (if v6 then field 2 ip 4 + 40 = ip.length else field 2 ip 2 = ip.length) := by
  have hnone : ∀ Q : Option Bool → Prop, Q none → Returns (pure none : Checked (Option Bool)) Q :=
    fun Q h => returns_pure.2 h
  rw [readFamily]
  by_cases h40 : ip.length < 40
  · rw [if_pos h40]
    exact hnone _ (by simp)
  rw [if_neg h40, load_getD (by omega), ok_bind]
  by_cases h4 : ip.getD 0 0 >>> 4 = 4
  · rw [if_pos h4, load_getD (by omega), ok_bind]
    by_cases hihl : ip.getD 0 0 &&& 0x0F ≠ 5 ∨ ip.getD 9 0 ≠ 6
    · rw [if_pos hihl]
      exact hnone _ (by simp)
    rw [if_neg hihl, load_getD (by omega), ok_bind, load_getD (by omega), ok_bind]
    by_cases hfrag : ip.getD 6 0 &&& 0x20 ≠ 0 ∨ ip.getD 6 0 &&& 0x1F ≠ 0 ∨ ip.getD 7 0 ≠ 0
    · rw [if_pos hfrag]
      exact hnone _ (by simp)
    rw [if_neg hfrag, be16_field (by omega) (by omega), ok_bind, toNat_field]
    by_cases hlen : field 2 ip 2 ≠ ip.length
    · rw [if_pos hlen]
      exact hnone _ (by simp)
    rw [if_neg hlen]
    push Not at hihl hfrag hlen
    refine returns_pure.2 ?_
    rintro v6 ⟨⟩
    exact ⟨by simpa using h40, h4, fun _ => hihl.1, hihl.2, fun _ => ⟨hfrag.1, hfrag.2.1⟩, hlen⟩
  rw [if_neg h4]
  by_cases h6 : ip.getD 0 0 >>> 4 = 6
  · rw [if_pos h6, load_getD (by omega), ok_bind]
    by_cases hshort : ip.length < 60 ∨ ip.getD 6 0 ≠ 6
    · rw [if_pos hshort]
      exact hnone _ (by simp)
    rw [if_neg hshort]
    push Not at hshort
    rw [be16_field (by omega) (by omega), ok_bind, toNat_field]
    by_cases hlen : field 2 ip 4 ≠ ip.length - 40
    · rw [if_pos hlen]
      exact hnone _ (by simp)
    rw [if_neg hlen]
    push Not at hlen
    refine returns_pure.2 ?_
    rintro v6 ⟨⟩
    exact ⟨hshort.1, h6, by simp, hshort.2, by simp, by rw [if_pos rfl]; omega⟩
  · rw [if_neg h6]
    exact hnone _ (by simp)

theorem flags_eq {flags : UInt8} (h : flags &&& ~~~ TCP_FLAG_PSH = TCP_FLAG_ACK) :
    flags = if flags &&& TCP_FLAG_PSH ≠ 0 then TCP_FLAG_ACK ||| TCP_FLAG_PSH else TCP_FLAG_ACK := by
  have hall : ∀ n : Fin 256, UInt8.ofFin n &&& ~~~ TCP_FLAG_PSH = TCP_FLAG_ACK →
      UInt8.ofFin n = if UInt8.ofFin n &&& TCP_FLAG_PSH ≠ 0 then TCP_FLAG_ACK ||| TCP_FLAG_PSH else TCP_FLAG_ACK := by
    decide +kernel
  exact hall flags.toFin h

theorem classify_returns (ip : List UInt8) :
    Returns (classify ip) fun r => ∀ c, r = some c → Reads ip c := by
  have hnone : Returns (pure none : Checked (Option Candidate)) fun r => ∀ c, r = some c → Reads ip c :=
    returns_pure.2 (by simp)
  obtain ⟨r, hr, hfamily⟩ := readFamily_returns ip
  rw [classify, hr, ok_bind]
  cases r with
  | none => exact hnone
  | some v6 =>
    obtain ⟨hlen, hversion, hihl, hproto, hfrag, hlength⟩ := hfamily v6 rfl
    obtain ⟨n, hn⟩ : ∃ n, n = if v6 then 40 else 20 := ⟨_, rfl⟩
    have hspan : (ipAddrSpan v6).1 + (ipAddrSpan v6).2 = n := by
      cases v6 <;> simp [hn, ipAddrSpan]
    have hroom : n + 20 ≤ ip.length ∧ n ≤ 40 := by
      cases v6 <;> simp at hlen hn <;> omega
    dsimp only
    rw [← hn, load_getD (by omega), ok_bind]
    have htcp : (ip.getD (n + 12) 0 >>> 4).toNat * 4 = tcpLen ip n := rfl
    rw [htcp]
    by_cases hhlen : ¬ (20 ≤ tcpLen ip n ∧ tcpLen ip n ≤ 60) ∨ ip.length < n + tcpLen ip n
    · rw [if_pos hhlen]
      exact hnone
    rw [if_neg hhlen, load_getD (by omega), ok_bind]
    by_cases hflags : ip.getD (n + 13) 0 &&& ~~~ TCP_FLAG_PSH ≠ TCP_FLAG_ACK
    · rw [if_pos hflags]
      exact hnone
    push Not at hhlen hflags
    rw [if_neg (not_not_intro hflags), sub_eq (by omega), ok_bind, sub_eq (by omega), ok_bind]
    by_cases hpayload : ip.length - n - tcpLen ip n = 0
    · rw [if_pos hpayload]
      exact hnone
    rw [if_neg hpayload, be32_field (by omega) (by omega), ok_bind, be32_field (by omega) (by omega), ok_bind,
      be16_field (by omega) (by omega), ok_bind, be16_field (by omega) (by omega), ok_bind,
      slice_eq (by omega) (by omega), ok_bind, load_getD (by omega), ok_bind, load_getD (by omega), ok_bind,
      load_getD (by omega), ok_bind, load_getD (by omega), ok_bind, load_getD (by omega), ok_bind]
    refine returns_pure.2 ?_
    rintro c ⟨⟩
    exact ⟨hn, hversion, hihl, hproto, hfrag, hlength, rfl, hhlen.1.1, by dsimp only; omega,
      by dsimp only; omega, by simpa using flags_eq hflags, rfl, rfl, rfl, rfl,
      by rw [Nat.add_sub_cancel_left], rfl⟩

/-! ### What an offer does -/

namespace GroBucket

structure Joins (b : GroBucket) (ip : List UInt8) (c : Candidate) : Prop where
  nonempty : b.pkt ≠ []
  key : b.keyDiffers c = false
  options : b.optionsDiffer ip c = .ok false
  seq : c.seq = b.next_seq
  psh_set : b.psh_set = false
  short_tail : b.short_tail = false
  gso_size : UInt16.ofNat c.payload_len ≤ b.gso_size
  fits : b.pkt.length + c.payload_len ≤ GRO_MAX_IP_LEN

/-- The packet is not taken, or starts a super-packet, or joins the one in the bucket. -/
theorem offer_cases {verdict : GroVerdict} (h : b.offer ip = .ok (verdict, b')) :
    verdict ≠ .coalesced ∧ b' = b ∨
      verdict = .coalesced ∧ ∃ c, Reads ip c ∧
        (b.pkt = [] ∧ b.seed ip c = .ok b' ∨ b.Joins ip c ∧ b.append ip c = .ok b') := by
  have hleave : ∀ v : GroVerdict, v ≠ .coalesced →
      (pure (v, b) : Checked (GroVerdict × GroBucket)) = .ok (verdict, b') → verdict ≠ .coalesced ∧ b' = b := by
    rintro v hv hret
    obtain ⟨rfl, rfl⟩ := Prod.mk.inj (Except.ok.inj hret)
    exact ⟨hv, rfl⟩
  have htake : ∀ x : Checked GroBucket, (do return (GroVerdict.coalesced, ← x)) = .ok (verdict, b') →
      verdict = .coalesced ∧ x = .ok b' := by
    intro x hret
    cases x with
    | error e => simp [bind, Except.bind] at hret
    | ok b₁ =>
      obtain ⟨rfl, rfl⟩ := Prod.mk.inj (Except.ok.inj hret)
      exact ⟨rfl, rfl⟩
  obtain ⟨r, hr, hreads⟩ := classify_returns ip
  rw [offer, hr, ok_bind] at h
  cases r with
  | none => exact .inl (hleave _ (by simp) h)
  | some c =>
    dsimp only at h
    by_cases hempty : b.pkt = []
    · rw [if_pos hempty] at h
      obtain ⟨hv, hseed⟩ := htake _ h
      exact .inr ⟨hv, c, hreads c rfl, .inl ⟨hempty, hseed⟩⟩
    rw [if_neg hempty] at h
    by_cases hkey : b.keyDiffers c = true
    · rw [if_pos hkey] at h
      exact .inl (hleave _ (by simp) h)
    rw [if_neg hkey] at h
    obtain ⟨differ, hopt⟩ : ∃ differ, b.optionsDiffer ip c = .ok differ := by
      cases ho : b.optionsDiffer ip c with
      | ok differ => exact ⟨differ, rfl⟩
      | error e => simp [ho, bind, Except.bind] at h
    rw [hopt, ok_bind] at h
    split_ifs at h with hdiffer hseq htail hsize hfits
    · exact .inl (hleave _ (by simp) h)
    · exact .inl (hleave _ (by simp) h)
    · exact .inl (hleave _ (by simp) h)
    · exact .inl (hleave _ (by simp) h)
    · exact .inl (hleave _ (by simp) h)
    · obtain ⟨hv, happend⟩ := htake _ h
      obtain ⟨hpsh, hshort⟩ : b.psh_set = false ∧ b.short_tail = false := by simpa using htail
      refine .inr ⟨hv, c, hreads c rfl, .inr ⟨⟨hempty, by simpa using hkey, ?_, by simpa using hseq, hpsh, hshort,
        UInt16.not_lt.1 hsize, Nat.not_lt.1 hfits⟩, happend⟩⟩
      rw [hopt]
      simpa using hdiffer

theorem keyDiffers_eq_false : b.keyDiffers c = false ↔ c.is_v6 = b.is_v6 ∧ c.iphlen = b.iphlen ∧
    c.tcphlen = b.tcphlen ∧ c.sport = b.sport ∧ c.dport = b.dport ∧ c.ack = b.ack ∧ c.ip_meta = b.ip_meta ∧
    c.addrs = b.addrs := by
  simp [keyDiffers, and_assoc]

theorem seed_eq (h : b.seed ip c = .ok b') : ip.length ≤ GRO_MAX_IP_LEN ∧ b'.pkt = ip ∧
    b'.keyDiffers c = false ∧ b'.next_seq = c.seq + (UInt16.ofNat c.payload_len).toUInt32 ∧
    b'.gso_size = UInt16.ofNat c.payload_len ∧ b'.psh_set = c.psh_set ∧ b'.short_tail = false ∧
    b'.num_merged = 1 := by
  rw [seed] at h
  split_ifs at h with hlen
  · simp [bind, Except.bind] at h
  · obtain rfl := Except.ok.inj h
    exact ⟨Nat.not_lt.1 hlen, rfl, by simp [keyDiffers], rfl, rfl, rfl, rfl, rfl⟩

/-- The buffer after a payload has been added: the PSH flag goes into the first header. -/
def withPsh (pkt : List UInt8) (at_ : ℕ) (psh : Bool) : List UInt8 :=
  if psh then pkt.set at_ (pkt.getD at_ 0 ||| TCP_FLAG_PSH) else pkt

theorem pushFlag_eq {pkt pkt' : List UInt8} {flags_at : ℕ} {psh : Bool}
    (h : pushFlag pkt flags_at psh = .ok pkt') : pkt' = withPsh pkt flags_at psh := by
  unfold pushFlag at h
  split_ifs at h with hpsh
  · have hret : Returns (do store pkt flags_at ((← load pkt flags_at) ||| TCP_FLAG_PSH)) fun p => p = pkt' := ⟨_, h, rfl⟩
    simp only [returns_bind, returns_load, returns_store] at hret
    obtain ⟨hin, -, rfl⟩ := hret
    rw [withPsh, if_pos hpsh, List.getD_eq_getElem?_getD, List.getElem?_eq_getElem hin, Option.getD_some]
  · rw [withPsh, if_neg hpsh]
    exact (Except.ok.inj h).symm

theorem withPsh_ne_nil {pkt : List UInt8} (at_ : ℕ) (psh : Bool) (h : pkt ≠ []) : withPsh pkt at_ psh ≠ [] := by
  unfold withPsh
  split_ifs <;> simpa using h

theorem append_eq (hreads : Reads ip c) (h : b.append ip c = .ok b') :
    b'.pkt = withPsh (b.pkt ++ ip.drop (c.iphlen + c.tcphlen)) (c.iphlen + 13) c.psh_set ∧
    b'.keyDiffers = b.keyDiffers ∧ b'.next_seq = b.next_seq + (UInt16.ofNat c.payload_len).toUInt32 ∧
    b'.gso_size = b.gso_size ∧ b'.psh_set = (c.psh_set || b.psh_set) ∧
    b'.short_tail = (decide (UInt16.ofNat c.payload_len < b.gso_size) || b.short_tail) ∧
    b'.num_merged = b.num_merged + 1 := by
  have hslice : slice ip (c.iphlen + c.tcphlen) ip.length = .ok (ip.drop (c.iphlen + c.tcphlen)) := by
    have hparts := hreads.parts
    rw [slice_eq (by omega) le_rfl, List.take_of_length_le (by rw [List.length_drop])]
  rw [append, hslice, ok_bind] at h
  have hret : Returns _ fun b₁ => b₁ = b' := ⟨_, h, rfl⟩
  rw [returns_bind] at hret
  obtain ⟨pkt, hpkt, hret⟩ := hret
  simp only [returns_bind, returns_add, returns_pure] at hret
  obtain ⟨-, rfl⟩ := hret
  exact ⟨pushFlag_eq hpkt, rfl, rfl, rfl, rfl, rfl, rfl⟩

theorem flush_cases {out : Option (VirtioNetHdr × List UInt8)} (h : b.flush = .ok (out, b')) :
    b.pkt = [] ∧ out = none ∧ b' = b ∨
      b.pkt ≠ [] ∧ b' = { b with pkt := [] } ∧ ∃ hdr pkt, out = some (hdr, pkt) ∧
        (1 < b.num_merged ∧ hdr = b.gsoHdr ∧ b.fixUp = .ok pkt ∨
          b.num_merged ≤ 1 ∧ hdr = ⟨0, 0, 0, 0, 0, 0⟩ ∧ pkt = b.pkt) := by
  rw [flush] at h
  split_ifs at h with hempty hmerged
  · obtain ⟨rfl, rfl⟩ := Prod.mk.inj (Except.ok.inj h)
    exact .inl ⟨hempty, rfl, rfl⟩
  · obtain ⟨pkt, hpkt, h⟩ := bind_eq_ok.1 h
    obtain ⟨rfl, rfl⟩ := Prod.mk.inj (Except.ok.inj h)
    exact .inr ⟨hempty, rfl, _, _, rfl, .inl ⟨hmerged, rfl, hpkt⟩⟩
  · obtain ⟨rfl, rfl⟩ := Prod.mk.inj (Except.ok.inj h)
    exact .inr ⟨hempty, rfl, _, _, rfl, .inr ⟨Nat.not_lt.1 hmerged, rfl, rfl⟩⟩

end GroBucket

namespace Run

variable {r r' : Run}

theorem step_offer (h : r.step (.offer ip) = .ok r') : ∃ verdict b', r.bucket.offer ip = .ok (verdict, b') ∧
    (verdict ≠ .coalesced ∧ r' = { r with bucket := b', returned := r.returned ++ [ip] } ∨
      verdict = .coalesced ∧
        r' = { r with bucket := b', held := r.held ++ [ip], coalesced := r.coalesced ++ [ip] }) := by
  obtain ⟨⟨verdict, b'⟩, hoffer, h⟩ := bind_eq_ok.1 h
  refine ⟨verdict, b', hoffer, ?_⟩
  dsimp only at h
  split_ifs at h with hv
  · exact .inr ⟨hv, (Except.ok.inj h).symm⟩
  · exact .inl ⟨hv, (Except.ok.inj h).symm⟩

theorem step_flush (h : r.step .flush = .ok r') : ∃ out b', r.bucket.flush = .ok (out, b') ∧
    r' = match out with
      | none => { r with bucket := b' }
      | some super => { r with bucket := b', held := [], flushed := r.flushed ++ [(super, r.held)] } := by
  obtain ⟨⟨out, b'⟩, hflush, h⟩ := bind_eq_ok.1 h
  refine ⟨out, b', hflush, ?_⟩
  cases out with
  | none | some super => exact (Except.ok.inj h).symm

/-- The packets that went or will go into one super-packet. -/
def groups (r : Run) : List (List (List UInt8)) := r.held :: r.flushed.map Prod.snd

end Run

/-! ### The IP headers of packets that go into one -/

def isV6 (ip : List UInt8) : Prop := ip.getD 0 0 >>> 4 = 6

instance (ip : List UInt8) : Decidable (isV6 ip) := inferInstanceAs (Decidable (_ = _))

def trafficClass (ip : List UInt8) : UInt8 × UInt8 := (ip.getD 0 0 &&& 0x0F, ip.getD 1 0 &&& 0xF0)

def flowLabel (ip : List UInt8) : UInt8 × UInt8 × UInt8 := (ip.getD 1 0 &&& 0x0F, ip.getD 2 0, ip.getD 3 0)

def addresses (ip : List UInt8) : List UInt8 :=
  (ip.drop (ipAddrSpan (isV6 ip)).1).take (ipAddrSpan (isV6 ip)).2

def dontFragment (ip : List UInt8) : UInt8 := ip.getD 6 0 &&& 0x40

def SameIp (p q : List UInt8) : Prop :=
  (isV6 p ↔ isV6 q) ∧ addresses p = addresses q ∧
    if isV6 p then trafficClass p = trafficClass q ∧ flowLabel p = flowLabel q ∧ p.getD 7 0 = q.getD 7 0
    else p.getD 1 0 = q.getD 1 0 ∧ p.getD 8 0 = q.getD 8 0 ∧ dontFragment p = dontFragment q

/-- The part of it that the comparison does not see: the flow label, and DF with the two bits of the TOS
(the ECN field) that the flags overlap. -/
def SameMarks (p q : List UInt8) : Prop :=
  if isV6 p then flowLabel p = flowLabel q
  else p.getD 1 0 &&& 0x03 = q.getD 1 0 &&& 0x03 ∧ dontFragment p = dontFragment q

instance (p q : List UInt8) : Decidable (SameIp p q) := inferInstanceAs (Decidable (_ ∧ _ ∧ _))

theorem Reads.isV6_iff (h : Reads ip c) : isV6 ip ↔ c.is_v6 = true := by
  rw [isV6, h.version]
  cases c.is_v6 <;> simp

theorem Reads.addresses_eq (h : Reads ip c) : addresses ip = c.addrs := by
  rw [h.addrs, addresses]
  cases hv : c.is_v6 with
  | true => simp [h.isV6_iff.2 hv]
  | false =>
    have hno : ¬ isV6 ip := fun h6 => by simp [h.isV6_iff.1 h6] at hv
    simp [hno]

/-- The parts of the word for IPv6 do not overlap. -/
theorem ipMeta_v6 {b0 b1 b6 b7 b8 b0' b1' b6' b7' b8' : UInt8}
    (h : ipMeta true b0 b1 b6 b7 b8 = ipMeta true b0' b1' b6' b7' b8') :
    b0 &&& 0x0F = b0' &&& 0x0F ∧ b1 &&& 0xF0 = b1' &&& 0xF0 ∧ b7 = b7' := by
  -- each byte lies under one of three masks and can be read back from there
  have hfirst : ∀ b : UInt8, (b &&& 0x0F).toUInt16 <<< 12 &&& 0x0F00 = 0 ∧ (b &&& 0x0F).toUInt16 <<< 12 &&& 0x00FF = 0 ∧
      (((b &&& 0x0F).toUInt16 <<< 12 &&& 0xF000) >>> 12).toUInt8 = b &&& 0x0F :=
    Mask.forall_byte (by decide +kernel)
  have hsecond : ∀ b : UInt8, (b &&& 0xF0).toUInt16 <<< 4 &&& 0xF000 = 0 ∧ (b &&& 0xF0).toUInt16 <<< 4 &&& 0x00FF = 0 ∧
      (((b &&& 0xF0).toUInt16 <<< 4 &&& 0x0F00) >>> 4).toUInt8 = b &&& 0xF0 :=
    Mask.forall_byte (by decide +kernel)
  have hthird : ∀ b : UInt8, b.toUInt16 &&& 0xF000 = 0 ∧ b.toUInt16 &&& 0x0F00 = 0 ∧
      (b.toUInt16 &&& 0x00FF).toUInt8 = b :=
    Mask.forall_byte (by decide +kernel)
  simp only [ipMeta, if_true] at h
  have hF000 := congrArg (fun m : UInt16 => ((m &&& 0xF000) >>> 12).toUInt8) h
  have h0F00 := congrArg (fun m : UInt16 => ((m &&& 0x0F00) >>> 4).toUInt8) h
  have h00FF := congrArg (fun m : UInt16 => (m &&& 0x00FF).toUInt8) h
  simp only [Mask.or_and, (hfirst _).1, (hfirst _).2.1, (hfirst _).2.2, (hsecond _).1, (hsecond _).2.1,
    (hsecond _).2.2, (hthird _).1, (hthird _).2.1, (hthird _).2.2, UInt16.or_zero, UInt16.zero_or]
    at hF000 h0F00 h00FF
  exact ⟨hF000, h0F00, h00FF⟩

/-- Of the word for IPv4 the TTL and the upper six bits of the TOS can be read off, in a packet without
the MF flag. -/
theorem ipMeta_v4 {b0 b1 b6 b7 b8 b0' b1' b6' b7' b8' : UInt8} (hmf : b6 &&& 0x20 = 0) (hmf' : b6' &&& 0x20 = 0)
    (h : ipMeta false b0 b1 b6 b7 b8 = ipMeta false b0' b1' b6' b7' b8') :
    b1 &&& 0xFC = b1' &&& 0xFC ∧ b8 = b8' := by
  have htos : ∀ b : UInt8, b.toUInt16 <<< 8 &&& 0x00FF = 0 ∧
      ((b.toUInt16 <<< 8 &&& 0xFC00) >>> 8).toUInt8 = b &&& 0xFC :=
    Mask.forall_byte (by decide +kernel)
  have hflags : ∀ b : UInt8, b &&& 0x20 = 0 → (b >>> 5).toUInt16 <<< 7 &&& 0xFC00 = 0 ∧
      (b >>> 5).toUInt16 <<< 7 &&& 0x00FF = 0 :=
    Mask.forall_byte (by decide +kernel)
  have httl : ∀ b : UInt8, b.toUInt16 &&& 0xFC00 = 0 ∧ (b.toUInt16 &&& 0x00FF).toUInt8 = b :=
    Mask.forall_byte (by decide +kernel)
  simp only [ipMeta, Bool.false_eq_true, if_false] at h
  have hFC00 := congrArg (fun m : UInt16 => ((m &&& 0xFC00) >>> 8).toUInt8) h
  have h00FF := congrArg (fun m : UInt16 => (m &&& 0x00FF).toUInt8) h
  simp only [Mask.or_and, (htos _).1, (htos _).2, (hflags _ hmf).1, (hflags _ hmf).2, (hflags _ hmf').1,
    (hflags _ hmf').2, (httl _).1, (httl _).2, UInt16.or_zero, UInt16.zero_or] at hFC00 h00FF
  exact ⟨hFC00, h00FF⟩

theorem eq_iff_halves (a b : UInt8) : a = b ↔ a &&& 0xFC = b &&& 0xFC ∧ a &&& 0x03 = b &&& 0x03 := by
  have hjoin : ∀ x : UInt8, x &&& 0xFC ||| x &&& 0x03 = x := Mask.forall_byte (by decide +kernel)
  constructor
  · rintro rfl
    exact ⟨rfl, rfl⟩
  · rintro ⟨hhigh, hlow⟩
    rw [← hjoin a, hhigh, hlow, hjoin b]

theorem sameIp_iff {p q : List UInt8} {c d : Candidate} (hp : Reads p c) (hq : Reads q d)
    (hv6 : c.is_v6 = d.is_v6) (hmeta : c.ip_meta = d.ip_meta) (haddrs : c.addrs = d.addrs) :
    SameIp p q ↔ SameMarks p q := by
  have hversion : isV6 p ↔ isV6 q := by
    rw [hp.isV6_iff, hq.isV6_iff, hv6]
  have haddresses : addresses p = addresses q := by
    rw [hp.addresses_eq, hq.addresses_eq, haddrs]
  rw [hp.ip_meta, hq.ip_meta, ← hv6] at hmeta
  simp only [SameIp, SameMarks, hversion, haddresses, true_and]
  by_cases h6 : isV6 q
  · have hv : c.is_v6 = true := hp.isV6_iff.1 (hversion.2 h6)
    rw [hv] at hmeta
    obtain ⟨h0, h1, h7⟩ := ipMeta_v6 hmeta
    simp only [if_pos h6, trafficClass, h0, h1, h7, true_and, and_true]
  · have hv : c.is_v6 = false := by
      simpa [hp.isV6_iff] using mt hversion.1 h6
    rw [hv] at hmeta
    obtain ⟨h1, h8⟩ := ipMeta_v4 (hp.fragment hv).1 (hq.fragment (hv6 ▸ hv)).1 hmeta
    simp only [if_neg h6, eq_iff_halves (p.getD 1 0), h1, h8, true_and]

def Keyed (b : GroBucket) (ps : List (List UInt8)) : Prop := ∀ p ∈ ps, ∃ c, Reads p c ∧ b.keyDiffers c = false

theorem Keyed.sameIp_iff {ps : List (List UInt8)} (h : Keyed b ps) {p q : List UInt8} (hp : p ∈ ps) (hq : q ∈ ps) :
    SameIp p q ↔ SameMarks p q := by
  obtain ⟨c, hc, hkey⟩ := h p hp
  obtain ⟨d, hd, hkey'⟩ := h q hq
  obtain ⟨hv6, -, -, -, -, -, hmeta, haddrs⟩ := GroBucket.keyDiffers_eq_false.1 hkey
  obtain ⟨hv6', -, -, -, -, -, hmeta', haddrs'⟩ := GroBucket.keyDiffers_eq_false.1 hkey'
  exact Gro.sameIp_iff hc hd (hv6.trans hv6'.symm) (hmeta.trans hmeta'.symm) (haddrs.trans haddrs'.symm)

/-- Every group has one key, and that of the packets in the bucket is the bucket's. -/
structure Run.Grouped (r : Run) : Prop where
  empty : r.bucket.pkt = [] → r.held = []
  held : Keyed r.bucket r.held
  flushed : ∀ g ∈ r.flushed, ∃ b, Keyed b g.2

namespace Run.Grouped

variable {r r' : Run}

theorem start : Run.start.Grouped :=
  ⟨fun _ => rfl, fun p hp => by simp [Run.start] at hp, fun g hg => by simp [Run.start] at hg⟩

theorem offer (hr : r.Grouped) (h : r.step (.offer ip) = .ok r') : r'.Grouped := by
  obtain ⟨verdict, b', hoffer, ⟨hv, rfl⟩ | ⟨hv, rfl⟩⟩ := Run.step_offer h
  · obtain ⟨-, rfl⟩ | ⟨hc, -⟩ := GroBucket.offer_cases hoffer
    · exact ⟨hr.empty, hr.held, hr.flushed⟩
    · exact absurd hc hv
  obtain ⟨hne, -⟩ | ⟨-, c, hreads, ⟨hempty, hseed⟩ | ⟨hjoins, happend⟩⟩ := GroBucket.offer_cases hoffer
  · exact absurd hv hne
  · -- the first packet brings the key
    obtain ⟨-, hpkt, hkey, -⟩ := GroBucket.seed_eq hseed
    have hparts := hreads.parts
    have hpayload := hreads.payload
    refine ⟨fun hnil => ?_, ?_, hr.flushed⟩
    · rw [← hpkt, hnil, List.length_nil] at hparts
      omega
    · rw [hr.empty hempty, List.nil_append]
      exact fun p hp => ⟨c, List.mem_singleton.1 hp ▸ hreads, hkey⟩
  · -- the others have been compared with it
    obtain ⟨hpkt, hsame, -⟩ := GroBucket.append_eq hreads happend
    refine ⟨fun hnil => ?_, fun p hp => ?_, hr.flushed⟩
    · have hne := GroBucket.withPsh_ne_nil (c.iphlen + 13) c.psh_set
        (List.append_ne_nil_of_left_ne_nil hjoins.nonempty (ip.drop (c.iphlen + c.tcphlen)))
      exact absurd (hpkt.symm.trans hnil) hne
    · rcases List.mem_append.1 hp with hold | hnew
      · obtain ⟨d, hd, hkey⟩ := hr.held p hold
        exact ⟨d, hd, by rw [hsame]; exact hkey⟩
      · exact ⟨c, List.mem_singleton.1 hnew ▸ hreads, by rw [hsame]; exact hjoins.key⟩

theorem flush (hr : r.Grouped) (h : r.step .flush = .ok r') : r'.Grouped := by
  obtain ⟨out, b', hflush, rfl⟩ := Run.step_flush h
  obtain ⟨-, rfl, rfl⟩ | ⟨-, rfl, hdr, pkt, rfl, -⟩ := GroBucket.flush_cases hflush
  · exact ⟨hr.empty, hr.held, hr.flushed⟩
  · refine ⟨fun _ => rfl, fun p hp => by simp at hp, fun g hg => ?_⟩
    rcases List.mem_append.1 hg with hold | hnew
    · exact hr.flushed g hold
    · rw [List.mem_singleton.1 hnew]
      exact ⟨r.bucket, hr.held⟩

theorem events {es : List Event} (h : Run.start.events es = .ok r) : r.Grouped :=
  foldlM_invariant (fun _ e _ hr hstep => by
    cases e with
    | offer ip => exact hr.offer hstep
    | flush => exact hr.flush hstep) es start h

end Run.Grouped

def v4Packet (tos df seq : UInt8) : List UInt8 :=
  [0x45, tos, 0, 41, 0, 1, df, 0, 64, 6, 0, 0, 10, 0, 0, 1, 10, 0, 0, 2] ++
    [0, 1, 0, 2, 0, 0, 0, seq, 0, 0, 0, 9, 0x50, 0x10, 0, 64, 0, 0, 0, 0] ++ [7]

def v6Packet (label seq : UInt8) : List UInt8 :=
  [0x60, 0, 0, label, 0, 21, 6, 64] ++ List.replicate 32 1 ++
    [0, 1, 0, 2, 0, 0, 0, seq, 0, 0, 0, 9, 0x50, 0x10, 0, 64, 0, 0, 0, 0] ++ [7]

end Tincr.Gro

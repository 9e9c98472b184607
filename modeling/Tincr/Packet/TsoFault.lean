import Tincr.Packet.TsoStream

/-!
When `tsoSplit` faults. Past the checks of the header every access is settled by lengths alone, and all
but two of them are in range: the addresses of an IPv6 packet, which is only known to hold a TCP
header, and the checksum field, whose offset is checked against the packet and not against the segment.
-/

namespace Tincr.Tso

open Checked OnesComplement Buffer

structure Plan.Sized (p : Plan) (pkt : List UInt8) : Prop where
  length_buf : p.hdr_buf.length = 120
  tcp : 20 ≤ p.tcp_hlen
  hdr_len : p.hdr_len = p.iphlen + p.tcp_hlen
  buf : p.hdr_len ≤ 120
  pkt : p.hdr_len ≤ pkt.length
  csum : p.csum_at + 2 ≤ 120
  addrs : p.addrs.length ≤ 32
  gso_size : p.gso_size < 2 ^ 16

variable {p : Plan} {pkt ip out : List UInt8} {v6 : Bool} {i next_data seg_end total_len stride : ℕ}

theorem checksum_defined {data : List UInt8} {initial : ℕ} (hdata : data.length < 2 ^ 17)
    (hinit : initial < 2 ^ 40) : Returns (checksum data initial) fun _ => True := by
  have hsum := total_le data
  exact (checksum_returns (by omega)).mono fun _ _ => trivial

theorem ipv4WriteCsum_length {n : ℕ} (h12 : 12 ≤ ip.length) (hn : n ≤ ip.length) (hbuf : n ≤ 120) :
    Returns (ipv4WriteCsum ip n) fun ip' => ip'.length = ip.length := by
  simp only [ipv4WriteCsum, returns_bind, returns_store, returns_slice, returns_copyTo, List.length_set,
    BigEndian.length_encode]
  refine ⟨by omega, by omega, ⟨by omega, by omega⟩, ?_⟩
  refine (checksum_defined ?_ (by norm_num)).mono fun c _ => ⟨⟨by omega, by omega, trivial⟩, ?_⟩
  · simp only [List.drop_zero, List.length_take, List.length_set]
    omega
  · rw [length_patch (by simp; omega), List.length_set, List.length_set]

theorem writeIp_length (hp : p.Sized pkt) (hip : p.hdr_len ≤ ip.length) (htotal : p.hdr_len ≤ total_len) :
    Returns (writeIp p ip i total_len) fun ip' => ip'.length = ip.length := by
  have htcp := hp.tcp
  have hlen := hp.hdr_len
  have hbuf := hp.buf
  have hslice : ((p.hdr_buf.take p.iphlen).drop 0).length = p.iphlen := by
    rw [List.drop_zero, List.length_take, hp.length_buf]
    omega
  have hcopy : (patch ip 0 ((p.hdr_buf.take p.iphlen).drop 0)).length = ip.length :=
    length_patch (by omega)
  have hfield : ∀ {bs : List UInt8} {k m : ℕ}, bs.length = ip.length → k ≤ 18 →
      (patch bs k (BigEndian.encode 2 m)).length = ip.length := by
    intro bs k m hbs hk
    rw [length_patch (by rw [BigEndian.length_encode]; omega), hbs]
  simp only [writeIp, returns_bind, returns_slice, returns_copyTo, hp.length_buf, hslice]
  refine ⟨⟨by omega, by omega⟩, ⟨by omega, by omega, by omega⟩, ?_⟩
  split_ifs
  · simp only [returns_bind, returns_sub, returns_copyTo, hcopy, BigEndian.length_encode]
    exact ⟨by omega, ⟨by omega, by omega, trivial⟩, hfield hcopy (by omega)⟩
  · simp only [returns_bind, returns_copyTo, BigEndian.length_encode]
    rw [hfield hcopy (by omega), hcopy]
    refine ⟨⟨by omega, by omega, trivial⟩, ⟨by omega, by omega, trivial⟩, ?_⟩
    have hid := hfield (k := 4) (m := (p.first_id + UInt16.ofNat i).toNat) hcopy (by omega)
    have hfields := hfield (k := 2) (m := total_len) hid (by omega)
    exact (ipv4WriteCsum_length (by omega) (by omega) (by omega)).mono fun ip' h => h.trans hfields

theorem clearFlags_length {flags_at : ℕ} {last : Bool} (h : flags_at < ip.length) :
    Returns (clearFlags ip flags_at last) fun ip' => ip'.length = ip.length := by
  cases last <;> simp [clearFlags, h]

theorem writeTcp_length {last : Bool} (hp : p.Sized pkt) (hip : p.hdr_len ≤ ip.length)
    (hgi : p.gso_size * i < 2 ^ 64) :
    Returns (writeTcp p ip i last) fun ip' => ip'.length = ip.length := by
  have htcp := hp.tcp
  have hlen := hp.hdr_len
  have hbuf := hp.buf
  have hslice : ((p.hdr_buf.take p.hdr_len).drop p.iphlen).length = p.tcp_hlen := by
    rw [List.length_drop, List.length_take, hp.length_buf]
    omega
  have hcopy : (patch ip p.iphlen ((p.hdr_buf.take p.hdr_len).drop p.iphlen)).length = ip.length :=
    length_patch (by omega)
  simp only [writeTcp, returns_bind, returns_slice, returns_copyTo, returns_offset, returns_mul, hp.length_buf,
    hslice, hcopy, usizeBound, List.sum_cons, List.sum_nil, Nat.add_zero, BigEndian.length_encode]
  refine ⟨⟨by omega, by omega⟩, ⟨by omega, by omega, by omega⟩, hgi, by omega, by omega,
    ⟨by omega, by omega, by omega⟩, by omega, ?_⟩
  have hseq : ∀ m, (patch (patch ip p.iphlen ((p.hdr_buf.take p.hdr_len).drop p.iphlen)) (p.iphlen + 4)
      (BigEndian.encode 4 m)).length = ip.length := by
    intro m
    rw [length_patch (by rw [BigEndian.length_encode]; omega), hcopy]
  exact (clearFlags_length (by rw [hseq]; omega)).mono fun ip' h => h.trans (hseq _)

/-- A segment can be written if, and only if, the checksum field is in it. -/
theorem segment_returns_iff {Q : List UInt8 → Prop} (hQ : ∀ seg, seg.length = ip.length → Q seg)
    (hp : p.Sized pkt) (hnext : next_data ≤ seg_end) (hend : seg_end ≤ pkt.length)
    (hsmall : seg_end - next_data < 2 ^ 16) (hip : ip.length = p.hdr_len + (seg_end - next_data))
    (hgi : p.gso_size * i < 2 ^ 64) :
    Returns (segment p pkt ip i next_data seg_end) Q ↔ p.csum_at + 2 ≤ ip.length := by
  have htcp := hp.tcp
  have hlen := hp.hdr_len
  have hbuf := hp.buf
  have hcsum := hp.csum
  have hdata : ((pkt.take seg_end).drop next_data).length = seg_end - next_data := by
    rw [List.length_drop, List.length_take]
    omega
  simp only [segment, returns_bind, returns_sub, returns_offset, returns_slice, returns_copyTo, usizeBound,
    List.sum_cons, List.sum_nil, Nat.add_zero, hdata, BigEndian.length_encode]
  rw [and_iff_right hnext, and_iff_right (by omega)]
  refine (writeIp_length hp (by omega) (by omega)).iff_of fun ip₁ h₁ => ?_
  refine (writeTcp_length hp (by omega) hgi).iff_of fun ip₂ h₂ => ?_
  have hcopy : (patch ip₂ p.hdr_len ((pkt.take seg_end).drop next_data)).length = ip.length := by
    rw [length_patch (by omega)]
    omega
  rw [and_iff_right ⟨hnext, hend⟩, and_iff_right ⟨by omega, by omega, by omega⟩, and_iff_right (by omega),
    pseudoHeaderChecksum_eq (by have := hp.addrs; omega) (Nat.mod_lt _ (by norm_num)), returns_ok, hcopy,
    and_iff_right ⟨by omega, by omega⟩]
  have hsum := total_le p.addrs
  have haddrs := hp.addrs
  refine (checksum_defined ?_ (by omega)).iff_of fun c _ => ?_
  · rw [List.length_drop, List.length_take, hcopy]
    omega
  constructor
  · rintro ⟨-, ⟨-, hin, -⟩, -⟩
    exact hin
  · intro hin
    refine ⟨by omega, ⟨by omega, hin, by omega⟩, hQ _ ?_⟩
    rw [length_patch (by rw [BigEndian.length_encode, hcopy]; exact hin), hcopy]

/-- Likewise the slot it is written to, which is in the output. -/
theorem writeSlot_returns_iff {Q : List UInt8 → Prop} (hQ : ∀ out', out'.length = out.length → Q out')
    (hp : p.Sized pkt) (hnext : next_data ≤ seg_end) (hend : seg_end ≤ pkt.length)
    (hsmall : seg_end - next_data < 2 ^ 16) (hgi : p.gso_size * i < 2 ^ 64) (hout : out.length < 2 ^ 64)
    (htotal : total_len = p.hdr_len + (seg_end - next_data))
    (hslot : i * stride + (14 + total_len) ≤ out.length) :
    Returns (writeSlot p pkt out stride i next_data seg_end (14 + total_len)) Q ↔
      p.csum_at + 2 ≤ total_len := by
  have hlen : ((out.take (i * stride + (14 + total_len))).drop (i * stride)).length = 14 + total_len := by
    rw [List.length_drop, List.length_take]
    omega
  simp only [writeSlot, returns_bind, returns_mul, returns_offset, returns_slice, usizeBound, List.sum_cons,
    List.sum_nil, Nat.add_zero]
  rw [and_iff_right (by omega), and_iff_right (by omega), and_iff_right ⟨by omega, by omega⟩]
  refine (setEtherheader_returns (by omega)).iff_of ?_
  rintro _ rfl
  have hether : (etherHeader p.is_v6).length = 14 := length_etherHeader
  rw [List.take_length, ETH_HLEN, List.drop_left' hether, List.length_append, hether, List.length_drop, hlen,
    and_iff_right ⟨by omega, le_rfl⟩, segment_returns_iff ?_ hp hnext hend hsmall ?_ hgi]
  · rw [List.length_drop, hlen, Nat.add_sub_cancel_left]
  · intro seg hseg
    rw [List.length_drop, hlen] at hseg
    simp only [returns_copyTo, List.length_append, hether, List.length_drop, hlen]
    have hwhole : (patch (etherHeader p.is_v6 ++
        ((out.take (i * stride + (14 + total_len))).drop (i * stride)).drop 14) 14 seg).length =
          14 + total_len := by
      rw [length_patch (by rw [List.length_append, hether, List.length_drop, hlen]; omega),
        List.length_append, hether, List.length_drop, hlen]
      omega
    rw [hwhole]
    refine ⟨⟨by omega, by omega, by omega⟩, ⟨by omega, by omega, by omega⟩, hQ _ ?_⟩
    exact length_patch (by omega)
  · rw [List.length_drop, hlen]
    omega

/-- The loop writes slot `j` of `slots`: there is payload left for it, and the first and longest frame
fits the stride. The packet has `len` bytes, `m` of them headers. -/
def Writes (len m g slots stride j : ℕ) : Prop :=
  j < slots ∧ m + j * g < len ∧ 14 + (m + min g (len - m)) ≤ stride

/-- The loop returns if, and only if, the checksum field is in every segment it writes. -/
theorem segments_returns_iff (hp : p.Sized pkt) (hpkt : pkt.length < 2 ^ 63) (hstride : 0 < stride)
    {slots : ℕ} (rounds : ℕ) {lens : List ℕ} (hout : out.length < 2 ^ 63) (hslots : slots * stride ≤ out.length)
    (hi : i ≤ lens.length) (hrounds : lens.length < rounds + i)
    (hfit : i ≠ 0 → 14 + (p.hdr_len + min p.gso_size (pkt.length - p.hdr_len)) ≤ stride) :
    Returns (segments p pkt stride slots rounds out lens (min (p.hdr_len + i * p.gso_size) pkt.length) i)
        (fun _ => True) ↔
      ∀ j, i ≤ j → Writes pkt.length p.hdr_len p.gso_size (min slots lens.length) stride j →
        p.csum_at + 2 ≤ p.hdr_len + min p.gso_size (pkt.length - (p.hdr_len + j * p.gso_size)) := by
  induction rounds generalizing i out lens with
  | zero => omega
  | succ rounds ih =>
    have hpast : ∀ {j}, i ≤ j → p.hdr_len + i * p.gso_size ≤ p.hdr_len + j * p.gso_size := by
      intro j hj
      exact Nat.add_le_add_left (Nat.mul_le_mul_right _ hj) _
    rw [segments]
    by_cases hdone : pkt.length ≤ p.hdr_len + i * p.gso_size
    · rw [if_pos (by omega), returns_pure, true_iff]
      rintro j hj ⟨-, hmore, -⟩
      have := hpast hj
      omega
    have hnext : min (p.hdr_len + i * p.gso_size) pkt.length = p.hdr_len + i * p.gso_size := by omega
    rw [hnext, if_neg hdone]
    by_cases hfull : slots ≤ i ∨ lens.length ≤ i
    · rw [if_pos hfull, returns_pure, true_iff]
      rintro j hj ⟨hlt, -⟩
      omega
    have hg := hp.gso_size
    have hbuf := hp.buf
    have hlen : ∀ {a g l : ℕ}, a ≤ l → min (a + g) l - a = min g (l - a) := by
      intro a g l ha
      omega
    have hoff : p.hdr_len + i * p.gso_size ≤ pkt.length := by omega
    have hsub : p.hdr_len + i * p.gso_size ≤ min (p.hdr_len + i * p.gso_size + p.gso_size) pkt.length := by
      omega
    rw [if_neg hfull]
    simp only [returns_bind, returns_offset, returns_sub, returns_ite, returns_pure, usizeBound, List.sum_cons,
      List.sum_nil, Nat.add_zero, ETH_HLEN, hlen hoff, implies_true, true_and]
    rw [and_iff_right (by omega), and_iff_right hsub, and_iff_right (by omega), and_iff_right (by omega)]
    have hle : min p.gso_size (pkt.length - (p.hdr_len + i * p.gso_size)) ≤
        min p.gso_size (pkt.length - p.hdr_len) := by
      have : p.hdr_len ≤ p.hdr_len + i * p.gso_size := Nat.le_add_right _ _
      omega
    by_cases hwide : stride < 14 + (p.hdr_len + min p.gso_size (pkt.length - (p.hdr_len + i * p.gso_size)))
    · simp only [not_true, hwide, false_imp_iff, true_iff]
      rintro j - ⟨-, -, hfits⟩
      omega
    rw [imp_iff_right hwide]
    -- every later frame is no longer than the first, which fits
    have hfits : 14 + (p.hdr_len + min p.gso_size (pkt.length - p.hdr_len)) ≤ stride := by
      rcases Nat.eq_zero_or_pos i with rfl | hpos
      · rw [Nat.zero_mul, Nat.add_zero] at hwide
        omega
      · exact hfit (by omega)
    have hplace : i * stride + stride ≤ out.length := by
      have := Nat.mul_le_mul_right stride (show i + 1 ≤ slots by omega)
      rw [Nat.add_mul, Nat.one_mul] at this
      omega
    have hgi : p.gso_size * i < 2 ^ 64 := by
      rw [Nat.mul_comm]
      omega
    have hi64 : i ≤ i * stride := Nat.le_mul_of_pos_right i hstride
    have hslot : ∀ {Q : List UInt8 → Prop}, (∀ out', out'.length = out.length → Q out') → (_ ↔ _) :=
      fun hQ => writeSlot_returns_iff hQ hp hsub (Nat.min_le_right _ _) (by omega) hgi (by omega) rfl
        (show i * stride + _ ≤ _ by rw [hlen hoff]; omega)
    rw [hlen hoff] at hslot
    have hi_writes : Writes pkt.length p.hdr_len p.gso_size (min slots lens.length) stride i :=
      ⟨by omega, by omega, hfits⟩
    by_cases hcsum : p.csum_at + 2 ≤
        p.hdr_len + min p.gso_size (pkt.length - (p.hdr_len + i * p.gso_size))
    · refine ((hslot fun _ h => h).2 hcsum).iff_of fun out' hout' => ?_
      have hstep : p.hdr_len + i * p.gso_size + p.gso_size = p.hdr_len + (i + 1) * p.gso_size := by ring
      rw [returns_store, and_iff_right (by omega), and_iff_right (by omega), hstep,
        ih (by omega) (by omega) (by simp; omega) (by simp; omega) fun _ => hfits, List.length_set]
      constructor
      · intro hrest j hj hwrites
        rcases Nat.eq_or_lt_of_le hj with rfl | hlt
        · exact hcsum
        · exact hrest j hlt hwrites
      · intro hall j hj hwrites
        exact hall j (by omega) hwrites
    · constructor
      · intro hret
        exact absurd ((hslot fun _ _ => trivial).1 (hret.mono fun _ _ => trivial)) hcsum
      · intro hall
        exact absurd (hall i le_rfl hi_writes) hcsum

variable {hdr : VirtioNetHdr} {tcp_hlen : ℕ} {lens : List ℕ}

structure Checks (pkt : List UInt8) (hdr : VirtioNetHdr) (tcp_hlen : ℕ) : Prop where
  tcp : 20 ≤ tcp_hlen
  buf : hdr.csum_start.toNat + tcp_hlen ≤ 120
  pkt : hdr.csum_start.toNat + tcp_hlen ≤ pkt.length
  csum : hdr.csum_start.toNat + hdr.csum_offset.toNat + 2 ≤ 120

/-- The checks are made without a fault. -/
theorem checkHeaders_returns : Returns (checkHeaders pkt hdr v6) fun r =>
    ∀ tcp_hlen, r = .ok tcp_hlen → Checks pkt hdr tcp_hlen := by
  have hs := hdr.csum_start.toNat_lt
  have ho := hdr.csum_offset.toNat_lt
  simp only [checkHeaders, returns_bind, returns_ite, returns_pure, returns_load, returns_offset, returns_mul,
    usizeBound, List.sum_cons, List.sum_nil, Nat.add_zero, reduceCtorEq, IsEmpty.forall_iff, implies_true,
    true_and, Except.ok.injEq, forall_eq']
  intro hne
  have hpos : 0 < pkt.length := List.length_pos_iff.2 (by simpa using hne)
  refine ⟨hpos, fun _ => ⟨by omega, fun hlong => ⟨by omega, ?_⟩⟩⟩
  have hnibble : (pkt[hdr.csum_start.toNat + 12] >>> 4).toNat < 16 := by
    have := pkt[hdr.csum_start.toNat + 12].toNat_lt
    rw [UInt8.toNat_shiftRight]
    exact (Nat.shiftRight_eq_div_pow _ _).trans_lt (by simp; omega)
  refine ⟨by omega, fun htcp => ⟨by omega, fun hpkt => ⟨by omega, by omega, fun _ hbuf => ?_⟩⟩⟩
  exact ⟨by omega, by omega, by omega, by omega⟩

theorem readPlan_sized (hc : Checks pkt hdr tcp_hlen) (hpkt : v6 = true → 40 ≤ pkt.length) :
    Returns (readPlan pkt hdr v6 tcp_hlen) fun p => p.Sized pkt ∧
      p.hdr_len = hdr.csum_start.toNat + tcp_hlen ∧
      p.csum_at = hdr.csum_start.toNat + hdr.csum_offset.toNat ∧ p.gso_size = hdr.gso_size.toNat := by
  have htcp := hc.tcp
  have hbuf := hc.buf
  have hlen := hc.pkt
  have hcsum := hc.csum
  have hslice : ((pkt.take (hdr.csum_start.toNat + tcp_hlen)).drop 0).length =
      hdr.csum_start.toNat + tcp_hlen := by
    rw [List.drop_zero, List.length_take]
    omega
  have hcopy : (patch (List.replicate 120 0) 0
      ((pkt.take (hdr.csum_start.toNat + tcp_hlen)).drop 0)).length = 120 := by
    rw [length_patch (by rw [List.length_replicate]; omega), List.length_replicate]
  have hspan : (ipAddrSpan v6).1 + (ipAddrSpan v6).2 ≤ pkt.length ∧ (ipAddrSpan v6).2 ≤ 32 := by
    cases v6
    · exact ⟨show 20 ≤ pkt.length by omega, by decide⟩
    · exact ⟨hpkt rfl, by decide⟩
  have hid : Returns (firstId pkt v6) fun _ => True := by
    cases v6
    · simp only [firstId, be16, Bool.false_eq_true, if_false, returns_bind, returns_offset, returns_slice,
        returns_pure, usizeBound, List.sum_cons, List.sum_nil]
      exact ⟨by omega, ⟨by omega, by omega⟩, trivial⟩
    · simp [firstId]
  simp only [readPlan, be32, returns_bind, returns_offset, returns_slice, returns_copyTo, returns_store,
    returns_pure, usizeBound, List.sum_cons, List.sum_nil, Nat.add_zero, List.length_replicate, hslice,
    List.length_set, hcopy]
  refine ⟨by omega, by omega, ⟨by omega, by omega⟩, ⟨by omega, by omega, by omega⟩, by omega, by omega,
    by omega, by omega, by omega, ⟨by omega, by omega⟩, ⟨by omega, hspan.1⟩, hid.mono fun id _ => ?_⟩
  refine ⟨⟨?_, htcp, rfl, hbuf, hlen, hcsum, ?_, hdr.gso_size.toNat_lt⟩, trivial, trivial, trivial⟩
  · simp only [List.length_set, hcopy]
  · rw [List.length_drop, List.length_take]
    omega

theorem readPlan_short (hpkt : pkt.length < 40) {Q : Plan → Prop} :
    ¬ Returns (readPlan pkt hdr true tcp_hlen) Q := by
  intro h
  simp only [readPlan, be32, ipAddrSpan, if_true, returns_bind, returns_offset, returns_slice, returns_copyTo,
    returns_store, returns_pure] at h
  obtain ⟨-, -, -, -, -, -, -, -, -, -, ⟨-, haddrs⟩, -⟩ := h
  omega

/-- The checksum field is in every segment that the loop writes. -/
def FieldInSegments (pkt : List UInt8) (hdr : VirtioNetHdr) (tcp_hlen slots stride : ℕ) : Prop :=
  ∀ j, Writes pkt.length (hdr.csum_start.toNat + tcp_hlen) hdr.gso_size.toNat slots stride j →
    hdr.csum_start.toNat + hdr.csum_offset.toNat + 2 ≤ hdr.csum_start.toNat + tcp_hlen +
      min hdr.gso_size.toNat (pkt.length - (hdr.csum_start.toNat + tcp_hlen + j * hdr.gso_size.toNat))

theorem split_returns_iff (hpkt : pkt.length < 2 ^ 63) (hout : out.length < 2 ^ 63) (hstride : 0 < stride) :
    Returns (tsoSplit.split pkt hdr out stride lens v6) (fun _ => True) ↔
      ∀ tcp_hlen, checkHeaders pkt hdr v6 = .ok (.ok tcp_hlen) → (v6 = true → 40 ≤ pkt.length) ∧
        FieldInSegments pkt hdr tcp_hlen (min (out.length / stride) lens.length) stride := by
  obtain ⟨r, hcheck, hr⟩ : Returns (checkHeaders pkt hdr v6) _ := checkHeaders_returns
  rw [tsoSplit.split, hcheck, ok_bind]
  rcases r with e | tcp_hlen
  · simp
  have hc := hr tcp_hlen rfl
  simp only [Except.ok.injEq, forall_eq', returns_bind, returns_div, and_iff_right hstride.ne']
  by_cases hshort : v6 = true ∧ pkt.length < 40
  · obtain ⟨rfl, hlt⟩ := hshort
    simp only [readPlan_short hlt, false_iff, forall_const]
    omega
  have hlong : v6 = true → 40 ≤ pkt.length := by
    intro hv6
    by_contra hlt
    exact hshort ⟨hv6, by omega⟩
  rw [and_iff_right hlong]
  refine (readPlan_sized hc hlong).iff_of ?_
  rintro p ⟨hp, hhdr, hcsum, hgso⟩
  have hloop := segments_returns_iff hp hpkt hstride (lens.length + 1) hout (Nat.div_mul_le_self _ _)
    (Nat.zero_le lens.length) (by omega) (absurd rfl)
  have hstart : min (p.hdr_len + 0 * p.gso_size) pkt.length = p.hdr_len := by
    have := hp.pkt
    omega
  rw [hstart] at hloop
  rw [hloop, hhdr, hcsum, hgso]
  simp only [Nat.zero_le, true_imp_iff, FieldInSegments]

/-- The split of a packet returns, with segments or an error, if, and only if, an IPv6 packet that
passed the checks has the 40 bytes of its fixed header and the checksum field is in every segment that
is written. No slice is longer than `isize::MAX`. -/
theorem tsoSplit_returns_iff {gso_type : GsoType} (hpkt : pkt.length < 2 ^ 63) (hout : out.length < 2 ^ 63)
    (hstride : 0 < stride) :
    (∃ r, tsoSplit pkt hdr gso_type out stride lens = .ok r) ↔
      ∀ v6 tcp_hlen, gso_type = gsoOf v6 → checkHeaders pkt hdr v6 = .ok (.ok tcp_hlen) →
        (v6 = true → 40 ≤ pkt.length) ∧
          FieldInSegments pkt hdr tcp_hlen (min (out.length / stride) lens.length) stride := by
  have hreturns : ∀ x : Checked (Except TsoError ℕ × List UInt8 × List ℕ),
      (∃ r, x = .ok r) ↔ Returns x fun _ => True := by
    simp [Returns]
  rw [hreturns]
  cases gso_type with
  | none => simp [tsoSplit, gsoOf]
  | tcpV4 | tcpV6 => simp [tsoSplit, gsoOf, split_returns_iff hpkt hout hstride]

theorem tsoSplit_returns_iff_v4Super :
    ∃ r, tsoSplit v4Super v4Hdr .tcpV4 (List.replicate 128 0) 64 [0, 0] = .ok r := by
  refine (tsoSplit_returns_iff (by decide) (by simp) (by decide)).2 fun v6 tcp_hlen hgso hcheck => ?_
  obtain rfl : v6 = false := by
    cases v6
    · rfl
    · cases hgso
  have hlen : checkHeaders v4Super v4Hdr false = .ok (.ok 20) := by decide +kernel
  obtain rfl : tcp_hlen = 20 := by simpa using hcheck.symm.trans hlen
  refine ⟨by simp, fun j _ => ?_⟩
  exact (show v4Hdr.csum_start.toNat + v4Hdr.csum_offset.toNat + 2 ≤ v4Hdr.csum_start.toNat + 20 by decide).trans
    (Nat.le_add_right _ _)

/-- An IPv6 packet of 20 bytes with its TCP header at offset 0 passes every check; the slice of its
addresses ends at byte 40. -/
theorem tsoSplit_shortV6 :
    tsoSplit ([0x60] ++ List.replicate 11 0 ++ [0x50] ++ List.replicate 7 0) ⟨1, 4, 20, 1000, 0, 16⟩ .tcpV6
      (List.replicate 64 0) 64 [0] = .error .slice := by
  decide +kernel

/-- With a checksum offset of 40 the field is in the packet and not in its first segment. -/
example : tsoSplit ([0x45] ++ List.replicate 31 0 ++ [0x50] ++ List.replicate 47 0) ⟨1, 1, 40, 2, 20, 40⟩ .tcpV4
    (List.replicate 64 0) 64 [0] = .error .slice := by
  decide +kernel

end Tincr.Tso

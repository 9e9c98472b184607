import Tincr.Packet.Headers

/-!
ICMP errors for frames that cannot be forwarded. The error is sent back to the source of the frame and
quotes as much of its IP packet as fits the size that every host must accept. All lengths are those of
the bytes that are sent, and both checksums verify.
-/

namespace Tincr.Packet

open Checked OnesComplement

abbrev ETHER_SIZE : ℕ := 14
abbrev IP_SIZE : ℕ := 20
abbrev ICMP_SIZE : ℕ := 8
abbrev IP6_SIZE : ℕ := 40
abbrev ICMP6_SIZE : ℕ := 8
abbrev IP_MSS : ℕ := 576
abbrev IPPROTO_ICMP : UInt8 := 1
abbrev IPPROTO_ICMPV6 : UInt8 := 58
abbrev V4_QUOTE_CAP : ℕ := IP_MSS - IP_SIZE - ICMP_SIZE
abbrev V6_QUOTE_CAP : ℕ := IP_MSS - IP6_SIZE - ICMP6_SIZE

def ethReplyHdr (original : List UInt8) : Checked (List UInt8) := do
  return (← slice original 6 12) ++ (← slice original 0 6) ++ (← slice original 12 14)

def buildV4Unreachable (original : List UInt8) (icmp_type icmp_code : UInt8) (frag_mtu : Option UInt16)
    (src_override : Option (Octets 4)) : Checked (Option (List UInt8)) := do
  if original.length < ETHER_SIZE + IP_SIZE then return none
  let eth ← ethReplyHdr original
  let some orig_ip := Ipv4Hdr.readFromBytes (← slice original ETHER_SIZE (ETHER_SIZE + IP_SIZE)) | return none
  let ip_src := orig_ip.ip_src
  let ip_dst := src_override.getD orig_ip.ip_dst
  let oldlen := min (original.length - ETHER_SIZE) V4_QUOTE_CAP
  let quote ← slice original ETHER_SIZE (ETHER_SIZE + oldlen)
  let ip : Ipv4Hdr :=
    { ip_vhl := Ipv4Hdr.vhl 4 5
      ip_len := UInt16.ofNat (IP_SIZE + ICMP_SIZE + oldlen)
      ip_ttl := 255
      ip_p := IPPROTO_ICMP
      ip_src := ip_dst
      ip_dst := ip_src }
  let ip := ip.withSum (← inetChecksum ip.asBytes 0xffff)
  let icmp : IcmpHdr :=
    { icmp_type := icmp_type
      icmp_code := icmp_code
      icmp_nextmtu := frag_mtu.getD 0 }
  let ck ← inetChecksum icmp.asBytes 0xffff
  let ck ← inetChecksum quote ck
  let icmp := { icmp with icmp_cksum := ck }
  return some (eth ++ ip.asBytes ++ icmp.asBytes ++ quote)

def buildV6Unreachable (original : List UInt8) (icmp_type icmp_code : UInt8) (pkt_too_big_mtu : Option UInt32)
    (src_override : Option (Octets 16)) : Checked (Option (List UInt8)) := do
  if original.length < ETHER_SIZE + IP6_SIZE then return none
  let eth ← ethReplyHdr original
  let some orig_ip6 := Ipv6Hdr.readFromBytes (← slice original ETHER_SIZE (ETHER_SIZE + IP6_SIZE)) | return none
  let new_src := src_override.getD orig_ip6.ip6_dst
  let new_dst := orig_ip6.ip6_src
  let quote_len := min (original.length - ETHER_SIZE) V6_QUOTE_CAP
  let quote ← slice original ETHER_SIZE (ETHER_SIZE + quote_len)
  let ip6 : Ipv6Hdr :=
    { ip6_flow := 0x60000000
      ip6_plen := UInt16.ofNat (ICMP6_SIZE + quote_len)
      ip6_nxt := IPPROTO_ICMPV6
      ip6_hlim := 255
      ip6_src := new_src
      ip6_dst := new_dst }
  let icmp6 : Icmp6Hdr :=
    { icmp6_type := icmp_type
      icmp6_code := icmp_code
      icmp6_data32 := pkt_too_big_mtu.getD 0 }
  let pseudo : Ipv6Pseudo :=
    { ip6_src := new_src
      ip6_dst := new_dst
      length := UInt32.ofNat (ICMP6_SIZE + quote_len)
      next := IPPROTO_ICMPV6.toUInt32 }
  let ck ← inetChecksum pseudo.asBytes 0xffff
  let ck ← inetChecksum icmp6.asBytes ck
  let ck ← inetChecksum quote ck
  let icmp6 := { icmp6 with icmp6_cksum := ck }
  return some (eth ++ ip6.asBytes ++ icmp6.asBytes ++ quote)

/-! ### What a valid error is -/

/-- The Ethernet header of an answer: addresses exchanged, same ethertype. -/
def MacsExchanged (original out : List UInt8) : Prop :=
  out.take 14 = (original.drop 6).take 6 ++ original.take 6 ++ (original.drop 12).take 2

def ipv4At (frame : List UInt8) : Option Ipv4Hdr := Ipv4Hdr.readFromBytes ((frame.drop 14).take 20)

def ipv6At (frame : List UInt8) : Option Ipv6Hdr := Ipv6Hdr.readFromBytes ((frame.drop 14).take 40)

structure V4Error (original out : List UInt8) (icmp_type icmp_code : UInt8) (frag_mtu : Option UInt16)
    (src_override : Option (Octets 4)) : Prop where
  macs : MacsExchanged original out
  header : ∃ orig ip, ipv4At original = some orig ∧ ipv4At out = some ip ∧
    ip.ip_vhl = 0x45 ∧ ip.ip_len.toNat + 14 = out.length ∧ ip.ip_p = IPPROTO_ICMP ∧
    ip.ip_src = src_override.getD orig.ip_dst ∧ ip.ip_dst = orig.ip_src
  ip_sum : Verifies ((out.drop 14).take 20)
  icmp_sum : Verifies (out.drop 34)
  kind : (out.drop 34).take 2 = [icmp_type, icmp_code]
  nextmtu : (out.drop 38).take 4 = [0, 0] ++ BigEndian.encode 2 (frag_mtu.getD 0).toNat
  cap : out.length ≤ 14 + IP_MSS
  quote : out.drop 42 <+: original.drop 14

/-- The pseudo header of an ICMPv6 message in a frame: the addresses, the length of the message and its
protocol number, each of the last two as a word of four bytes. -/
def icmp6Pseudo (out : List UInt8) : List UInt8 :=
  (out.drop 22).take 32 ++ BigEndian.encode 4 (out.length - 54) ++ BigEndian.encode 4 58

structure V6Error (original out : List UInt8) (icmp_type icmp_code : UInt8) (pkt_too_big_mtu : Option UInt32)
    (src_override : Option (Octets 16)) : Prop where
  macs : MacsExchanged original out
  header : ∃ orig ip, ipv6At original = some orig ∧ ipv6At out = some ip ∧
    ip.ip6_flow = 0x60000000 ∧ ip.ip6_plen.toNat + 54 = out.length ∧ ip.ip6_nxt = IPPROTO_ICMPV6 ∧
    ip.ip6_src = src_override.getD orig.ip6_dst ∧ ip.ip6_dst = orig.ip6_src
  icmp_sum : Verifies (icmp6Pseudo out ++ out.drop 54)
  kind : (out.drop 54).take 2 = [icmp_type, icmp_code]
  mtu : (out.drop 58).take 4 = BigEndian.encode 4 (pkt_too_big_mtu.getD 0).toNat
  cap : out.length ≤ 14 + IP_MSS
  quote : out.drop 62 <+: original.drop 14

variable {original : List UInt8} {icmp_type icmp_code : UInt8}

theorem ethReplyHdr_eq (h : 14 ≤ original.length) :
    ethReplyHdr original = .ok ((original.drop 6).take 6 ++ original.take 6 ++ (original.drop 12).take 2) := by
  rw [ethReplyHdr, slice_eq (by omega) (by omega), ok_bind, slice_eq (by omega) (by omega), ok_bind,
    slice_eq (by omega) h, ok_bind]
  rfl

theorem length_ethReply (h : 14 ≤ original.length) :
    ((original.drop 6).take 6 ++ original.take 6 ++ (original.drop 12).take 2).length = 14 := by
  simp only [List.length_append, List.length_take, List.length_drop]
  omega

theorem sections {eth ip proto body out : List UInt8} (hout : out = eth ++ ip ++ proto ++ body)
    (heth : eth.length = 14) {n : ℕ} (hip : ip.length = n) (hproto : proto.length = 8) :
    out.take 14 = eth ∧ (out.drop 14).take n = ip ∧ out.drop (14 + n) = proto ++ body ∧
      out.drop (14 + n + 8) = body ∧ out.length = 14 + n + 8 + body.length := by
  subst hout
  have hlen : (eth ++ ip).length = 14 + n := by
    rw [List.length_append, heth, hip]
  refine ⟨?_, ?_, ?_, ?_, ?_⟩
  · rw [List.append_assoc, List.append_assoc, List.take_left' heth]
  · rw [List.append_assoc, List.append_assoc, List.drop_left' heth, List.take_left' hip]
  · rw [List.append_assoc, List.drop_left' hlen]
  · rw [List.drop_left' (by rw [List.length_append, hlen, hproto])]
  · rw [List.length_append, List.length_append, hlen, hproto]

theorem IcmpHdr.length_asBytes (h : IcmpHdr) : h.asBytes.length = 8 := rfl

theorem Icmp6Hdr.length_asBytes (h : Icmp6Hdr) : h.asBytes.length = 8 := rfl

theorem Ipv6Pseudo.length_asBytes (h : Ipv6Pseudo) : h.asBytes.length = 40 := by
  simp [asBytes, h.ip6_src.2, h.ip6_dst.2]

theorem IcmpHdr.verifies (h : IcmpHdr) (quote : List UInt8) :
    Verifies ({ h with icmp_cksum := ofAcc (norm (totalSwapped
      ({ h with icmp_cksum := 0 }.asBytes ++ quote))) }.asBytes ++ quote) := by
  have hsplit : ∀ c : UInt16, { h with icmp_cksum := c }.asBytes ++ quote =
      [h.icmp_type, h.icmp_code] ++ neBytes c ++ (BigEndian.encode 2 h.icmp_void.toNat ++
        BigEndian.encode 2 h.icmp_nextmtu.toNat ++ quote) := by
    intro c
    simp only [asBytes, List.append_assoc]
  rw [hsplit, hsplit, neBytes_zero]
  exact verifies_checksum (by simp)

theorem Icmp6Hdr.verifies (h : Icmp6Hdr) {pseudo : List UInt8} (hpseudo : pseudo.length % 2 = 0)
    (quote : List UInt8) :
    Verifies (pseudo ++ ({ h with icmp6_cksum := ofAcc (norm (totalSwapped
      (pseudo ++ { h with icmp6_cksum := 0 }.asBytes ++ quote))) }.asBytes ++ quote)) := by
  have hsplit : ∀ c : UInt16, pseudo ++ ({ h with icmp6_cksum := c }.asBytes ++ quote) =
      pseudo ++ [h.icmp6_type, h.icmp6_code] ++ neBytes c ++ (BigEndian.encode 4 h.icmp6_data32.toNat ++ quote) := by
    intro c
    simp only [asBytes, List.append_assoc]
  rw [List.append_assoc, hsplit, hsplit, neBytes_zero]
  refine verifies_checksum ?_
  rw [List.length_append, List.length_cons, List.length_singleton]
  omega

def errorIpv4 (src dst : Octets 4) (oldlen : ℕ) : Ipv4Hdr :=
  { ip_vhl := Ipv4Hdr.vhl 4 5, ip_len := UInt16.ofNat (20 + 8 + oldlen), ip_ttl := 255, ip_p := IPPROTO_ICMP,
    ip_src := src, ip_dst := dst }

theorem buildV4Unreachable_eq (h : 34 ≤ original.length) (frag_mtu : Option UInt16)
    (src_override : Option (Octets 4)) {quote : List UInt8}
    (hquote : quote = (original.drop 14).take (min (original.length - 14) 548)) :
    ∃ orig c, ipv4At original = some orig ∧
      inetChecksum (errorIpv4 (src_override.getD orig.ip_dst) orig.ip_src quote.length).asBytes 0xffff = .ok c ∧
      buildV4Unreachable original icmp_type icmp_code frag_mtu src_override =
        .ok (some ((original.drop 6).take 6 ++ original.take 6 ++ (original.drop 12).take 2 ++
          ((errorIpv4 (src_override.getD orig.ip_dst) orig.ip_src quote.length).withSum c).asBytes ++
          { icmp_type := icmp_type
            icmp_code := icmp_code
            icmp_cksum := ofAcc (norm (totalSwapped (IcmpHdr.asBytes
              { icmp_type := icmp_type, icmp_code := icmp_code, icmp_nextmtu := frag_mtu.getD 0 } ++ quote)))
            icmp_nextmtu := frag_mtu.getD 0 : IcmpHdr }.asBytes ++ quote)) := by
  have hqlen : quote.length = min (original.length - 14) 548 := by
    rw [hquote, List.length_take, List.length_drop]
    omega
  have hslice : slice original 14 (14 + min (original.length - 14) 548) = .ok quote := by
    rw [slice_eq (by omega) (by omega), Nat.add_sub_cancel_left, hquote]
  have hip : slice original 14 (14 + 20) = .ok ((original.drop 14).take 20) := slice_eq (by omega) h
  obtain ⟨orig, horig⟩ := @Ipv4Hdr.readFromBytes_isSome ((original.drop 14).take 20) (by
    rw [List.length_take, List.length_drop]
    omega)
  obtain ⟨c, hc⟩ : ∃ c, inetChecksum
      (errorIpv4 (src_override.getD orig.ip_dst) orig.ip_src quote.length).asBytes 0xffff = .ok c :=
    ⟨_, inetChecksum_first (by rw [Ipv4Hdr.length_asBytes]; omega)⟩
  refine ⟨orig, c, horig, hc, ?_⟩
  rw [errorIpv4, hqlen] at hc
  rw [buildV4Unreachable, if_neg (by simp only [ETHER_SIZE, IP_SIZE]; omega)]
  dsimp only [ETHER_SIZE, V4_QUOTE_CAP, IP_MSS, IP_SIZE, ICMP_SIZE, Nat.reduceSub]
  rw [ethReplyHdr_eq (by omega), ok_bind, hip, ok_bind, horig]
  dsimp only
  rw [hslice, ok_bind, hc, ok_bind, inetChecksum_first (by rw [IcmpHdr.length_asBytes]; omega), ok_bind,
    inetChecksum_next (by rw [IcmpHdr.length_asBytes]) (by omega), ok_bind, errorIpv4, hqlen]
  rfl

theorem buildV4Unreachable_valid (original : List UInt8) (icmp_type icmp_code : UInt8)
    (frag_mtu : Option UInt16) (src_override : Option (Octets 4)) :
    Returns (buildV4Unreachable original icmp_type icmp_code frag_mtu src_override) fun r =>
      (r = none ↔ original.length < 34) ∧
        ∀ out, r = some out → V4Error original out icmp_type icmp_code frag_mtu src_override := by
  by_cases hshort : original.length < 34
  · have hsize : original.length < ETHER_SIZE + IP_SIZE := hshort
    rw [buildV4Unreachable, if_pos hsize]
    exact returns_pure.2 ⟨iff_of_true rfl hshort, by simp⟩
  obtain ⟨orig, c, horig, hc, hbuild⟩ := @buildV4Unreachable_eq original icmp_type icmp_code
    (Nat.not_lt.1 hshort) frag_mtu src_override _ rfl
  rw [hbuild]
  refine returns_ok.2 ⟨iff_of_false (by simp) hshort, fun out hout => ?_⟩
  generalize hquote : (original.drop 14).take (min (original.length - 14) 548) = quote at *
  have hqlen : quote.length = min (original.length - 14) 548 := by
    rw [← hquote, List.length_take, List.length_drop]
    omega
  have hverifies := Ipv4Hdr.verifies_of_checksum rfl hc
  have hicmp := IcmpHdr.verifies { icmp_type := icmp_type, icmp_code := icmp_code, icmp_nextmtu := frag_mtu.getD 0 } quote
  obtain ⟨heth, hhead, hbody, hrest, hlen⟩ := sections (Option.some.inj hout).symm (length_ethReply (by omega))
    (Ipv4Hdr.length_asBytes _) (IcmpHdr.length_asBytes _)
  refine ⟨heth, ⟨orig, (errorIpv4 (src_override.getD orig.ip_dst) orig.ip_src quote.length).withSum c,
    horig, ?_, rfl, ?_, rfl, rfl, rfl⟩, ?_, ?_, ?_, ?_, ?_, ?_⟩
  · rw [ipv4At, hhead, Ipv4Hdr.readFromBytes_asBytes]
  · rw [Ipv4Hdr.withSum, errorIpv4, UInt16.toNat_ofNat_of_lt' (show _ < 2 ^ 16 by omega)]
    omega
  · rw [hhead]
    exact hverifies
  · rw [hbody]
    exact hicmp
  · rw [hbody]
    rfl
  · rw [show 38 = 34 + 4 from rfl, ← List.drop_drop, hbody]
    simp [IcmpHdr.asBytes, BigEndian.encode, neBytes]
  · rw [hlen, hqlen, IP_MSS]
    omega
  · rw [hrest, ← hquote]
    exact List.take_prefix _ _

def errorIpv6 (src dst : Octets 16) (quote_len : ℕ) : Ipv6Hdr :=
  { ip6_flow := 0x60000000, ip6_plen := UInt16.ofNat (8 + quote_len), ip6_nxt := IPPROTO_ICMPV6, ip6_hlim := 255,
    ip6_src := src, ip6_dst := dst }

def errorPseudo (src dst : Octets 16) (quote_len : ℕ) : Ipv6Pseudo :=
  { ip6_src := src, ip6_dst := dst, length := UInt32.ofNat (8 + quote_len), next := IPPROTO_ICMPV6.toUInt32 }

theorem buildV6Unreachable_eq (h : 54 ≤ original.length) (pkt_too_big_mtu : Option UInt32)
    (src_override : Option (Octets 16)) {quote : List UInt8}
    (hquote : quote = (original.drop 14).take (min (original.length - 14) 528)) :
    ∃ orig, ipv6At original = some orig ∧
      buildV6Unreachable original icmp_type icmp_code pkt_too_big_mtu src_override =
        .ok (some ((original.drop 6).take 6 ++ original.take 6 ++ (original.drop 12).take 2 ++
          (errorIpv6 (src_override.getD orig.ip6_dst) orig.ip6_src quote.length).asBytes ++
          { icmp6_type := icmp_type
            icmp6_code := icmp_code
            icmp6_cksum := ofAcc (norm (totalSwapped
              ((errorPseudo (src_override.getD orig.ip6_dst) orig.ip6_src quote.length).asBytes ++
                Icmp6Hdr.asBytes
                  { icmp6_type := icmp_type, icmp6_code := icmp_code, icmp6_data32 := pkt_too_big_mtu.getD 0 } ++
                quote)))
            icmp6_data32 := pkt_too_big_mtu.getD 0 : Icmp6Hdr }.asBytes ++ quote)) := by
  have hqlen : quote.length = min (original.length - 14) 528 := by
    rw [hquote, List.length_take, List.length_drop]
    omega
  have hslice : slice original 14 (14 + min (original.length - 14) 528) = .ok quote := by
    rw [slice_eq (by omega) (by omega), Nat.add_sub_cancel_left, hquote]
  have hip : slice original 14 (14 + 40) = .ok ((original.drop 14).take 40) := slice_eq (by omega) h
  obtain ⟨orig, horig⟩ := @Ipv6Hdr.readFromBytes_isSome ((original.drop 14).take 40) (by
    rw [List.length_take, List.length_drop]
    omega)
  refine ⟨orig, horig, ?_⟩
  rw [buildV6Unreachable, if_neg (by simp only [ETHER_SIZE, IP6_SIZE]; omega)]
  dsimp only [ETHER_SIZE, V6_QUOTE_CAP, IP_MSS, IP6_SIZE, ICMP6_SIZE, Nat.reduceSub]
  rw [ethReplyHdr_eq (by omega), ok_bind, hip, ok_bind, horig]
  dsimp only
  rw [hslice, ok_bind, inetChecksum_first (by rw [Ipv6Pseudo.length_asBytes]; omega), ok_bind,
    inetChecksum_next (by rw [Ipv6Pseudo.length_asBytes]) (by rw [Icmp6Hdr.length_asBytes]; omega), ok_bind,
    inetChecksum_next (by rw [List.length_append, Ipv6Pseudo.length_asBytes, Icmp6Hdr.length_asBytes])
      (by omega), ok_bind, errorIpv6, errorPseudo, hqlen]
  rfl

theorem buildV6Unreachable_valid (original : List UInt8) (icmp_type icmp_code : UInt8)
    (pkt_too_big_mtu : Option UInt32) (src_override : Option (Octets 16)) :
    Returns (buildV6Unreachable original icmp_type icmp_code pkt_too_big_mtu src_override) fun r =>
      (r = none ↔ original.length < 54) ∧
        ∀ out, r = some out → V6Error original out icmp_type icmp_code pkt_too_big_mtu src_override := by
  by_cases hshort : original.length < 54
  · have hsize : original.length < ETHER_SIZE + IP6_SIZE := hshort
    rw [buildV6Unreachable, if_pos hsize]
    exact returns_pure.2 ⟨iff_of_true rfl hshort, by simp⟩
  obtain ⟨orig, horig, hbuild⟩ := @buildV6Unreachable_eq original icmp_type icmp_code
    (Nat.not_lt.1 hshort) pkt_too_big_mtu src_override _ rfl
  rw [hbuild]
  refine returns_ok.2 ⟨iff_of_false (by simp) hshort, fun out hout => ?_⟩
  generalize hquote : (original.drop 14).take (min (original.length - 14) 528) = quote at *
  have hqlen : quote.length = min (original.length - 14) 528 := by
    rw [← hquote, List.length_take, List.length_drop]
    omega
  have hpseudo : (errorPseudo (src_override.getD orig.ip6_dst) orig.ip6_src quote.length).asBytes.length % 2 = 0 := by
    rw [Ipv6Pseudo.length_asBytes]
  have hicmp := Icmp6Hdr.verifies
    { icmp6_type := icmp_type, icmp6_code := icmp_code, icmp6_data32 := pkt_too_big_mtu.getD 0 } hpseudo quote
  obtain ⟨heth, hhead, hbody, hrest, hlen⟩ := sections (Option.some.inj hout).symm (length_ethReply (by omega))
    (Ipv6Hdr.length_asBytes _) (Icmp6Hdr.length_asBytes _)
  refine ⟨heth, ⟨orig, errorIpv6 (src_override.getD orig.ip6_dst) orig.ip6_src quote.length, horig, ?_, rfl, ?_, rfl,
    rfl, rfl⟩, ?_, ?_, ?_, ?_, ?_⟩
  · rw [ipv6At, hhead, Ipv6Hdr.readFromBytes_asBytes]
  · rw [errorIpv6, UInt16.toNat_ofNat_of_lt' (show _ < 2 ^ 16 by omega)]
    omega
  · have hsame : icmp6Pseudo out =
        (errorPseudo (src_override.getD orig.ip6_dst) orig.ip6_src quote.length).asBytes := by
      have haddrs : (out.drop 22).take 32 = ((out.drop 14).take 40).drop 8 := by
        rw [List.drop_take, List.drop_drop]
      have hplen : (UInt32.ofNat (8 + quote.length)).toNat = 8 + quote.length :=
        UInt32.toNat_ofNat_of_lt' (show _ < 2 ^ 32 by omega)
      have hsize : out.length - 54 = 8 + quote.length := by omega
      rw [icmp6Pseudo, haddrs, hhead, hsize, errorPseudo, Ipv6Pseudo.asBytes]
      dsimp only
      rw [hplen]
      rfl
    rw [hsame, hbody]
    exact hicmp
  · rw [hbody]
    rfl
  · rw [show 58 = 54 + 4 from rfl, ← List.drop_drop, hbody]
    rfl
  · rw [hlen, hqlen, IP_MSS]
    omega
  · rw [hrest, ← hquote]
    exact List.take_prefix _ _

/-- The errors built for any frame long enough for its headers are valid, and the checksums in them are
of the concatenation of the pieces they are chained over: read in network order, the complement of its
one's-complement sum. -/
theorem unreachable_valid (original : List UInt8) (icmp_type icmp_code : UInt8) :
    (∀ frag_mtu src_override,
      Returns (buildV4Unreachable original icmp_type icmp_code frag_mtu src_override) fun r =>
        (r = none ↔ original.length < 34) ∧
          ∀ out, r = some out → V4Error original out icmp_type icmp_code frag_mtu src_override) ∧
    (∀ pkt_too_big_mtu src_override,
      Returns (buildV6Unreachable original icmp_type icmp_code pkt_too_big_mtu src_override) fun r =>
        (r = none ↔ original.length < 54) ∧
          ∀ out, r = some out → V6Error original out icmp_type icmp_code pkt_too_big_mtu src_override) ∧
    ∀ pieces : List (List UInt8), pieces ≠ [] → (∀ p ∈ pieces, p.length ≤ 0x20000) →
      (∀ p ∈ pieces.dropLast, p.length % 2 = 0) →
      Returns (pieces.foldlM (fun c p => inetChecksum p c) 0xffff) fun c =>
        BigEndian.decode (neBytes c) = 0xffff - sum (words pieces.flatten) := by
  refine ⟨buildV4Unreachable_valid original icmp_type icmp_code,
    buildV6Unreachable_valid original icmp_type icmp_code, fun pieces hne hlen heven => ?_⟩
  have hstart : (0xffff : UInt16) = ofAcc 0 := rfl
  rw [hstart, foldlM_inetChecksum hlen heven (Nat.zero_le _), if_neg hne, Nat.zero_add]
  exact returns_ok.2 (decode_checksum _)

end Tincr.Packet

import Tincr.Net.Dns
import Tincr.Packet.Icmp

/-!
The frame around a DNS reply. It goes back to where the query came from, with the addresses of the Ethernet header
exchanged. The lengths of the IP and UDP headers have 16 bits and are cut without a check, so the frame is right
exactly for replies whose length, with the headers, still fits them.
-/

namespace Tincr.Net.Dns

open Checked OnesComplement BigEndian IpText Proto Tincr.Packet DnsMessage

abbrev UDP_SIZE : ℕ := 8
abbrev IPPROTO_UDP : UInt8 := 17

def writeEthSwap (original : List UInt8) (ethertype : ℕ) : Checked (List UInt8) :=
  if ETHER_SIZE ≤ original.length then do
    return (← slice original 6 12) ++ (← slice original 0 6) ++ encode 2 ethertype
  else pure (List.replicate 12 0 ++ encode 2 ethertype)

def udpFields (dnsReply : List UInt8) (dstPort : UInt16) : List UInt8 :=
  encode 2 53 ++ encode 2 dstPort.toNat ++ encode 2 (UInt16.ofNat (UDP_SIZE + dnsReply.length)).toNat

/-- A checksum of 0 would say that there is none. -/
def sentChecksum (ck : UInt16) : UInt16 := if ck = 0 then 0xFFFF else ck

def buildUdp (dnsReply : List UInt8) (dstPort pseudoCk : UInt16) : Checked (List UInt8) := do
  let udp := udpFields dnsReply dstPort
  let ck ← inetChecksum (udp ++ [0, 0]) pseudoCk
  let ck ← inetChecksum dnsReply ck
  return udp ++ neBytes (sentChecksum ck)

def octets4 (a : Ipv4Addr) : Octets 4 := ⟨a.octets, length_octetsV4 a⟩

def octets16 (a : Ipv6Addr) : Octets 16 := ⟨octetsV6 a, length_octetsV6 a⟩

def replyIpv4 (dnsReply : List UInt8) (srcIp dstIp : Ipv4Addr) : Ipv4Hdr :=
  { ip_vhl := Ipv4Hdr.vhl 4 5
    ip_len := UInt16.ofNat (IP_SIZE + UDP_SIZE + dnsReply.length)
    ip_ttl := 64
    ip_p := IPPROTO_UDP
    ip_src := octets4 srcIp
    ip_dst := octets4 dstIp }

def pseudoIpv4 (dnsReply : List UInt8) (srcIp dstIp : Ipv4Addr) : Ipv4Pseudo :=
  { ip_src := octets4 srcIp
    ip_dst := octets4 dstIp
    proto := IPPROTO_UDP
    length := UInt16.ofNat (UDP_SIZE + dnsReply.length) }

def wrapV4 (original dnsReply : List UInt8) (srcIp dstIp : Ipv4Addr) (dstPort : UInt16) : Checked (List UInt8) := do
  let eth ← writeEthSwap original ETH_P_IP
  let ip := replyIpv4 dnsReply srcIp dstIp
  let ip := ip.withSum (← inetChecksum ip.asBytes 0xffff)
  let pseudoCk ← inetChecksum (pseudoIpv4 dnsReply srcIp dstIp).asBytes 0xffff
  let udp ← buildUdp dnsReply dstPort pseudoCk
  return eth ++ ip.asBytes ++ udp ++ dnsReply

def replyIpv6 (dnsReply : List UInt8) (srcIp dstIp : Ipv6Addr) : Ipv6Hdr :=
  { ip6_flow := 0x60000000
    ip6_plen := UInt16.ofNat (UDP_SIZE + dnsReply.length)
    ip6_nxt := IPPROTO_UDP
    ip6_hlim := 64
    ip6_src := octets16 srcIp
    ip6_dst := octets16 dstIp }

def pseudoIpv6 (dnsReply : List UInt8) (srcIp dstIp : Ipv6Addr) : Ipv6Pseudo :=
  { ip6_src := octets16 srcIp
    ip6_dst := octets16 dstIp
    length := (UInt16.ofNat (UDP_SIZE + dnsReply.length)).toUInt32
    next := IPPROTO_UDP.toUInt32 }

def wrapV6 (original dnsReply : List UInt8) (srcIp dstIp : Ipv6Addr) (dstPort : UInt16) : Checked (List UInt8) := do
  let eth ← writeEthSwap original ETH_P_IPV6
  let pseudoCk ← inetChecksum (pseudoIpv6 dnsReply srcIp dstIp).asBytes 0xffff
  let udp ← buildUdp dnsReply dstPort pseudoCk
  return eth ++ (replyIpv6 dnsReply srcIp dstIp).asBytes ++ udp ++ dnsReply

/-! ### What a frame has to be -/

def Swapped (original out : List UInt8) : Prop :=
  14 ≤ original.length → out.take 12 = (original.drop 6).take 6 ++ original.take 6

/-- The UDP part of a frame behind `ipEnd` bytes: its length is that of the bytes, its checksum is there and
verifies, and the reply is in it. -/
structure UdpOk (ipEnd : ℕ) (pseudo reply out : List UInt8) (dstPort : UInt16) : Prop where
  ports : (out.drop ipEnd).take 4 = encode 2 53 ++ encode 2 dstPort.toNat
  length : decode ((out.drop (ipEnd + 4)).take 2) + ipEnd = out.length
  sum_sent : (out.drop (ipEnd + 6)).take 2 ≠ [0, 0]
  sum : Verifies (pseudo ++ out.drop ipEnd)
  body : out.drop (ipEnd + 8) = reply

structure V4Reply (original reply out : List UInt8) (srcIp dstIp : Ipv4Addr) (dstPort : UInt16) : Prop where
  macs : Swapped original out
  header : ∃ ip, ipv4At out = some ip ∧ ip.ip_vhl = 0x45 ∧ ip.ip_len.toNat + 14 = out.length ∧
    ip.ip_p = IPPROTO_UDP ∧ ip.ip_src = octets4 srcIp ∧ ip.ip_dst = octets4 dstIp
  ip_sum : Verifies ((out.drop 14).take 20)
  udp : UdpOk 34 (srcIp.octets ++ dstIp.octets ++ [0, 17] ++ encode 2 (out.length - 34)) reply out dstPort

structure V6Reply (original reply out : List UInt8) (srcIp dstIp : Ipv6Addr) (dstPort : UInt16) : Prop where
  macs : Swapped original out
  header : ∃ ip, ipv6At out = some ip ∧ ip.ip6_flow = 0x60000000 ∧ ip.ip6_plen.toNat + 54 = out.length ∧
    ip.ip6_nxt = IPPROTO_UDP ∧ ip.ip6_src = octets16 srcIp ∧ ip.ip6_dst = octets16 dstIp
  udp : UdpOk 54 (octetsV6 srcIp ++ octetsV6 dstIp ++ encode 4 (out.length - 54) ++ encode 4 17) reply out dstPort

/-! ### The parts of the frame -/

theorem writeEthSwap_eq (original : List UInt8) (ethertype : ℕ) :
    ∃ eth, writeEthSwap original ethertype = .ok eth ∧ eth.length = 14 ∧ Swapped original eth := by
  by_cases h : 14 ≤ original.length
  · refine ⟨(original.drop 6).take 6 ++ original.take 6 ++ encode 2 ethertype, ?_, ?_, fun _ => ?_⟩
    · rw [writeEthSwap, if_pos h, slice_eq (by omega) (by omega), ok_bind, slice_eq (by omega) (by omega), ok_bind]
      rfl
    · simp only [List.length_append, List.length_take, List.length_drop, length_encode]
      omega
    · exact List.take_left' (by simp only [List.length_append, List.length_take, List.length_drop]; omega)
  · exact ⟨_, by rw [writeEthSwap, if_neg h]; rfl, by simp, fun h' => absurd h' h⟩

theorem length_udpFields (dnsReply : List UInt8) (dstPort : UInt16) : (udpFields dnsReply dstPort).length = 6 := by
  simp [udpFields]

theorem verifies_sentChecksum {xs ys : List UInt8} (heven : xs.length % 2 = 0) :
    Verifies (xs ++ neBytes (sentChecksum (ofAcc (norm (totalSwapped (xs ++ [0, 0] ++ ys))))) ++ ys) := by
  have hverifies := @verifies_checksum xs ys heven
  generalize ofAcc (norm (totalSwapped (xs ++ [0, 0] ++ ys))) = c at hverifies ⊢
  unfold sentChecksum
  split_ifs with hzero
  · -- all ones are another zero
    have hsum : ∀ c : UInt16, totalSwapped (xs ++ neBytes c ++ ys) = totalSwapped xs + c.toNat + totalSwapped ys := by
      intro c
      rw [totalSwapped_append (by rw [List.length_append, length_neBytes]; omega), totalSwapped_append heven,
        totalSwapped_neBytes]
    rw [verifies_iff_swapped, hsum, hzero] at hverifies
    rw [verifies_iff_swapped, hsum]
    have hones : (0xFFFF : UInt16).toNat = 0xFFFF := rfl
    have hnone : (0 : UInt16).toNat = 0 := rfl
    omega
  · exact hverifies

theorem neBytes_sentChecksum_ne (c : UInt16) : neBytes (sentChecksum c) ≠ [0, 0] := by
  intro h
  have htotal := totalSwapped_neBytes (sentChecksum c)
  rw [h] at htotal
  have hzero : sentChecksum c = 0 := UInt16.toNat_inj.1 htotal.symm
  unfold sentChecksum at hzero
  split_ifs at hzero with hc
  · exact absurd hzero (by decide)
  · exact hc hzero

section Frame

variable {original reply : List UInt8} {dstPort : UInt16}

theorem buildUdp_eq {pseudo : List UInt8} (heven : pseudo.length % 2 = 0) (hlen : reply.length ≤ 0x20000) :
    buildUdp reply dstPort (ofAcc (norm (totalSwapped pseudo))) =
      .ok (udpFields reply dstPort ++
        neBytes (sentChecksum (ofAcc (norm (totalSwapped (pseudo ++ udpFields reply dstPort ++ [0, 0] ++ reply)))))) := by
  have hfields := length_udpFields reply dstPort
  have hhead : (udpFields reply dstPort ++ [0, 0]).length = 8 := by rw [List.length_append, hfields]; rfl
  rw [buildUdp, inetChecksum_next heven (by omega), ok_bind,
    inetChecksum_next (by rw [List.length_append, hhead]; omega) hlen, ok_bind, ← List.append_assoc pseudo]
  rfl

theorem length_of_buildUdp {ck : UInt16} {udp : List UInt8} (h : buildUdp reply dstPort ck = .ok udp) :
    udp.length = 8 := by
  obtain ⟨c, -, hrest⟩ := bind_eq_ok.1 h
  obtain ⟨c', -, hudp⟩ := bind_eq_ok.1 hrest
  obtain rfl := Except.ok.inj hudp
  rw [List.length_append, length_udpFields, length_neBytes]

/-- A frame with this header behind `ipEnd` bytes, if its length fits. -/
theorem udpOk_of_fits {pseudo : List UInt8} (heven : pseudo.length % 2 = 0) (hfits : 8 + reply.length < 65536)
    {front : List UInt8} {ipEnd : ℕ} (hfront : front.length = ipEnd) :
    UdpOk ipEnd pseudo reply (front ++ (udpFields reply dstPort ++
      neBytes (sentChecksum (ofAcc (norm (totalSwapped (pseudo ++ udpFields reply dstPort ++ [0, 0] ++ reply)))))) ++
      reply) dstPort := by
  have hfields := length_udpFields reply dstPort
  have hverifies := @verifies_sentChecksum (pseudo ++ udpFields reply dstPort) reply (by
    rw [List.length_append, hfields]
    omega)
  have hsent := neBytes_sentChecksum_ne
    (ofAcc (norm (totalSwapped (pseudo ++ udpFields reply dstPort ++ [0, 0] ++ reply))))
  generalize sentChecksum (ofAcc (norm (totalSwapped (pseudo ++ udpFields reply dstPort ++ [0, 0] ++ reply)))) = c
    at hverifies hsent ⊢
  have hudp : (front ++ (udpFields reply dstPort ++ neBytes c) ++ reply).drop ipEnd =
      udpFields reply dstPort ++ neBytes c ++ reply := by
    rw [List.append_assoc front, List.drop_left' hfront]
  have hlen : (UInt16.ofNat (8 + reply.length)).toNat = 8 + reply.length := UInt16.toNat_ofNat_of_lt' hfits
  refine ⟨?_, ?_, ?_, ?_, ?_⟩
  · rw [hudp]
    rfl
  · rw [← List.drop_drop, hudp]
    have hword : ((udpFields reply dstPort ++ neBytes c ++ reply).drop 4).take 2 = encode 2 (8 + reply.length) := by
      rw [udpFields, hlen]
      rfl
    rw [hword, decode_encode_of_lt (by norm_num; omega)]
    simp only [List.length_append, hfront, hfields, length_neBytes]
    omega
  · rw [← List.drop_drop, hudp, List.append_assoc, List.drop_left' hfields, List.take_left' (length_neBytes c)]
    exact hsent
  · rw [hudp]
    simpa only [List.append_assoc] using hverifies
  · rw [List.drop_left' (by simp only [List.length_append, hfront, hfields, length_neBytes])]

theorem Swapped.append {eth rest : List UInt8} (h : Swapped original eth) (heth : eth.length = 14) :
    Swapped original (eth ++ rest) := by
  intro hlen
  rw [List.take_append_of_le_length (by omega), h hlen]

theorem length_pseudoIpv4 (srcIp dstIp : Ipv4Addr) : (pseudoIpv4 reply srcIp dstIp).asBytes.length = 12 := by
  simp [Ipv4Pseudo.asBytes, pseudoIpv4, octets4, Ipv4Addr.octets]

/-- The frame as its parts, whatever the checksums come to. -/
theorem wrapV4_shape {srcIp dstIp : Ipv4Addr} {out : List UInt8} (h : wrapV4 original reply srcIp dstIp dstPort = .ok out) :
    ∃ c, ipv4At out = some ((replyIpv4 reply srcIp dstIp).withSum c) ∧ out.length = 42 + reply.length := by
  obtain ⟨eth, heth, hethlen, -⟩ := writeEthSwap_eq original ETH_P_IP
  rw [wrapV4, heth, ok_bind] at h
  obtain ⟨c, -, h⟩ := bind_eq_ok.1 h
  obtain ⟨ck, -, h⟩ := bind_eq_ok.1 h
  obtain ⟨udp, hudp, h⟩ := bind_eq_ok.1 h
  obtain ⟨-, hhead, -, -, hlen⟩ := sections (Except.ok.inj h).symm hethlen (Ipv4Hdr.length_asBytes _)
    (length_of_buildUdp hudp)
  exact ⟨c, by rw [ipv4At, hhead, Ipv4Hdr.readFromBytes_asBytes], hlen⟩

theorem wrapV4_eq {srcIp dstIp : Ipv4Addr} (hlen : reply.length ≤ 0x20000) :
    ∃ eth c, eth.length = 14 ∧ Swapped original eth ∧
      inetChecksum (replyIpv4 reply srcIp dstIp).asBytes 0xffff = .ok c ∧
      wrapV4 original reply srcIp dstIp dstPort =
        .ok (eth ++ ((replyIpv4 reply srcIp dstIp).withSum c).asBytes ++ (udpFields reply dstPort ++
          neBytes (sentChecksum (ofAcc (norm (totalSwapped
            ((pseudoIpv4 reply srcIp dstIp).asBytes ++ udpFields reply dstPort ++ [0, 0] ++ reply)))))) ++ reply) := by
  obtain ⟨eth, heth, hethlen, hswap⟩ := writeEthSwap_eq original ETH_P_IP
  obtain ⟨c, hc⟩ : ∃ c, inetChecksum (replyIpv4 reply srcIp dstIp).asBytes 0xffff = .ok c :=
    ⟨_, inetChecksum_first (by rw [Ipv4Hdr.length_asBytes]; omega)⟩
  have hpseudo := @length_pseudoIpv4 reply srcIp dstIp
  refine ⟨eth, c, hethlen, hswap, hc, ?_⟩
  rw [wrapV4, heth, ok_bind]
  dsimp only
  rw [hc, ok_bind, inetChecksum_first (by omega), ok_bind, buildUdp_eq (by omega) hlen, ok_bind]
  rfl

theorem wrapV4_iff (original reply : List UInt8) (srcIp dstIp : Ipv4Addr) (dstPort : UInt16) :
    Returns (wrapV4 original reply srcIp dstIp dstPort) (fun out => V4Reply original reply out srcIp dstIp dstPort) ↔
      28 + reply.length < 65536 := by
  constructor
  · rintro ⟨out, hout, hreply⟩
    obtain ⟨c, hip, hlen⟩ := wrapV4_shape hout
    obtain ⟨ip, hip', -, htotal, -⟩ := hreply.header
    obtain rfl := Option.some.inj (hip.symm.trans hip')
    have hlt := ((replyIpv4 reply srcIp dstIp).withSum c).ip_len.toNat_lt
    omega
  · intro hfits
    obtain ⟨eth, c, hethlen, hswap, hc, hwrap⟩ :=
      @wrapV4_eq original reply dstPort srcIp dstIp (by omega)
    have hpseudo := @length_pseudoIpv4 reply srcIp dstIp
    rw [hwrap]
    refine returns_ok.2 ?_
    have hudp := @udpOk_of_fits reply dstPort (pseudoIpv4 reply srcIp dstIp).asBytes (by omega) (by omega)
      (eth ++ ((replyIpv4 reply srcIp dstIp).withSum c).asBytes) 34 (by
        rw [List.length_append, hethlen, Ipv4Hdr.length_asBytes])
    generalize hheader : udpFields reply dstPort ++ neBytes _ = udp at hudp ⊢
    have hudplen : udp.length = 8 := by
      rw [← hheader, List.length_append, length_udpFields, length_neBytes]
    generalize hout : eth ++ ((replyIpv4 reply srcIp dstIp).withSum c).asBytes ++ udp ++ reply = out at hudp ⊢
    obtain ⟨-, hhead, -, -, hlen⟩ := sections hout.symm hethlen (Ipv4Hdr.length_asBytes _) hudplen
    have hudpsize : (UInt16.ofNat (8 + reply.length)).toNat = 8 + reply.length :=
      UInt16.toNat_ofNat_of_lt' (show _ < 2 ^ 16 by omega)
    refine ⟨?_, ⟨_, by rw [ipv4At, hhead, Ipv4Hdr.readFromBytes_asBytes], rfl, ?_, rfl, rfl, rfl⟩, ?_, ?_⟩
    · rw [← hout, List.append_assoc, List.append_assoc]
      exact hswap.append hethlen
    · have htotal : (UInt16.ofNat (20 + 8 + reply.length)).toNat = 20 + 8 + reply.length :=
        UInt16.toNat_ofNat_of_lt' (show _ < 2 ^ 16 by omega)
      rw [Ipv4Hdr.withSum, replyIpv4, htotal]
      omega
    · rw [hhead]
      exact Ipv4Hdr.verifies_of_checksum rfl hc
    · have hsame : srcIp.octets ++ dstIp.octets ++ [0, 17] ++ encode 2 (out.length - 34) =
          (pseudoIpv4 reply srcIp dstIp).asBytes := by
        rw [Ipv4Pseudo.asBytes, pseudoIpv4, hudpsize, show out.length - 34 = 8 + reply.length by omega]
        rfl
      rw [hsame]
      exact hudp

theorem length_pseudoIpv6 (srcIp dstIp : Ipv6Addr) : (pseudoIpv6 reply srcIp dstIp).asBytes.length = 40 :=
  Ipv6Pseudo.length_asBytes _

theorem wrapV6_shape {srcIp dstIp : Ipv6Addr} {out : List UInt8} (h : wrapV6 original reply srcIp dstIp dstPort = .ok out) :
    ipv6At out = some (replyIpv6 reply srcIp dstIp) ∧ out.length = 62 + reply.length := by
  obtain ⟨eth, heth, hethlen, -⟩ := writeEthSwap_eq original ETH_P_IPV6
  rw [wrapV6, heth, ok_bind] at h
  obtain ⟨ck, -, h⟩ := bind_eq_ok.1 h
  obtain ⟨udp, hudp, h⟩ := bind_eq_ok.1 h
  obtain ⟨-, hhead, -, -, hlen⟩ := sections (Except.ok.inj h).symm hethlen (Ipv6Hdr.length_asBytes _)
    (length_of_buildUdp hudp)
  exact ⟨by rw [ipv6At, hhead, Ipv6Hdr.readFromBytes_asBytes], hlen⟩

theorem wrapV6_iff (original reply : List UInt8) (srcIp dstIp : Ipv6Addr) (dstPort : UInt16) :
    Returns (wrapV6 original reply srcIp dstIp dstPort) (fun out => V6Reply original reply out srcIp dstIp dstPort) ↔
      8 + reply.length < 65536 := by
  constructor
  · rintro ⟨out, hout, hreply⟩
    obtain ⟨hip, hlen⟩ := wrapV6_shape hout
    obtain ⟨ip, hip', -, htotal, -⟩ := hreply.header
    obtain rfl := Option.some.inj (hip.symm.trans hip')
    have hlt := (replyIpv6 reply srcIp dstIp).ip6_plen.toNat_lt
    omega
  · intro hfits
    obtain ⟨eth, heth, hethlen, hswap⟩ := writeEthSwap_eq original ETH_P_IPV6
    have hpseudo := @length_pseudoIpv6 reply srcIp dstIp
    rw [wrapV6, heth, ok_bind, inetChecksum_first (by omega), ok_bind, buildUdp_eq (by omega) (by omega), ok_bind]
    refine returns_pure.2 ?_
    have hudp := @udpOk_of_fits reply dstPort (pseudoIpv6 reply srcIp dstIp).asBytes (by omega) (by omega)
      (eth ++ (replyIpv6 reply srcIp dstIp).asBytes) 54 (by
        rw [List.length_append, hethlen, Ipv6Hdr.length_asBytes])
    generalize hheader : udpFields reply dstPort ++ neBytes _ = udp at hudp ⊢
    have hudplen : udp.length = 8 := by
      rw [← hheader, List.length_append, length_udpFields, length_neBytes]
    generalize hout : eth ++ (replyIpv6 reply srcIp dstIp).asBytes ++ udp ++ reply = out at hudp ⊢
    obtain ⟨-, hhead, -, -, hlen⟩ := sections hout.symm hethlen (Ipv6Hdr.length_asBytes _) hudplen
    have hudpsize : (UInt16.ofNat (8 + reply.length)).toNat = 8 + reply.length :=
      UInt16.toNat_ofNat_of_lt' (show _ < 2 ^ 16 by omega)
    refine ⟨?_, ⟨_, by rw [ipv6At, hhead, Ipv6Hdr.readFromBytes_asBytes], rfl, ?_, rfl, rfl, rfl⟩, ?_⟩
    · rw [← hout, List.append_assoc, List.append_assoc]
      exact hswap.append hethlen
    · rw [replyIpv6, hudpsize]
      omega
    · have hsame : octetsV6 srcIp ++ octetsV6 dstIp ++ encode 4 (out.length - 54) ++ encode 4 17 =
          (pseudoIpv6 reply srcIp dstIp).asBytes := by
        rw [Ipv6Pseudo.asBytes, pseudoIpv6, UInt16.toNat_toUInt32, hudpsize,
          show out.length - 54 = 8 + reply.length by omega]
        rfl
      rw [hsame]
      exact hudp

end Frame

/-! ### Replies that fit -/

/-- A reply is right, and the frame around it, exactly when its length fits the length fields of the headers. -/
theorem answer_framed_iff {dns reply : List UInt8} {cfg : DnsConfig} {subnets : SubnetTree} {myname : String}
    (h : answer dns cfg subnets myname = some reply) (original : List UInt8) (dstPort : UInt16) :
    (∀ srcIp dstIp, ReplyOk dns cfg subnets reply ∧
      Returns (wrapV4 original reply srcIp dstIp dstPort)
        (fun out => V4Reply original reply out srcIp dstIp dstPort) ↔ 28 + replySize dns cfg subnets < 65536) ∧
    (∀ srcIp dstIp, ReplyOk dns cfg subnets reply ∧
      Returns (wrapV6 original reply srcIp dstIp dstPort)
        (fun out => V6Reply original reply out srcIp dstIp dstPort) ↔ 8 + replySize dns cfg subnets < 65536) := by
  obtain ⟨m, hreply, hnamed, hdescribes⟩ := answer_message h
  have hok : reply.length < 65536 → ReplyOk dns cfg subnets reply := by
    intro hlen
    rw [hreply] at hlen ⊢
    exact ⟨m, Message.read_bytes (hnamed.wellFormed hlen), hdescribes⟩
  rw [← length_answer h]
  constructor
  · intro srcIp dstIp
    rw [wrapV4_iff]
    exact ⟨fun hboth => hboth.2, fun hfits => ⟨hok (by omega), hfits⟩⟩
  · intro srcIp dstIp
    rw [wrapV6_iff]
    exact ⟨fun hboth => hboth.2, fun hfits => ⟨hok (by omega), hfits⟩⟩

/-! ### A node with many addresses -/

def crowdKey (i : ℕ) : IpKey Ipv4Addr := ⟨⟨10, 0, UInt8.ofNat (i / 256), UInt8.ofNat i⟩, 32, 0, some "a"⟩

/-- The tree after node `a` has announced so many hosts. -/
def crowd (n : ℕ) : SubnetTree :=
  (List.range n).foldl (fun t i => t.add (.v4 (crowdKey i).addr 32 0) "a") .new

theorem mem_crowd (n : ℕ) (k : IpKey Ipv4Addr) : k ∈ (crowd n).ipv4 ↔ ∃ i < n, k = crowdKey i := by
  induction n with
  | zero => simp [crowd, SubnetTree.new]
  | succ n ih =>
    have hstep : crowd (n + 1) = (crowd n).add (.v4 (crowdKey n).addr 32 0) "a" := by
      rw [crowd, List.range_succ, List.foldl_append]
      rfl
    have hput := (crowd n).has_put (.v4 (crowdKey n).addr 32 0) (some "a") (.v4 k.addr k.prefixLen k.weight, k.owner)
    have hkey : (Subnet.v4 (crowdKey n).addr 32 0, some "a") = ((.v4 k.addr k.prefixLen k.weight, k.owner) : Entry) ↔
        k = crowdKey n := by
      obtain ⟨a, p, w, o⟩ := k
      simp [crowdKey, eq_comm, and_assoc]
    have hmem : k ∈ (crowd (n + 1)).ipv4 ↔ k = crowdKey n ∨ k ∈ (crowd n).ipv4 := by
      rw [hstep]
      exact hput.trans (or_congr hkey Iff.rfl)
    rw [hmem, ih]
    constructor
    · rintro (rfl | ⟨i, hi, rfl⟩)
      · exact ⟨n, Nat.lt_succ_self n, rfl⟩
      · exact ⟨i, hi.trans (Nat.lt_succ_self n), rfl⟩
    · rintro ⟨i, hi, rfl⟩
      rcases Nat.lt_succ_iff_lt_or_eq.1 hi with hlt | rfl
      · exact .inr ⟨i, hlt, rfl⟩
      · exact .inl rfl

theorem crowdKey_inj {i j : ℕ} (hi : i < 65536) (hj : j < 65536) (h : crowdKey i = crowdKey j) : i = j := by
  have haddr := congrArg (fun k : IpKey Ipv4Addr => (k.addr.c.toNat, k.addr.d.toNat)) h
  simp only [crowdKey, UInt8.toNat_ofNat', Prod.mk.injEq] at haddr
  omega

theorem length_v4Records_crowd {n : ℕ} (hn : n ≤ 65536) (name : List UInt8) :
    (v4Records name ['a'] (crowd n)).length = n := by
  have hall := @mem_hostKeys _ 32 ['a'] (crowd n).ipv4.toList
  have hperm : (hostKeys 32 ['a'] (crowd n).ipv4.toList).Perm ((List.range n).map crowdKey) := by
    refine (List.perm_ext_iff_of_nodup ?_ ?_).2 fun k => ?_
    · exact List.Nodup.filter _ (nodup_toList _)
    · refine List.Nodup.map_on (fun i hi j hj h => crowdKey_inj ?_ ?_ h) List.nodup_range
      · exact (List.mem_range.1 hi).trans_le hn
      · exact (List.mem_range.1 hj).trans_le hn
    · rw [hall, Std.TreeSet.mem_toList, mem_crowd]
      constructor
      · rintro ⟨⟨i, hi, rfl⟩, -⟩
        exact List.mem_map_of_mem (List.mem_range.2 hi)
      · intro hk
        obtain ⟨i, hi, rfl⟩ := List.mem_map.1 hk
        exact ⟨⟨i, List.mem_range.1 hi, rfl⟩, rfl, "a", rfl, by decide⟩
  rw [v4Records, List.length_map, hperm.length_eq, List.length_map, List.length_range]

/-- A query for the address of `a.b`. -/
def query : List UInt8 :=
  [0x12, 0x34, 0x01, 0x00, 0, 1, 0, 0, 0, 0, 0, 0] ++ [1, 97, 1, 98, 0] ++ [0, 1, 0, 1]

def suffixB : DnsConfig := ⟨['b'], []⟩

theorem parseQuery_query : parseQuery query = some (.ok ⟨0x1234, true, TYPE_A, [1, 97, 1, 98, 0], "a.b".toList⟩) := by
  decide +kernel

theorem replySize_crowd {n : ℕ} (hn : n ≤ 65536) : replySize query suffixB (crowd n) = 21 + 19 * n := by
  have hlabel : nodeLabel suffixB "a.b".toList = some ['a'] := by decide
  have hsize : ∀ r ∈ v4Records [1, 97, 1, 98, 0] ['a'] (crowd n), r.rdata.length = 4 := by
    intro r hr
    obtain ⟨k, -, rfl⟩ := List.mem_map.1 hr
    rfl
  have hlen := length_v4Records_crowd hn [1, 97, 1, 98, 0]
  have hanswers : answers ⟨0x1234, true, TYPE_A, [1, 97, 1, 98, 0], "a.b".toList⟩ suffixB (crowd n) =
      v4Records [1, 97, 1, 98, 0] ['a'] (crowd n) := by
    rw [answers, if_pos rfl, hlabel]
    rfl
  rw [replySize, parseQuery_query]
  dsimp only
  rw [hanswers, List.map_congr_left fun r hr => by rw [hsize r hr], List.map_const', List.sum_replicate, hlen]
  simp
  omega

/-- Two hosts: a valid reply in a valid frame. -/
theorem answer_framed_two : ∃ reply, answer query suffixB (crowd 2) "me" = some reply ∧
    ReplyOk query suffixB (crowd 2) reply ∧
    Returns (wrapV4 query reply ⟨10, 0, 0, 53⟩ ⟨10, 0, 0, 1⟩ 4000)
      (fun out => V4Reply query reply out ⟨10, 0, 0, 53⟩ ⟨10, 0, 0, 1⟩ 4000) := by
  obtain ⟨rcode, hanswer⟩ := @answer_of_ok query suffixB (crowd 2) "me" _ parseQuery_query
  refine ⟨_, hanswer, ?_⟩
  exact ((answer_framed_iff hanswer query 4000).1 _ _).2 (by rw [replySize_crowd (by omega)]; omega)

/-- With 4096 hosts the frame has 77873 bytes behind the Ethernet header, and says 12337. -/
theorem wrapV4_crowd : ∃ reply, answer query suffixB (crowd 4096) "me" = some reply ∧
    Returns (wrapV4 query reply ⟨10, 0, 0, 53⟩ ⟨10, 0, 0, 1⟩ 4000) fun out =>
      out.length = 14 + 77873 ∧ ∃ ip, ipv4At out = some ip ∧ ip.ip_len = 12337 := by
  obtain ⟨rcode, hanswer⟩ := @answer_of_ok query suffixB (crowd 4096) "me" _ parseQuery_query
  have hlen := length_answer hanswer
  rw [replySize_crowd (by omega)] at hlen
  refine ⟨_, hanswer, ?_⟩
  generalize Message.bytes _ = reply at hlen ⊢
  obtain ⟨out, hout⟩ : ∃ out, wrapV4 query reply ⟨10, 0, 0, 53⟩ ⟨10, 0, 0, 1⟩ 4000 = .ok out := by
    obtain ⟨_, _, _, _, _, hout⟩ := @wrapV4_eq query reply 4000 ⟨10, 0, 0, 53⟩ ⟨10, 0, 0, 1⟩ (by omega)
    exact ⟨_, hout⟩
  obtain ⟨c, hip, hsize⟩ := wrapV4_shape hout
  refine ⟨out, hout, by omega, _, hip, ?_⟩
  rw [Ipv4Hdr.withSum, replyIpv4, hlen]
  rfl

end Tincr.Net.Dns

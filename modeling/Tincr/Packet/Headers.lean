import Tincr.Packet.TsoSegment

/-!
The checksum function and the header structs of `packet.rs`. The checksum adds up words in the byte
order of the host, which is little-endian: `tinc-device` does not compile elsewhere. Pieces that are
chained through the accumulator come to the sum of their concatenation, and a checksum that is stored
in the field it left out makes the whole verify.
-/

namespace Tincr.Packet

open Checked OnesComplement Buffer

/-- The loop over the pairs of bytes; an odd last byte goes into the low half. -/
def addWords : List UInt8 → ℕ → Checked ℕ
  | [], sum => pure sum
  | [tail], sum => Checked.add (2 ^ 32) sum tail.toNat
  | a :: b :: rest, sum => do
    let sum ← Checked.add (2 ^ 32) sum (a.toNat + b.toNat * 256)
    addWords rest sum

/-- `inet_checksum`. Each round of the folding loop shortens a 32-bit sum to a word and a carry, so
three rounds are enough. -/
def inetChecksum (data : List UInt8) (prevsum : UInt16) : Checked UInt16 := do
  let sum ← addWords data (prevsum ^^^ 0xffff).toNat
  return ~~~ UInt16.ofNat (carry 3 sum)

def neBytes (c : UInt16) : List UInt8 := [c.toUInt8, (c >>> 8).toUInt8]

def acc (c : UInt16) : ℕ := 0xffff - c.toNat

def ofAcc (n : ℕ) : UInt16 := UInt16.ofNat (0xffff - n)

theorem acc_ofAcc {n : ℕ} (h : n ≤ 0xffff) : acc (ofAcc n) = n := by
  rw [acc, ofAcc, UInt16.toNat_ofNat_of_lt' (show 0xffff - n < 2 ^ 16 by omega)]
  omega

theorem acc_le (c : UInt16) : acc c ≤ 0xffff := Nat.sub_le _ _

theorem addWords_eq (data : List UInt8) (sum : ℕ) (h : sum + totalSwapped data < 2 ^ 32) :
    addWords data sum = .ok (sum + totalSwapped data) := by
  induction data, sum using addWords.induct with
  | case1 sum => rfl
  | case2 tail sum => exact if_pos h
  | case3 a b rest sum ih =>
    rw [totalSwapped, ← Nat.add_assoc] at h ⊢
    rw [addWords, Checked.add, if_pos (by omega), ok_bind]
    exact ih _ h

theorem toNat_xor_ffff (c : UInt16) : (c ^^^ 0xffff).toNat = acc c := by
  have hnot : c ^^^ 0xffff = ~~~ c := by
    rw [← UInt16.toBitVec_inj]
    exact (BitVec.not_def.trans (BitVec.xor_comm _ _)).symm
  rw [hnot, UInt16.toNat_not]
  rfl

/-- A 32-bit sum has room for `0x10000` words and what came before them. -/
theorem inetChecksum_eq {data : List UInt8} (h : data.length ≤ 0x20000) (prevsum : UInt16) :
    inetChecksum data prevsum = .ok (ofAcc (norm (acc prevsum + totalSwapped data))) := by
  have hdata := totalSwapped_le data
  have hacc := acc_le prevsum
  have hsum : acc prevsum + totalSwapped data < 2 ^ 32 := by omega
  rw [inetChecksum, toNat_xor_ffff, addWords_eq _ _ hsum, ok_bind, carry_eq_norm hsum]
  refine congrArg _ (UInt16.toNat_inj.1 ?_)
  have hnorm := norm_le (acc prevsum + totalSwapped data)
  rw [UInt16.toNat_not, UInt16.toNat_ofNat_of_lt' (show _ < 2 ^ 16 by omega), ofAcc,
    UInt16.toNat_ofNat_of_lt' (show _ < 2 ^ 16 by omega)]
  rfl

theorem acc_start : acc 0xffff = 0 := rfl

/-- Pieces that are chained through the accumulator, of even length up to the last one. -/
theorem foldlM_inetChecksum {pieces : List (List UInt8)} (hlen : ∀ p ∈ pieces, p.length ≤ 0x20000)
    (heven : ∀ p ∈ pieces.dropLast, p.length % 2 = 0) {n : ℕ} (hn : n ≤ 0xffff) :
    pieces.foldlM (fun c p => inetChecksum p c) (ofAcc n) =
      .ok (ofAcc (if pieces = [] then n else norm (n + totalSwapped pieces.flatten))) := by
  induction pieces generalizing n with
  | nil => rfl
  | cons p ps ih =>
    rw [List.foldlM_cons, inetChecksum_eq (hlen p (by simp)), acc_ofAcc hn, ok_bind]
    cases ps with
    | nil => simp [pure, Except.pure]
    | cons q qs =>
      have hp : p.length % 2 = 0 := heven p (by simp [List.dropLast_cons_of_ne_nil])
      rw [ih (fun p hp => hlen p (by simp [hp])) (fun p hp => heven p (by
        rw [List.dropLast_cons_of_ne_nil (by simp)]
        exact List.mem_cons_of_mem _ hp)) (norm_le _), if_neg (by simp), if_neg (by simp), norm_norm_add,
        List.flatten_cons (l := p), totalSwapped_append hp, Nat.add_assoc]

theorem inetChecksum_first {xs : List UInt8} (hx : xs.length ≤ 0x20000) :
    inetChecksum xs 0xffff = .ok (ofAcc (norm (totalSwapped xs))) := by
  rw [inetChecksum_eq hx, acc_start, Nat.zero_add]

theorem inetChecksum_next {xs ys : List UInt8} (heven : xs.length % 2 = 0) (hy : ys.length ≤ 0x20000) :
    inetChecksum ys (ofAcc (norm (totalSwapped xs))) = .ok (ofAcc (norm (totalSwapped (xs ++ ys)))) := by
  rw [inetChecksum_eq hy, acc_ofAcc (norm_le _), norm_norm_add, totalSwapped_append heven]

theorem totalSwapped_neBytes (c : UInt16) : totalSwapped (neBytes c) = c.toNat := by
  have := c.toNat_lt
  have hhi : (c >>> 8).toNat = c.toNat / 256 := by
    rw [UInt16.toNat_shiftRight]
    exact Nat.shiftRight_eq_div_pow _ 8
  simp only [neBytes, totalSwapped, UInt16.toNat_toUInt8, hhi]
  omega

theorem length_neBytes (c : UInt16) : (neBytes c).length = 2 := rfl

theorem neBytes_zero : neBytes 0 = [0, 0] := rfl

theorem ofNat_decode_encode (w : UInt16) : UInt16.ofNat (BigEndian.decode (BigEndian.encode 2 w.toNat)) = w := by
  rw [BigEndian.decode_encode_of_lt w.toNat_lt, UInt16.ofNat_toNat]

theorem decode_neBytes_swap (c : UInt16) : BigEndian.decode [(c >>> 8).toUInt8, c.toUInt8] = c.toNat := by
  rw [Tso.decode_pair]
  have h := totalSwapped_neBytes c
  simp only [neBytes, totalSwapped] at h
  omega

/-- The checksum over everything but its own field, which counts as 0, makes the sum verify. -/
theorem verifies_checksum {xs ys : List UInt8} (heven : xs.length % 2 = 0) :
    Verifies (xs ++ neBytes (ofAcc (norm (totalSwapped (xs ++ [0, 0] ++ ys)))) ++ ys) := by
  have hsum : ∀ word : List UInt8, word.length = 2 →
      totalSwapped (xs ++ word ++ ys) = totalSwapped xs + totalSwapped ys + totalSwapped word := by
    intro word hword
    rw [totalSwapped_append (by rw [List.length_append]; omega), totalSwapped_append heven]
    omega
  rw [verifies_iff_swapped, hsum _ (length_neBytes _), hsum [0, 0] rfl, totalSwapped_neBytes, ofAcc]
  generalize totalSwapped xs + totalSwapped ys = n
  have hzero : totalSwapped [0, 0] = 0 := rfl
  have hle := norm_le n
  rw [hzero, Nat.add_zero, UInt16.toNat_ofNat_of_lt' (show _ < 2 ^ 16 by omega)]
  exact complement_verifies (by omega) (norm_mod n).1 (norm_mod n).2

/-- The bytes of the checksum as a number in network order: the complement of the one's-complement sum
of the words, which is taken in network order. -/
theorem decode_checksum (data : List UInt8) :
    BigEndian.decode (neBytes (ofAcc (norm (totalSwapped data)))) = 0xffff - sum (words data) := by
  obtain ⟨hlt, hmod, hzero⟩ := foldl_add (words data) 0 (by norm_num) (word_lt data)
  obtain ⟨hmod', hzero'⟩ := totalSwapped_mod data
  obtain ⟨hnorm, hnorm0⟩ := norm_mod (totalSwapped data)
  have hle := norm_le (totalSwapped data)
  have hc : (ofAcc (norm (totalSwapped data))).toNat = 0xffff - norm (totalSwapped data) :=
    UInt16.toNat_ofNat_of_lt' (show _ < 2 ^ 16 by omega)
  generalize ofAcc (norm (totalSwapped data)) = c at hc ⊢
  have hhi : (c >>> 8).toNat = c.toNat / 256 := by
    rw [UInt16.toNat_shiftRight]
    exact Nat.shiftRight_eq_div_pow _ 8
  rw [neBytes, Tso.decode_pair, UInt16.toNat_toUInt8, UInt16.toNat_toUInt8, hhi, sum]
  rw [Nat.zero_add] at hmod hzero
  -- both sides are words of the same residue, and are `0xffff` for the sum 0 only
  have hswap : ∀ x ≤ 0xffff, (0xffff - x) % 2 ^ 8 * 256 + (0xffff - x) / 256 % 2 ^ 8 =
      0xffff - (x % 256 * 256 + x / 256) := by
    intro x hx
    omega
  rw [hc, hswap _ hle]
  generalize norm (totalSwapped data) = x at *
  have hres : (x % 256 * 256 + x / 256) % 0xffff = (words data).sum % 0xffff := by
    have hx : (x % 256 * 256 + x / 256) % 0xffff = 256 * x % 0xffff := by omega
    rw [hx, Nat.mul_mod, hnorm, hmod', ← Nat.mul_mod]
    change 256 * (256 * (words data).sum) % 0xffff = _
    omega
  have hz : x = 0 ↔ (words data).sum = 0 := hnorm0.trans hzero'
  congr 1
  omega

/-! ### Header structs -/

abbrev Octets (n : ℕ) := {bs : List UInt8 // bs.length = n}

def zeros (n : ℕ) : Octets n := ⟨List.replicate n 0, List.length_replicate⟩

/-- Fields in network order are given by their value, the checksum as it is in memory. -/
structure Ipv4Hdr where
  ip_vhl : UInt8 := 0
  ip_tos : UInt8 := 0
  ip_len : UInt16 := 0
  ip_id : UInt16 := 0
  ip_off : UInt16 := 0
  ip_ttl : UInt8 := 0
  ip_p : UInt8 := 0
  ip_sum : UInt16 := 0
  ip_src : Octets 4 := zeros 4
  ip_dst : Octets 4 := zeros 4
deriving DecidableEq

namespace Ipv4Hdr

def asBytes (h : Ipv4Hdr) : List UInt8 :=
  [h.ip_vhl, h.ip_tos] ++ BigEndian.encode 2 h.ip_len.toNat ++ BigEndian.encode 2 h.ip_id.toNat ++
    BigEndian.encode 2 h.ip_off.toNat ++ [h.ip_ttl, h.ip_p] ++ neBytes h.ip_sum ++ h.ip_src.1 ++ h.ip_dst.1

def readFromBytes : List UInt8 → Option Ipv4Hdr
  | vhl :: tos :: l0 :: l1 :: i0 :: i1 :: o0 :: o1 :: ttl :: p :: s0 :: s1 :: addrs =>
    if h : addrs.length = 8 then
      some {
        ip_vhl := vhl
        ip_tos := tos
        ip_len := UInt16.ofNat (BigEndian.decode [l0, l1])
        ip_id := UInt16.ofNat (BigEndian.decode [i0, i1])
        ip_off := UInt16.ofNat (BigEndian.decode [o0, o1])
        ip_ttl := ttl
        ip_p := p
        ip_sum := UInt16.ofNat (BigEndian.decode [s1, s0])
        ip_src := ⟨addrs.take 4, by rw [List.length_take]; omega⟩
        ip_dst := ⟨addrs.drop 4, by rw [List.length_drop]; omega⟩ }
    else none
  | _ => none

def withSum (h : Ipv4Hdr) (c : UInt16) : Ipv4Hdr := { h with ip_sum := c }

def ihl (h : Ipv4Hdr) : UInt8 := h.ip_vhl &&& 0x0F

def vhl (version ihl : UInt8) : UInt8 := version <<< 4 ||| (ihl &&& 0x0F)

theorem length_asBytes (h : Ipv4Hdr) : h.asBytes.length = 20 := by
  simp [asBytes, BigEndian.length_encode, length_neBytes, h.ip_src.2, h.ip_dst.2]

theorem readFromBytes_asBytes (h : Ipv4Hdr) : readFromBytes h.asBytes = some h := by
  have haddrs : (h.ip_src.1 ++ h.ip_dst.1).length = 8 := by
    rw [List.length_append, h.ip_src.2, h.ip_dst.2]
  have hcons : h.asBytes = h.ip_vhl :: h.ip_tos :: (BigEndian.encode 2 h.ip_len.toNat ++
      (BigEndian.encode 2 h.ip_id.toNat ++ (BigEndian.encode 2 h.ip_off.toNat ++
        (h.ip_ttl :: h.ip_p :: (neBytes h.ip_sum ++ (h.ip_src.1 ++ h.ip_dst.1)))))) := by
    simp [asBytes]
  have hword : ∀ w : UInt16, UInt16.ofNat (BigEndian.decode
      [UInt8.ofNat (w.toNat / 256 ^ 1), UInt8.ofNat (w.toNat / 256 ^ 0)]) = w := ofNat_decode_encode
  rw [hcons]
  simp only [BigEndian.encode, neBytes, List.cons_append, List.nil_append, readFromBytes]
  rw [dif_pos haddrs]
  simp only [hword, decode_neBytes_swap, UInt16.ofNat_toNat, List.take_left' h.ip_src.2,
    List.drop_left' h.ip_src.2]

theorem readFromBytes_isSome {bs : List UInt8} (hlen : bs.length = 20) : ∃ h, readFromBytes bs = some h := by
  match bs, hlen with
  | vhl :: tos :: l0 :: l1 :: i0 :: i1 :: o0 :: o1 :: ttl :: p :: s0 :: s1 :: addrs, hlen =>
    exact ⟨_, dif_pos (by simp only [List.length_cons] at hlen; omega)⟩

/-- The checksum that leaves its own field out. -/
theorem verifies_of_checksum {h : Ipv4Hdr} (hzero : h.ip_sum = 0) {c : UInt16}
    (hc : inetChecksum h.asBytes 0xffff = .ok c) : Verifies (h.withSum c).asBytes := by
  have hsplit : ∀ c : UInt16, (h.withSum c).asBytes =
      ([h.ip_vhl, h.ip_tos] ++ BigEndian.encode 2 h.ip_len.toNat ++ BigEndian.encode 2 h.ip_id.toNat ++
        BigEndian.encode 2 h.ip_off.toNat ++ [h.ip_ttl, h.ip_p]) ++ neBytes c ++
        (h.ip_src.1 ++ h.ip_dst.1) := by
    intro c
    rw [withSum, asBytes, List.append_assoc]
  have hself : h.asBytes = _ ++ neBytes h.ip_sum ++ _ := hsplit h.ip_sum
  rw [hzero, neBytes_zero] at hself
  rw [inetChecksum_first (by rw [length_asBytes]; omega), hself] at hc
  obtain rfl := Except.ok.inj hc
  rw [hsplit]
  exact verifies_checksum (by simp)

end Ipv4Hdr

structure Ipv6Hdr where
  ip6_flow : UInt32 := 0
  ip6_plen : UInt16 := 0
  ip6_nxt : UInt8 := 0
  ip6_hlim : UInt8 := 0
  ip6_src : Octets 16 := zeros 16
  ip6_dst : Octets 16 := zeros 16
deriving DecidableEq

namespace Ipv6Hdr

def asBytes (h : Ipv6Hdr) : List UInt8 :=
  BigEndian.encode 4 h.ip6_flow.toNat ++ BigEndian.encode 2 h.ip6_plen.toNat ++ [h.ip6_nxt, h.ip6_hlim] ++
    h.ip6_src.1 ++ h.ip6_dst.1

def readFromBytes : List UInt8 → Option Ipv6Hdr
  | f0 :: f1 :: f2 :: f3 :: p0 :: p1 :: nxt :: hlim :: addrs =>
    if h : addrs.length = 32 then
      some {
        ip6_flow := UInt32.ofNat (BigEndian.decode [f0, f1, f2, f3])
        ip6_plen := UInt16.ofNat (BigEndian.decode [p0, p1])
        ip6_nxt := nxt
        ip6_hlim := hlim
        ip6_src := ⟨addrs.take 16, by rw [List.length_take]; omega⟩
        ip6_dst := ⟨addrs.drop 16, by rw [List.length_drop]; omega⟩ }
    else none
  | _ => none

theorem length_asBytes (h : Ipv6Hdr) : h.asBytes.length = 40 := by
  simp [asBytes, BigEndian.length_encode, h.ip6_src.2, h.ip6_dst.2]

theorem readFromBytes_asBytes (h : Ipv6Hdr) : readFromBytes h.asBytes = some h := by
  have haddrs : (h.ip6_src.1 ++ h.ip6_dst.1).length = 32 := by
    rw [List.length_append, h.ip6_src.2, h.ip6_dst.2]
  have hcons : h.asBytes = BigEndian.encode 4 h.ip6_flow.toNat ++ (BigEndian.encode 2 h.ip6_plen.toNat ++
      (h.ip6_nxt :: h.ip6_hlim :: (h.ip6_src.1 ++ h.ip6_dst.1))) := by
    simp [asBytes]
  have hword : UInt16.ofNat (BigEndian.decode
      [UInt8.ofNat (h.ip6_plen.toNat / 256 ^ 1), UInt8.ofNat (h.ip6_plen.toNat / 256 ^ 0)]) = h.ip6_plen :=
    ofNat_decode_encode _
  have hflow : UInt32.ofNat (BigEndian.decode (BigEndian.encode 4 h.ip6_flow.toNat)) = h.ip6_flow := by
    rw [BigEndian.decode_encode_of_lt h.ip6_flow.toNat_lt, UInt32.ofNat_toNat]
  rw [hcons]
  simp only [BigEndian.encode, List.cons_append, List.nil_append, readFromBytes] at hflow ⊢
  rw [dif_pos haddrs]
  simp only [hword, hflow, List.take_left' h.ip6_src.2, List.drop_left' h.ip6_src.2]

theorem readFromBytes_isSome {bs : List UInt8} (hlen : bs.length = 40) : ∃ h, readFromBytes bs = some h := by
  match bs, hlen with
  | f0 :: f1 :: f2 :: f3 :: p0 :: p1 :: nxt :: hlim :: addrs, hlen =>
    exact ⟨_, dif_pos (by simp only [List.length_cons] at hlen; omega)⟩

end Ipv6Hdr

structure IcmpHdr where
  icmp_type : UInt8 := 0
  icmp_code : UInt8 := 0
  icmp_cksum : UInt16 := 0
  icmp_void : UInt16 := 0
  icmp_nextmtu : UInt16 := 0

def IcmpHdr.asBytes (h : IcmpHdr) : List UInt8 :=
  [h.icmp_type, h.icmp_code] ++ neBytes h.icmp_cksum ++ BigEndian.encode 2 h.icmp_void.toNat ++
    BigEndian.encode 2 h.icmp_nextmtu.toNat

structure Icmp6Hdr where
  icmp6_type : UInt8 := 0
  icmp6_code : UInt8 := 0
  icmp6_cksum : UInt16 := 0
  icmp6_data32 : UInt32 := 0

def Icmp6Hdr.asBytes (h : Icmp6Hdr) : List UInt8 :=
  [h.icmp6_type, h.icmp6_code] ++ neBytes h.icmp6_cksum ++ BigEndian.encode 4 h.icmp6_data32.toNat

structure Ipv6Pseudo where
  ip6_src : Octets 16 := zeros 16
  ip6_dst : Octets 16 := zeros 16
  length : UInt32 := 0
  next : UInt32 := 0

def Ipv6Pseudo.asBytes (h : Ipv6Pseudo) : List UInt8 :=
  h.ip6_src.1 ++ h.ip6_dst.1 ++ BigEndian.encode 4 h.length.toNat ++ BigEndian.encode 4 h.next.toNat

structure Ipv4Pseudo where
  ip_src : Octets 4 := zeros 4
  ip_dst : Octets 4 := zeros 4
  zero : UInt8 := 0
  proto : UInt8 := 0
  length : UInt16 := 0

def Ipv4Pseudo.asBytes (h : Ipv4Pseudo) : List UInt8 :=
  h.ip_src.1 ++ h.ip_dst.1 ++ [h.zero, h.proto] ++ BigEndian.encode 2 h.length.toNat

end Tincr.Packet

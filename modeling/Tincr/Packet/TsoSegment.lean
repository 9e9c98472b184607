import Tincr.Packet.Tso

/-!
What `tsoSplit` makes of a well-formed super-packet. Each segment is an IP header, a TCP header and a
chunk of the payload, and each header is the one of the packet with a few fields patched; the checksums
are those that make the sums verify.
-/

namespace Tincr.Tso

open Checked OnesComplement Buffer

theorem decode_pair (a b : UInt8) : BigEndian.decode [a, b] = a.toNat * 256 + b.toNat := by
  simp [BigEndian.decode]

theorem checksumNofold_eq (data : List UInt8) (initial : ℕ) (h : initial + total data < 2 ^ 64) :
    checksumNofold data initial = .ok (initial + total data) := by
  induction data, initial using checksumNofold.induct with
  | case1 sum => rfl
  | case2 tail sum =>
    have ht : tail.toNat <<< 8 = total [tail] := by
      simp [total, words, Nat.shiftLeft_eq]
    rw [checksumNofold, ht]
    exact if_pos h
  | case3 a b rest sum ih =>
    have hsplit : total (a :: b :: rest) = BigEndian.decode [a, b] + total rest := by
      simp [total, words, decode_pair]
    rw [hsplit, ← Nat.add_assoc] at h ⊢
    have hadd : add (2 ^ 64) sum (BigEndian.decode [a, b]) = .ok (sum + BigEndian.decode [a, b]) :=
      if_pos (by omega)
    rw [checksumNofold, hadd, ok_bind]
    exact ih _ h

theorem fold16_eq {n : ℕ} (h : n < 2 ^ 48) :
    fold16 n = .ok (UInt16.ofNat (fold (fold (fold (fold n))))) := by
  have hfold : ∀ m < 2 ^ 48, add (2 ^ 64) (m >>> 16) (m &&& 0xffff) = .ok (fold m) ∧ fold m < 2 ^ 48 := by
    intro m hm
    have hand : m &&& 0xffff = m % 2 ^ 16 := Nat.and_two_pow_sub_one_eq_mod m 16
    rw [hand, Nat.shiftRight_eq_div_pow]
    unfold fold
    exact ⟨if_pos (by omega), by omega⟩
  obtain ⟨h1, hb1⟩ := hfold n h
  obtain ⟨h2, hb2⟩ := hfold _ hb1
  obtain ⟨h3, hb3⟩ := hfold _ hb2
  obtain ⟨h4, -⟩ := hfold _ hb3
  rw [fold16, h1, ok_bind, h2, ok_bind, h3, ok_bind, h4, ok_bind]
  rfl

/-- Put into the packet, the checksum brings its sum to a positive multiple of `0xffff`. -/
theorem checksum_returns {data : List UInt8} {initial : ℕ} (h : initial + total data < 2 ^ 48) :
    Returns (checksum data initial) fun c =>
      0 < initial + total data + c.toNat ∧ (initial + total data + c.toNat) % 0xffff = 0 := by
  have hlt := fold_four_lt h
  rw [checksum, checksumNofold_eq _ _ (by omega), ok_bind, fold16_eq h, ok_bind, returns_pure]
  have hnot : (~~~ UInt16.ofNat (fold (fold (fold (fold (initial + total data)))))).toNat =
      0xffff - fold (fold (fold (fold (initial + total data)))) := by
    rw [UInt16.toNat_not, UInt16.toNat_ofNat', Nat.mod_eq_of_lt hlt]
    rfl
  rw [hnot]
  refine complement_verifies hlt ?_ ?_
  · simp only [fold_mod]
  · simp only [fold_eq_zero]

variable {last : Bool} {len stride : ℕ} {addrs bs out tcp : List UInt8} {lens : List ℕ} {hdr : VirtioNetHdr}

theorem total_patch_pair {k : ℕ} {a b : UInt8} (hk : k % 2 = 0) (h : k + 2 ≤ bs.length) :
    total (patch bs k [a, b]) = total (patch bs k [0, 0]) + (a.toNat * 256 + b.toNat) := by
  have hlen : (bs.take k).length = k := by simp only [List.length_take]; omega
  have hsum : ∀ x y : UInt8, total (patch bs k [x, y]) =
      total (bs.take k) + (x.toNat * 256 + y.toNat) + total (bs.drop (k + 2)) := by
    intro x y
    rw [patch, total_append (by simp [hlen]; omega), total_append (by omega), total_pair]
    rfl
  rw [hsum, hsum]
  simp only [UInt8.toNat_zero]
  omega

theorem encode_two (n : ℕ) :
    BigEndian.encode 2 n = [UInt8.ofNat (n / 256), UInt8.ofNat n] := by
  simp [BigEndian.encode]

theorem pair_value {n : ℕ} (h : n < 2 ^ 16) :
    (UInt8.ofNat (n / 256)).toNat * 256 + (UInt8.ofNat n).toNat = n := by
  simp only [UInt8.toNat_ofNat']
  omega

/-- A word set to zero and then to its checksum. -/
theorem verifies_patch {pre : List UInt8} {k initial : ℕ} {c : UInt16} (hpre : pre.length % 2 = 0) (hk : k % 2 = 0)
    (h : k + 2 ≤ bs.length) (hinit : total pre = initial)
    (hpos : 0 < initial + total (patch bs k [0, 0]) + c.toNat)
    (hmod : (initial + total (patch bs k [0, 0]) + c.toNat) % 0xffff = 0) :
    Verifies (pre ++ patch bs k (BigEndian.encode 2 c.toNat)) := by
  rw [verifies_iff, total_append hpre, encode_two, total_patch_pair hk h, pair_value c.toNat_lt, hinit,
    ← Nat.add_assoc]
  exact ⟨hpos, hmod⟩

def tcpLen (pkt : List UInt8) (iphlen : ℕ) : ℕ := (pkt.getD (iphlen + 12) 0 >>> 4).toNat * 4

def field (w : ℕ) (bs : List UInt8) (o : ℕ) : ℕ := BigEndian.decode ((bs.drop o).take w)

theorem field_two_lt (bs : List UInt8) (o : ℕ) : field 2 bs o < 2 ^ 16 := by
  have hlen : ((bs.drop o).take 2).length ≤ 2 := by
    rw [List.length_take]
    omega
  exact (BigEndian.decode_lt _).trans_le (Nat.pow_le_pow_right (by norm_num) hlen)

/-- The IP header of segment `i`: the packet's, with its length and, for IPv4, its identification and
checksum replaced. -/
def IpHeader (pkt : List UInt8) (v6 : Bool) (iphlen i total_len : ℕ) (hd : List UInt8) : Prop :=
  if v6 then
    hd = patch (pkt.take iphlen) 4 (BigEndian.encode 2 (total_len - iphlen))
  else
    Verifies hd ∧ ∃ c : UInt16, hd =
      patch (patch (patch (pkt.take iphlen) 4 (BigEndian.encode 2 (field 2 pkt 4 + i)))
        2 (BigEndian.encode 2 total_len)) 10 (BigEndian.encode 2 c.toNat)

def tcpPart (pkt : List UInt8) (iphlen : ℕ) : List UInt8 :=
  (pkt.take (iphlen + tcpLen pkt iphlen)).drop iphlen

/-- FIN and PSH off, unless the segment is the last one. -/
def maskFlags (tcp : List UInt8) (last : Bool) : List UInt8 :=
  if last then tcp else patch tcp 13 [tcp.getD 13 0 &&& ~~~ 0x09]

/-- The TCP header of segment `i`, its checksum cleared. -/
def tcpHeader (pkt : List UInt8) (iphlen gso_size i : ℕ) (last : Bool) : List UInt8 :=
  maskFlags (patch (patch (tcpPart pkt iphlen) 16 [0, 0]) 4
    (BigEndian.encode 4 (field 4 pkt (iphlen + 4) + gso_size * i))) last

/-- What the part before the loop has worked out about `pkt`, with `n` bytes of IP header. -/
structure Plan.Of (p : Plan) (pkt : List UInt8) (v6 : Bool) (n g : ℕ) : Prop where
  is_v6 : p.is_v6 = v6
  iphlen : p.iphlen = n
  tcp_hlen : p.tcp_hlen = tcpLen pkt n
  hdr_len : p.hdr_len = n + tcpLen pkt n
  csum_at : p.csum_at = n + 16
  length_buf : p.hdr_buf.length = 120
  ipPart : p.hdr_buf.take n = pkt.take n
  tcpPart : (p.hdr_buf.take (n + tcpLen pkt n)).drop n = patch (tcpPart pkt n) 16 [0, 0]
  first_seq : p.first_seq = UInt32.ofNat (field 4 pkt (n + 4))
  addrs : p.addrs = (pkt.drop (ipAddrSpan v6).1).take (ipAddrSpan v6).2
  first_id : v6 = false → p.first_id = UInt16.ofNat (field 2 pkt 4)
  gso_size : p.gso_size = g

structure Headers (pkt : List UInt8) (n : ℕ) : Prop where
  ip : 20 ≤ n
  even : n % 2 = 0
  tcp : 20 ≤ tcpLen pkt n
  buf : n + tcpLen pkt n ≤ 120
  pkt : n + tcpLen pkt n ≤ pkt.length

variable {p : Plan} {pkt : List UInt8} {v6 : Bool} {n g i total_len : ℕ}

theorem Headers.length_ip (h : Headers pkt n) : (pkt.take n).length = n := by
  have := h.pkt
  simp only [List.length_take]
  omega

theorem Headers.length_tcp (h : Headers pkt n) : (tcpPart pkt n).length = tcpLen pkt n := by
  have := h.pkt
  simp only [tcpPart, List.length_drop, List.length_take]
  omega

theorem ipv4WriteCsum_returns {hd rest : List UInt8} (hlen : hd.length = n) (h20 : 20 ≤ n)
    (hbuf : n ≤ 120) :
    Returns (ipv4WriteCsum (hd ++ rest) n) fun ip =>
      ∃ c : UInt16, Verifies (patch hd 10 (BigEndian.encode 2 c.toNat)) ∧
        ip = patch hd 10 (BigEndian.encode 2 c.toNat) ++ rest := by
  have hzero : ((hd ++ rest).set 10 0).set 11 0 = patch hd 10 [0, 0] ++ rest := by
    rw [set_set_eq_patch _ _ (by simp; omega), patch_append_left (by simp; omega)]
  have hlen0 : (patch hd 10 [0, 0]).length = n := by rw [length_patch (by simp; omega), hlen]
  simp only [ipv4WriteCsum, returns_bind, returns_store, returns_slice, returns_copyTo,
    List.length_set, hzero, List.drop_zero, List.length_append, hlen, BigEndian.length_encode]
  refine ⟨by omega, by omega, ⟨by omega, by omega⟩, ?_⟩
  rw [List.take_left' hlen0]
  have hsum := total_le (patch hd 10 [0, 0])
  refine (checksum_returns (by omega)).mono ?_
  rintro c ⟨hpos, hmod⟩
  refine ⟨⟨by omega, by omega, trivial⟩, c, ?_, ?_⟩
  · rw [← List.nil_append (patch _ _ _)]
    exact verifies_patch rfl rfl (by omega) rfl hpos hmod
  · rw [patch_append_left (by simp; omega), patch_patch (by simp; omega) (by simp)]

theorem writeIp_returns (hp : p.Of pkt v6 n g) (h : Headers pkt n) {ip : List UInt8}
    (htotal : n ≤ total_len) (hip : ip.length = total_len) :
    Returns (writeIp p ip i total_len) fun ip' =>
      ∃ hd, IpHeader pkt v6 n i total_len hd ∧ hd.length = n ∧ ip' = hd ++ ip.drop n := by
  have hlen := h.length_ip
  have h20 := h.ip
  have hbuf := h.buf
  simp only [writeIp, returns_bind, returns_slice, returns_copyTo, List.drop_zero, hp.iphlen,
    hp.ipPart, hp.is_v6, hp.length_buf, hlen]
  refine ⟨⟨by omega, by omega⟩, ⟨by omega, by omega, by omega⟩, ?_⟩
  rw [patch_zero, hlen]
  unfold IpHeader
  split_ifs with hv6
  · simp only [returns_bind, returns_sub, returns_copyTo, BigEndian.length_encode, List.length_append,
      hlen, List.length_drop]
    refine ⟨by omega, ⟨by omega, by omega, trivial⟩, _, rfl, ?_, ?_⟩
    · rw [length_patch (by simp [hlen]; omega), hlen]
    · rw [patch_append_left (by simp [hlen]; omega)]
  · have hid : BigEndian.encode 2 (p.first_id + UInt16.ofNat i).toNat =
        BigEndian.encode 2 (field 2 pkt 4 + i) := by
      rw [hp.first_id (by simpa using hv6), ← UInt16.ofNat_add, UInt16.toNat_ofNat']
      exact BigEndian.encode_mod 2 _
    have hlen1 : (patch (pkt.take n) 4 (BigEndian.encode 2 (field 2 pkt 4 + i))).length = n := by
      rw [length_patch (by simp [hlen]; omega), hlen]
    rw [hid]
    simp only [returns_bind, returns_copyTo]
    rw [patch_append_left (by simp [hlen]; omega), patch_append_left (by simp [hlen1]; omega)]
    have hlen2 : (patch (patch (pkt.take n) 4 (BigEndian.encode 2 (field 2 pkt 4 + i))) 2
        (BigEndian.encode 2 total_len)).length = n := by
      rw [length_patch (by simp [hlen1]; omega), hlen1]
    simp only [List.length_append, hlen, hlen1, BigEndian.length_encode, List.length_drop]
    refine ⟨⟨by omega, by omega, trivial⟩, ⟨by omega, by omega, trivial⟩, ?_⟩
    refine (ipv4WriteCsum_returns hlen2 h20 (by omega)).mono ?_
    rintro ip' ⟨c, hver, hip'⟩
    exact ⟨_, ⟨hver, c, rfl⟩, by rw [length_patch (by simp [hlen2]; omega), hlen2], hip'⟩

theorem clearFlags_returns {hd rest : List UInt8} (hhd : hd.length = n) (htcp : 13 < tcp.length) :
    Returns (clearFlags (hd ++ (tcp ++ rest)) (n + 13) last) fun ip =>
      ip = hd ++ (maskFlags tcp last ++ rest) := by
  have hat : n + 13 < (hd ++ (tcp ++ rest)).length := by
    simp only [List.length_append]
    omega
  have hbyte : (hd ++ (tcp ++ rest)).getD (n + 13) 0 = tcp.getD 13 0 := by
    rw [List.getD_append_right _ _ _ _ (by omega), List.getD_append _ _ _ _ (by omega)]
    congr 1
    omega
  cases last with
  | true => simp [clearFlags, maskFlags]
  | false =>
    simp only [clearFlags, maskFlags, Bool.false_eq_true, ↓reduceIte, returns_bind, returns_load,
      returns_store]
    refine ⟨hat, hat, ?_⟩
    rw [set_eq_patch _ hat, ← List.getD_eq_getElem _ 0 hat, hbyte, patch_append_right (by omega),
      patch_append_left (by simp; omega), hhd, Nat.add_sub_cancel_left]

/-- The TCP header is written behind the IP header, whatever stands there. -/
theorem writeTcp_returns (hp : p.Of pkt v6 n g) (h : Headers pkt n) {hd rest : List UInt8} (hhd : hd.length = n)
    (hrest : tcpLen pkt n ≤ rest.length) (hgi : g * i < 2 ^ 64) :
    Returns (writeTcp p (hd ++ rest) i last) fun ip =>
      ip = hd ++ (tcpHeader pkt n g i last ++ rest.drop (tcpLen pkt n)) := by
  have hlen : (patch (tcpPart pkt n) 16 [0, 0]).length = tcpLen pkt n := by
    rw [length_patch (by rw [h.length_tcp]; have := h.tcp; simp; omega), h.length_tcp]
  have h20 := h.tcp
  have hbuf := h.buf
  have hn := h.ip
  have hseq : BigEndian.encode 4 (p.first_seq + UInt32.ofNat (g * i)).toNat =
      BigEndian.encode 4 (field 4 pkt (n + 4) + g * i) := by
    rw [hp.first_seq, ← UInt32.ofNat_add, UInt32.toNat_ofNat']
    exact BigEndian.encode_mod 4 _
  have htcp : patch (hd ++ rest) n (patch (tcpPart pkt n) 16 [0, 0]) =
      hd ++ (patch (tcpPart pkt n) 16 [0, 0] ++ rest.drop (tcpLen pkt n)) := by
    rw [patch_append_right (by omega), hhd, Nat.sub_self, patch_zero, hlen]
  simp only [writeTcp, returns_bind, returns_slice, returns_copyTo, returns_offset, returns_mul, hp.iphlen,
    hp.hdr_len, hp.tcpPart, hp.length_buf, hp.gso_size, usizeBound, List.sum_cons, List.sum_nil,
    Nat.add_zero, hseq, htcp, hlen, List.length_append, BigEndian.length_encode, List.length_drop]
  refine ⟨⟨by omega, by omega⟩, ⟨by omega, by omega, by omega⟩, hgi, by omega, by omega,
    ⟨by omega, by omega, by omega⟩, by omega, ?_⟩
  rw [patch_append_right (by omega), patch_append_left (by simp [hlen]; omega), hhd,
    Nat.add_sub_cancel_left]
  exact clearFlags_returns hhd (by rw [length_patch (by simp [hlen]; omega), hlen]; omega)

/-- The pseudo header in front of `len` bytes of TCP between the two addresses `addrs`. -/
def pseudoHeader (v6 : Bool) (addrs : List UInt8) (len : ℕ) : List UInt8 :=
  if v6 then addrs ++ BigEndian.encode 4 len ++ [0, 0, 0, 6]
  else addrs ++ [0, 6] ++ BigEndian.encode 2 len

theorem encode_four_of_lt {m : ℕ} (h : m < 2 ^ 16) :
    BigEndian.encode 4 m = [0, 0] ++ BigEndian.encode 2 m := by
  have h3 : m / 256 ^ 3 = 0 := Nat.div_eq_of_lt (by omega)
  have h2 : m / 256 ^ 2 = 0 := Nat.div_eq_of_lt (by omega)
  simp only [BigEndian.encode, h3, h2]
  rfl

theorem length_pseudoHeader (ha : addrs.length % 2 = 0) : (pseudoHeader v6 addrs len).length % 2 = 0 := by
  unfold pseudoHeader
  split_ifs <;> simp <;> omega

theorem total_pseudoHeader (ha : addrs.length % 2 = 0) (hlen : len < 2 ^ 16) :
    total (pseudoHeader v6 addrs len) = total addrs + 6 + len := by
  have h06 : total [0, 6] = 6 := by decide
  have h0006 : total [0, 0, 0, 6] = 6 := by decide
  have h00 : total [0, 0] = 0 := by decide
  have h2 : total (BigEndian.encode 2 len) = len := by
    rw [encode_two, total_pair, pair_value hlen]
  unfold pseudoHeader
  split_ifs
  · rw [total_append (by simp; omega), total_append ha, encode_four_of_lt hlen, total_append (by simp), h00,
      h2, h0006]
    omega
  · rw [total_append (by simp; omega), total_append ha, h06, h2]

theorem pseudoHeaderChecksum_eq (ha : addrs.length ≤ 32) (hlen : len < 2 ^ 16) :
    pseudoHeaderChecksumNofold IPPROTO_TCP addrs len = .ok (total addrs + 6 + len) := by
  have hsum := total_le addrs
  have hadd : ∀ a b : ℕ, a + b < 2 ^ 64 → add (2 ^ 64) a b = .ok (a + b) := fun a b h => if_pos h
  rw [pseudoHeaderChecksumNofold, checksumNofold_eq _ _ (by omega), ok_bind, Nat.zero_add, IPPROTO_TCP,
    hadd _ _ (by omega), ok_bind, hadd _ _ (by omega)]

theorem length_maskFlags (h : 13 < tcp.length) : (maskFlags tcp last).length = tcp.length := by
  unfold maskFlags
  split_ifs
  · rfl
  · rw [length_patch (by simp; omega)]

theorem length_tcpHeader (h : Headers pkt n) : (tcpHeader pkt n g i last).length = tcpLen pkt n := by
  have h20 := h.tcp
  have h16 : (patch (tcpPart pkt n) 16 [0, 0]).length = tcpLen pkt n := by
    rw [length_patch (by rw [h.length_tcp]; simp; omega), h.length_tcp]
  have h4 : (patch (patch (tcpPart pkt n) 16 [0, 0]) 4
      (BigEndian.encode 4 (field 4 pkt (n + 4) + g * i))).length = tcpLen pkt n := by
    rw [length_patch (by simp [h16]; omega), h16]
  rw [tcpHeader, length_maskFlags (by omega), h4]

theorem getElem?_maskFlags (h : 13 < tcp.length) (k : ℕ) :
    (maskFlags tcp last)[k]? =
      if k = 13 then tcp[k]?.map fun f => if last then f else f &&& ~~~ 0x09 else tcp[k]? := by
  unfold maskFlags
  split_ifs with hlast hk hk
  · simp
  · rfl
  · subst hk
    rw [getElem?_patch (by simp; omega), if_pos (by simp), List.getD_eq_getElem _ 0 h,
      List.getElem?_eq_getElem h]
    rfl
  · rw [getElem?_patch (by simp; omega), if_neg (by simp; omega)]

theorem getElem?_tcpHeader (h : Headers pkt n) (k : ℕ) :
    (tcpHeader pkt n g i last)[k]? =
      if k = 13 then (tcpPart pkt n)[k]?.map fun f => if last then f else f &&& ~~~ 0x09
      else if 4 ≤ k ∧ k < 8 then
        (BigEndian.encode 4 (field 4 pkt (n + 4) + g * i))[k - 4]?
      else if 16 ≤ k ∧ k < 18 then [0, 0][k - 16]?
      else (tcpPart pkt n)[k]? := by
  have h20 := h.tcp
  have hlen := h.length_tcp
  have h16 : (patch (tcpPart pkt n) 16 [0, 0]).length = tcpLen pkt n := by
    rw [length_patch (by rw [hlen]; simp; omega), hlen]
  rw [tcpHeader, getElem?_maskFlags (by rw [length_patch (by simp [h16]; omega)]; omega),
    getElem?_patch (by simp [h16]; omega), getElem?_patch (by simp [hlen]; omega)]
  simp only [BigEndian.length_encode, List.length_cons, List.length_nil]
  split_ifs <;> first | rfl | omega

theorem patch_cleared (h : Headers pkt n) (rest : List UInt8) :
    patch (tcpHeader pkt n g i last ++ rest) 16 [0, 0] = tcpHeader pkt n g i last ++ rest := by
  have h20 := h.tcp
  have hlen : (tcpHeader pkt n g i last).length = tcpLen pkt n := length_tcpHeader h
  rw [patch_append_left (by simp; omega)]
  congr 1
  apply List.ext_getElem?
  intro k
  rw [getElem?_patch (by simp; omega)]
  split_ifs with hk
  · rw [getElem?_tcpHeader h, if_neg (by omega), if_neg (by omega), if_pos (by simpa using hk)]
  · rfl

/-- A segment: IP header, TCP header and payload, and the checksum over pseudo header, TCP header and
payload verifies. -/
def Segment (pkt : List UInt8) (v6 : Bool) (n g i : ℕ) (last : Bool) (payload seg : List UInt8) : Prop :=
  ∃ (hd : List UInt8) (c : UInt16), hd.length = n ∧
    IpHeader pkt v6 n i (n + tcpLen pkt n + payload.length) hd ∧
    seg = hd ++ patch (tcpHeader pkt n g i last ++ payload) 16 (BigEndian.encode 2 c.toNat) ∧
    Verifies (pseudoHeader v6 ((pkt.drop (ipAddrSpan v6).1).take (ipAddrSpan v6).2)
        (tcpLen pkt n + payload.length) ++
      patch (tcpHeader pkt n g i last ++ payload) 16 (BigEndian.encode 2 c.toNat))

theorem addrs_length (hp : p.Of pkt v6 n g) : p.addrs.length ≤ 32 := by
  rw [hp.addrs]
  cases v6 <;> simp [ipAddrSpan]

theorem addrs_even (hp : p.Of pkt v6 n g) (h : Headers pkt n) : p.addrs.length % 2 = 0 := by
  have := h.ip
  have := h.tcp
  have := h.pkt
  rw [hp.addrs]
  cases v6 <;> simp [ipAddrSpan] <;> omega

theorem segment_returns (hp : p.Of pkt v6 n g) (h : Headers pkt n) {ip : List UInt8}
    {next_data seg_end : ℕ} (hnext : next_data ≤ seg_end) (hend : seg_end ≤ pkt.length)
    (hsmall : tcpLen pkt n + (seg_end - next_data) < 2 ^ 16)
    (hip : ip.length = n + tcpLen pkt n + (seg_end - next_data)) (hgi : g * i < 2 ^ 64) :
    Returns (segment p pkt ip i next_data seg_end) fun seg =>
      Segment pkt v6 n g i (seg_end = pkt.length) ((pkt.take seg_end).drop next_data) seg := by
  have hbuf := h.buf
  simp only [segment, returns_bind, returns_sub, returns_offset, returns_slice, hp.hdr_len, hp.tcp_hlen,
    hp.csum_at, hp.iphlen, List.sum_cons, List.sum_nil, Nat.add_zero, usizeBound]
  refine ⟨hnext, by omega, (writeIp_returns hp h (by omega) hip).mono ?_⟩
  rintro _ ⟨hd, hhd, hlen, rfl⟩
  refine (writeTcp_returns hp h hlen (by simp; omega) hgi).mono ?_
  rintro _ rfl
  set last : Bool := decide (seg_end = pkt.length)
  set payload := (pkt.take seg_end).drop next_data with hpay
  have htcp : (tcpHeader pkt n g i last).length = tcpLen pkt n := length_tcpHeader h
  have hplen : payload.length = seg_end - next_data := by
    simp only [hpay, List.length_drop, List.length_take]
    omega
  have hdata : patch (hd ++ (tcpHeader pkt n g i last ++ (ip.drop n).drop (tcpLen pkt n)))
      (n + tcpLen pkt n) payload = hd ++ (tcpHeader pkt n g i last ++ payload) := by
    rw [patch_append_right (by omega), patch_append_right (by omega), hlen, htcp,
      Nat.add_sub_cancel_left, Nat.sub_self, patch_all (by simp; omega)]
  have htake : ((hd ++ (tcpHeader pkt n g i last ++ payload)).take
      (n + tcpLen pkt n + (seg_end - next_data))).drop n = tcpHeader pkt n g i last ++ payload := by
    rw [List.take_of_length_le (by simp; omega), List.drop_left' hlen]
  rw [returns_copyTo, hdata, Nat.mod_eq_of_lt hsmall, pseudoHeaderChecksum_eq ?_ hsmall, returns_ok,
    htake]
  · have hsum := total_le (tcpHeader pkt n g i last ++ payload)
    have hasum := total_le p.addrs
    have haddrs := addrs_length hp
    have heven := addrs_even hp h
    have h20 := h.tcp
    rw [List.length_append, htcp, hplen] at hsum
    simp only [List.length_append, hlen, htcp, hplen]
    refine ⟨⟨hnext, hend⟩, ⟨by omega, by simp; omega, by omega⟩, by omega, ⟨by omega, by omega⟩, ?_⟩
    refine (checksum_returns (by omega)).mono ?_
    rintro c ⟨hpos, hmod⟩
    rw [returns_copyTo]
    refine ⟨by omega, ⟨by omega, by simp; omega, by simp⟩, hd, c, hlen, by rwa [hplen], ?_, ?_⟩
    · rw [patch_append_right (by omega), hlen, Nat.add_sub_cancel_left]
    · rw [← hp.addrs, hplen]
      rw [← patch_cleared h] at hpos hmod
      refine verifies_patch (length_pseudoHeader heven) rfl ?_ (total_pseudoHeader heven hsmall) hpos hmod
      simp only [List.length_append, htcp]
      omega
  · have := addrs_length hp
    omega

def count (len g : ℕ) : ℕ := (len + g - 1) / g

def chunk (pkt : List UInt8) (m g i : ℕ) : List UInt8 := (pkt.drop (m + i * g)).take g

theorem lt_count_iff (hg : 0 < g) : i < count len g ↔ i * g < len := by
  rw [count, Nat.lt_div_iff_mul_lt hg]
  omega

theorem slice_eq_chunk {m : ℕ} :
    (pkt.take (min (m + i * g + g) pkt.length)).drop (m + i * g) = chunk pkt m g i := by
  have htake : pkt.take (min (m + i * g + g) pkt.length) = pkt.take (m + i * g + g) :=
    List.take_eq_take_iff.2 (by omega)
  rw [htake, List.drop_take, Nat.add_sub_cancel_left]
  rfl

def etherHeader (v6 : Bool) : List UInt8 :=
  List.replicate 12 0 ++ BigEndian.encode 2 (if v6 then ETH_P_IPV6 else ETH_P_IP)

theorem setEtherheader_returns {slot : List UInt8} (h : 14 ≤ slot.length) :
    Returns (setEtherheader slot (if v6 then ETH_P_IPV6 else ETH_P_IP)) fun s =>
      s = etherHeader v6 ++ slot.drop 14 := by
  have hzero : patch slot 0 (List.replicate 12 0) = List.replicate 12 0 ++ slot.drop 12 := by
    rw [patch_zero, List.length_replicate]
  simp only [setEtherheader, returns_bind, returns_copyTo, List.length_replicate,
    BigEndian.length_encode, hzero, List.length_append, List.length_drop]
  refine ⟨⟨by omega, by omega, trivial⟩, ⟨by omega, by omega, trivial⟩, ?_⟩
  rw [patch_append_right (by simp), List.length_replicate, Nat.sub_self, patch_zero,
    BigEndian.length_encode, List.drop_drop, etherHeader, List.append_assoc]

theorem slice_congr {as : List UInt8} {lo hi : ℕ} (h : ∀ j < hi, as[j]? = bs[j]?) (hle : lo + len ≤ hi) :
    (as.drop lo).take len = (bs.drop lo).take len := by
  apply List.ext_getElem?
  intro k
  rw [List.getElem?_take, List.getElem?_take, List.getElem?_drop, List.getElem?_drop]
  split_ifs with hk
  · exact h _ (by omega)
  · rfl

def Filled (pkt : List UInt8) (v6 : Bool) (n g stride N : ℕ) (out : List UInt8) (lens : List ℕ)
    (k : ℕ) : Prop :=
  ∃ seg, Segment pkt v6 n g k (decide (k + 1 = N)) (chunk pkt (n + tcpLen pkt n) g k) seg ∧
    lens[k]? = some (14 + seg.length) ∧
    (out.drop (k * stride)).take (14 + seg.length) = etherHeader v6 ++ seg

/-- Nothing below slot `i` has changed. -/
structure Keeps (stride i : ℕ) (out out' : List UInt8) (lens lens' : List ℕ) : Prop where
  length_out : out'.length = out.length
  length_lens : lens'.length = lens.length
  out : ∀ j < i * stride, out'[j]? = out[j]?
  lens : ∀ j < i, lens'[j]? = lens[j]?

theorem Keeps.trans {out₁ out₂ : List UInt8} {lens₁ lens₂ : List ℕ} (h₁ : Keeps stride i out out₁ lens lens₁)
    (h₂ : Keeps stride (i + 1) out₁ out₂ lens₁ lens₂) : Keeps stride i out out₂ lens lens₂ := by
  refine ⟨h₂.length_out.trans h₁.length_out, h₂.length_lens.trans h₁.length_lens, ?_, ?_⟩
  · intro j hj
    have hle : i * stride ≤ (i + 1) * stride := Nat.mul_le_mul_right _ (Nat.le_succ i)
    rw [h₂.out j (by omega), h₁.out j hj]
  · intro j hj
    rw [h₂.lens j (by omega), h₁.lens j hj]

/-- Enough room for `N` segments: slots, entries of the length slice, and bytes in each slot. -/
structure Room (pkt : List UInt8) (n g stride N : ℕ) (out : List UInt8) (lens : List ℕ) : Prop where
  slots : N ≤ out.length / stride
  lens : N ≤ lens.length
  slot : 14 + (n + tcpLen pkt n + min g (pkt.length - (n + tcpLen pkt n))) ≤ stride
  out : out.length < 2 ^ 64

theorem length_chunk (m : ℕ) : (chunk pkt m g i).length = min g (pkt.length - (m + i * g)) := by
  simp [chunk]

theorem Segment.length (h : Headers pkt n) {payload seg : List UInt8} (hs : Segment pkt v6 n g i last payload seg) :
    seg.length = n + tcpLen pkt n + payload.length := by
  obtain ⟨hd, c, hlen, -, rfl, -⟩ := hs
  have htcp : (tcpHeader pkt n g i last).length = tcpLen pkt n := length_tcpHeader h
  have := h.tcp
  rw [List.length_append, length_patch (by simp [htcp]; omega), List.length_append, hlen, htcp]
  omega

theorem length_etherHeader : (etherHeader v6).length = 14 := by
  simp [etherHeader]

theorem writeSlot_returns (hp : p.Of pkt v6 n g) (h : Headers pkt n) {next_data seg_end frame_len : ℕ}
    (hnext : next_data ≤ seg_end) (hend : seg_end ≤ pkt.length)
    (hsmall : tcpLen pkt n + (seg_end - next_data) < 2 ^ 16)
    (hframe : frame_len = 14 + (n + tcpLen pkt n + (seg_end - next_data))) (hgi : g * i < 2 ^ 64)
    (hout : out.length < 2 ^ 64) (hslot : i * stride + frame_len ≤ out.length) :
    Returns (writeSlot p pkt out stride i next_data seg_end frame_len) fun out' =>
      ∃ seg, Segment pkt v6 n g i (seg_end = pkt.length) ((pkt.take seg_end).drop next_data) seg ∧
        out' = patch out (i * stride) (etherHeader v6 ++ seg) := by
  have hether : (etherHeader v6).length = 14 := length_etherHeader
  have hlen : ((out.take (i * stride + frame_len)).drop (i * stride)).length = frame_len := by
    simp only [List.length_drop, List.length_take]
    omega
  simp only [writeSlot, returns_bind, returns_mul, returns_offset, returns_slice, usizeBound, List.sum_cons,
    List.sum_nil, Nat.add_zero, hp.is_v6]
  refine ⟨by omega, by omega, ⟨by omega, by omega⟩, ?_⟩
  refine (setEtherheader_returns (by omega)).mono ?_
  rintro _ rfl
  have htake : ∀ xs : List UInt8, ((etherHeader v6 ++ xs).take (etherHeader v6 ++ xs).length).drop ETH_HLEN
      = xs := by
    intro xs
    rw [List.take_length, List.drop_left' hether]
  rw [htake]
  refine ⟨⟨by simp [hether], le_rfl⟩, ?_⟩
  refine (segment_returns hp h hnext hend hsmall (by rw [List.length_drop, hlen]; omega) hgi).mono ?_
  intro seg hseg
  have hpay : ((pkt.take seg_end).drop next_data).length = seg_end - next_data := by
    simp only [List.length_drop, List.length_take]
    omega
  have hseglen := hseg.length h
  have hdrop : (((out.take (i * stride + frame_len)).drop (i * stride)).drop 14).length = seg.length := by
    rw [List.length_drop, hlen]
    omega
  have hpatch : patch (etherHeader v6 ++ ((out.take (i * stride + frame_len)).drop (i * stride)).drop 14)
      ETH_HLEN seg = etherHeader v6 ++ seg := by
    rw [ETH_HLEN, patch_append_right (by omega), hether, Nat.sub_self, patch_all hdrop.symm]
  simp only [returns_copyTo, hpatch, List.length_append, hether, hdrop, ETH_HLEN]
  refine ⟨⟨by omega, by omega, by omega⟩, ⟨by omega, by omega, by omega⟩, seg, hseg, rfl⟩

theorem segments_returns (hp : p.Of pkt v6 n g) (h : Headers pkt n) (hg : 0 < g) (hg16 : g < 2 ^ 16) {N : ℕ}
    (hN : N = count (pkt.length - (n + tcpLen pkt n)) g) (hsmall : pkt.length - n < 2 ^ 16) (rounds : ℕ)
    (hroom : Room pkt n g stride N out lens) (hi : i ≤ N) (hrounds : N ≤ rounds + i) :
    Returns (segments p pkt stride (out.length / stride) rounds out lens
        (min (n + tcpLen pkt n + i * g) pkt.length) i) fun r =>
      ∃ out' lens', r = (.ok N, out', lens') ∧ Keeps stride i out out' lens lens' ∧
        ∀ k, i ≤ k → k < N → Filled pkt v6 n g stride N out' lens' k := by
  have hpkt := h.pkt
  have hbuf := h.buf
  induction rounds generalizing i out lens with
  | zero =>
    have hiN : i = N := by omega
    have hdone : ¬ i * g < pkt.length - (n + tcpLen pkt n) := by
      rw [← lt_count_iff hg, ← hN]; omega
    rw [segments, if_neg (by omega), returns_pure]
    exact ⟨out, lens, by rw [hiN], ⟨rfl, rfl, fun _ _ => rfl, fun _ _ => rfl⟩, fun k _ _ => by omega⟩
  | succ rounds ih =>
    rw [segments]
    by_cases hdone : i = N
    · have hover : ¬ i * g < pkt.length - (n + tcpLen pkt n) := by
        rw [← lt_count_iff hg, ← hN]; omega
      rw [if_pos (by omega), returns_pure]
      exact ⟨out, lens, by rw [hdone], ⟨rfl, rfl, fun _ _ => rfl, fun _ _ => rfl⟩,
        fun k _ _ => by omega⟩
    · have hlt : i < N := by omega
      have hmore : i * g < pkt.length - (n + tcpLen pkt n) := by
        rwa [hN, lt_count_iff hg] at hlt
      have hnext : min (n + tcpLen pkt n + i * g) pkt.length = n + tcpLen pkt n + i * g := by omega
      have hlast : (min (n + tcpLen pkt n + i * g + g) pkt.length = pkt.length) ↔ i + 1 = N := by
        have : i + 1 < count (pkt.length - (n + tcpLen pkt n)) g ↔ _ := lt_count_iff hg
        rw [← hN, Nat.add_mul, Nat.one_mul] at this
        omega
      rw [hnext, if_neg (by omega), if_neg (by have := hroom.slots; have := hroom.lens; omega)]
      simp only [returns_bind, returns_offset, returns_sub, returns_ite, hp.hdr_len, hp.gso_size, usizeBound,
        List.sum_cons, List.sum_nil, Nat.add_zero, ETH_HLEN]
      have hslot := hroom.slot
      have hdist : (n + tcpLen pkt n + i * g + g) = n + tcpLen pkt n + (i + 1) * g := by ring
      set seg_end := min (n + tcpLen pkt n + i * g + g) pkt.length with hseg_end
      refine ⟨by omega, by omega, by omega, by omega, fun hbad => by omega, fun _ => ?_⟩
      have hplace : (i + 1) * stride ≤ out.length :=
        (Nat.mul_le_mul_right _ (by have := hroom.slots; omega)).trans (Nat.div_mul_le_self _ stride)
      rw [Nat.add_mul, Nat.one_mul] at hplace
      have hgi : g * i < 2 ^ 64 := by rw [Nat.mul_comm]; omega
      refine (writeSlot_returns hp h (by omega) (by omega) (by omega) rfl hgi hroom.out (by omega)).mono ?_
      rintro _ ⟨seg, hseg, rfl⟩
      have hseglen := hseg.length h
      have hpay : ((pkt.take seg_end).drop (n + tcpLen pkt n + i * g)).length =
          seg_end - (n + tcpLen pkt n + i * g) := by
        simp only [List.length_drop, List.length_take]
        omega
      have hether : (etherHeader v6).length = 14 := length_etherHeader
      have hfit : i * stride + (etherHeader v6 ++ seg).length ≤ out.length := by
        rw [List.length_append]
        omega
      have hlen1 := length_patch hfit
      rw [returns_store]
      have hi64 : i ≤ i * stride := Nat.le_mul_of_pos_right i (by omega)
      have hout := hroom.out
      refine ⟨by have := hroom.lens; omega, by omega, ?_⟩
      have hroom1 : Room pkt n g stride N (patch out (i * stride) (etherHeader v6 ++ seg))
          (lens.set i (14 + (n + tcpLen pkt n + (seg_end - (n + tcpLen pkt n + i * g))))) :=
        ⟨by rw [hlen1]; exact hroom.slots, by rw [List.length_set]; exact hroom.lens, hslot,
          by rw [hlen1]; exact hroom.out⟩
      have hrest := ih hroom1 (i := i + 1) (by omega) (by omega)
      rw [hlen1, ← hdist] at hrest
      refine hrest.mono ?_
      rintro _ ⟨out', lens', rfl, hkeep, hfilled⟩
      have hkeep1 : Keeps stride i out (patch out (i * stride) (etherHeader v6 ++ seg)) lens
          (lens.set i (14 + (n + tcpLen pkt n + (seg_end - (n + tcpLen pkt n + i * g))))) := by
        refine ⟨hlen1, List.length_set, fun j hj => ?_, fun j hj => ?_⟩
        · rw [getElem?_patch_of_not hfit (.inl hj)]
        · rw [List.getElem?_set_ne (by omega)]
      refine ⟨out', lens', rfl, hkeep1.trans hkeep, fun k hk hkN => ?_⟩
      rcases Nat.lt_or_ge i k with hik | hik
      · exact hfilled k hik hkN
      · obtain rfl : k = i := by omega
        refine ⟨seg, ?_, ?_, ?_⟩
        · rw [decide_eq_decide.2 hlast, hseg_end, slice_eq_chunk] at hseg
          exact hseg
        · rw [hkeep.lens k (by omega), List.getElem?_set_self (by have := hroom.lens; omega)]
          congr 1
          omega
        · rw [slice_congr hkeep.out (by rw [Nat.add_mul, Nat.one_mul]; omega)]
          have := slice_patch hfit
          rwa [List.length_append, hether] at this

theorem take_headers (h : Headers pkt n) :
    pkt.take (n + tcpLen pkt n) = pkt.take n ++ tcpPart pkt n := by
  have hpkt := h.pkt
  rw [tcpPart, List.drop_take, Nat.add_sub_cancel_left, ← List.take_add]

theorem tcpLen_le (pkt : List UInt8) (n : ℕ) : tcpLen pkt n ≤ 60 := by
  have hshift : (pkt.getD (n + 12) 0 >>> 4).toNat = (pkt.getD (n + 12) 0).toNat >>> 4 := rfl
  have hbyte := (pkt.getD (n + 12) 0).toNat_lt
  rw [tcpLen, hshift]
  omega

/-- The header buffer: both headers, the TCP checksum cleared. -/
theorem header_buffer (h : Headers pkt n) (zs : List UInt8) :
    ((pkt.take (n + tcpLen pkt n) ++ zs).set (n + 16) 0).set (n + 16 + 1) 0 =
      pkt.take n ++ (patch (tcpPart pkt n) 16 [0, 0] ++ zs) := by
  have hip := h.length_ip
  have htcp := h.length_tcp
  have h20 := h.tcp
  rw [take_headers h, set_set_eq_patch _ _ (by simp only [List.length_append]; omega), List.append_assoc,
    patch_append_right (by omega), hip, Nat.add_sub_cancel_left, patch_append_left (by simp; omega)]

theorem checkHeaders_eq (hn : n = hdr.csum_start.toNat) (h20 : 20 ≤ tcpLen pkt n)
    (hpkt : n + tcpLen pkt n ≤ pkt.length) (hver : versionOk v6 (pkt.getD 0 0 >>> 4) = true)
    (hoff : hdr.csum_offset = 16) :
    checkHeaders pkt hdr v6 = .ok (if n + tcpLen pkt n ≤ 120 then .ok (tcpLen pkt n) else .error .tooShort) := by
  have h60 := tcpLen_le pkt n
  have hcsum : hdr.csum_start.toNat < 2 ^ 16 := hdr.csum_start.toNat_lt
  have hne : pkt.isEmpty = false := by
    rw [List.isEmpty_eq_false_iff, ← List.length_pos_iff]
    omega
  have hoff' : hdr.csum_offset.toNat = 16 := by rw [hoff]; rfl
  have hbyte : ∀ h : n + 12 < pkt.length, (pkt[n + 12] >>> 4).toNat * 4 = tcpLen pkt n := by
    intro h
    rw [tcpLen, List.getD_eq_getElem _ _ h]
  have hver0 : ∀ h : 0 < pkt.length, (!versionOk v6 (pkt[0] >>> 4)) = false := by
    intro h
    rw [← List.getD_eq_getElem _ 0 h, hver]
    rfl
  apply Returns.eq_ok
  simp only [checkHeaders, hne, returns_bind, returns_ite, returns_load, returns_offset, returns_mul,
    List.sum_cons, List.sum_nil, Nat.add_zero, ← hn, usizeBound, hoff', Bool.false_eq_true, false_implies,
    true_and, hbyte, hver0, not_false_eq_true, forall_const, returns_pure]
  refine ⟨by omega, by omega, fun _ => by omega, fun _ => ⟨by omega, by omega, fun _ => by omega, fun _ => ?_⟩⟩
  refine ⟨by omega, fun _ => by omega, fun _ => ⟨by omega, by omega, fun _ => by omega, fun _ => ⟨?_, ?_⟩⟩⟩
  · intro hbig
    rw [if_neg (by omega)]
  · intro hfits
    rw [if_pos (by omega)]

theorem be32_returns {b : List UInt8} {o : ℕ} (h : o + 4 ≤ b.length) (ho : o + 4 < 2 ^ 64) :
    Returns (be32 b o) fun x => x = UInt32.ofNat (field 4 b o) := by
  simp only [be32, returns_bind, returns_offset, returns_slice, List.sum_cons, List.sum_nil, Nat.add_zero,
    usizeBound, returns_pure]
  exact ⟨ho, ⟨by omega, h⟩, by rw [field, List.drop_take, Nat.add_sub_cancel_left]⟩

theorem firstId_returns (h : 6 ≤ pkt.length) :
    Returns (firstId pkt v6) fun x => v6 = false → x = UInt16.ofNat (field 2 pkt 4) := by
  cases v6 with
  | true => simp [firstId]
  | false =>
    simp only [firstId, be16, Bool.false_eq_true, ↓reduceIte, returns_bind, returns_offset, returns_slice,
      List.sum_cons, List.sum_nil, Nat.add_zero, usizeBound, returns_pure, forall_const]
    exact ⟨by omega, ⟨by omega, h⟩, by rw [field, List.drop_take]⟩

theorem readPlan_returns (hn : n = hdr.csum_start.toNat) (h : Headers pkt n) (hoff : hdr.csum_offset = 16) :
    Returns (readPlan pkt hdr v6 (tcpLen pkt n)) fun p => p.Of pkt v6 n hdr.gso_size.toNat := by
  have hip := h.ip
  have h20 := h.tcp
  have hbuf := h.buf
  have hpkt := h.pkt
  have hoff' : hdr.csum_offset.toNat = 16 := by rw [hoff]; rfl
  have hlen : (pkt.take (n + tcpLen pkt n)).length = n + tcpLen pkt n := by
    rw [List.length_take]
    omega
  have hcopy : patch (List.replicate 120 0) 0 (pkt.take (n + tcpLen pkt n)) =
      pkt.take (n + tcpLen pkt n) ++ List.replicate (120 - (n + tcpLen pkt n)) 0 := by
    rw [patch_zero, hlen, List.drop_replicate]
  have hspan : (ipAddrSpan v6).1 + (ipAddrSpan v6).2 ≤ pkt.length := by
    cases v6 <;> simp [ipAddrSpan] <;> omega
  simp only [readPlan, ← hn, hoff', returns_bind, returns_offset, returns_slice, returns_copyTo, returns_store,
    List.drop_zero, hcopy, header_buffer h, List.sum_cons, List.sum_nil, Nat.add_zero, usizeBound, hlen,
    List.length_append, List.length_set, List.length_replicate]
  refine ⟨by omega, by omega, ⟨by omega, by omega⟩, ⟨by omega, by omega, by omega⟩, by omega, by omega, by omega,
    by omega, (be32_returns (by omega) (by omega)).mono ?_⟩
  rintro _ rfl
  refine ⟨⟨by omega, hspan⟩, (firstId_returns (by omega)).mono fun id hid => returns_pure.2 ?_⟩
  have hpart : (patch (tcpPart pkt n) 16 [0, 0]).length = tcpLen pkt n := by
    rw [length_patch (by rw [h.length_tcp]; simp; omega), h.length_tcp]
  refine ⟨rfl, rfl, rfl, rfl, rfl, ?_, ?_, ?_, rfl, ?_, hid, rfl⟩
  · simp only [List.length_append, h.length_ip, hpart, List.length_replicate]
    omega
  · exact List.take_left' h.length_ip
  · rw [← List.append_assoc, List.take_left' (by rw [List.length_append, h.length_ip, hpart]),
      List.drop_left' h.length_ip]
  · rw [List.drop_take, Nat.add_sub_cancel_left]

/-- What the split does with a packet whose headers fit the header buffer: it fills one slot for each
segment. -/
theorem split_filled {N : ℕ} (hn : n = hdr.csum_start.toNat) (h : Headers pkt n)
    (hver : versionOk v6 (pkt.getD 0 0 >>> 4) = true) (hoff : hdr.csum_offset = 16) (hg : 0 < hdr.gso_size.toNat)
    (hsmall : pkt.length - n < 2 ^ 16) (hN : N = count (pkt.length - (n + tcpLen pkt n)) hdr.gso_size.toNat)
    (hroom : Room pkt n hdr.gso_size.toNat stride N out lens) :
    ∃ out' lens', tsoSplit.split pkt hdr out stride lens v6 = .ok (.ok N, out', lens') ∧
      lens'.length = lens.length ∧
      ∀ k < N, Filled pkt v6 n hdr.gso_size.toNat stride N out' lens' k := by
  have hreturns : Returns (tsoSplit.split pkt hdr out stride lens v6) fun r =>
      ∃ out' lens', r = (.ok N, out', lens') ∧ lens'.length = lens.length ∧
        ∀ k < N, Filled pkt v6 n hdr.gso_size.toNat stride N out' lens' k := by
    rw [tsoSplit.split, checkHeaders_eq hn h.tcp h.pkt hver hoff, ok_bind, if_pos h.buf]
    simp only [returns_bind]
    refine (readPlan_returns hn h hoff).mono fun p hp => ?_
    have hslot := hroom.slot
    have hlens := hroom.lens
    have hpkt := h.pkt
    simp only [returns_div, hp.hdr_len]
    refine ⟨by omega, ?_⟩
    have hrun := segments_returns hp h hg (UInt16.toNat_lt _) hN hsmall (lens.length + 1) hroom
      (Nat.zero_le N) (by omega)
    simp only [Nat.zero_mul, Nat.add_zero, Nat.min_eq_left hpkt] at hrun
    refine hrun.mono ?_
    rintro _ ⟨out', lens', rfl, hkeep, hfilled⟩
    exact ⟨out', lens', rfl, hkeep.length_lens, fun k hk => hfilled k (Nat.zero_le k) hk⟩
  obtain ⟨_, hrun, out', lens', rfl, hlen, hfilled⟩ := hreturns
  exact ⟨out', lens', hrun, hlen, hfilled⟩

end Tincr.Tso

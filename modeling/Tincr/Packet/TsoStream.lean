import Tincr.Packet.TsoSegment

/-!
The TCP stream through the split: `StreamKept` says what the segments of a super-packet have to be, in
the terms of the headers alone, and `tsoSplit_iff` for which well-formed packets they are that. For
IPv6 the header in front of TCP may contain extension headers, and these are where it fails: the
source writes the length behind them into the payload length field, which counts them.
-/

namespace Tincr.Tso

open Checked OnesComplement Buffer

/-- The bytes of the headers that the split writes anew. -/
def Rewritten (v6 : Bool) (n k : ℕ) : Prop :=
  (if v6 then 4 ≤ k ∧ k < 6 else 2 ≤ k ∧ k < 6 ∨ 10 ≤ k ∧ k < 12) ∨
    n + 4 ≤ k ∧ k < n + 8 ∨ k = n + 13 ∨ n + 16 ≤ k ∧ k < n + 18

/-- What segment `i` of the packet has to be, `n` being the length of the IP header with its
extensions. -/
structure SegmentOk (pkt : List UInt8) (v6 : Bool) (n g i : ℕ) (last : Prop) (seg : List UInt8) :
    Prop where
  seq : field 4 seg (n + 4) = (field 4 pkt (n + 4) + i * g) % 2 ^ 32
  ipLength : if v6 then field 2 seg 4 = seg.length - 40 else field 2 seg 2 = seg.length
  ident : v6 = false → field 2 seg 4 = (field 2 pkt 4 + i) % 2 ^ 16
  flagsLast : last → seg[n + 13]? = pkt[n + 13]?
  flags : ¬ last → seg[n + 13]? = pkt[n + 13]?.map (· &&& ~~~ 0x09)
  copied : ∀ k < n + tcpLen pkt n, ¬ Rewritten v6 n k → seg[k]? = pkt[k]?
  ipCsum : v6 = false → Verifies (seg.take n)
  tcpCsum : Verifies (pseudoHeader v6 ((seg.drop (ipAddrSpan v6).1).take (ipAddrSpan v6).2)
    (seg.length - n) ++ seg.drop n)

structure StreamKept (pkt : List UInt8) (v6 : Bool) (n g : ℕ) (segs : List (List UInt8)) : Prop where
  payloads : (segs.map fun seg => seg.drop (n + tcpLen pkt n)).flatten = pkt.drop (n + tcpLen pkt n)
  headers : ∀ seg ∈ segs, n + tcpLen pkt n ≤ seg.length
  most : ∀ seg ∈ segs, (seg.drop (n + tcpLen pkt n)).length ≤ g
  full : ∀ (i : ℕ) (h : i + 1 < segs.length), (segs[i].drop (n + tcpLen pkt n)).length = g
  each : ∀ (i : ℕ) (h : i < segs.length), SegmentOk pkt v6 n g i (i + 1 = segs.length) segs[i]

/-- From the header of type `nh` at `off`, the chain of IPv6 extension headers (hop-by-hop options,
routing, destination options) leads to TCP at `n`. -/
inductive Chain (pkt : List UInt8) : UInt8 → ℕ → ℕ → Prop
  | tcp (n : ℕ) : Chain pkt 6 n n
  | ext {nh : UInt8} {off n : ℕ} (h : nh = 0 ∨ nh = 43 ∨ nh = 60)
    (rest : Chain pkt (pkt.getD off 0) (off + 8 * ((pkt.getD (off + 1) 0).toNat + 1)) n) :
    Chain pkt nh off n

theorem Chain.start {pkt : List UInt8} {nh : UInt8} {off n : ℕ} (h : Chain pkt nh off n) :
    off ≤ n ∧ (n - off) % 8 = 0 := by
  induction h with
  | tcp n => simp
  | ext _ _ ih => omega

abbrev VirtioNetHdr.iphlen (hdr : VirtioNetHdr) : ℕ := hdr.csum_start.toNat

abbrev VirtioNetHdr.mss (hdr : VirtioNetHdr) : ℕ := hdr.gso_size.toNat

/-- A TCP packet of the given IP version and a virtio header that describes it. -/
structure WellFormed (pkt : List UInt8) (hdr : VirtioNetHdr) (v6 : Bool) : Prop where
  version : pkt.getD 0 0 >>> 4 = if v6 then 6 else 4
  ip : if v6 then Chain pkt (pkt.getD 6 0) 40 hdr.iphlen
    else hdr.iphlen = (pkt.getD 0 0 &&& 0x0f).toNat * 4 ∧ 20 ≤ hdr.iphlen ∧
      pkt.getD 9 0 = 6
  length : if v6 then field 2 pkt 4 + 40 = pkt.length else field 2 pkt 2 = pkt.length
  tcp : 20 ≤ tcpLen pkt hdr.iphlen
  header : hdr.iphlen + tcpLen pkt hdr.iphlen ≤ pkt.length
  csum_offset : hdr.csum_offset = 16
  gso_size : 0 < hdr.mss

def slots (out : List UInt8) (stride : ℕ) (lens : List ℕ) (n : ℕ) : List (List UInt8) :=
  (List.range n).map fun k => ((out.drop (k * stride)).take (lens.getD k 0)).drop ETH_HLEN

variable {pkt seg payload : List UInt8} {v6 last : Bool} {n g i : ℕ}

theorem field_eq {w o : ℕ} {bs xs : List UInt8} (hlen : xs.length = w)
    (h : ∀ j < w, bs[o + j]? = xs[j]?) : field w bs o = BigEndian.decode xs := by
  have hslice : (bs.drop o).take w = xs := by
    apply List.ext_getElem?
    intro j
    rw [List.getElem?_take, List.getElem?_drop]
    split_ifs with hj
    · exact h j hj
    · rw [List.getElem?_eq_none (by omega)]
  rw [field, hslice]

theorem getElem?_tcpPart {k : ℕ} (hk : k < tcpLen pkt n) :
    (tcpPart pkt n)[k]? = pkt[n + k]? := by
  rw [tcpPart, List.getElem?_drop, List.getElem?_take_of_lt (by omega)]

theorem Segment.getElem?_tcp (h : Headers pkt n) (hs : Segment pkt v6 n g i last payload seg) {k : ℕ}
    (hk : k < tcpLen pkt n) (hcsum : k < 16 ∨ 18 ≤ k) :
    seg[n + k]? =
      if k = 13 then pkt[n + k]?.map fun f => if last then f else f &&& ~~~ 0x09
      else if 4 ≤ k ∧ k < 8 then (BigEndian.encode 4 (field 4 pkt (n + 4) + g * i))[k - 4]?
      else pkt[n + k]? := by
  obtain ⟨hd, c, hlen, -, rfl, -⟩ := hs
  have htcp : (tcpHeader pkt n g i last).length = tcpLen pkt n := length_tcpHeader h
  have h20 := h.tcp
  rw [List.getElem?_append_right (by omega), hlen, Nat.add_sub_cancel_left,
    getElem?_patch_of_not (by simp [htcp]; omega) (by simp; omega),
    List.getElem?_append_left (by omega), getElem?_tcpHeader h, getElem?_tcpPart hk]
  split_ifs <;> first | rfl | omega

theorem Segment.getElem?_ip (hs : Segment pkt v6 n g i last payload seg) :
    ∃ hd, IpHeader pkt v6 n i (n + tcpLen pkt n + payload.length) hd ∧ seg.take n = hd ∧
      ∀ k < n, seg[k]? = hd[k]? := by
  obtain ⟨hd, c, hlen, hhd, rfl, -⟩ := hs
  refine ⟨hd, hhd, List.take_left' hlen, fun k hk => ?_⟩
  rw [List.getElem?_append_left (by omega)]

theorem IpHeader.getElem? (h : Headers pkt n) {total_len k : ℕ} {hd : List UInt8}
    (hhd : IpHeader pkt v6 n i total_len hd) (hk : k < n) (hcsum : v6 = true ∨ k < 10 ∨ 12 ≤ k) :
    hd[k]? =
      if 4 ≤ k ∧ k < 6 then
        (BigEndian.encode 2 (if v6 then total_len - n else field 2 pkt 4 + i))[k - 4]?
      else if v6 = false ∧ 2 ≤ k ∧ k < 4 then (BigEndian.encode 2 total_len)[k - 2]?
      else pkt[k]? := by
  have hip := h.ip
  have hlen := h.length_ip
  have htake : (pkt.take n)[k]? = pkt[k]? := List.getElem?_take_of_lt hk
  cases v6 with
  | true =>
    simp only [IpHeader, ↓reduceIte] at hhd
    subst hhd
    rw [getElem?_patch (by simp [hlen]; omega), htake]
    simp
  | false =>
    simp only [IpHeader, Bool.false_eq_true, ↓reduceIte] at hhd
    obtain ⟨-, c, rfl⟩ := hhd
    have hlen1 : (patch (pkt.take n) 4 (BigEndian.encode 2 (field 2 pkt 4 + i))).length = n := by
      rw [length_patch (by simp [hlen]; omega), hlen]
    have hlen2 : (patch (patch (pkt.take n) 4 (BigEndian.encode 2 (field 2 pkt 4 + i))) 2
        (BigEndian.encode 2 total_len)).length = n := by
      rw [length_patch (by simp [hlen1]; omega), hlen1]
    rw [getElem?_patch_of_not (by simp [hlen2]; omega) (by simpa using hcsum),
      getElem?_patch (by simp [hlen1]; omega), getElem?_patch (by simp [hlen]; omega), htake]
    simp only [BigEndian.length_encode, true_and, Bool.false_eq_true, ↓reduceIte]
    split_ifs <;> first | rfl | omega

theorem Segment.drop_headers (h : Headers pkt n) (hs : Segment pkt v6 n g i last payload seg) :
    seg.drop (n + tcpLen pkt n) = payload := by
  obtain ⟨hd, c, hlen, -, rfl, -⟩ := hs
  have htcp : (tcpHeader pkt n g i last).length = tcpLen pkt n := length_tcpHeader h
  have h20 := h.tcp
  rw [patch_append_left (by simp [htcp]; omega), ← List.append_assoc]
  exact List.drop_left' (by rw [List.length_append, length_patch (by simp [htcp]; omega), hlen, htcp])

theorem Segment.seq (h : Headers pkt n) (hs : Segment pkt v6 n g i last payload seg) :
    field 4 seg (n + 4) = (field 4 pkt (n + 4) + i * g) % 2 ^ 32 := by
  have h20 := h.tcp
  rw [field_eq (BigEndian.length_encode 4 (field 4 pkt (n + 4) + g * i)), BigEndian.decode_encode,
    Nat.mul_comm]
  · rfl
  · intro j hj
    rw [Nat.add_assoc, hs.getElem?_tcp h (by omega) (by omega), if_neg (by omega), if_pos (by omega)]
    congr 1
    omega

theorem Segment.flags (h : Headers pkt n) (hs : Segment pkt v6 n g i last payload seg) :
    seg[n + 13]? = pkt[n + 13]?.map fun f => if last then f else f &&& ~~~ 0x09 := by
  have h20 := h.tcp
  rw [hs.getElem?_tcp h (by omega) (by omega), if_pos rfl]

theorem Segment.copied (h : Headers pkt n) (hs : Segment pkt v6 n g i last payload seg) {k : ℕ}
    (hk : k < n + tcpLen pkt n) (hr : ¬ Rewritten v6 n k) : seg[k]? = pkt[k]? := by
  unfold Rewritten at hr
  rcases Nat.lt_or_ge k n with hn | hn
  · obtain ⟨hd, hhd, -, hbytes⟩ := hs.getElem?_ip
    cases v6 with
    | true =>
      simp only [↓reduceIte] at hr
      rw [hbytes k hn, hhd.getElem? h hn (.inl rfl), if_neg (by omega), if_neg (by simp)]
    | false =>
      simp only [Bool.false_eq_true, ↓reduceIte] at hr
      rw [hbytes k hn, hhd.getElem? h hn (by omega), if_neg (by omega), if_neg (by omega)]
  · obtain ⟨j, rfl⟩ := Nat.exists_eq_add_of_le hn
    rw [hs.getElem?_tcp h (by omega) (by omega), if_neg (by omega), if_neg (by omega)]

theorem Segment.ident (h : Headers pkt n) (hs : Segment pkt false n g i last payload seg) :
    field 2 seg 4 = (field 2 pkt 4 + i) % 2 ^ 16 := by
  have hip := h.ip
  obtain ⟨hd, hhd, -, hbytes⟩ := hs.getElem?_ip
  rw [field_eq (BigEndian.length_encode 2 (field 2 pkt 4 + i)), BigEndian.decode_encode]
  · rfl
  · intro j hj
    rw [hbytes _ (by omega), hhd.getElem? h (by omega) (by omega), if_pos (by omega)]
    simp

theorem Segment.totalLength (h : Headers pkt n) (hs : Segment pkt false n g i last payload seg)
    (hlen : seg.length < 2 ^ 16) : field 2 seg 2 = seg.length := by
  have hip := h.ip
  have hseg := hs.length h
  obtain ⟨hd, hhd, -, hbytes⟩ := hs.getElem?_ip
  rw [field_eq (BigEndian.length_encode 2 seg.length), BigEndian.decode_encode_of_lt (by omega)]
  intro j hj
  rw [hbytes _ (by omega), hhd.getElem? h (by omega) (by omega), if_neg (by omega),
    if_pos ⟨rfl, by omega, by omega⟩, Nat.add_sub_cancel_left, hseg]

/-- The IPv6 length field is the length behind all the headers that the packet has before TCP. -/
theorem Segment.payloadLength (h : Headers pkt n) (hs : Segment pkt true n g i last payload seg)
    (hlen : seg.length - n < 2 ^ 16) : field 2 seg 4 = seg.length - n := by
  have hip := h.ip
  have hseg := hs.length h
  obtain ⟨hd, hhd, -, hbytes⟩ := hs.getElem?_ip
  rw [field_eq (BigEndian.length_encode 2 (seg.length - n)), BigEndian.decode_encode_of_lt (by omega)]
  intro j hj
  rw [hbytes _ (by omega), hhd.getElem? h (by omega) (.inl rfl), if_pos (by omega),
    Nat.add_sub_cancel_left, hseg]
  rfl

theorem length_segment_le (h : Headers pkt n)
    (hs : Segment pkt v6 n g i last (chunk pkt (n + tcpLen pkt n) g i) seg) :
    seg.length ≤ pkt.length := by
  have hpkt := h.pkt
  have hlen := hs.length h
  rw [length_chunk] at hlen
  omega

theorem Segment.ipLength_ne (h : Headers pkt n) (h40 : 40 < n) (hsmall : pkt.length - n < 2 ^ 16)
    (hs : Segment pkt true n g i last (chunk pkt (n + tcpLen pkt n) g i) seg) :
    field 2 seg 4 ≠ seg.length - 40 := by
  have hle := length_segment_le h hs
  have hlen := hs.length h
  have htcp := h.tcp
  rw [hs.payloadLength h (by omega)]
  omega

theorem Segment.ipCsum (hs : Segment pkt false n g i last payload seg) : Verifies (seg.take n) := by
  obtain ⟨hd, hhd, htake, -⟩ := hs.getElem?_ip
  simp only [IpHeader, Bool.false_eq_true, ↓reduceIte] at hhd
  rw [htake]
  exact hhd.1

theorem Segment.addrs (h : Headers pkt n) (h40 : v6 = true → 40 ≤ n)
    (hs : Segment pkt v6 n g i last payload seg) :
    (seg.drop (ipAddrSpan v6).1).take (ipAddrSpan v6).2 =
      (pkt.drop (ipAddrSpan v6).1).take (ipAddrSpan v6).2 := by
  have hip := h.ip
  apply List.ext_getElem?
  intro k
  rw [List.getElem?_take, List.getElem?_take, List.getElem?_drop, List.getElem?_drop]
  split_ifs with hk
  · cases v6 with
    | true =>
      have := h40 rfl
      simp only [ipAddrSpan, ↓reduceIte] at hk ⊢
      exact hs.copied h (by omega) (by unfold Rewritten; simp; omega)
    | false =>
      simp only [ipAddrSpan, Bool.false_eq_true, ↓reduceIte] at hk ⊢
      exact hs.copied h (by omega) (by unfold Rewritten; simp; omega)
  · rfl

theorem Segment.tcpCsum (h : Headers pkt n) (h40 : v6 = true → 40 ≤ n)
    (hs : Segment pkt v6 n g i last payload seg) :
    Verifies (pseudoHeader v6 ((seg.drop (ipAddrSpan v6).1).take (ipAddrSpan v6).2)
      (seg.length - n) ++ seg.drop n) := by
  have hlen := hs.length h
  rw [hs.addrs h h40]
  obtain ⟨hd, c, hhd, -, rfl, hver⟩ := hs
  rw [List.drop_left' hhd, hlen]
  convert hver using 3
  omega

theorem Segment.ok (h : Headers pkt n) (h40 : v6 = true → n = 40)
    (hs : Segment pkt v6 n g i last payload seg) (hlen : seg.length < 2 ^ 16 ∨ v6 = true)
    (hlen6 : seg.length - n < 2 ^ 16) : SegmentOk pkt v6 n g i (last = true) seg where
  seq := hs.seq h
  ipLength := by
    cases v6 with
    | true => rw [if_pos rfl, hs.payloadLength h hlen6, h40 rfl]
    | false => rw [if_neg (by simp), hs.totalLength h (by simpa using hlen)]
  ident := by
    rintro rfl
    exact hs.ident h
  flagsLast := by
    rintro rfl
    rw [hs.flags h]
    simp
  flags := by
    intro hlast
    rw [hs.flags h]
    simp [hlast]
  copied := fun k hk hr => hs.copied h hk hr
  ipCsum := by
    rintro rfl
    exact hs.ipCsum
  tcpCsum := hs.tcpCsum h fun hv => (h40 hv).ge

theorem flatten_chunks (m N : ℕ) :
    ((List.range N).map fun k => chunk pkt m g k).flatten = (pkt.drop m).take (N * g) := by
  induction N with
  | zero => simp
  | succ N ih =>
    rw [List.range_succ, List.map_append, List.flatten_append, ih, Nat.add_mul, Nat.one_mul, List.take_add]
    simp [chunk, List.drop_drop]

theorem Filled.slot {stride N k : ℕ} {out : List UInt8} {lens : List ℕ}
    (hf : Filled pkt v6 n g stride N out lens k) :
    Segment pkt v6 n g k (decide (k + 1 = N)) (chunk pkt (n + tcpLen pkt n) g k)
      (((out.drop (k * stride)).take (lens.getD k 0)).drop ETH_HLEN) := by
  obtain ⟨seg, hseg, hlens, hout⟩ := hf
  have hether : (etherHeader v6).length = ETH_HLEN := length_etherHeader
  rw [List.getD_eq_getElem?_getD, hlens, Option.getD_some, hout, List.drop_left' hether]
  exact hseg

theorem streamKept_of_filled (h : Headers pkt n) (hg : 0 < g) (h40 : v6 = true → n = 40)
    (hshort : pkt.length < 2 ^ 16 ∨ v6 = true) (hsmall : pkt.length - n < 2 ^ 16) {stride N : ℕ}
    {out : List UInt8} {lens : List ℕ} (hN : N = count (pkt.length - (n + tcpLen pkt n)) g)
    (hf : ∀ k < N, Filled pkt v6 n g stride N out lens k) :
    StreamKept pkt v6 n g (slots out stride lens N) := by
  have hslot : ∀ k < N, Segment pkt v6 n g k (decide (k + 1 = N)) (chunk pkt (n + tcpLen pkt n) g k)
      (((out.drop (k * stride)).take (lens.getD k 0)).drop ETH_HLEN) := fun k hk => (hf k hk).slot
  have hlength : (slots out stride lens N).length = N := by simp [slots]
  have hpkt := h.pkt
  constructor
  case payloads =>
    have hmap : (slots out stride lens N).map (fun seg => seg.drop (n + tcpLen pkt n)) =
        (List.range N).map fun k => chunk pkt (n + tcpLen pkt n) g k := by
      rw [slots, List.map_map]
      refine List.map_congr_left fun k hk => ?_
      exact (hslot k (List.mem_range.1 hk)).drop_headers h
    have hcover : pkt.length - (n + tcpLen pkt n) ≤ N * g := by
      rw [← Nat.not_lt, ← lt_count_iff hg, ← hN]
      omega
    rw [hmap, flatten_chunks, List.take_of_length_le (by rw [List.length_drop]; exact hcover)]
  case headers =>
    intro seg hmem
    obtain ⟨k, hk, rfl⟩ := List.mem_map.1 hmem
    rw [(hslot k (List.mem_range.1 hk)).length h]
    omega
  case most =>
    intro seg hmem
    obtain ⟨k, hk, rfl⟩ := List.mem_map.1 hmem
    rw [(hslot k (List.mem_range.1 hk)).drop_headers h, length_chunk]
    omega
  case full =>
    intro i hi
    rw [hlength] at hi
    have hmore : (i + 1) * g < pkt.length - (n + tcpLen pkt n) := by
      rwa [hN, lt_count_iff hg] at hi
    rw [Nat.add_mul, Nat.one_mul] at hmore
    simp only [slots, List.getElem_map, List.getElem_range]
    rw [(hslot i (by omega)).drop_headers h, length_chunk]
    omega
  case each =>
    intro i hi
    rw [hlength] at hi
    have hs := hslot i hi
    have hle := length_segment_le h hs
    have hok := hs.ok h h40 (hshort.imp_left fun _ => by omega) (by omega)
    simpa [slots, List.getElem_map, hlength] using hok

variable {hdr : VirtioNetHdr}

theorem WellFormed.headers (h : WellFormed pkt hdr v6)
    (hbuf : hdr.iphlen + tcpLen pkt hdr.iphlen ≤ 120) :
    Headers pkt hdr.iphlen := by
  have hip := h.ip
  refine ⟨?_, ?_, h.tcp, hbuf, h.header⟩
  · cases v6 with
    | true =>
      have := Chain.start hip
      omega
    | false => exact hip.2.1
  · cases v6 with
    | true =>
      have := Chain.start hip
      omega
    | false =>
      have := hip.1
      omega

theorem WellFormed.versionOk (h : WellFormed pkt hdr v6) :
    versionOk v6 (pkt.getD 0 0 >>> 4) = true := by
  rw [h.version]
  cases v6 <;> rfl

/-- Without extension headers the headers fit the header buffer. -/
theorem WellFormed.fits (h : WellFormed pkt hdr v6) (h40 : v6 = false ∨ hdr.csum_start = 40) :
    hdr.iphlen + tcpLen pkt hdr.iphlen ≤ 120 := by
  have h60 := tcpLen_le pkt hdr.iphlen
  rcases h40 with rfl | h40
  · have hihl := h.ip.1
    have hle : (pkt.getD 0 0 &&& 0x0f).toNat ≤ 15 := by
      rw [UInt8.toNat_and]
      exact Nat.and_le_right
    omega
  · have : hdr.iphlen = 40 := by rw [VirtioNetHdr.iphlen, h40]; rfl
    omega

theorem WellFormed.short (h : WellFormed pkt hdr v6) : pkt.length < 2 ^ 16 ∨ v6 = true := by
  have hlen := h.length
  cases v6 with
  | true => exact .inr rfl
  | false =>
    have := field_two_lt pkt 2
    simp only [Bool.false_eq_true, ↓reduceIte] at hlen
    exact .inl (by omega)

theorem WellFormed.small (h : WellFormed pkt hdr v6) : pkt.length - hdr.iphlen < 2 ^ 16 := by
  have hlen := h.length
  have hip := h.ip
  cases v6 with
  | true =>
    have := field_two_lt pkt 4
    have := Chain.start hip
    simp only [↓reduceIte] at hlen
    omega
  | false =>
    have := field_two_lt pkt 2
    simp only [Bool.false_eq_true, ↓reduceIte] at hlen
    omega

def gsoOf (v6 : Bool) : GsoType := if v6 then .tcpV6 else .tcpV4

theorem tsoSplit_gsoOf (out : List UInt8) (stride : ℕ) (lens : List ℕ) :
    tsoSplit pkt hdr (gsoOf v6) out stride lens = tsoSplit.split pkt hdr out stride lens v6 := by
  cases v6 <;> rfl

abbrev RoomFor (pkt : List UInt8) (hdr : VirtioNetHdr) (stride : ℕ) (out : List UInt8) (lens : List ℕ) :
    Prop :=
  Room pkt hdr.iphlen hdr.mss stride
    (count (pkt.length - (hdr.iphlen + tcpLen pkt hdr.iphlen)) hdr.mss) out lens

def KeepsStream (pkt : List UInt8) (hdr : VirtioNetHdr) (v6 : Bool) (out : List UInt8) (stride : ℕ)
    (lens : List ℕ) : Prop :=
  ∃ N out' lens', tsoSplit pkt hdr (gsoOf v6) out stride lens = .ok (.ok N, out', lens') ∧
    StreamKept pkt v6 hdr.iphlen hdr.mss (slots out' stride lens' N)

variable {out : List UInt8} {stride : ℕ} {lens : List ℕ}

theorem split_tooShort (hwf : WellFormed pkt hdr v6)
    (hbuf : ¬ hdr.iphlen + tcpLen pkt hdr.iphlen ≤ 120) :
    tsoSplit.split pkt hdr out stride lens v6 = .ok (.error .tooShort, out, lens) := by
  rw [tsoSplit.split, checkHeaders_eq rfl hwf.tcp hwf.header hwf.versionOk hwf.csum_offset, ok_bind,
    if_neg hbuf]
  rfl

theorem keepsStream_fits (hwf : WellFormed pkt hdr v6) (hkeep : KeepsStream pkt hdr v6 out stride lens) :
    hdr.iphlen + tcpLen pkt hdr.iphlen ≤ 120 := by
  by_contra hbuf
  obtain ⟨N, out₁, lens₁, hrun₁, -⟩ := hkeep
  rw [tsoSplit_gsoOf, split_tooShort hwf hbuf] at hrun₁
  simp at hrun₁

/-- With extension headers the length field of the first segment leaves them out. -/
theorem not_keepsStream_of_extension (hwf : WellFormed pkt hdr true)
    (hroom : RoomFor pkt hdr stride out lens) (h40 : hdr.csum_start ≠ 40)
    (hpay : hdr.iphlen + tcpLen pkt hdr.iphlen < pkt.length) :
    ¬ KeepsStream pkt hdr true out stride lens := by
  intro hkeep
  have h := hwf.headers (keepsStream_fits hwf hkeep)
  obtain ⟨N, out₁, lens₁, hrun₁, hkept⟩ := hkeep
  obtain ⟨out', lens', hrun, -, hfilled⟩ :=
    split_filled rfl h hwf.versionOk hwf.csum_offset hwf.gso_size hwf.small rfl hroom
  rw [tsoSplit_gsoOf, hrun] at hrun₁
  obtain ⟨rfl, rfl, rfl⟩ : _ = N ∧ out' = out₁ ∧ lens' = lens₁ := by simpa using hrun₁
  have hgt : 40 < hdr.iphlen := by
    have hstart := Chain.start hwf.ip
    have hne : hdr.iphlen ≠ 40 := fun e => h40 (UInt16.toNat_inj.1 e)
    omega
  have hfirst : 0 < count (pkt.length - (hdr.iphlen + tcpLen pkt hdr.iphlen)) hdr.mss := by
    rw [lt_count_iff hwf.gso_size]
    omega
  have hok := (hkept.each 0 (by simpa [slots] using hfirst)).ipLength
  simp only [slots, List.getElem_map, List.getElem_range, ↓reduceIte] at hok
  exact Segment.ipLength_ne h hgt hwf.small (hfilled 0 hfirst).slot hok

theorem keepsStream_of_filled (hwf : WellFormed pkt hdr v6) (hroom : RoomFor pkt hdr stride out lens)
    (h40 : v6 = false ∨ hdr.csum_start = 40) : KeepsStream pkt hdr v6 out stride lens := by
  have h := hwf.headers (hwf.fits h40)
  obtain ⟨out', lens', hrun, -, hfilled⟩ :=
    split_filled rfl h hwf.versionOk hwf.csum_offset hwf.gso_size hwf.small rfl hroom
  refine ⟨_, out', lens', by rw [tsoSplit_gsoOf, hrun], ?_⟩
  refine streamKept_of_filled h hwf.gso_size (fun hv6 => ?_) hwf.short hwf.small rfl hfilled
  rcases h40 with hv4 | h40
  · rw [hv4] at hv6
    simp at hv6
  · rw [VirtioNetHdr.iphlen, h40]
    rfl

theorem keepsStream_of_empty (hwf : WellFormed pkt hdr v6) (hroom : RoomFor pkt hdr stride out lens)
    (hempty : pkt.length = hdr.iphlen + tcpLen pkt hdr.iphlen) (hle : pkt.length ≤ 120) :
    KeepsStream pkt hdr v6 out stride lens := by
  obtain ⟨out', lens', hrun, -, -⟩ := split_filled rfl (hwf.headers (by omega)) hwf.versionOk
    hwf.csum_offset hwf.gso_size hwf.small rfl hroom
  have hzero : count (pkt.length - (hdr.iphlen + tcpLen pkt hdr.iphlen)) hdr.mss = 0 := by
    rw [← Nat.le_zero, ← Nat.not_lt, lt_count_iff hwf.gso_size]
    omega
  refine ⟨_, out', lens', by rw [tsoSplit_gsoOf, hrun], ?_⟩
  rw [hzero]
  exact ⟨by simp [slots, hempty], by simp [slots], by simp [slots], by simp [slots], by simp [slots]⟩

/-- A well-formed super-packet, given enough room, is split into segments that carry its TCP stream
exactly when it has no IPv6 extension headers, or no payload. -/
theorem tsoSplit_iff (hwf : WellFormed pkt hdr v6) (hroom : RoomFor pkt hdr stride out lens) :
    KeepsStream pkt hdr v6 out stride lens ↔
      v6 = false ∨ hdr.csum_start = 40 ∨
        pkt.length = hdr.iphlen + tcpLen pkt hdr.iphlen ∧ pkt.length ≤ 120 := by
  constructor
  · intro hkeep
    have hbuf := keepsStream_fits hwf hkeep
    have hpkt := hwf.header
    by_contra hno
    push Not at hno
    obtain ⟨hv6, h40, hpay⟩ := hno
    obtain rfl : v6 = true := by simpa using hv6
    exact not_keepsStream_of_extension hwf hroom h40 (by omega) hkeep
  · rintro (hv4 | h40 | ⟨hempty, hle⟩)
    · exact keepsStream_of_filled hwf hroom (.inl hv4)
    · exact keepsStream_of_filled hwf hroom (.inr h40)
    · exact keepsStream_of_empty hwf hroom hempty hle

def v4Super : List UInt8 :=
  [0x45, 0, 0, 43, 0xff, 0xff, 0x40, 0, 64, 6, 0, 0, 10, 0, 0, 1, 10, 0, 0, 2] ++
    [0, 80, 1, 2, 0xff, 0xff, 0xff, 0xff, 0, 0, 0, 1, 0x50, 0x19, 1, 0, 7, 7, 0, 0] ++ [1, 2, 3]

def v4Hdr : VirtioNetHdr := ⟨1, 1, 40, 2, 20, 16⟩

theorem v4Super_wellFormed : WellFormed v4Super v4Hdr false where
  version := by decide
  ip := ⟨by decide, by decide, by decide⟩
  length := by decide
  tcp := by decide
  header := by decide
  csum_offset := rfl
  gso_size := by decide

theorem tsoSplit_iff_v4Super : KeepsStream v4Super v4Hdr false (List.replicate 120 0) 60 [0, 0] :=
  (tsoSplit_iff v4Super_wellFormed ⟨by decide, by decide, by decide, by decide⟩).2 (.inl rfl)

/-- An IPv6 packet with an empty hop-by-hop options header and one byte of payload. -/
def extSuper : List UInt8 :=
  [0x60, 0, 0, 0, 0, 29, 0, 64] ++ List.replicate 15 0 ++ [1] ++ List.replicate 15 0 ++ [2] ++
    [6, 0, 1, 4, 0, 0, 0, 0] ++
    [0, 80, 1, 2, 0, 0, 0, 1, 0, 0, 0, 1, 0x50, 0x18, 1, 0, 0, 0, 0, 0] ++ [1]

def extHdr : VirtioNetHdr := ⟨1, 4, 68, 1400, 48, 16⟩

theorem extSuper_wellFormed : WellFormed extSuper extHdr true where
  version := by decide
  ip := .ext (.inl rfl) (.tcp 48)
  length := by decide
  tcp := by decide
  header := by decide
  csum_offset := rfl
  gso_size := by decide

theorem extSuper_room : RoomFor extSuper extHdr 96 (List.replicate 96 0) [0] :=
  ⟨by decide, by decide, by decide, by decide⟩

theorem not_keepsStream_extSuper :
    WellFormed extSuper extHdr true ∧ RoomFor extSuper extHdr 96 (List.replicate 96 0) [0] ∧
      ¬ KeepsStream extSuper extHdr true (List.replicate 96 0) 96 [0] :=
  ⟨extSuper_wellFormed, extSuper_room,
    not_keepsStream_of_extension extSuper_wellFormed extSuper_room (by decide) (by decide)⟩

end Tincr.Tso

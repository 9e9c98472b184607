import Tincr.Packet.Gro
import Tincr.Lib.Pieces

/-!
Collecting and splitting. What comes out of the bucket is given to the split of `tso.rs`, and that
returns the TCP packets that went in. The invariant of the bucket says which packets it holds: all but
the last have the length of the first and no PSH flag, so the cuts of the split fall where packets met.
-/

namespace Tincr.Gro

open Checked Tso Buffer Pieces OnesComplement

/-! ### A packet as TCP sees it -/

def ipLen (p : List UInt8) : ℕ := if isV6 p then 40 else 20

def tcpHdrLen (p : List UInt8) : ℕ := tcpLen p (ipLen p)

/-- The parts of the header that are common to all packets of a super-packet. -/
structure Flow where
  version : UInt8
  sport : ℕ
  dport : ℕ
  ack : ℕ
  tcphlen : ℕ
  options : List UInt8
deriving DecidableEq, Repr

def flowOf (p : List UInt8) : Flow where
  version := p.getD 0 0 >>> 4
  sport := field 2 p (ipLen p)
  dport := field 2 p (ipLen p + 2)
  ack := field 4 p (ipLen p + 8)
  tcphlen := tcpHdrLen p
  options := (p.drop (ipLen p + 20)).take (tcpHdrLen p - 20)

def seqOf (p : List UInt8) : ℕ := field 4 p (ipLen p + 4)

def flagsOf (p : List UInt8) : UInt8 := p.getD (ipLen p + 13) 0

def payloadOf (p : List UInt8) : List UInt8 := p.drop (ipLen p + tcpHdrLen p)

structure Tcp where
  flow : Flow
  seq : ℕ
  flags : UInt8
  payload : List UInt8
deriving DecidableEq, Repr

def tcpOf (p : List UInt8) : Tcp := ⟨flowOf p, seqOf p, flagsOf p, payloadOf p⟩

variable {p q ip pkt : List UInt8} {c d : Candidate} {b b' : GroBucket}

theorem field_four_lt (bs : List UInt8) (o : ℕ) : field 4 bs o < 2 ^ 32 := by
  have hlen : ((bs.drop o).take 4).length ≤ 4 := by
    rw [List.length_take]
    omega
  exact (BigEndian.decode_lt _).trans_le (Nat.pow_le_pow_right (by norm_num) hlen)

theorem seqOf_lt (p : List UInt8) : seqOf p < 2 ^ 32 := field_four_lt _ _

theorem window_congr {o w : ℕ} (h : ∀ k, o ≤ k → k < o + w → p[k]? = q[k]?) :
    (p.drop o).take w = (q.drop o).take w := by
  apply List.ext_getElem?
  intro k
  rw [List.getElem?_take, List.getElem?_take, List.getElem?_drop, List.getElem?_drop]
  split_ifs with hk
  · exact h _ (by omega) (by omega)
  · rfl

theorem field_congr {o w : ℕ} (h : ∀ k, o ≤ k → k < o + w → p[k]? = q[k]?) : field w p o = field w q o := by
  rw [field, field, window_congr h]

theorem getD_congr {k : ℕ} (h : p[k]? = q[k]?) : p.getD k 0 = q.getD k 0 := by
  rw [List.getD_eq_getElem?_getD, List.getD_eq_getElem?_getD, h]

/-- The bytes from which the flow is read, `n` being the length of the IP header. -/
def InFlow (n k : ℕ) : Prop := k = 0 ∨ n ≤ k ∧ k < n + 4 ∨ n + 8 ≤ k ∧ k < n + 13 ∨ n + 20 ≤ k

theorem InFlow.not_rewritten {v6 : Bool} {n k : ℕ} (h : InFlow n k) (hn : 20 ≤ n) : ¬ Rewritten v6 n k := by
  unfold InFlow at h
  cases v6 <;> simp [Rewritten] <;> omega

theorem isV6_congr (h : p[0]? = q[0]?) : isV6 p ↔ isV6 q := by
  rw [isV6, isV6, getD_congr h]

theorem ipLen_congr (h : p[0]? = q[0]?) : ipLen p = ipLen q := by
  simp only [ipLen, isV6_congr h]

theorem ipLen_ge (p : List UInt8) : 20 ≤ ipLen p ∧ ipLen p ≤ 40 := by
  unfold ipLen
  split_ifs <;> omega

theorem tcpHdrLen_congr (h0 : p[0]? = q[0]?) (h : p[ipLen q + 12]? = q[ipLen q + 12]?) : tcpHdrLen p = tcpHdrLen q := by
  rw [tcpHdrLen, tcpHdrLen, ipLen_congr h0, tcpLen, tcpLen, getD_congr h]

/-- Packets whose headers agree there are of one flow. -/
theorem flowOf_congr (h20 : 20 ≤ tcpHdrLen q)
    (h : ∀ k < ipLen q + tcpHdrLen q, InFlow (ipLen q) k → p[k]? = q[k]?) : flowOf p = flowOf q := by
  have hip := ipLen_ge q
  have h0 : p[0]? = q[0]? := h 0 (by omega) (.inl rfl)
  have hlen := ipLen_congr h0
  have htcp := tcpHdrLen_congr h0 (h _ (by omega) (by unfold InFlow; omega))
  simp only [flowOf, hlen, htcp, getD_congr h0]
  congr 1
  · exact field_congr fun k _ _ => h k (by omega) (by unfold InFlow; omega)
  · exact field_congr fun k _ _ => h k (by omega) (by unfold InFlow; omega)
  · exact field_congr fun k _ _ => h k (by omega) (by unfold InFlow; omega)
  · exact window_congr fun k _ _ => h k (by omega) (by unfold InFlow; omega)

namespace Reads

theorem ipLen_eq (h : Reads p c) : ipLen p = c.iphlen := by
  rw [h.iphlen, ipLen]
  simp only [h.isV6_iff]

theorem tcpHdrLen_eq (h : Reads p c) : tcpHdrLen p = c.tcphlen := by
  rw [tcpHdrLen, h.ipLen_eq, h.tcphlen]

theorem length_payloadOf (h : Reads p c) : (payloadOf p).length = c.payload_len := by
  have hparts := h.parts
  rw [payloadOf, List.length_drop, h.ipLen_eq, h.tcpHdrLen_eq]
  omega

theorem flagsOf_eq (h : Reads p c) : flagsOf p = if c.psh_set then TCP_FLAG_ACK ||| TCP_FLAG_PSH else TCP_FLAG_ACK := by
  rw [flagsOf, h.ipLen_eq, h.flags]

theorem seqOf_eq (h : Reads p c) : c.seq = UInt32.ofNat (seqOf p) := by
  rw [h.seq, seqOf, h.ipLen_eq]

/-- The cast of the payload length to 16 bits loses nothing. -/
theorem payload_lt (h : Reads p c) : c.payload_len < 2 ^ 16 := by
  have hlen := h.length
  have hparts := h.parts
  have hiphlen := h.iphlen
  have htcp := h.tcp
  have h2 := field_two_lt p 2
  have h4 := field_two_lt p 4
  cases hv : c.is_v6 with
  | true =>
    simp only [hv, if_true] at hlen hiphlen
    omega
  | false =>
    simp only [hv, Bool.false_eq_true, if_false] at hlen hiphlen
    omega

theorem toNat_payload (h : Reads p c) : (UInt16.ofNat c.payload_len).toNat = c.payload_len :=
  UInt16.toNat_ofNat_of_lt' h.payload_lt

theorem flowOf_eq (hp : Reads p c) : flowOf p = ⟨if c.is_v6 then 6 else 4, c.sport.toNat, c.dport.toNat,
    c.ack.toNat, c.tcphlen, (p.drop (c.iphlen + 20)).take (c.tcphlen - 20)⟩ := by
  rw [flowOf, hp.version, hp.ipLen_eq, hp.tcpHdrLen_eq, hp.sport, hp.dport, hp.ack, toNat_field, toNat_field,
    UInt32.toNat_ofNat_of_lt' (field_four_lt p _)]

end Reads

namespace GroBucket

theorem getElem?_withPsh {at_ k : ℕ} (psh : Bool) (h : k ≠ at_) : (withPsh pkt at_ psh)[k]? = pkt[k]? := by
  unfold withPsh
  split_ifs
  · rw [List.getElem?_set_ne h.symm]
  · rfl

theorem getD_withPsh {at_ : ℕ} {psh : Bool} (h : at_ < pkt.length) :
    (withPsh pkt at_ psh).getD at_ 0 = if psh then pkt.getD at_ 0 ||| TCP_FLAG_PSH else pkt.getD at_ 0 := by
  unfold withPsh
  split_ifs
  · rw [List.getD_eq_getElem?_getD, List.getElem?_set_self h, Option.getD_some]
  · rfl

theorem drop_withPsh {at_ m : ℕ} (psh : Bool) (h : at_ < m) : (withPsh pkt at_ psh).drop m = pkt.drop m := by
  unfold withPsh
  split_ifs
  · rw [List.drop_set_of_lt h]
  · rfl

theorem length_withPsh (at_ : ℕ) (psh : Bool) : (withPsh pkt at_ psh).length = pkt.length := by
  unfold withPsh
  split_ifs <;> simp

theorem optionsDiffer_eq (hreads : Reads ip c) (hlen : c.iphlen + c.tcphlen ≤ b.pkt.length) :
    b.optionsDiffer ip c = .ok (decide ((ip.drop (c.iphlen + 20)).take (c.tcphlen - 20) ≠
      (b.pkt.drop (c.iphlen + 20)).take (c.tcphlen - 20))) := by
  have htcp := hreads.tcp
  have hparts := hreads.parts
  have hsub : c.iphlen + c.tcphlen - (c.iphlen + 20) = c.tcphlen - 20 := by omega
  rw [optionsDiffer]
  by_cases h20 : c.tcphlen ≤ 20
  · rw [if_pos h20, Nat.sub_eq_zero_of_le h20, List.take_zero, List.take_zero]
    simp [pure, Except.pure]
  · rw [if_neg h20, slice_eq (by omega) (by omega), ok_bind, slice_eq (by omega) hlen, ok_bind, hsub]
    rfl

end GroBucket

/-! ### What the bucket holds -/

/-- The bucket holds the packets `ps`, each with the payload length of the first and no PSH, and then
`last`. -/
structure Holds (b : GroBucket) (ps : List (List UInt8)) (last : List UInt8) : Prop where
  keyed : Keyed b (ps ++ [last])
  flow : ∀ p ∈ ps ++ [last], flowOf p = flowOf b.pkt
  size : b.pkt.length ≤ GRO_MAX_IP_LEN
  payloads : payloadOf b.pkt = ((ps ++ [last]).map payloadOf).flatten
  full : ∀ p ∈ ps, (payloadOf p).length = b.gso_size.toNat ∧ flagsOf p = TCP_FLAG_ACK
  last_le : (payloadOf last).length ≤ b.gso_size.toNat
  short_tail : b.short_tail = false → (payloadOf last).length = b.gso_size.toNat
  flags : flagsOf b.pkt = flagsOf last
  psh_set : flagsOf last = if b.psh_set then TCP_FLAG_ACK ||| TCP_FLAG_PSH else TCP_FLAG_ACK
  seqs : ∀ k p, (ps ++ [last])[k]? = some p → seqOf p = (seqOf b.pkt + k * b.gso_size.toNat) % 2 ^ 32
  next_seq : b.next_seq = UInt32.ofNat (seqOf b.pkt + (ps.length * b.gso_size.toNat + (payloadOf last).length))
  merged : b.num_merged = ps.length + 1

namespace Holds

variable {ps : List (List UInt8)} {last : List UInt8}

theorem reads_last (h : Holds b ps last) : ∃ d, Reads last d ∧ b.keyDiffers d = false :=
  h.keyed last (List.mem_append_right _ List.mem_cons_self)

theorem version_eq (h : Holds b ps last) : b.pkt.getD 0 0 >>> 4 = if b.is_v6 then 6 else 4 := by
  obtain ⟨d, hd, hkey⟩ := h.reads_last
  have hversion := congrArg Flow.version (h.flow last (List.mem_append_right _ List.mem_cons_self))
  rw [← (GroBucket.keyDiffers_eq_false.1 hkey).1, ← hd.version]
  exact hversion.symm

theorem iphlen_eq (h : Holds b ps last) : b.iphlen = if b.is_v6 then 40 else 20 := by
  obtain ⟨d, hd, hkey⟩ := h.reads_last
  obtain ⟨hv6, hiphlen, -⟩ := GroBucket.keyDiffers_eq_false.1 hkey
  rw [← hv6, ← hiphlen, hd.iphlen]

theorem ipLen_eq (h : Holds b ps last) : ipLen b.pkt = b.iphlen := by
  have hiff : isV6 b.pkt ↔ b.is_v6 = true := by
    rw [isV6, h.version_eq]
    cases b.is_v6 <;> simp
  rw [h.iphlen_eq, ipLen]
  simp only [hiff]

theorem tcpHdrLen_eq (h : Holds b ps last) : tcpHdrLen b.pkt = b.tcphlen ∧ 20 ≤ b.tcphlen := by
  obtain ⟨d, hd, hkey⟩ := h.reads_last
  have htcp := congrArg Flow.tcphlen (h.flow last (List.mem_append_right _ List.mem_cons_self))
  have hkeytcp := (GroBucket.keyDiffers_eq_false.1 hkey).2.2.1
  rw [← hkeytcp, ← hd.tcpHdrLen_eq]
  exact ⟨htcp.symm, hd.tcpHdrLen_eq ▸ hd.tcp⟩

theorem payload_pos (h : Holds b ps last) : 0 < (payloadOf last).length := by
  obtain ⟨d, hd, -⟩ := h.reads_last
  rw [hd.length_payloadOf]
  exact hd.payload

theorem length_pkt (h : Holds b ps last) :
    b.pkt.length = b.iphlen + b.tcphlen + (ps.length * b.gso_size.toNat + (payloadOf last).length) := by
  have hflat : ((ps ++ [last]).map payloadOf).flatten.length =
      ps.length * b.gso_size.toNat + (payloadOf last).length := by
    rw [List.map_append, List.map_singleton, length_flatten_concat, List.length_map]
    intro l hl
    obtain ⟨p, hp, rfl⟩ := List.mem_map.1 hl
    exact (h.full p hp).1
  have hpay := congrArg List.length h.payloads
  have hpos := h.payload_pos
  rw [hflat, payloadOf, List.length_drop, h.ipLen_eq, h.tcpHdrLen_eq.1] at hpay
  omega

theorem seed (hreads : Reads ip c) (h : b.seed ip c = .ok b') : Holds b' [] ip := by
  obtain ⟨hsize, hpkt, hkey, hnext, hgso, hpsh, hshort, hmerged⟩ := GroBucket.seed_eq h
  have hpay : (payloadOf ip).length = b'.gso_size.toNat := by
    rw [hgso, hreads.toNat_payload, hreads.length_payloadOf]
  have hsum : b'.next_seq = UInt32.ofNat (seqOf ip + (payloadOf ip).length) := by
    rw [hnext, hreads.seqOf_eq, ← UInt32.toNat_inj, UInt32.toNat_add, UInt16.toNat_toUInt32, hreads.toNat_payload,
      hreads.length_payloadOf, UInt32.toNat_ofNat', UInt32.toNat_ofNat']
    omega
  rw [← hpkt] at hreads hpay hsum hsize ⊢
  refine ⟨?_, ?_, hsize, by simp, by simp, hpay.le, fun _ => hpay, rfl, ?_, ?_, ?_, hmerged⟩
  · rintro p hp
    obtain rfl : p = b'.pkt := by simpa using hp
    exact ⟨c, hreads, hkey⟩
  · rintro p hp
    obtain rfl : p = b'.pkt := by simpa using hp
    rfl
  · rw [hreads.flagsOf_eq, hpsh]
  · rintro k p hk
    obtain ⟨rfl, rfl⟩ : k = 0 ∧ b'.pkt = p := by
      cases k with
      | zero => exact ⟨rfl, by simpa using hk⟩
      | succ k => simp at hk
    rw [Nat.zero_mul, Nat.add_zero]
    exact (Nat.mod_eq_of_lt (seqOf_lt _)).symm
  · rw [hsum]
    simp

/-- A packet that joins is of the flow of those in the bucket. -/
theorem flowOf_join (h : Holds b ps last) (hreads : Reads ip c) (hkey : b.keyDiffers c = false)
    (hopt : b.optionsDiffer ip c = .ok false) : flowOf ip = flowOf b.pkt := by
  obtain ⟨d, hd, hdkey⟩ := h.reads_last
  obtain ⟨hv6, hiphlen, htcphlen, hsport, hdport, hack, -⟩ := GroBucket.keyDiffers_eq_false.1 hkey
  obtain ⟨dv6, diphlen, dtcphlen, dsport, ddport, dack, -⟩ := GroBucket.keyDiffers_eq_false.1 hdkey
  have hlast := h.flow last (List.mem_append_right _ List.mem_cons_self)
  have hlen := h.length_pkt
  have hoptions : (ip.drop (b.iphlen + 20)).take (b.tcphlen - 20) =
      (b.pkt.drop (b.iphlen + 20)).take (b.tcphlen - 20) := by
    rw [GroBucket.optionsDiffer_eq hreads (by omega), hiphlen, htcphlen] at hopt
    simpa using hopt
  have hsame := congrArg Flow.options hlast
  rw [hd.flowOf_eq, flowOf, h.ipLen_eq, h.tcpHdrLen_eq.1, diphlen, dtcphlen] at hsame
  dsimp only at hsame
  rw [← hlast, hd.flowOf_eq, hreads.flowOf_eq, hv6, hsport, hdport, hack, hiphlen, htcphlen, dv6, dsport, ddport,
    dack, diphlen, dtcphlen, hoptions, hsame]

theorem append_header (h : Holds b ps last) (hreads : Reads ip c) (hkey : b.keyDiffers c = false)
    (happ : b.append ip c = .ok b') {k : ℕ} (hk : k < b.iphlen + b.tcphlen) (hne : k ≠ b.iphlen + 13) :
    b'.pkt[k]? = b.pkt[k]? := by
  have hiphlen := (GroBucket.keyDiffers_eq_false.1 hkey).2.1
  have hlen := h.length_pkt
  rw [(GroBucket.append_eq hreads happ).1, hiphlen, GroBucket.getElem?_withPsh _ hne,
    List.getElem?_append_left (by omega)]

theorem append_flags (h : Holds b ps last) (hreads : Reads ip c) (hj : b.Joins ip c)
    (happ : b.append ip c = .ok b') : b'.pkt.getD (b.iphlen + 13) 0 = flagsOf ip := by
  have hiphlen := (GroBucket.keyDiffers_eq_false.1 hj.key).2.1
  have hlen := h.length_pkt
  have htcp := h.tcpHdrLen_eq.2
  have hold : ∀ payload, (b.pkt ++ payload).getD (b.iphlen + 13) 0 = TCP_FLAG_ACK := by
    intro payload
    have hflags := h.flags
    rw [h.psh_set, hj.psh_set, flagsOf, h.ipLen_eq] at hflags
    rw [List.getD_append _ _ _ _ (by omega)]
    exact hflags
  rw [(GroBucket.append_eq hreads happ).1, hiphlen, GroBucket.getD_withPsh (by rw [List.length_append]; omega),
    hold, hreads.flagsOf_eq]

theorem append (h : Holds b ps last) (hreads : Reads ip c) (hj : b.Joins ip c)
    (happ : b.append ip c = .ok b') : Holds b' (ps ++ [last]) ip := by
  obtain ⟨hpkt, hkeys, hnext, hgso, hpsh, hshort, hmerged⟩ := GroBucket.append_eq hreads happ
  obtain ⟨-, hiphlen, htcphlen, -⟩ := GroBucket.keyDiffers_eq_false.1 hj.key
  obtain ⟨htcp, h20⟩ := h.tcpHdrLen_eq
  have hlen := h.length_pkt
  have hn := ipLen_ge b.pkt
  rw [h.ipLen_eq] at hn
  have hheader : ∀ k, k < b.iphlen + b.tcphlen → k ≠ b.iphlen + 13 → b'.pkt[k]? = b.pkt[k]? :=
    fun k hk hne => h.append_header hreads hj.key happ hk hne
  have hip' : ipLen b'.pkt = b.iphlen := by
    rw [ipLen_congr (hheader 0 (by omega) (by omega)), h.ipLen_eq]
  have htcp' : tcpHdrLen b'.pkt = b.tcphlen := by
    rw [tcpHdrLen_congr (hheader 0 (by omega) (by omega)) (by rw [h.ipLen_eq]; exact hheader _ (by omega) (by omega)),
      htcp]
  have hflow : flowOf b'.pkt = flowOf b.pkt := by
    refine flowOf_congr (htcp ▸ h20) ?_
    rw [h.ipLen_eq, htcp]
    exact fun k hk hin => hheader k hk (by unfold InFlow at hin; omega)
  have hseq : seqOf b'.pkt = seqOf b.pkt := by
    rw [seqOf, seqOf, hip', h.ipLen_eq]
    exact field_congr fun k _ _ => hheader k (by omega) (by omega)
  have hpay : payloadOf b'.pkt = payloadOf b.pkt ++ payloadOf ip := by
    rw [payloadOf, payloadOf, payloadOf, hip', htcp', h.ipLen_eq, htcp, hreads.ipLen_eq, hreads.tcpHdrLen_eq, hpkt,
      GroBucket.drop_withPsh _ (by omega), List.drop_append_of_le_length (by omega)]
  have hlast : (payloadOf last).length = b.gso_size.toNat := h.short_tail hj.short_tail
  have hsize : (payloadOf ip).length ≤ b.gso_size.toNat := by
    have hle := UInt16.le_iff_toNat_le.1 hj.gso_size
    rwa [hreads.toNat_payload, ← hreads.length_payloadOf] at hle
  have hnow : seqOf ip = (seqOf b.pkt + (ps.length + 1) * b.gso_size.toNat) % 2 ^ 32 := by
    have hto := congrArg UInt32.toNat (hreads.seqOf_eq.symm.trans (hj.seq.trans h.next_seq))
    rw [UInt32.toNat_ofNat', UInt32.toNat_ofNat', Nat.mod_eq_of_lt (seqOf_lt ip), hlast] at hto
    rw [Nat.add_mul, Nat.one_mul]
    exact hto
  constructor
  case keyed =>
    rintro p hp
    rw [hkeys]
    rcases List.mem_append.1 hp with hold | hnew
    · exact h.keyed p hold
    · exact ⟨c, List.mem_singleton.1 hnew ▸ hreads, hj.key⟩
  case flow =>
    rintro p hp
    rw [hflow]
    rcases List.mem_append.1 hp with hold | hnew
    · exact h.flow p hold
    · rw [List.mem_singleton.1 hnew]
      exact h.flowOf_join hreads hj.key hj.options
  case size =>
    have hfits := hj.fits
    have hparts := hreads.parts
    rw [hpkt, GroBucket.length_withPsh, List.length_append, List.length_drop]
    omega
  case payloads =>
    rw [hpay, h.payloads]
    simp
  case full =>
    rintro p hp
    rw [hgso]
    rcases List.mem_append.1 hp with hold | hnew
    · exact h.full p hold
    · rw [List.mem_singleton.1 hnew, h.psh_set, hj.psh_set]
      exact ⟨hlast, rfl⟩
  case last_le => rw [hgso]; exact hsize
  case short_tail =>
    intro hno
    rw [hshort, hj.short_tail, Bool.or_false, decide_eq_false_iff_not, UInt16.not_lt] at hno
    have hge := UInt16.le_iff_toNat_le.1 hno
    rw [hreads.toNat_payload, ← hreads.length_payloadOf] at hge
    rw [hgso]
    omega
  case flags => rw [flagsOf, hip', h.append_flags hreads hj happ]
  case psh_set => rw [hreads.flagsOf_eq, hpsh, hj.psh_set, Bool.or_false]
  case seqs =>
    intro k p hk
    rw [hgso, hseq]
    rcases Nat.lt_or_ge k (ps ++ [last]).length with hlt | hge
    · rw [List.getElem?_append_left hlt] at hk
      exact h.seqs k p hk
    · rw [List.getElem?_append_right hge] at hk
      obtain ⟨hz, rfl⟩ : k - (ps ++ [last]).length = 0 ∧ ip = p := by
        rcases hd : k - (ps ++ [last]).length with _ | j
        · rw [hd] at hk
          exact ⟨rfl, by simpa using hk⟩
        · rw [hd] at hk
          simp at hk
      obtain rfl : k = ps.length + 1 := by
        rw [List.length_append, List.length_singleton] at hz hge
        omega
      exact hnow
  case next_seq =>
    rw [hnext, h.next_seq, hseq, hgso, hlast, ← UInt32.toNat_inj, UInt32.toNat_add, UInt16.toNat_toUInt32,
      hreads.toNat_payload, ← hreads.length_payloadOf, UInt32.toNat_ofNat', UInt32.toNat_ofNat', List.length_append,
      List.length_singleton, Nat.add_mul, Nat.one_mul]
    omega
  case merged =>
    rw [hmerged, h.merged, List.length_append, List.length_singleton]

/-- There are at most as many packets as bytes of payload. -/
theorem length_le (h : Holds b ps last) : ps.length + 1 + (b.iphlen + b.tcphlen) ≤ b.pkt.length := by
  have hlen := h.length_pkt
  have hpos := h.payload_pos
  have hle := h.last_le
  have hmul : ps.length ≤ ps.length * b.gso_size.toNat := Nat.le_mul_of_pos_right _ (by omega)
  omega

theorem append_total (h : Holds b ps last) (hreads : Reads ip c) (hj : b.Joins ip c) :
    ∃ b', b.append ip c = .ok b' := by
  have hiphlen := (GroBucket.keyDiffers_eq_false.1 hj.key).2.1
  have hparts := hreads.parts
  have htcp := h.tcpHdrLen_eq.2
  have hle := h.length_le
  have hsize := h.size
  have hmerged := h.merged
  have hret : Returns (b.append ip c) fun _ => True := by
    simp only [GroBucket.append, returns_bind, returns_slice, returns_pure, returns_add, and_true]
    refine ⟨⟨by omega, le_rfl⟩, ?_⟩
    refine Returns.mono (Q := fun _ => True) ?_ fun _ _ => by simp only [GRO_MAX_IP_LEN] at hsize; omega
    simp only [GroBucket.pushFlag, returns_ite, returns_bind, returns_load, returns_store, returns_pure, and_true,
      List.length_append]
    exact ⟨fun _ => ⟨by omega, by omega⟩, fun _ => trivial⟩
  obtain ⟨b', happ, -⟩ := hret
  exact ⟨b', happ⟩

/-- Nothing that is offered to a bucket with packets in it stops the program. -/
theorem offer_total (h : Holds b ps last) (ip : List UInt8) : ∃ r, b.offer ip = .ok r := by
  obtain ⟨r, hr, hreads⟩ := classify_returns ip
  have hlen := h.length_le
  have hne : b.pkt ≠ [] := fun hnil => by
    rw [hnil, List.length_nil] at hlen
    omega
  rw [GroBucket.offer, hr, ok_bind]
  cases r with
  | none => exact ⟨_, rfl⟩
  | some c =>
    have hc := hreads c rfl
    dsimp only
    rw [if_neg hne]
    by_cases hkey : b.keyDiffers c = true
    · rw [if_pos hkey]
      exact ⟨_, rfl⟩
    obtain ⟨-, hiphlen, htcphlen, -⟩ := GroBucket.keyDiffers_eq_false.1 (by simpa using hkey)
    have hopt := @GroBucket.optionsDiffer_eq ip c b hc (by omega)
    rw [if_neg hkey, hopt, ok_bind]
    split_ifs with hdiffer hseq htail hsize hfits
    · exact ⟨_, rfl⟩
    · exact ⟨_, rfl⟩
    · exact ⟨_, rfl⟩
    · exact ⟨_, rfl⟩
    · exact ⟨_, rfl⟩
    · obtain ⟨hpsh, hshort⟩ : b.psh_set = false ∧ b.short_tail = false := by simpa using htail
      obtain ⟨b', happ⟩ := h.append_total hc ⟨hne, by simpa using hkey, by rw [hopt]; simpa using hdiffer,
        by simpa using hseq, hpsh, hshort, UInt16.not_lt.1 hsize, Nat.not_lt.1 hfits⟩
      rw [happ]
      exact ⟨_, rfl⟩

/-! ### Flushing -/

/-- Of the IP header the first byte stays, and what follows it. -/
theorem fixIp_returns (h : Holds b ps last) : Returns b.fixIp fun f => f.length = b.pkt.length ∧
    ∀ k, k = 0 ∨ b.iphlen ≤ k → f[k]? = b.pkt[k]? := by
  have hiphlen := h.iphlen_eq
  have hlen := h.length_le
  have hsize := h.size
  have hmod : b.pkt.length % 2 ^ 16 = b.pkt.length := Nat.mod_eq_of_lt (by simp only [GRO_MAX_IP_LEN] at hsize; omega)
  rw [GroBucket.fixIp, hmod]
  cases hv : b.is_v6 with
  | true =>
    rw [hv, if_pos rfl] at hiphlen
    simp only [if_true, returns_bind, returns_sub, returns_copyTo, BigEndian.length_encode]
    refine ⟨by omega, ⟨by omega, by omega, trivial⟩, ?_, fun k hk => ?_⟩
    · rw [length_patch (by rw [BigEndian.length_encode]; omega)]
    · rw [getElem?_patch_of_not (by rw [BigEndian.length_encode]; omega) (by rw [BigEndian.length_encode]; omega)]
  | false =>
    rw [hv, if_neg (by simp)] at hiphlen
    simp only [Bool.false_eq_true, if_false, returns_bind, returns_copyTo, BigEndian.length_encode]
    refine ⟨⟨by omega, by omega, trivial⟩, ?_⟩
    obtain ⟨f, hf⟩ : ∃ f, f = patch b.pkt 2 (BigEndian.encode 2 b.pkt.length) := ⟨_, rfl⟩
    have hflen : f.length = b.pkt.length := by rw [hf, length_patch (by rw [BigEndian.length_encode]; omega)]
    have htake : (f.take b.iphlen).length = b.iphlen := by rw [List.length_take]; omega
    have hwrite := @ipv4WriteCsum_returns b.iphlen (f.take b.iphlen) (f.drop b.iphlen) htake (by omega) (by omega)
    rw [List.take_append_drop] at hwrite
    rw [← hf]
    refine hwrite.mono ?_
    rintro _ ⟨csum, -, rfl⟩
    rw [← patch_append_left (by rw [htake, BigEndian.length_encode]; omega), List.take_append_drop]
    refine ⟨by rw [length_patch (by rw [BigEndian.length_encode]; omega), hflen], fun k hk => ?_⟩
    rw [getElem?_patch_of_not (by rw [BigEndian.length_encode]; omega) (by rw [BigEndian.length_encode]; omega), hf,
      getElem?_patch_of_not (by rw [BigEndian.length_encode]; omega) (by rw [BigEndian.length_encode]; omega)]

/-- Behind the IP header only the checksum changes. -/
theorem fixUp_returns (h : Holds b ps last) : Returns b.fixUp fun f => f.length = b.pkt.length ∧
    ∀ k, k = 0 ∨ b.iphlen ≤ k ∧ (k < b.iphlen + 16 ∨ b.iphlen + 18 ≤ k) → f[k]? = b.pkt[k]? := by
  have hlen := h.length_le
  have htcp := h.tcpHdrLen_eq.2
  have hspan : (ipAddrSpan b.is_v6).1 + (ipAddrSpan b.is_v6).2 = b.iphlen ∧ (ipAddrSpan b.is_v6).2 ≤ 32 ∧
      b.iphlen ≤ 40 := by
    rw [h.iphlen_eq]
    cases b.is_v6 <;> simp [ipAddrSpan]
  obtain ⟨f, hf, hflen, hkept⟩ := h.fixIp_returns
  rw [GroBucket.fixUp, hf, ok_bind]
  dsimp only
  rw [sub_eq (by omega), ok_bind, slice_eq (by omega) (by omega), ok_bind]
  obtain ⟨addrs, haddrs⟩ : ∃ addrs, addrs = (f.drop (ipAddrSpan b.is_v6).1).take
      ((ipAddrSpan b.is_v6).1 + (ipAddrSpan b.is_v6).2 - (ipAddrSpan b.is_v6).1) := ⟨_, rfl⟩
  have hlen32 : addrs.length ≤ 32 := by
    rw [haddrs, List.length_take]
    omega
  have hsum := total_le addrs
  have hmod : (f.length - b.iphlen) % 2 ^ 16 < 2 ^ 16 := Nat.mod_lt _ (by norm_num)
  rw [← haddrs, pseudoHeaderChecksum_eq hlen32 hmod, ok_bind, fold16_eq (by omega), ok_bind]
  simp only [returns_copyTo, BigEndian.length_encode]
  refine ⟨⟨by omega, by omega, by omega⟩, ?_, fun k hk => ?_⟩
  · rw [length_patch (by rw [BigEndian.length_encode]; omega), hflen]
  · rw [getElem?_patch_of_not (by rw [BigEndian.length_encode]; omega) (by rw [BigEndian.length_encode]; omega)]
    exact hkept k (by omega)

theorem fixed (h : Holds b ps last) {f : List UInt8} (hlen : f.length = b.pkt.length)
    (hf : ∀ k, k = 0 ∨ b.iphlen ≤ k ∧ (k < b.iphlen + 16 ∨ b.iphlen + 18 ≤ k) → f[k]? = b.pkt[k]?) :
    flowOf f = flowOf b.pkt ∧ ipLen f = b.iphlen ∧ tcpHdrLen f = b.tcphlen ∧ seqOf f = seqOf b.pkt ∧
      flagsOf f = flagsOf b.pkt ∧ payloadOf f = payloadOf b.pkt := by
  obtain ⟨htcp, h20⟩ := h.tcpHdrLen_eq
  have hip : ipLen f = b.iphlen := by rw [ipLen_congr (hf 0 (.inl rfl)), h.ipLen_eq]
  have htcp' : tcpHdrLen f = b.tcphlen := by
    rw [tcpHdrLen_congr (hf 0 (.inl rfl)) (by rw [h.ipLen_eq]; exact hf _ (by omega)), htcp]
  refine ⟨flowOf_congr (htcp ▸ h20) fun k _ hin => ?_, hip, htcp', ?_, ?_, ?_⟩
  · rw [h.ipLen_eq] at hin
    exact hf k (by unfold InFlow at hin; omega)
  · rw [seqOf, seqOf, hip, h.ipLen_eq]
    exact field_congr fun k _ _ => hf k (by omega)
  · rw [flagsOf, flagsOf, hip, h.ipLen_eq]
    exact getD_congr (hf _ (by omega))
  · rw [payloadOf, payloadOf, hip, htcp', h.ipLen_eq, htcp]
    apply List.ext_getElem?
    intro k
    rw [List.getElem?_drop, List.getElem?_drop]
    exact hf _ (by omega)

/-- Segment `k` is the packet that was the `k`th to go in. -/
theorem tcpOf_segment (h : Holds b ps last) {f : List UInt8} (hlen : f.length = b.pkt.length)
    (hf : ∀ k, k = 0 ∨ b.iphlen ≤ k ∧ (k < b.iphlen + 16 ∨ b.iphlen + 18 ≤ k) → f[k]? = b.pkt[k]?)
    (hh : Headers f b.iphlen) {k : ℕ} {p seg : List UInt8} (hp : (ps ++ [last])[k]? = some p)
    (hseg : Segment f b.is_v6 b.iphlen b.gso_size.toNat k (decide (k + 1 = ps.length + 1))
      (chunk f (b.iphlen + tcpLen f b.iphlen) b.gso_size.toNat k) seg) : tcpOf seg = tcpOf p := by
  obtain ⟨hflow, hip, htcp, hseq, hflags, hpay⟩ := h.fixed hlen hf
  have hmem : p ∈ ps ++ [last] := List.mem_of_getElem? hp
  have htcpf : tcpLen f b.iphlen = b.tcphlen := by rw [← htcp, tcpHdrLen, hip]
  have h20 : 20 ≤ tcpHdrLen f := by rw [htcp]; exact h.tcpHdrLen_eq.2
  have hcopied : ∀ k < ipLen f + tcpHdrLen f, InFlow (ipLen f) k → seg[k]? = f[k]? := by
    intro k hk hin
    rw [hip] at hk hin
    exact hseg.copied hh (by rw [htcpf, ← htcp]; exact hk) (hin.not_rewritten hh.ip)
  have hflowSeg : flowOf seg = flowOf p := by
    rw [flowOf_congr h20 hcopied, hflow, h.flow p hmem]
  have hipSeg : ipLen seg = b.iphlen := by
    rw [ipLen_congr (hcopied 0 (by have := hh.ip; omega) (.inl rfl)), hip]
  have htcpSeg : tcpHdrLen seg = b.tcphlen := by
    have hsame := congrArg Flow.tcphlen (hflowSeg.trans ((h.flow p hmem).trans hflow.symm))
    exact hsame.trans htcp
  have hseqSeg : seqOf seg = seqOf p := by
    rw [h.seqs k p hp, ← hseq, seqOf, seqOf, hipSeg, hip, hseg.seq hh]
  have hflagsSeg : flagsOf seg = flagsOf p := by
    have hbyte : flagsOf seg = if k = ps.length then flagsOf f else flagsOf f &&& ~~~ 0x09 := by
      have hin : b.iphlen + 13 < f.length := by have := hh.pkt; omega
      rw [flagsOf, flagsOf, hipSeg, hip, List.getD_eq_getElem?_getD, hseg.flags hh, List.getElem?_eq_getElem hin,
        List.getD_eq_getElem?_getD, List.getElem?_eq_getElem hin]
      simp
    rw [hbyte, hflags, h.flags]
    rcases Nat.lt_or_ge k ps.length with hlt | hge
    · -- not the last one: only ACK is left, which is what it had
      rw [List.getElem?_append_left hlt] at hp
      rw [if_neg (by omega), (h.full p (List.mem_of_getElem? hp)).2, h.psh_set]
      cases b.psh_set <;> decide
    · rw [List.getElem?_append_right hge, List.getElem?_singleton] at hp
      obtain ⟨hk, rfl⟩ : k - ps.length = 0 ∧ last = p := by simpa using hp
      rw [if_pos (by omega)]
  have hpaySeg : payloadOf seg = payloadOf p := by
    have hfull : ∀ l ∈ ps.map payloadOf, l.length = b.gso_size.toNat := by
      intro l hl
      obtain ⟨q, hq, rfl⟩ := List.mem_map.1 hl
      exact (h.full q hq).1
    have hslice := @slice_flatten_concat _ (ps.map payloadOf) (payloadOf last) (payloadOf p) b.gso_size.toNat k hfull
      h.last_le (by rw [← List.map_singleton, ← List.map_append, List.getElem?_map, hp]; rfl)
    rw [← List.map_singleton, ← List.map_append, ← h.payloads, ← hpay, payloadOf, hip, htcp, List.drop_drop] at hslice
    rw [payloadOf, hipSeg, htcpSeg, ← htcpf, hseg.drop_headers hh, chunk, htcpf]
    exact hslice
  rw [tcpOf, tcpOf, hflowSeg, hseqSeg, hflagsSeg, hpaySeg]

end Holds

/-! ### Reading it back -/

/-- The kinds that `gso` knows; any other is read like the first. -/
def gso (hdr : VirtioNetHdr) : Option GsoType :=
  if hdr.gso_type = 0 then some .none
  else if hdr.gso_type = GroBucket.VIRTIO_NET_HDR_GSO_TCPV4 then some .tcpV4
  else if hdr.gso_type = GroBucket.VIRTIO_NET_HDR_GSO_TCPV6 then some .tcpV6
  else none

def needsCsum (hdr : VirtioNetHdr) : Bool := hdr.flags &&& GroBucket.VIRTIO_NET_HDR_F_NEEDS_CSUM ≠ 0

def gsoNoneChecksum (pkt : List UInt8) (csum_start csum_offset : UInt16) : Checked (List UInt8) := do
  let csum_at := csum_start.toNat + csum_offset.toNat
  if pkt.length < csum_at + 2 then return pkt
  let initial := BigEndian.decode [← load pkt csum_at, ← load pkt (csum_at + 1)]
  let pkt ← store (← store pkt csum_at 0) (csum_at + 1) 0
  let sum ← checksum (← slice pkt csum_start.toNat pkt.length) initial
  copyTo pkt csum_at (csum_at + 2) (BigEndian.encode 2 sum.toNat)

/-- The checksum completed, if that was left to the device. -/
def completed (hdr : VirtioNetHdr) (pkt : List UInt8) : Checked (List UInt8) :=
  if needsCsum hdr then gsoNoneChecksum pkt hdr.csum_start hdr.csum_offset else return pkt

/-- `drain` with the split that follows it for a super-packet: the IP packets that a device with these
bytes in it delivers. -/
def drain (hdr : VirtioNetHdr) (pkt out : List UInt8) (stride : ℕ) (lens : List ℕ) :
    Checked (Option (List (List UInt8))) := do
  if pkt.length = 0 then return none
  match gso hdr with
  | some .tcpV4 => split .tcpV4
  | some .tcpV6 => split .tcpV6
  | some .none | none => do
    let pkt ← completed hdr pkt
    let version := (← load pkt 0) >>> 4
    return if version = 4 ∨ version = 6 then some [pkt] else none
where
  split (gso_type : GsoType) : Checked (Option (List (List UInt8))) := do
    match ← tsoSplit pkt hdr gso_type out stride lens with
    | (.ok n, out, lens) => return some (slots out stride lens n)
    | (.error _, _, _) => return none

def Roomy (hdr : VirtioNetHdr) (pkt out : List UInt8) (stride : ℕ) (lens : List ℕ) : Prop :=
  gso hdr ≠ some .none → RoomFor pkt hdr stride out lens

/-- What is read back is what TCP sees in the packets that went in, and PSH is on none but the last. -/
def Restored (hdr : VirtioNetHdr) (pkt : List UInt8) (group : List (List UInt8)) : Prop :=
  ∀ out stride lens, Roomy hdr pkt out stride lens → Returns (drain hdr pkt out stride lens) fun r =>
    ∃ qs, r = some qs ∧ qs.map tcpOf = group.map tcpOf ∧ ∀ q ∈ qs.dropLast, flagsOf q &&& TCP_FLAG_PSH = 0

variable {ps : List (List UInt8)} {last : List UInt8}

theorem count_concat {g n m : ℕ} (hm : 0 < m) (hle : m ≤ g) : count (n * g + m) g = n + 1 := by
  have hg : 0 < g := by omega
  refine le_antisymm ?_ ?_
  · rw [← Nat.not_lt, lt_count_iff hg, Nat.add_mul]
    omega
  · rw [Nat.succ_le_iff, lt_count_iff hg]
    omega

namespace Holds

theorem headers (h : Holds b ps last) {f : List UInt8} (hlen : f.length = b.pkt.length)
    (htcp : tcpLen f b.iphlen = b.tcphlen) : Headers f b.iphlen := by
  have hle := h.length_le
  have hip := h.iphlen_eq
  have h60 := tcpLen_le f b.iphlen
  rw [htcp] at h60
  have hcases : b.iphlen = 40 ∨ b.iphlen = 20 := by
    rw [hip]
    cases b.is_v6 <;> simp
  refine ⟨by omega, by omega, by rw [htcp]; exact h.tcpHdrLen_eq.2, by omega, by omega⟩

theorem no_psh (h : Holds b ps last) {qs : List (List UInt8)} (hq : qs.map tcpOf = (ps ++ [last]).map tcpOf) :
    ∀ q ∈ qs.dropLast, flagsOf q &&& TCP_FLAG_PSH = 0 := by
  intro q hmem
  have hin : tcpOf q ∈ ps.map tcpOf := by
    have hmap : tcpOf q ∈ (qs.dropLast).map tcpOf := List.mem_map_of_mem hmem
    rwa [List.map_dropLast, hq, List.map_append, List.map_singleton, List.dropLast_concat] at hmap
  obtain ⟨p, hp, hpq⟩ := List.mem_map.1 hin
  have hflags : flagsOf p = flagsOf q := congrArg Tcp.flags hpq
  rw [← hflags, (h.full p hp).2]
  decide

theorem restored_split (h : Holds b ps last) {f : List UInt8} (hf : b.fixUp = .ok f) :
    Restored b.gsoHdr f (ps ++ [last]) := by
  obtain ⟨f', hf', hlen, hkept⟩ := h.fixUp_returns
  obtain rfl : f' = f := Except.ok.inj (hf'.symm.trans hf)
  obtain ⟨-, hip, htcp, -⟩ := h.fixed hlen hkept
  have htcpf : tcpLen f' b.iphlen = b.tcphlen := by rw [← htcp, tcpHdrLen, hip]
  have hh := h.headers hlen htcpf
  have hle := h.length_le
  have hcases : b.iphlen ≤ 40 := by
    rw [h.iphlen_eq]
    cases b.is_v6 <;> simp
  have hn : b.gsoHdr.csum_start.toNat = b.iphlen := UInt16.toNat_ofNat_of_lt' (by simp only [UInt16.size]; omega)
  have hgso : gso b.gsoHdr = some (gsoOf b.is_v6) := by
    unfold GroBucket.gsoHdr
    cases b.is_v6 <;> rfl
  have hversion : versionOk b.is_v6 (f'.getD 0 0 >>> 4) = true := by
    rw [getD_congr (hkept 0 (.inl rfl)), h.version_eq]
    cases b.is_v6 <;> rfl
  intro out stride lens hroom
  have hroom := hroom (by rw [hgso]; cases b.is_v6 <;> simp [gsoOf])
  have hN : count (f'.length - (b.iphlen + tcpLen f' b.iphlen)) b.gso_size.toNat = ps.length + 1 := by
    have hpkt := h.length_pkt
    rw [htcpf, hlen, hpkt, Nat.add_sub_cancel_left]
    exact count_concat h.payload_pos h.last_le
  have hg : b.gsoHdr.gso_size = b.gso_size := rfl
  rw [RoomFor, VirtioNetHdr.iphlen, VirtioNetHdr.mss, hn, hg, hN] at hroom
  have hsize := h.size
  obtain ⟨out', lens', hrun, -, hfilled⟩ := split_filled hn.symm hh hversion rfl
    (h.payload_pos.trans_le h.last_le) (by simp only [GRO_MAX_IP_LEN] at hsize; omega) hN.symm hroom
  have hdrain : drain b.gsoHdr f' out stride lens = .ok (some (slots out' stride lens' (ps.length + 1))) := by
    have hsplit : drain.split b.gsoHdr f' out stride lens (gsoOf b.is_v6) =
        .ok (some (slots out' stride lens' (ps.length + 1))) := by
      rw [drain.split, tsoSplit_gsoOf, hrun]
      rfl
    rw [drain, if_neg (by omega), hgso, ← hsplit]
    cases b.is_v6 <;> rfl
  have htcps : (slots out' stride lens' (ps.length + 1)).map tcpOf = (ps ++ [last]).map tcpOf := by
    apply List.ext_getElem?
    intro k
    rcases Nat.lt_or_ge k (ps.length + 1) with hlt | hge
    · have hin : k < (ps ++ [last]).length := by simpa using hlt
      have hp := List.getElem?_eq_getElem hin
      have hseg := h.tcpOf_segment hlen hkept hh hp (hfilled k hlt).slot
      rw [List.getElem?_map, List.getElem?_map, hp, slots, List.getElem?_map, List.getElem?_range hlt]
      exact congrArg some hseg
    · rw [List.getElem?_eq_none (by simpa [slots] using hge), List.getElem?_eq_none (by simpa using hge)]
  exact ⟨_, hdrain, _, rfl, htcps, h.no_psh htcps⟩

theorem restored_single (h : Holds b ps last) (hsingle : b.num_merged ≤ 1) :
    Restored ⟨0, 0, 0, 0, 0, 0⟩ b.pkt (ps ++ [last]) := by
  intro out stride lens _
  have hlen := h.length_le
  obtain rfl : ps = [] := by
    rw [h.merged] at hsingle
    exact List.length_eq_zero_iff.1 (by omega)
  have hdrain : drain ⟨0, 0, 0, 0, 0, 0⟩ b.pkt out stride lens = .ok (some [b.pkt]) := by
    have hload : load b.pkt 0 = .ok (b.pkt.getD 0 0) := load_getD (by omega)
    have hcompleted : completed ⟨0, 0, 0, 0, 0, 0⟩ b.pkt = .ok b.pkt := rfl
    have hgso : gso ⟨0, 0, 0, 0, 0, 0⟩ = some .none := rfl
    rw [drain, if_neg (by omega), hgso]
    dsimp only
    rw [hcompleted, ok_bind, hload, ok_bind, h.version_eq]
    cases b.is_v6 <;> rfl
  have htcps : [b.pkt].map tcpOf = ([] ++ [last]).map tcpOf := by
    have hmem : last ∈ [] ++ [last] := List.mem_cons_self
    have hseq : seqOf b.pkt = seqOf last := by
      have h0 := h.seqs 0 last rfl
      rw [h0, Nat.zero_mul, Nat.add_zero, Nat.mod_eq_of_lt (seqOf_lt _)]
    have hpay : payloadOf b.pkt = payloadOf last := by
      rw [h.payloads]
      simp
    rw [List.nil_append, List.map_singleton, List.map_singleton, tcpOf, tcpOf, h.flow last hmem, hseq, h.flags, hpay]
  exact ⟨_, hdrain, _, rfl, htcps, h.no_psh htcps⟩

theorem flush (h : Holds b ps last) : Returns b.flush fun r =>
    ∃ hdr pkt, r = (some (hdr, pkt), { b with pkt := [] }) ∧ Restored hdr pkt (ps ++ [last]) := by
  have hlen := h.length_le
  have hne : b.pkt ≠ [] := fun hnil => by
    rw [hnil, List.length_nil] at hlen
    omega
  rw [GroBucket.flush, if_neg hne]
  by_cases hmerged : 1 < b.num_merged
  · obtain ⟨f, hf, -⟩ := h.fixUp_returns
    rw [if_pos hmerged, hf, ok_bind]
    exact returns_pure.2 ⟨_, _, rfl, h.restored_split hf⟩
  · rw [if_neg hmerged]
    exact returns_pure.2 ⟨_, _, rfl, h.restored_single (Nat.not_lt.1 hmerged)⟩

end Holds

/-! ### Runs -/

def offers (es : List Event) : List (List UInt8) :=
  es.filterMap fun
    | .offer ip => some ip
    | .flush => none

/-- After the events `es`: what the bucket holds, that every super-packet is read back as what went into
it, and where each packet is. -/
structure Run.Kept (es : List Event) (r : Run) : Prop where
  bucket : r.bucket.pkt = [] ∧ r.held = [] ∨ ∃ ps last, r.held = ps ++ [last] ∧ Holds r.bucket ps last
  flushed : ∀ out ∈ r.flushed, Restored out.1.1 out.1.2 out.2
  parts : (r.flushed.map Prod.snd).flatten ++ r.held = r.coalesced
  order : r.coalesced.Sublist (offers es)
  all : (offers es).Perm (r.coalesced ++ r.returned)

namespace Run.Kept

variable {es : List Event} {r r' : Run}

theorem start : Run.Kept [] Run.start :=
  ⟨.inl ⟨rfl, rfl⟩, by simp [Run.start], rfl, .slnil, .nil⟩

theorem seed_total (hfit : ip.length ≤ GRO_MAX_IP_LEN) (hempty : b.pkt = []) : ∃ r, b.offer ip = .ok r := by
  obtain ⟨c?, hc, -⟩ := classify_returns ip
  rw [GroBucket.offer, hc, ok_bind]
  cases c? with
  | none => exact ⟨_, rfl⟩
  | some c =>
    dsimp only
    rw [if_pos hempty, GroBucket.seed, if_neg (Nat.not_lt.2 hfit)]
    exact ⟨_, rfl⟩

theorem returned (h : Run.Kept es r) : Run.Kept (es ++ [.offer ip]) { r with returned := r.returned ++ [ip] } := by
  have hoffers : offers (es ++ [.offer ip]) = offers es ++ [ip] := by simp [offers]
  refine ⟨h.bucket, h.flushed, h.parts, ?_, ?_⟩
  · rw [hoffers]
    exact h.order.trans (List.sublist_append_left _ _)
  · rw [hoffers, ← List.append_assoc]
    exact h.all.append_right [ip]

theorem coalesced (h : Run.Kept es r) (hb : ∃ ps last, r.held ++ [ip] = ps ++ [last] ∧ Holds b' ps last) :
    Run.Kept (es ++ [.offer ip])
      { r with bucket := b', held := r.held ++ [ip], coalesced := r.coalesced ++ [ip] } := by
  have hoffers : offers (es ++ [.offer ip]) = offers es ++ [ip] := by simp [offers]
  refine ⟨.inr hb, h.flushed, ?_, ?_, ?_⟩
  · dsimp only
    rw [← List.append_assoc, h.parts]
  · rw [hoffers]
    exact h.order.append (List.Sublist.refl _)
  · rw [hoffers]
    refine (h.all.append_right [ip]).trans ?_
    rw [List.append_assoc, List.append_assoc]
    exact List.Perm.append_left _ List.perm_append_comm

theorem offer (h : Run.Kept es r) (hfit : ip.length ≤ GRO_MAX_IP_LEN) :
    Returns (r.step (.offer ip)) (Run.Kept (es ++ [.offer ip])) := by
  obtain ⟨⟨verdict, b'⟩, hoffer⟩ : ∃ res, r.bucket.offer ip = .ok res := by
    rcases h.bucket with ⟨hempty, -⟩ | ⟨ps, last, -, hholds⟩
    · exact seed_total hfit hempty
    · exact hholds.offer_total ip
  rw [Run.step, hoffer, ok_bind]
  dsimp only
  rcases GroBucket.offer_cases hoffer with ⟨hv, rfl⟩ | ⟨hv, c, hreads, ⟨hempty, hseed⟩ | ⟨hjoins, happend⟩⟩
  · rw [if_neg hv]
    exact returns_pure.2 h.returned
  · rw [if_pos hv]
    refine returns_pure.2 (h.coalesced ⟨[], ip, ?_, Holds.seed hreads hseed⟩)
    rcases h.bucket with ⟨-, hnone⟩ | ⟨ps, last, -, hholds⟩
    · rw [hnone]
    · have hlen := hholds.length_le
      rw [hempty, List.length_nil] at hlen
      omega
  · rw [if_pos hv]
    refine returns_pure.2 (h.coalesced ?_)
    rcases h.bucket with ⟨hempty, -⟩ | ⟨ps, last, hheld, hholds⟩
    · exact absurd hempty hjoins.nonempty
    · exact ⟨ps ++ [last], ip, by rw [hheld], hholds.append hreads hjoins happend⟩

theorem flush (h : Run.Kept es r) :
    Returns (r.step .flush) fun r' => Run.Kept (es ++ [.flush]) r' ∧ r'.held = [] := by
  have hoffers : offers (es ++ [.flush]) = offers es := by simp [offers]
  rw [Run.step]
  rcases h.bucket with ⟨hempty, hnone⟩ | ⟨ps, last, hheld, hholds⟩
  · rw [GroBucket.flush, if_pos hempty]
    refine returns_pure.2 ⟨⟨.inl ⟨hempty, hnone⟩, h.flushed, h.parts, ?_, ?_⟩, hnone⟩
    · rw [hoffers]
      exact h.order
    · rw [hoffers]
      exact h.all
  · obtain ⟨_, hrun, hdr, pkt, rfl, hrestored⟩ := hholds.flush
    rw [hrun, ok_bind]
    refine returns_pure.2 ⟨⟨.inl ⟨rfl, rfl⟩, ?_, ?_, ?_, ?_⟩, rfl⟩
    · intro out hout
      rcases List.mem_append.1 hout with hold | hnew
      · exact h.flushed out hold
      · rw [List.mem_singleton.1 hnew, hheld]
        exact hrestored
    · rw [← h.parts]
      simp
    · rw [hoffers]
      exact h.order
    · rw [hoffers]
      exact h.all

theorem events (hfit : ∀ ip, .offer ip ∈ es → ip.length ≤ GRO_MAX_IP_LEN) :
    Returns (Run.start.events es) (Run.Kept es) := by
  refine foldlM_returns es start fun done e r he hkept => ?_
  cases e with
  | offer ip => exact hkept.offer (hfit ip he)
  | flush => exact hkept.flush.mono fun _ hr => hr.1

end Run.Kept

/-- An IPv6 packet of 65536 bytes, which its length field allows. -/
def v6Long : List UInt8 :=
  [0x60, 0, 0, 0, 0xFF, 0xD8, 6, 64] ++ List.replicate 32 1 ++
    [0, 1, 0, 2, 0, 0, 0, 0, 0, 0, 0, 9, 0x50, 0x10, 0, 64, 0, 0, 0, 0] ++ List.replicate 65476 7

theorem length_v6Long : v6Long.length = 65536 := by
  rw [v6Long, List.length_append, List.length_append, List.length_append, List.length_replicate, List.length_replicate]
  rfl

theorem classify_v6Long : ∃ c, classify v6Long = .ok (some c) := by
  have hlen := length_v6Long
  have hfamily : readFamily v6Long = .ok (some true) := by
    rw [readFamily, if_neg (by omega), load_getD (by omega), ok_bind, if_neg (by decide +kernel), if_pos (by decide +kernel),
      load_getD (by omega), ok_bind, if_neg (by rw [hlen]; decide +kernel), be16_field (by omega) (by omega), ok_bind,
      if_neg (by rw [hlen]; decide +kernel)]
    rfl
  have htcp : (v6Long.getD 52 0 >>> 4).toNat * 4 = 20 := by decide +kernel
  rw [classify, hfamily, ok_bind]
  simp only [if_true, ipAddrSpan]
  rw [load_getD (by omega), ok_bind, htcp, if_neg (by omega), load_getD (by omega), ok_bind, if_neg (by decide +kernel),
    sub_eq (by omega), ok_bind, sub_eq (by omega), ok_bind, if_neg (by omega), be32_field (by omega) (by omega), ok_bind,
    be32_field (by omega) (by omega), ok_bind, be16_field (by omega) (by omega), ok_bind, be16_field (by omega) (by omega),
    ok_bind, slice_eq (by omega) (by omega), ok_bind, load_getD (by omega), ok_bind, load_getD (by omega), ok_bind,
    load_getD (by omega), ok_bind, load_getD (by omega), ok_bind, load_getD (by omega), ok_bind]
  exact ⟨_, rfl⟩

end Tincr.Gro

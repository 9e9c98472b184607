import Tincr.Packet.Mss
import Tincr.Packet.TsoSegment

/-!
What the clamp does to the TCP segment of a frame: which bytes it changes, to what, and whether a
checksum that verified still does. The checksum is updated as if the two bytes of the MSS were one
word of the sum. They are when the option starts at an even offset; at an odd one the sum counts them
the other way round, and the update is right only if the swap makes no difference modulo `0xffff`.
-/

namespace Tincr.Mss

open Checked OnesComplement

/-- The IP header in front of the TCP header: where it starts and its ethertype. -/
def ipHeader (packet : Frame) : Checked (Option (ℕ × UInt16)) := do
  let some (start, ethertype) ← skipLink packet | return none
  let some start ← skipTunnel packet start ethertype | return none
  return some (start, ethertype)

/-- The frame holds a TCP header at `start` with `opt_len` bytes of options, behind an IP header at
`ip`. -/
def Found (packet : Frame) (v6 : Bool) (ip start opt_len : ℕ) : Prop :=
  locate packet = .ok (some (start, opt_len)) ∧
    ipHeader packet = .ok (some (ip, if v6 then ETH_P_IPV6 else ETH_P_IP))

/-- The length of the TCP segment by the IP header. -/
def segmentLen (packet : Frame) (v6 : Bool) (ip start : ℕ) : ℕ :=
  if v6 then Tso.field 2 packet (ip + 4) else Tso.field 2 packet (ip + 2) - (start - ip)

def addresses (packet : Frame) (v6 : Bool) (ip : ℕ) : List UInt8 :=
  (packet.drop (ip + (Tso.ipAddrSpan v6).1)).take (Tso.ipAddrSpan v6).2

/-- The IP header is a whole one, the segment it announces holds the TCP header and is in the frame,
and the sum over pseudo header and segment verifies. -/
def ChecksumOk (packet : Frame) (v6 : Bool) (ip start opt_len : ℕ) : Prop :=
  ip + (if v6 then 40 else 20) ≤ start ∧
    20 + opt_len ≤ segmentLen packet v6 ip start ∧
    start + segmentLen packet v6 ip start ≤ packet.length ∧
    Verifies (Tso.pseudoHeader v6 (addresses packet v6 ip) (segmentLen packet v6 ip start) ++
      (packet.drop start).take (segmentLen packet v6 ip start))

instance (packet : Frame) (v6 : Bool) (ip start opt_len : ℕ) :
    Decidable (ChecksumOk packet v6 ip start opt_len) :=
  inferInstanceAs (Decidable (_ ∧ _ ∧ _ ∧ _))

def mssAt (packet : Frame) (start i : ℕ) : ℕ := Tso.field 2 packet (start + 22 + i)

variable {packet packet' : Frame} {start opt_len i j : ℕ} {mtu : UInt16} {b : Bool}

/-- The frames differ in the two value bytes of the option at `i` and the two checksum bytes only. The
old and the new checksum and MSS are `c`, `m`, `c'`, `m'`. -/
structure Rewritten (packet packet' : Frame) (start i : ℕ) (c m c' m' : UInt8 × UInt8) : Prop where
  old_mss : packet[start + 22 + i]? = some m.1 ∧ packet[start + 23 + i]? = some m.2
  old_csum : packet[start + 16]? = some c.1 ∧ packet[start + 17]? = some c.2
  eq : packet' = (((packet.set (start + 22 + i) m'.1).set (start + 23 + i) m'.2).set (start + 16) c'.1).set
    (start + 17) c'.2

def value (p : UInt8 × UInt8) : ℕ := p.1.toNat * 256 + p.2.toNat

theorem value_lt (p : UInt8 × UInt8) : value p < 2 ^ 16 := by
  have h1 := p.1.toNat_lt
  have h2 := p.2.toNat_lt
  unfold value
  omega

theorem toNat_word (hi lo : UInt8) :
    (hi.toUInt16 <<< 8 ||| lo.toUInt16).toNat = value (hi, lo) := by
  have h1 := hi.toNat_lt
  have h2 := lo.toNat_lt
  have hshift : (hi.toUInt16 <<< 8).toNat = hi.toNat <<< 8 := by
    simp only [UInt16.toNat_shiftLeft, UInt8.toNat_toUInt16]
    have : hi.toNat <<< 8 < 2 ^ 16 := by
      rw [Nat.shiftLeft_eq]
      omega
    exact Nat.mod_eq_of_lt this
  rw [UInt16.toNat_or, hshift, UInt8.toNat_toUInt16, ← Nat.shiftLeft_add_eq_or_of_lt h2, Nat.shiftLeft_eq]
  rfl

theorem value_bytes (w : UInt16) : value ((w >>> 8).toUInt8, w.toUInt8) = w.toNat := by
  have := w.toNat_lt
  have hhi : (w >>> 8).toNat = w.toNat / 256 := by
    rw [UInt16.toNat_shiftRight]
    exact Nat.shiftRight_eq_div_pow _ 8
  simp only [value, UInt16.toNat_toUInt8, hhi]
  omega

theorem xor_ffff {n : ℕ} (h : n < 2 ^ 16) : n ^^^ 0xffff = 0xffff - n := by
  have hnot := BitVec.toNat_not (x := BitVec.ofNat 16 n)
  rw [BitVec.not_def, BitVec.toNat_xor, BitVec.toNat_ofNat, Nat.mod_eq_of_lt h, Nat.xor_comm] at hnot
  simpa using hnot

/-- After one round of end-around carry a sum of three words needs one more, and what is then above a
word may be cut off. -/
theorem carry_twice {n : ℕ} (h : n < 3 * 2 ^ 16) :
    (n % 2 ^ 16 + n / 2 ^ 16 + (n % 2 ^ 16 + n / 2 ^ 16) / 2 ^ 16) % 2 ^ 16 % 0xffff = n % 0xffff := by
  obtain ⟨r, hr⟩ : ∃ r, r = n % 2 ^ 16 + n / 2 ^ 16 := ⟨_, rfl⟩
  have hmod : r % 0xffff = n % 0xffff := by omega
  have hle : r < 2 ^ 16 + 3 := by omega
  rw [← hr, ← hmod]
  rcases Nat.lt_or_ge r (2 ^ 16) with hlt | hge
  · rw [Nat.div_eq_of_lt hlt, Nat.add_zero, Nat.mod_eq_of_lt hlt]
  · rw [show r / 2 ^ 16 = 1 by omega]
    omega

theorem complement_update {c m n w : ℕ} (hc : c < 2 ^ 16) (hm : m < 2 ^ 16) (hw : w < 2 ^ 16)
    (h : w % 0xffff = (0xffff - c + (0xffff - m) + n) % 0xffff) :
    (0xffff - w + n) % 0xffff = (c + m) % 0xffff := by
  omega

/-- The update keeps the sum of the checksum and the word modulo `0xffff`. -/
theorem adjust_mod {oldcsum oldmss newmss : ℕ} {csum : UInt16} (hc : oldcsum < 2 ^ 16)
    (ho : oldmss < 2 ^ 16) (hn : newmss < 2 ^ 16) (h : adjust oldcsum oldmss newmss = .ok csum) :
    (csum.toNat + newmss) % 0xffff = (oldcsum + oldmss) % 0xffff := by
  have hret : Returns (adjust oldcsum oldmss newmss) fun c => c = csum := ⟨csum, h, rfl⟩
  simp only [adjust, returns_bind, returns_add, returns_pure, xor_ffff hc, xor_ffff ho,
    Nat.shiftRight_eq_div_pow] at hret
  simp only [show 0xffff = 2 ^ 16 - 1 from rfl, Nat.and_two_pow_sub_one_eq_mod _ 16] at hret
  obtain ⟨-, -, -, -, rfl⟩ := hret
  simp only [UInt16.toNat_not, UInt16.toNat_ofNat', UInt16.size]
  exact complement_update hc ho (Nat.mod_lt _ (by norm_num)) (carry_twice (by omega))

theorem sub_hdrs {hdrs : ℕ} (hsmall : hdrs < 2 ^ 16) (hle : hdrs ≤ mtu.toNat) :
    (mtu - UInt16.ofNat hdrs).toNat + hdrs = mtu.toNat := by
  have hhdrs : (UInt16.ofNat hdrs).toNat = hdrs := UInt16.toNat_ofNat_of_lt' hsmall
  rw [UInt16.toNat_sub_of_le _ _ (UInt16.le_iff_toNat_le.2 (hhdrs.trans_le hle)), hhdrs]
  exact Nat.sub_add_cancel hle

theorem low_byte (w : UInt16) : (w &&& 255).toUInt8 = w.toUInt8 := by
  rw [← UInt8.toNat_inj]
  simp [Nat.and_two_pow_sub_one_eq_mod _ 8]

/-- What the arrival at an MSS option comes to: nothing, or the new MSS and the checksum for it. -/
theorem rewrite_cases (hs : start ≤ 98) (hi : i ≤ 40) (hin : start + 20 < packet.length)
    (h : rewrite packet start i mtu = .ok (b, packet')) :
    b = false ∧ packet' = packet ∨ b = true ∧ ∃ c m c' m', Rewritten packet packet' start i c m c' m' ∧
      value m' + (start + 20) = mtu.toNat ∧ value m' < value m ∧
      (value c' + value m') % 0xffff = (value c + value m) % 0xffff := by
  have hlen : start + 24 + i ≤ packet.length := (rewrite_returns hs hi hin).1 ⟨_, h, trivial⟩
  have h22 : packet[start + 22 + i]? = some packet[start + 22 + i] := List.getElem?_eq_getElem (by omega)
  have h23 : packet[start + 23 + i]? = some packet[start + 23 + i] := List.getElem?_eq_getElem (by omega)
  have h16 : packet[start + 16]? = some packet[start + 16] := List.getElem?_eq_getElem (by omega)
  have h17 : packet[start + 17]? = some packet[start + 17] := List.getElem?_eq_getElem (by omega)
  generalize packet[start + 22 + i] = mhi at h22
  generalize packet[start + 23 + i] = mlo at h23
  generalize packet[start + 16] = chi at h16
  generalize packet[start + 17] = clo at h17
  rw [rewrite, offset_eq (n := start + 22 + i) (by simp; omega) (by omega), ok_bind, load_some h22, ok_bind,
    offset_eq (n := start + 23 + i) (by simp; omega) (by omega), ok_bind, load_some h23, ok_bind,
    offset_eq (n := start + 20) (by simp) (by omega), ok_bind, if_neg (by omega)] at h
  by_cases hlt : mtu.toNat < start + 20
  · rw [if_pos hlt] at h
    left
    cases h
    exact ⟨rfl, rfl⟩
  have hval := sub_hdrs (show start + 20 < 2 ^ 16 by omega) (Nat.not_lt.1 hlt)
  rw [if_neg hlt] at h
  generalize mtu - UInt16.ofNat (start + 20) = new at h hval
  dsimp only at h
  by_cases hold : mhi.toUInt16 <<< 8 ||| mlo.toUInt16 ≤ new
  · rw [if_pos hold] at h
    left
    cases h
    exact ⟨rfl, rfl⟩
  have hkept : ∀ {k : ℕ} {x : UInt8}, packet[k]? = some x → k < start + 18 →
      ((packet.set (start + 22 + i) (new >>> 8).toUInt8).set (start + 23 + i) (new &&& 255).toUInt8)[k]? =
        some x := by
    intro k x hk hlt
    rw [List.getElem?_set_ne (by omega), List.getElem?_set_ne (by omega), hk]
  obtain ⟨csum, hadj, -⟩ : Returns (adjust (value (chi, clo)) (value (mhi, mlo)) new.toNat) _ :=
    adjust_returns (value_lt _) (value_lt _) new.toNat_lt
  rw [if_neg hold, ok_bind, store_eq (by omega), ok_bind, ok_bind, store_eq (by simp; omega), ok_bind,
    offset_eq (n := start + 16) (by simp) (by omega), ok_bind, load_some (hkept h16 (by omega)), ok_bind,
    offset_eq (n := start + 17) (by simp) (by omega), ok_bind, load_some (hkept h17 (by omega)), ok_bind,
    toNat_word, toNat_word, hadj, ok_bind, ok_bind, store_eq (by simp; omega), ok_bind, ok_bind,
    store_eq (by simp; omega), ok_bind, low_byte] at h
  rw [UInt16.le_iff_toNat_le, toNat_word, Nat.not_le] at hold
  right
  cases h
  refine ⟨rfl, (chi, clo), (mhi, mlo), ((csum >>> 8).toUInt8, csum.toUInt8),
    ((new >>> 8).toUInt8, new.toUInt8), ⟨⟨h22, h23⟩, ⟨h16, h17⟩, rfl⟩, ?_, ?_, ?_⟩
  · rw [value_bytes, hval]
  · rwa [value_bytes]
  · rw [value_bytes, value_bytes]
    exact adjust_mod (value_lt _) (value_lt _) new.toNat_lt hadj

/-- What the walk from `i` comes to: nothing, or the rewriting of the MSS option it arrives at. -/
theorem walk_cases (hs : start ≤ 98) (ho : opt_len ≤ 40) (hin : start + 20 < packet.length)
    (hlen : start + 20 + opt_len ≤ packet.length) (rounds : ℕ)
    (h : walk packet start opt_len mtu rounds i = .ok (b, packet')) :
    b = false ∧ packet' = packet ∨
      ∃ j, Relation.ReflTransGen (NextOption packet start opt_len) i j ∧
        MssOption packet start opt_len j ∧ rewrite packet start j mtu = .ok (b, packet') := by
  induction rounds generalizing i with
  | zero =>
    rw [walk] at h
    split_ifs at h
    cases h
    exact .inl ⟨rfl, rfl⟩
  | succ rounds ih =>
    have hround : Round packet start opt_len mtu rounds i _ := walk_succ hs ho hin hlen rounds
    generalize walk packet start opt_len mtu (rounds + 1) i = out at h hround
    cases hround with
    | next j hij hn =>
      refine (ih h).imp_right ?_
      rintro ⟨k, hk, hmss⟩
      exact ⟨k, hk.head hn, hmss⟩
    | stop hn hm =>
      cases h
      exact .inl ⟨rfl, rfl⟩
    | mss hn hm => exact .inr ⟨i, .refl, hm, h⟩

/-- The walk comes to one option of kind 2 at most. -/
theorem reached_unique (hi : Relation.ReflTransGen (NextOption packet start opt_len) 0 i)
    (hj : Relation.ReflTransGen (NextOption packet start opt_len) 0 j)
    (hki : packet[start + 20 + i]? = some 2) (hkj : packet[start + 20 + j]? = some 2) : i = j := by
  have hstuck : ∀ {k l}, Relation.ReflTransGen (NextOption packet start opt_len) k l →
      packet[start + 20 + k]? = some 2 → k = l := by
    intro k l hkl hk
    rcases hkl.cases_head with rfl | ⟨k', hk', -⟩
    · rfl
    · exact absurd hk hk'.kind_ne
  rcases Relation.ReflTransGen.total_of_right_unique (fun _ _ _ h h' => h.unique h') hi hj with hij | hji
  · exact hstuck hij hki
  · exact (hstuck hji hkj).symm

/-! ### The segment -/

section Segment

variable {c m c' m' : UInt8 × UInt8}

theorem Rewritten.length_eq (h : Rewritten packet packet' start i c m c' m') :
    packet'.length = packet.length := by
  simp [h.eq]

theorem Rewritten.getElem?_eq (h : Rewritten packet packet' start i c m c' m') {k : ℕ}
    (h16 : k ≠ start + 16) (h17 : k ≠ start + 17) (h22 : k ≠ start + 22 + i) (h23 : k ≠ start + 23 + i) :
    packet'[k]? = packet[k]? := by
  rw [h.eq, List.getElem?_set_ne h17.symm, List.getElem?_set_ne h16.symm, List.getElem?_set_ne h23.symm,
    List.getElem?_set_ne h22.symm]

theorem Rewritten.slice_eq (h : Rewritten packet packet' start i c m c' m') {o w : ℕ}
    (hw : o + w ≤ start + 16) : (packet'.drop o).take w = (packet.drop o).take w := by
  refine List.ext_getElem? fun k => ?_
  rw [List.getElem?_take, List.getElem?_take, List.getElem?_drop, List.getElem?_drop]
  split_ifs
  · exact h.getElem?_eq (by omega) (by omega) (by omega) (by omega)
  · rfl

theorem Rewritten.segment_eq (h : Rewritten packet packet' start i c m c' m') (len : ℕ) :
    (packet'.drop start).take len =
      (((((packet.drop start).take len).set (22 + i) m'.1).set (23 + i) m'.2).set 16 c'.1).set 17 c'.2 := by
  simp [h.eq, List.drop_set, List.take_set, Nat.add_assoc]

/-- What the two bytes of a word at offset `i` of the segment count for. -/
def weighted (i : ℕ) (p : UInt8 × UInt8) : ℕ := weight i * p.1.toNat + weight (i + 1) * p.2.toNat

theorem Rewritten.total_segment (h : Rewritten packet packet' start i c m c' m') {len : ℕ}
    (hlen : 24 + i ≤ len) :
    total ((packet'.drop start).take len) + weighted i m + value c =
      total ((packet.drop start).take len) + weighted i m' + value c' := by
  obtain ⟨seg, hseg⟩ : ∃ seg, seg = (packet.drop start).take len := ⟨_, rfl⟩
  have hget : ∀ k, k < len → seg[k]? = packet[start + k]? := by
    intro k hk
    rw [hseg, List.getElem?_take, if_pos hk, List.getElem?_drop]
  obtain ⟨h22, h23⟩ := h.old_mss
  obtain ⟨h16, h17⟩ := h.old_csum
  rw [Nat.add_assoc, ← hget _ (by omega)] at h22 h23
  rw [← hget _ (by omega)] at h16 h17
  rw [h.segment_eq, ← hseg]
  have t22 := total_set h22 m'.1
  have g23 : (seg.set (22 + i) m'.1)[23 + i]? = some m.2 := by
    rw [List.getElem?_set_ne (by omega), h23]
  have g16 : ((seg.set (22 + i) m'.1).set (23 + i) m'.2)[16]? = some c.1 := by
    rw [List.getElem?_set_ne (by omega), List.getElem?_set_ne (by omega), h16]
  have g17 : (((seg.set (22 + i) m'.1).set (23 + i) m'.2).set 16 c'.1)[17]? = some c.2 := by
    rw [List.getElem?_set_ne (by omega), List.getElem?_set_ne (by omega), List.getElem?_set_ne (by omega), h17]
  have t23 := total_set g23 m'.2
  have t16 := total_set g16 c'.1
  have t17 := total_set g17 c'.2
  have w22 : weight (22 + i) = weight i := by simp only [weight, show (22 + i) % 2 = i % 2 by omega]
  have w23 : weight (23 + i) = weight (i + 1) := by simp only [weight, show (23 + i) % 2 = (i + 1) % 2 by omega]
  have w16 : weight 16 = 256 := rfl
  have w17 : weight 17 = 1 := rfl
  rw [w22] at t22
  rw [w23] at t23
  rw [w16] at t16
  rw [w17] at t17
  unfold weighted value
  omega

def swap (n : ℕ) : ℕ := n % 256 * 256 + n / 256

theorem weighted_even (hi : i % 2 = 0) (p : UInt8 × UInt8) : weighted i p = value p := by
  simp only [weighted, weight, hi, if_true, show (i + 1) % 2 = 1 by omega, one_ne_zero, if_false, value]
  omega

theorem weighted_odd (hi : i % 2 = 1) (p : UInt8 × UInt8) : weighted i p = swap (value p) := by
  have h1 := p.1.toNat_lt
  have h2 := p.2.toNat_lt
  simp only [weighted, weight, hi, if_true, show (i + 1) % 2 = 0 by omega, one_ne_zero, if_false, value, swap]
  omega

/-- A change of the MSS from `m` to `m'` that an update for the whole word accounts for when the
option is at `i`: at an odd offset the bytes count the other way round, which must make no difference. -/
def Accounted (i m m' : ℕ) : Prop := i % 2 = 0 ∨ (m + swap m') % 0xffff = (m' + swap m) % 0xffff

theorem Rewritten.mod_eq (h : Rewritten packet packet' start i c m c' m') {len n : ℕ}
    (hlen : 24 + i ≤ len)
    (hsum : (value c' + value m') % 0xffff = (value c + value m) % 0xffff)
    (hok : (n + total ((packet.drop start).take len)) % 0xffff = 0) :
    (n + total ((packet'.drop start).take len)) % 0xffff = 0 ↔ Accounted i (value m) (value m') := by
  have htotal := h.total_segment hlen
  generalize total ((packet.drop start).take len) = t at htotal hok
  generalize total ((packet'.drop start).take len) = t' at htotal ⊢
  unfold Accounted
  rcases Nat.mod_two_eq_zero_or_one i with hi | hi
  · rw [weighted_even hi, weighted_even hi] at htotal
    omega
  · rw [weighted_odd hi, weighted_odd hi] at htotal
    omega

theorem segmentLen_lt (packet : Frame) (v6 : Bool) (ip start : ℕ) : segmentLen packet v6 ip start < 2 ^ 16 := by
  unfold segmentLen
  split_ifs
  · exact Tso.field_two_lt _ _
  · exact (Nat.sub_le _ _).trans_lt (Tso.field_two_lt _ _)

/-- A segment that verified still does if, and only if, the change of the MSS is accounted for. -/
theorem Rewritten.checksumOk_iff (h : Rewritten packet packet' start i c m c' m') {v6 : Bool} {ip : ℕ}
    (hi : i + 4 ≤ opt_len) (hsum : (value c' + value m') % 0xffff = (value c + value m) % 0xffff)
    (hok : ChecksumOk packet v6 ip start opt_len) :
    ChecksumOk packet' v6 ip start opt_len ↔ Accounted i (value m) (value m') := by
  obtain ⟨hip, hhdr, hin, hver⟩ := hok
  have hfield : ∀ o, o + 2 ≤ start + 16 → Tso.field 2 packet' o = Tso.field 2 packet o := by
    intro o ho
    rw [Tso.field, h.slice_eq ho, Tso.field]
  have hlen : segmentLen packet' v6 ip start = segmentLen packet v6 ip start := by
    unfold segmentLen
    split_ifs at hip ⊢ <;> rw [hfield _ (by omega)]
  have haddr : addresses packet' v6 ip = addresses packet v6 ip := by
    refine h.slice_eq ?_
    cases v6 <;> simp [Tso.ipAddrSpan] at hip ⊢ <;> omega
  have heven : (addresses packet v6 ip).length % 2 = 0 := by
    cases v6 <;> simp [addresses, Tso.ipAddrSpan] at hip ⊢ <;> omega
  have hsmall := segmentLen_lt packet v6 ip start
  unfold ChecksumOk
  rw [hlen, haddr, h.length_eq, verifies_iff, total_append (Tso.length_pseudoHeader heven),
    Tso.total_pseudoHeader heven hsmall]
  rw [verifies_iff, total_append (Tso.length_pseudoHeader heven), Tso.total_pseudoHeader heven hsmall] at hver
  rw [← h.mod_eq (by omega) hsum hver.2]
  constructor
  · rintro ⟨-, -, -, -, hmod⟩
    exact hmod
  · intro hmod
    exact ⟨hip, hhdr, hin, by omega, hmod⟩

theorem field_of_pair {o : ℕ} (h1 : packet[o]? = some m.1) (h2 : packet[o + 1]? = some m.2) :
    Tso.field 2 packet o = value m := by
  obtain ⟨hlt, h1⟩ := List.getElem?_eq_some_iff.1 h1
  obtain ⟨hlt', h2⟩ := List.getElem?_eq_some_iff.1 h2
  rw [Tso.field, List.drop_eq_getElem_cons hlt, List.drop_eq_getElem_cons hlt', h1, h2]
  exact Tso.decode_pair _ _

theorem Rewritten.mssAt_old (h : Rewritten packet packet' start i c m c' m') :
    mssAt packet start i = value m :=
  field_of_pair h.old_mss.1 (by rw [show start + 22 + i + 1 = start + 23 + i by omega, h.old_mss.2])

theorem Rewritten.mssAt_new (h : Rewritten packet packet' start i c m c' m') :
    mssAt packet' start i = value m' := by
  have hlt := (List.getElem?_eq_some_iff.1 h.old_mss.2).1
  refine field_of_pair ?_ ?_
  · rw [h.eq, List.getElem?_set_ne (by omega), List.getElem?_set_ne (by omega),
      List.getElem?_set_ne (by omega), List.getElem?_set_self (by omega)]
  · rw [show start + 22 + i + 1 = start + 23 + i by omega, h.eq, List.getElem?_set_ne (by omega),
      List.getElem?_set_ne (by omega), List.getElem?_set_self (by simp; omega)]

end Segment

/-! ### The clamp -/

theorem skipIp_ethertype {ip : ℕ} {ethertype : UInt16} (h : skipIp packet ip ethertype = .ok (some start)) :
    ethertype = ETH_P_IP ∨ ethertype = ETH_P_IPV6 := by
  by_contra hne
  obtain ⟨h4, h6⟩ := not_or.1 hne
  have hret : Returns (skipIp packet ip ethertype) fun r => r = some start := ⟨_, h, rfl⟩
  have hcarries4 : carriesTcp packet ip ethertype ETH_P_IP 9 = .ok false := if_neg h4
  have hcarries6 : carriesTcp packet ip ethertype ETH_P_IPV6 6 = .ok false := if_neg h6
  simp [skipIp, hcarries4, hcarries6] at hret
  omega

/-- Behind the headers that lead to a TCP header stands the IP header of its segment. -/
theorem found_of_locate (h : locate packet = .ok (some (start, opt_len))) :
    ∃ v6 ip, Found packet v6 ip start opt_len := by
  have hret : Returns (locate packet) fun r => r = some (start, opt_len) := ⟨_, h, rfl⟩
  rw [locate, returns_bind] at hret
  obtain ⟨_ | ⟨link, ethertype⟩, hlink, hret⟩ := hret
  · simp at hret
  dsimp only at hret
  rw [returns_bind] at hret
  obtain ⟨_ | ip, hip, hret⟩ := hret
  · simp at hret
  dsimp only at hret
  rw [returns_bind] at hret
  obtain ⟨_ | tcp, htcp, hret⟩ := hret
  · simp at hret
  have hheader : ipHeader packet = .ok (some (ip, ethertype)) := by
    rw [ipHeader, hlink, ok_bind]
    dsimp only
    rw [hip, ok_bind]
    rfl
  rcases skipIp_ethertype htcp with rfl | rfl
  · exact ⟨false, ip, h, hheader⟩
  · exact ⟨true, ip, h, hheader⟩

theorem Found.unique {v6 v6' : Bool} {ip ip' start' opt_len' : ℕ} (h : Found packet v6 ip start opt_len)
    (h' : Found packet v6' ip' start' opt_len') : v6' = v6 ∧ ip' = ip ∧ start' = start ∧ opt_len' = opt_len := by
  have hloc := h'.1.symm.trans h.1
  have hip := h'.2.symm.trans h.2
  simp only [Except.ok.injEq, Option.some.injEq, Prod.mk.injEq] at hloc hip
  refine ⟨?_, hip.1, hloc⟩
  have hne : ETH_P_IP ≠ ETH_P_IPV6 := by decide
  cases v6 <;> cases v6' <;> simp_all

/-- The clamp left the segment valid: it changed the value of an MSS option of the header, to the
largest that fits the MTU and a smaller one, and the checksum, which verifies if it did before. -/
def Kept (packet packet' : Frame) (mtu : UInt16) : Prop :=
  ∃ v6 ip start opt_len i, Found packet v6 ip start opt_len ∧
    Relation.ReflTransGen (NextOption packet start opt_len) 0 i ∧ i + 4 ≤ opt_len ∧
    packet[start + 20 + i]? = some 2 ∧ packet[start + 21 + i]? = some 4 ∧
    (ChecksumOk packet v6 ip start opt_len → ChecksumOk packet' v6 ip start opt_len) ∧
    packet'.length = packet.length ∧
    (∀ k, k ≠ start + 16 → k ≠ start + 17 → k ≠ start + 22 + i → k ≠ start + 23 + i →
      packet'[k]? = packet[k]?) ∧
    mssAt packet' start i + (start + 20) = mtu.toNat ∧ mssAt packet' start i < mssAt packet start i

/-- The MSS option the walk arrives at has length 4, and if the checksum verifies, the update accounts
for the change to the largest MSS that fits `mtu`. -/
def Aligned (packet : Frame) (mtu : UInt16) : Prop :=
  ∀ v6 ip start opt_len i, Found packet v6 ip start opt_len →
    Relation.ReflTransGen (NextOption packet start opt_len) 0 i → MssOption packet start opt_len i →
    packet[start + 21 + i]? = some 4 ∧ (ChecksumOk packet v6 ip start opt_len →
      Accounted i (mssAt packet start i) (mtu.toNat - (start + 20)))

/-- A clamp that reports a change rewrote the one MSS option of the walk. -/
theorem clamp_cases (h : clamp packet mtu = .ok (b, packet')) :
    b = false ∧ packet' = packet ∨ b = true ∧ ∃ v6 ip start opt_len i c m c' m',
      Found packet v6 ip start opt_len ∧ Relation.ReflTransGen (NextOption packet start opt_len) 0 i ∧
      MssOption packet start opt_len i ∧ Rewritten packet packet' start i c m c' m' ∧
      value m' + (start + 20) = mtu.toNat ∧ value m' < value m ∧
      (value c' + value m') % 0xffff = (value c + value m) % 0xffff := by
  obtain ⟨r, hloc, hbounds⟩ : Returns (locate packet) _ := locate_returns
  rw [clamp, hloc, ok_bind] at h
  rcases r with _ | ⟨start, opt_len⟩
  · cases h
    exact .inl ⟨rfl, rfl⟩
  obtain ⟨hs, ho, hin, hlen⟩ := hbounds _ rfl
  rcases walk_cases hs ho hin hlen _ h with hsame | ⟨i, hreach, hmss, hrw⟩
  · exact .inl hsame
  have hi := hmss.2.1
  refine (rewrite_cases hs (by omega) hin hrw).imp_right ?_
  rintro ⟨rfl, c, m, c', m', hrest⟩
  obtain ⟨v6, ip, hfound⟩ := found_of_locate hloc
  exact ⟨rfl, v6, ip, start, opt_len, i, c, m, c', m', hfound, hreach, hmss, hrest⟩

/-- A clamp that reports no change made none; one that reports a change left the segment valid if, and
only if, the option it rewrote has length 4 and the update of a checksum that verified accounts for
the change. -/
theorem clamp_keeps_iff (h : clamp packet mtu = .ok (b, packet')) :
    (if b then Kept packet packet' mtu else packet' = packet) ↔ (b = true → Aligned packet mtu) := by
  rcases clamp_cases h with ⟨rfl, rfl⟩ | ⟨rfl, v6, ip, start, opt_len, i, c, m, c', m', hfound, hreach, hmss,
    hrw, hmtu, hlt, hsum⟩
  · simp
  rw [if_pos rfl, imp_iff_right rfl]
  have hnew : mtu.toNat - (start + 20) = value m' := by omega
  constructor
  · rintro ⟨v6', ip', start', opt_len', i', hfound', hreach', hi', hkind, hlen, hcsum, -⟩
    obtain ⟨rfl, rfl, rfl, rfl⟩ := hfound.unique hfound'
    obtain rfl := reached_unique hreach hreach' hmss.1 hkind
    intro v6'' ip'' start'' opt_len'' i'' hfound'' hreach'' hmss''
    obtain ⟨rfl, rfl, rfl, rfl⟩ := hfound.unique hfound''
    obtain rfl := reached_unique hreach hreach'' hmss.1 hmss''.1
    refine ⟨hlen, fun hok => ?_⟩
    rw [hnew, hrw.mssAt_old]
    exact (hrw.checksumOk_iff hi' hsum hok).1 (hcsum hok)
  · intro haligned
    obtain ⟨hlen, hcsum⟩ := haligned v6 ip start opt_len i hfound hreach hmss
    have hi : i + 4 ≤ opt_len := by
      obtain ⟨-, -, ⟨len, hlen', hle⟩, -⟩ := hmss
      cases hlen.symm.trans hlen'
      exact hle
    refine ⟨v6, ip, start, opt_len, i, hfound, hreach, hi, hmss.1, hlen, fun hok => ?_, hrw.length_eq,
      fun k h16 h17 h22 h23 => hrw.getElem?_eq h16 h17 h22 h23, ?_, ?_⟩
    · have hacc := hcsum hok
      rw [hnew, hrw.mssAt_old] at hacc
      exact (hrw.checksumOk_iff hi hsum hok).2 hacc
    · rw [hrw.mssAt_new, hmtu]
    · rwa [hrw.mssAt_new, hrw.mssAt_old]

def synFrame (options : List UInt8) (csum : UInt8 × UInt8) : Frame :=
  List.replicate 12 0 ++ [0x08, 0x00] ++
    [0x45, 0, 0, UInt8.ofNat (40 + options.length), 0, 0, 0, 0, 64, 6, 0, 0, 10, 0, 0, 1, 10, 0, 0, 2] ++
    [0x30, 0x39, 0, 80, 0, 0, 0, 0, 0, 0, 0, 0, UInt8.ofNat ((20 + options.length) / 4 * 16), 2, 0xff, 0xff,
      csum.1, csum.2, 0, 0] ++ options

theorem clamp_keeps_iff_synFrame :
    clamp (synFrame [2, 4, 5, 0xb4] (0x53, 0x9b)) 1400 = .ok (true, synFrame [2, 4, 5, 0x42] (0x54, 0x0d)) ∧
      Kept (synFrame [2, 4, 5, 0xb4] (0x53, 0x9b)) (synFrame [2, 4, 5, 0x42] (0x54, 0x0d)) 1400 := by
  have hclamp : clamp (synFrame [2, 4, 5, 0xb4] (0x53, 0x9b)) 1400 =
      .ok (true, synFrame [2, 4, 5, 0x42] (0x54, 0x0d)) := by decide +kernel
  refine ⟨hclamp, (clamp_keeps_iff hclamp).2 fun _ v6 ip start opt_len i hfound hreach hmss => ?_⟩
  have hloc : locate (synFrame [2, 4, 5, 0xb4] (0x53, 0x9b)) = .ok (some (34, 4)) := by decide +kernel
  have heq := hfound.1.symm.trans hloc
  simp only [Except.ok.injEq, Option.some.injEq, Prod.mk.injEq] at heq
  obtain ⟨rfl, rfl⟩ := heq
  obtain rfl : i = 0 := reached_unique hreach .refl hmss.1 (by decide +kernel)
  exact ⟨by decide +kernel, fun _ => .inl rfl⟩

/-- Behind a NOP and a SACK-permitted option the MSS option is at an odd offset: the checksum verifies
before the clamp and not after it. -/
theorem clamp_oddOffset :
    clamp (synFrame [1, 4, 2, 2, 4, 5, 0xb4, 0] (0x90, 0x43)) 1400 =
        .ok (true, synFrame [1, 4, 2, 2, 4, 5, 0x42, 0] (0x90, 0xb5)) ∧
      locate (synFrame [1, 4, 2, 2, 4, 5, 0xb4, 0] (0x90, 0x43)) = .ok (some (34, 8)) ∧
      ipHeader (synFrame [1, 4, 2, 2, 4, 5, 0xb4, 0] (0x90, 0x43)) = .ok (some (14, ETH_P_IP)) ∧
      ChecksumOk (synFrame [1, 4, 2, 2, 4, 5, 0xb4, 0] (0x90, 0x43)) false 14 34 8 ∧
      ¬ ChecksumOk (synFrame [1, 4, 2, 2, 4, 5, 0x42, 0] (0x90, 0xb5)) false 14 34 8 := by
  decide +kernel

/-- An MSS option of length 2 is rewritten too, by the first option's length of 4: what changes is the
two bytes behind it. -/
example : clamp (synFrame [3, 4, 0, 0, 2, 2, 5, 0xb4] (0x40, 0x95)) 1400 =
    .ok (true, synFrame [3, 4, 0, 0, 2, 2, 5, 0x42] (0x41, 0x07)) := by
  decide +kernel

end Tincr.Mss

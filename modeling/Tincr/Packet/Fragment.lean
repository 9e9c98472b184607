import Tincr.Packet.Icmp
import Tincr.Lib.Pieces

/-!
IPv4 fragmentation. A frame that is too long for the next hop is cut into fragments that fit. A
fragment may be cut again further on, at any MTU: whatever the cuts, the pieces join to the frame that
was cut first. An empty payload is accepted and gives no fragment at all.
-/

namespace Tincr.Packet

open Checked OnesComplement Pieces Mask

abbrev IP_OFFMASK : UInt16 := 0x1fff
abbrev IP_MF : UInt16 := 0x2000

/-- The loop. Each round takes at least one byte, so as many rounds as bytes are enough. -/
def fragmentLoop (eth_hdr payload : List UInt8) (origf : UInt16) (maxlen : ℕ) :
    ℕ → Ipv4Hdr → ℕ → ℕ → ℕ → Checked (List (List UInt8))
  | _, _, 0, _, _ => pure []
  | 0, _, _ + 1, _, _ => .error .diverges
  | fuel + 1, ip, todo + 1, offset, ip_off => do
    let len := min (todo + 1) maxlen
    let mf := if todo + 1 > len then IP_MF else 0
    let ip := { ip with
      ip_len := UInt16.ofNat (IP_SIZE + len)
      ip_off := UInt16.ofNat ip_off ||| origf ||| mf
      ip_sum := 0 }
    let ip := ip.withSum (← inetChecksum ip.asBytes 0xffff)
    let frag := eth_hdr ++ ip.asBytes ++ (← slice payload offset (offset + len))
    let ip_off ← Checked.add (2 ^ 16) ip_off (len / 8)
    return frag :: (← fragmentLoop eth_hdr payload origf maxlen fuel ip (todo + 1 - len) (offset + len) ip_off)

/-- `n & !7` is `n` rounded down to a multiple of 8. -/
def fragmentV4 (frame : List UInt8) (dest_mtu : UInt16) : Checked (Option (List (List UInt8))) := do
  if frame.length < ETHER_SIZE + IP_SIZE then return none
  let some ip := Ipv4Hdr.readFromBytes (← slice frame ETHER_SIZE (ETHER_SIZE + IP_SIZE)) | return none
  if ip.ihl.toNat ≠ IP_SIZE / 4 then return none
  let ip_len := ip.ip_len.toNat
  if ip_len < IP_SIZE then return none
  let todo := ip_len - IP_SIZE
  if ETHER_SIZE + IP_SIZE + todo ≠ frame.length then return none
  let dest_mtu := dest_mtu.toNat
  if dest_mtu ≤ ETHER_SIZE + IP_SIZE then return none
  let maxlen := (dest_mtu - ETHER_SIZE - IP_SIZE) / 8 * 8
  if maxlen = 0 then return none
  let origf := ip.ip_off &&& ~~~ IP_OFFMASK
  let ip_off := ip.ip_off &&& IP_OFFMASK
  let out ← fragmentLoop (frame.take ETHER_SIZE) (frame.drop (ETHER_SIZE + IP_SIZE)) origf maxlen todo ip todo 0
    ip_off.toNat
  return some out

/-! ### What a fragment is -/

def Ipv4Hdr.offset (ip : Ipv4Hdr) : ℕ := 8 * (ip.ip_off &&& IP_OFFMASK).toNat

/-- A fragment of `frame`, after so many bytes of it. Of the header only the length, the offset with
the more-fragments flag and the checksum differ. -/
structure Fragment (frame : List UInt8) (orig : Ipv4Hdr) (mtu emitted : ℕ) (last : Prop) (frag : List UInt8)
    (ip : Ipv4Hdr) : Prop where
  header : ipv4At frag = some ip
  nonempty : frag.drop 34 ≠ []
  fits : frag.length ≤ mtu
  total_len : ip.ip_len.toNat + 14 = frag.length
  offset : ip.offset = orig.offset + emitted
  aligned : ¬ last → (frag.drop 34).length % 8 = 0
  more : ¬ last → ip.ip_off &&& IP_MF = IP_MF
  last_more : last → ip.ip_off &&& IP_MF = orig.ip_off &&& IP_MF
  flags : ip.ip_off &&& 0xc000 = orig.ip_off &&& 0xc000
  checksum : Verifies ((frag.drop 14).take 20)
  same : { ip with ip_len := orig.ip_len, ip_off := orig.ip_off, ip_sum := orig.ip_sum } = orig
  eth : frag.take 14 = frame.take 14

def payloads (frags : List (List UInt8)) : List UInt8 := frags.flatMap (List.drop 34)

abbrev Key := UInt16 × Octets 4 × Octets 4 × UInt8

def pieceOf (frame : List UInt8) : Piece Key UInt8 :=
  let ip := (ipv4At frame).getD {}
  ⟨(ip.ip_id, ip.ip_src, ip.ip_dst, ip.ip_p), ip.offset, frame.drop 34, ip.ip_off &&& IP_MF = IP_MF⟩

def Refragment (frames frames' : List (List UInt8)) : Prop :=
  ∃ xs frame zs mtu frags, frames = xs ++ frame :: zs ∧ frames' = xs ++ frags ++ zs ∧
    fragmentV4 frame mtu = .ok (some frags)

/-! ### The offset field -/

theorem ofNat_and_mask {o : ℕ} (h : o < 0x2000) : UInt16.ofNat o &&& IP_OFFMASK = UInt16.ofNat o := by
  rw [← UInt16.toNat_inj, UInt16.toNat_and, UInt16.toNat_ofNat_of_lt' (show o < 2 ^ 16 by omega)]
  exact (Nat.and_two_pow_sub_one_eq_mod o 13).trans (Nat.mod_eq_of_lt h)

/-- A small offset does not touch the flags. -/
theorem ofNat_and_flags {o : ℕ} (h : o < 0x2000) {m : UInt16} (hm : IP_OFFMASK &&& m = 0) :
    UInt16.ofNat o &&& m = 0 := by
  rw [← ofNat_and_mask h, UInt16.and_assoc, hm, UInt16.and_zero]

section

variable {o : ℕ} (h : o < 0x2000) (x : UInt16) {mf : UInt16} (hmf : mf = 0 ∨ mf = IP_MF)

include h hmf

theorem field_offset : (UInt16.ofNat o ||| x &&& ~~~ IP_OFFMASK ||| mf) &&& IP_OFFMASK = UInt16.ofNat o := by
  have hflags : mf &&& IP_OFFMASK = 0 := by
    rcases hmf with rfl | rfl <;> rfl
  have hmask : ~~~ IP_OFFMASK &&& IP_OFFMASK = 0 := by rfl
  rw [or_and, or_and, ofNat_and_mask h, UInt16.and_assoc, hmask, UInt16.and_zero, hflags, UInt16.or_zero,
    UInt16.or_zero]

theorem field_more : (UInt16.ofNat o ||| x &&& ~~~ IP_OFFMASK ||| mf) &&& IP_MF = x &&& IP_MF ||| mf := by
  have hflags : mf &&& IP_MF = mf := by
    rcases hmf with rfl | rfl <;> rfl
  have hmask : ~~~ IP_OFFMASK &&& IP_MF = IP_MF := by rfl
  rw [or_and, or_and, ofNat_and_flags h rfl, UInt16.zero_or, UInt16.and_assoc, hmask, hflags]

theorem field_flags : (UInt16.ofNat o ||| x &&& ~~~ IP_OFFMASK ||| mf) &&& 0xc000 = x &&& 0xc000 := by
  have hflags : mf &&& 0xc000 = 0 := by
    rcases hmf with rfl | rfl <;> rfl
  have hmask : ~~~ IP_OFFMASK &&& 0xc000 = 0xc000 := by rfl
  rw [or_and, or_and, ofNat_and_flags h rfl, UInt16.zero_or, UInt16.and_assoc, hmask, hflags, UInt16.or_zero]

end

/-! ### The loop -/

section

variable {frame : List UInt8} {orig ip : Ipv4Hdr} {mtu maxlen emitted o len : ℕ}

/-- The two headers differ in the fields that change only. -/
def SameRest (orig ip : Ipv4Hdr) : Prop :=
  { ip with ip_len := orig.ip_len, ip_off := orig.ip_off, ip_sum := orig.ip_sum } = orig

theorem offset_le (orig : Ipv4Hdr) : orig.offset ≤ 8 * 8191 := by
  have hmask : (orig.ip_off &&& IP_OFFMASK).toNat = orig.ip_off.toNat % 2 ^ 13 := by
    rw [UInt16.toNat_and]
    exact Nat.and_two_pow_sub_one_eq_mod _ 13
  rw [Ipv4Hdr.offset, hmask]
  omega

def roundHeader (orig ip : Ipv4Hdr) (len o : ℕ) (mf : UInt16) : Ipv4Hdr :=
  { ip with
    ip_len := UInt16.ofNat (20 + len)
    ip_off := UInt16.ofNat o ||| orig.ip_off &&& ~~~ IP_OFFMASK ||| mf
    ip_sum := 0 }

theorem fragment_of_round (hframe : 34 ≤ frame.length) (hsame : SameRest orig ip) {chunk : List UInt8}
    (hpos : 0 < len) (hchunk : chunk.length = len) (hmtu : len + 34 ≤ mtu) (hmtu16 : mtu < 2 ^ 16)
    (ho : 8 * o = orig.offset + emitted) (ho13 : o < 0x2000) {last : Prop} {mf : UInt16}
    (hlast : last → mf = 0) (hmore : ¬ last → mf = IP_MF ∧ len % 8 = 0) {c : UInt16}
    (hc : inetChecksum (roundHeader orig ip len o mf).asBytes 0xffff = .ok c) :
    Fragment frame orig mtu emitted last
      (frame.take 14 ++ ((roundHeader orig ip len o mf).withSum c).asBytes ++ chunk)
      ((roundHeader orig ip len o mf).withSum c) := by
  have hmf : mf = 0 ∨ mf = IP_MF := by
    by_cases h : last
    · exact .inl (hlast h)
    · exact .inr (hmore h).1
  have heth : (frame.take 14).length = 14 := by
    rw [List.length_take]
    omega
  have hip := Ipv4Hdr.length_asBytes ((roundHeader orig ip len o mf).withSum c)
  have hverifies := Ipv4Hdr.verifies_of_checksum rfl hc
  generalize hhdr : (roundHeader orig ip len o mf).withSum c = hdr at *
  have hhead : ((frame.take 14 ++ hdr.asBytes ++ chunk).drop 14).take 20 = hdr.asBytes := by
    rw [List.append_assoc, List.drop_left' heth, List.take_left' hip]
  have hbody : (frame.take 14 ++ hdr.asBytes ++ chunk).drop 34 = chunk :=
    List.drop_left' (by rw [List.length_append, heth, hip])
  have hlen : (frame.take 14 ++ hdr.asBytes ++ chunk).length = 34 + len := by
    rw [List.length_append, List.length_append, heth, hip, hchunk]
  have hoff : hdr.ip_off = UInt16.ofNat o ||| orig.ip_off &&& ~~~ IP_OFFMASK ||| mf := by
    rw [← hhdr]
    rfl
  have hoffset : hdr.offset = 8 * o := by
    rw [Ipv4Hdr.offset, hoff, field_offset ho13 _ hmf, UInt16.toNat_ofNat_of_lt' (show o < 2 ^ 16 by omega)]
  refine ⟨?_, ?_, by omega, ?_, by omega, ?_, ?_, ?_, ?_, ?_, ?_, ?_⟩
  · rw [ipv4At, hhead, Ipv4Hdr.readFromBytes_asBytes]
  · rw [hbody]
    exact List.length_pos_iff.1 (by omega)
  · rw [hlen, ← hhdr, Ipv4Hdr.withSum, roundHeader, UInt16.toNat_ofNat_of_lt' (show _ < 2 ^ 16 by omega)]
    omega
  · intro h
    rw [hbody, hchunk, (hmore h).2]
  · intro h
    rw [hoff, field_more ho13 _ hmf, (hmore h).1, and_or_self]
  · intro h
    rw [hoff, field_more ho13 _ hmf, hlast h, UInt16.or_zero]
  · rw [hoff, field_flags ho13 _ hmf]
  · rw [hhead]
    exact hverifies
  · rw [← hhdr]
    exact hsame
  · rw [List.append_assoc, List.take_left' heth]

/-- The fragments from `start` on: their payloads are what is left, and each one is a fragment after
the bytes before it. -/
structure Cut (frame : List UInt8) (orig : Ipv4Hdr) (mtu start : ℕ) (frags : List (List UInt8)) : Prop where
  payload : payloads frags = (frame.drop 34).drop start
  nonempty : frags ≠ [] ↔ start < (frame.drop 34).length
  each : orig.offset + (frame.drop 34).length ≤ 65535 → ∀ pre frag post, frags = pre ++ frag :: post →
    ∃ ip, Fragment frame orig mtu (start + (payloads pre).length) (post = []) frag ip

theorem Cut.nil {start : ℕ} (h : start = (frame.drop 34).length) : Cut frame orig mtu start [] := by
  refine ⟨?_, by simp [h], fun _ pre frag post h => by simp at h⟩
  rw [List.drop_eq_nil_of_le (by omega)]
  rfl

theorem Cut.cons {start : ℕ} {frag : List UInt8} {rest : List (List UInt8)} (hdr : Ipv4Hdr) (hpos : 0 < len)
    (hle : start + len ≤ (frame.drop 34).length) (hchunk : frag.drop 34 = ((frame.drop 34).drop start).take len)
    (hfrag : orig.offset + (frame.drop 34).length ≤ 65535 → Fragment frame orig mtu start (rest = []) frag hdr)
    (hrest : Cut frame orig mtu (start + len) rest) : Cut frame orig mtu start (frag :: rest) := by
  refine ⟨?_, iff_of_true (by simp) (by omega), fun hbound pre frag' post h => ?_⟩
  · rw [payloads, List.flatMap_cons, hchunk]
    exact (congrArg _ hrest.payload).trans (by rw [← List.drop_drop, List.take_append_drop])
  · cases pre with
    | nil =>
      obtain ⟨rfl, rfl⟩ := List.cons.inj h
      exact ⟨hdr, hfrag hbound⟩
    | cons head pre =>
      obtain ⟨rfl, htail⟩ := List.cons.inj h
      have hlen : (frag.drop 34).length = len := by
        rw [hchunk, List.length_take, List.length_drop]
        omega
      obtain ⟨ip', hip'⟩ := hrest.each hbound pre frag' post htail
      refine ⟨ip', ?_⟩
      rwa [payloads, List.flatMap_cons, List.length_append, hlen, ← Nat.add_assoc]

theorem fragmentLoop_zero {eth_hdr payload : List UInt8} {origf : UInt16} {fuel start : ℕ} :
    fragmentLoop eth_hdr payload origf maxlen fuel ip 0 start o = .ok [] := by
  cases fuel <;> rfl

theorem fragmentLoop_cut (hframe : 34 ≤ frame.length) (hsize : (frame.drop 34).length < 2 ^ 16)
    (h8 : maxlen % 8 = 0) (hpos : 0 < maxlen) (hmtu : maxlen + 34 ≤ mtu) (hmtu16 : mtu < 2 ^ 16)
    {fuel todo start : ℕ} (hfuel : todo ≤ fuel) (hsame : SameRest orig ip)
    (htodo : start + todo = (frame.drop 34).length) (hstart : start % 8 = 0)
    (ho : 8 * o = orig.offset + start) :
    Returns (fragmentLoop (frame.take 14) (frame.drop 34) (orig.ip_off &&& ~~~ IP_OFFMASK) maxlen fuel ip todo start o)
      (Cut frame orig mtu start) := by
  induction fuel generalizing ip todo start o with
  | zero =>
    obtain rfl : todo = 0 := Nat.le_zero.1 hfuel
    rw [fragmentLoop_zero]
    exact returns_ok.2 (.nil htodo)
  | succ fuel ih =>
    cases todo with
    | zero =>
      rw [fragmentLoop_zero]
      exact returns_ok.2 (.nil htodo)
    | succ todo =>
      have horig := offset_le orig
      obtain ⟨len, hlen⟩ : ∃ len, len = min (todo + 1) maxlen := ⟨_, rfl⟩
      obtain ⟨mf, hmf⟩ : ∃ mf, mf = if todo + 1 > len then IP_MF else 0 := ⟨_, rfl⟩
      obtain ⟨c, hc⟩ : ∃ c, inetChecksum (roundHeader orig ip len o mf).asBytes 0xffff = .ok c :=
        ⟨_, inetChecksum_first (by rw [Ipv4Hdr.length_asBytes]; omega)⟩
      have hslice : slice (frame.drop 34) start (start + len) = .ok (((frame.drop 34).drop start).take len) := by
        rw [slice_eq (by omega) (by omega), Nat.add_sub_cancel_left]
      have hchunk : (((frame.drop 34).drop start).take len).length = len := by
        rw [List.length_take, List.length_drop]
        omega
      -- the rounds after this one, of which there is none if everything is emitted
      have hrest : Returns (fragmentLoop (frame.take 14) (frame.drop 34) (orig.ip_off &&& ~~~ IP_OFFMASK) maxlen fuel
          ((roundHeader orig ip len o mf).withSum c) (todo + 1 - len) (start + len) (o + len / 8))
          (Cut frame orig mtu (start + len)) := by
        by_cases hdone : todo + 1 - len = 0
        · rw [hdone, fragmentLoop_zero]
          exact returns_ok.2 (.nil (by omega))
        · exact ih (by omega) hsame (by omega) (by omega) (by omega)
      have hhdr := hc
      rw [roundHeader] at hc
      rw [fragmentLoop]
      dsimp only [IP_SIZE]
      rw [← hlen, ← hmf, hc, ok_bind, hslice, ok_bind]
      simp only [returns_bind, returns_add, returns_pure]
      refine ⟨by omega, hrest.mono fun rest hcut => ?_⟩
      refine hcut.cons ((roundHeader orig ip len o mf).withSum c) (by omega) (by omega) (List.drop_left' ?_)
        fun hbound => ?_
      · rw [List.length_append, Ipv4Hdr.length_asBytes, List.length_take]
        omega
      · refine fragment_of_round hframe hsame (by omega) hchunk (by omega) hmtu16 ho (by omega) ?_ ?_ hhdr
        · intro hnil
          rw [hmf, if_neg]
          have := mt hcut.nonempty.2 (not_not_intro hnil)
          omega
        · intro hne
          have := hcut.nonempty.1 hne
          exact ⟨by rw [hmf, if_pos (by omega)], by omega⟩

theorem fragmentV4_cut (frame : List UInt8) (dest_mtu : UInt16) :
    Returns (fragmentV4 frame dest_mtu) fun r =>
      ∀ frags, r = some frags → ∃ orig, ipv4At frame = some orig ∧ Cut frame orig dest_mtu.toNat 0 frags := by
  have hnone : Returns (pure none : Checked (Option (List (List UInt8)))) fun r =>
      ∀ frags, r = some frags → ∃ orig, ipv4At frame = some orig ∧ Cut frame orig dest_mtu.toNat 0 frags :=
    returns_pure.2 (by simp)
  rw [fragmentV4]
  dsimp only [ETHER_SIZE, IP_SIZE]
  by_cases hshort : frame.length < 14 + 20
  · rw [if_pos hshort]
    exact hnone
  rw [if_neg hshort]
  obtain ⟨orig, horig⟩ := @Ipv4Hdr.readFromBytes_isSome ((frame.drop 14).take 20) (by
    rw [List.length_take, List.length_drop]
    omega)
  rw [slice_eq (by omega) (by omega), ok_bind, Nat.add_sub_cancel_left, horig]
  dsimp only
  split_ifs with hihl hlen hsize hmtu hmax <;> try exact hnone
  have hmtu16 := dest_mtu.toNat_lt
  have hlen16 := orig.ip_len.toNat_lt
  have hpayload : (frame.drop 34).length = orig.ip_len.toNat - 20 := by
    rw [List.length_drop]
    omega
  have hloop := @fragmentLoop_cut frame orig orig dest_mtu.toNat ((dest_mtu.toNat - 14 - 20) / 8 * 8)
    (orig.ip_off &&& IP_OFFMASK).toNat (by omega) (by omega) (by omega) (by omega) (by omega) hmtu16
    (orig.ip_len.toNat - 20) (orig.ip_len.toNat - 20) 0 le_rfl rfl (by omega) rfl rfl
  refine returns_bind.2 (hloop.mono fun frags hcut => returns_pure.2 fun frags' heq => ?_)
  obtain rfl := Option.some.inj heq
  exact ⟨orig, horig, hcut⟩

/-! ### Reassembly -/

def Good (frame : List UInt8) : Prop :=
  ∃ ip, ipv4At frame = some ip ∧ frame.drop 34 ≠ [] ∧ ip.offset + (frame.drop 34).length ≤ 65535

theorem pieceOf_eq (h : ipv4At frame = some ip) :
    pieceOf frame = ⟨(ip.ip_id, ip.ip_src, ip.ip_dst, ip.ip_p), ip.offset, frame.drop 34,
      decide (ip.ip_off &&& IP_MF = IP_MF)⟩ := by
  rw [pieceOf, h]
  rfl

theorem Cut.reassemble {frags : List (List UInt8)} (horig : ipv4At frame = some orig)
    (hne : frame.drop 34 ≠ []) (hbound : orig.offset + (frame.drop 34).length ≤ 65535)
    (h : Cut frame orig mtu 0 frags) : Pieces.reassemble (frags.map pieceOf) = some (pieceOf frame) := by
  have hfrags : frags ≠ [] := h.nonempty.2 (List.length_pos_iff.2 hne)
  have hdata : ∀ frames : List (List UInt8), (frames.map pieceOf).flatMap Piece.data = payloads frames := by
    intro frames
    rw [List.flatMap_map]
    rfl
  rw [pieceOf_eq horig, Pieces.reassemble_of_tiles (by simpa using hfrags), hdata, h.payload, List.drop_zero]
  intro pre p post hsplit
  obtain ⟨pre', post', rfl, rfl, hmap⟩ := List.map_eq_append_iff.1 hsplit
  obtain ⟨frag, post', rfl, rfl, rfl⟩ := List.map_eq_cons_iff.1 hmap
  obtain ⟨ip, hip⟩ := h.each hbound pre' frag post' rfl
  have hsame := hip.same
  rw [hdata, pieceOf_eq hip.header]
  refine ⟨?_, ?_, ?_⟩
  · rw [← hsame]
  · rw [hip.offset, Nat.zero_add]
  · by_cases hlast : post' = []
    · rw [if_pos (by simpa using hlast)]
      dsimp only
      rw [hip.last_more hlast]
    · rw [if_neg (by simpa using hlast)]
      exact decide_eq_true (hip.more hlast)

theorem Cut.good {frags : List (List UInt8)} (hbound : orig.offset + (frame.drop 34).length ≤ 65535)
    (h : Cut frame orig mtu 0 frags) : ∀ frag ∈ frags, Good frag := by
  intro frag hmem
  obtain ⟨pre, post, rfl⟩ := List.append_of_mem hmem
  obtain ⟨ip, hip⟩ := h.each hbound pre frag post rfl
  refine ⟨ip, hip.header, hip.nonempty, ?_⟩
  have hlen := congrArg List.length h.payload
  rw [List.drop_zero, payloads, List.flatMap_append, List.flatMap_cons, List.length_append, List.length_append] at hlen
  have hoff := hip.offset
  rw [payloads] at hoff
  omega

/-- Cutting one frame of several changes nothing in what they join to. -/
theorem refragment_reassemble {frames frames' : List (List UInt8)} (hgood : ∀ f ∈ frames, Good f)
    (h : Refragment frames frames') :
    (∀ f ∈ frames', Good f) ∧
      Pieces.reassemble (frames'.map pieceOf) = Pieces.reassemble (frames.map pieceOf) := by
  obtain ⟨xs, frame, zs, mtu, frags, rfl, rfl, hfrag⟩ := h
  obtain ⟨ip, hip, hne, hbound⟩ := hgood frame (by simp)
  obtain ⟨r, hr, hcut⟩ := fragmentV4_cut frame mtu
  obtain rfl : r = some frags := Except.ok.inj (hr.symm.trans hfrag)
  obtain ⟨orig, horig, hcut⟩ := hcut frags rfl
  obtain rfl : ip = orig := Option.some.inj (hip.symm.trans horig)
  constructor
  · intro f hf
    rcases List.mem_append.1 hf with hf | hf
    · rcases List.mem_append.1 hf with hf | hf
      · exact hgood f (by simp [hf])
      · exact hcut.good hbound f hf
    · exact hgood f (by simp [hf])
  · rw [List.map_append, List.map_append, List.map_append, List.map_cons]
    exact reassemble_replace (hcut.reassemble horig hne hbound) _ _

theorem refragments_reassemble {frames frames' : List (List UInt8)} (hgood : ∀ f ∈ frames, Good f)
    (h : Relation.ReflTransGen Refragment frames frames') :
    (∀ f ∈ frames', Good f) ∧
      Pieces.reassemble (frames'.map pieceOf) = Pieces.reassemble (frames.map pieceOf) := by
  induction h with
  | refl => exact ⟨hgood, rfl⟩
  | tail _ hstep ih =>
    obtain ⟨hgood', heq⟩ := refragment_reassemble ih.1 hstep
    exact ⟨hgood', heq.trans ih.2⟩

end

/-- The fragments of an accepted frame whose payload is not empty: each is as it should be, their
payloads give back that of the frame, and however they are cut again, the pieces join to the frame. -/
theorem fragmentV4_reassembles (frame : List UInt8) (dest_mtu : UInt16) :
    Returns (fragmentV4 frame dest_mtu) fun r => ∀ frags, r = some frags →
      ∃ orig, ipv4At frame = some orig ∧
        (orig.offset + (frame.drop 34).length ≤ 65535 → frame.drop 34 ≠ [] →
          frags ≠ [] ∧ payloads frags = frame.drop 34 ∧
          (∀ pre frag post, frags = pre ++ frag :: post →
            ∃ ip, Fragment frame orig dest_mtu.toNat (payloads pre).length (post = []) frag ip) ∧
          ∀ frames, Relation.ReflTransGen Refragment frags frames →
            Pieces.reassemble (frames.map pieceOf) = some (pieceOf frame)) := by
  refine (fragmentV4_cut frame dest_mtu).mono fun r hr frags hsome => ?_
  obtain ⟨orig, horig, hcut⟩ := hr frags hsome
  refine ⟨orig, horig, fun hbound hne => ⟨hcut.nonempty.2 (List.length_pos_iff.2 hne), hcut.payload, ?_, ?_⟩⟩
  · intro pre frag post hsplit
    obtain ⟨ip, hip⟩ := hcut.each hbound pre frag post hsplit
    exact ⟨ip, Nat.zero_add (payloads pre).length ▸ hip⟩
  · intro frames hrun
    rw [(refragments_reassemble (hcut.good hbound) hrun).2]
    exact hcut.reassemble horig hne hbound

def emptyFrame : List UInt8 := List.replicate 14 0 ++ ({ ip_vhl := 0x45, ip_len := 20 } : Ipv4Hdr).asBytes

/-- It is accepted and gives no fragment, from which nothing can be put together. -/
theorem fragmentV4_emptyFrame :
    fragmentV4 emptyFrame 590 = .ok (some []) ∧
      Pieces.reassemble (([] : List (List UInt8)).map pieceOf) ≠ some (pieceOf emptyFrame) := by
  refine ⟨by decide +kernel, by simp [Pieces.reassemble]⟩

end Tincr.Packet

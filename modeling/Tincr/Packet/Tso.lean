import Tincr.Lib.Checked
import Tincr.Lib.Endian
import Tincr.Lib.OnesComplement

/-!
The split of a TCP super-packet into segments (`tso.rs`): `tsoSplit` is the source's loop over the
slots of an output buffer, with its slices, indices and additions as operations that can fault.
-/

namespace Tincr.Tso

open Checked

structure VirtioNetHdr where
  flags : UInt8
  gso_type : UInt8
  hdr_len : UInt16
  gso_size : UInt16
  csum_start : UInt16
  csum_offset : UInt16
deriving DecidableEq, Repr

inductive GsoType
  | none
  | tcpV4
  | tcpV6
deriving DecidableEq, Repr

inductive TsoError
  | tooShort
  | badTcpHlen
  | badCsumOffset
  | ipVersionMismatch
  | tooManySegments
deriving DecidableEq, Repr

abbrev ETH_HLEN : ℕ := 14
def ETH_P_IP : ℕ := 0x0800
def ETH_P_IPV6 : ℕ := 0x86DD
def IPPROTO_TCP : ℕ := 6

/-- `checksum_nofold`: an odd last byte is the high byte of a word. -/
def checksumNofold : List UInt8 → ℕ → Checked ℕ
  | [], sum => pure sum
  | [tail], sum => add (2 ^ 64) sum (tail.toNat <<< 8)
  | a :: b :: rest, sum => do
    let sum ← add (2 ^ 64) sum (BigEndian.decode [a, b])
    checksumNofold rest sum

def fold16 (ac : ℕ) : Checked UInt16 := do
  let ac ← add (2 ^ 64) (ac >>> 16) (ac &&& 0xffff)
  let ac ← add (2 ^ 64) (ac >>> 16) (ac &&& 0xffff)
  let ac ← add (2 ^ 64) (ac >>> 16) (ac &&& 0xffff)
  let ac ← add (2 ^ 64) (ac >>> 16) (ac &&& 0xffff)
  return UInt16.ofNat ac

def checksum (data : List UInt8) (initial : ℕ) : Checked UInt16 := do
  let sum ← checksumNofold data initial
  return ~~~ (← fold16 sum)

def be16 (b : List UInt8) (o : ℕ) : Checked UInt16 := do
  return UInt16.ofNat (BigEndian.decode (← slice b o (← offset [o, 2])))

def be32 (b : List UInt8) (o : ℕ) : Checked UInt32 := do
  return UInt32.ofNat (BigEndian.decode (← slice b o (← offset [o, 4])))

def ipv4WriteCsum (ip : List UInt8) (iphlen : ℕ) : Checked (List UInt8) := do
  let ip ← store ip 10 0
  let ip ← store ip 11 0
  let csum ← checksum (← slice ip 0 iphlen) 0
  copyTo ip 10 12 (BigEndian.encode 2 csum.toNat)

def ipAddrSpan (is_v6 : Bool) : ℕ × ℕ := if is_v6 then (8, 32) else (12, 8)

def pseudoHeaderChecksumNofold (proto : ℕ) (addrs : List UInt8) (tcp_len : ℕ) : Checked ℕ := do
  let sum ← checksumNofold addrs 0
  let sum ← add (2 ^ 64) sum proto
  add (2 ^ 64) sum tcp_len

def setEtherheader (buf : List UInt8) (ethertype : ℕ) : Checked (List UInt8) := do
  let buf ← copyTo buf 0 12 (List.replicate 12 0)
  copyTo buf 12 14 (BigEndian.encode 2 ethertype)

structure Plan where
  is_v6 : Bool
  iphlen : ℕ
  tcp_hlen : ℕ
  hdr_len : ℕ
  csum_at : ℕ
  hdr_buf : List UInt8
  first_seq : UInt32
  addrs : List UInt8
  first_id : UInt16
  gso_size : ℕ
deriving DecidableEq, Repr

def versionOk (is_v6 : Bool) (ip_ver : UInt8) : Bool :=
  !((is_v6 && ip_ver != 6) || (!is_v6 && ip_ver != 4))

/-- The checks on the packet, which give the length of the TCP header. -/
def checkHeaders (pkt : List UInt8) (hdr : VirtioNetHdr) (is_v6 : Bool) :
    Checked (Except TsoError ℕ) := do
  if pkt.isEmpty then return .error .tooShort
  let ip_ver := (← load pkt 0) >>> 4
  if !versionOk is_v6 ip_ver then return .error .ipVersionMismatch
  let iphlen := hdr.csum_start.toNat
  let dataoff ← offset [iphlen, 12]
  if pkt.length ≤ dataoff then return .error .tooShort
  let tcp_hlen ← mul usizeBound ((← load pkt dataoff) >>> 4).toNat 4
  if ¬ (20 ≤ tcp_hlen ∧ tcp_hlen ≤ 60) then return .error .badTcpHlen
  let hdr_len ← offset [iphlen, tcp_hlen]
  if pkt.length < hdr_len then return .error .tooShort
  let csum_at ← offset [iphlen, hdr.csum_offset.toNat]
  let csum_end ← offset [csum_at, 2]
  if pkt.length < csum_end then return .error .badCsumOffset
  -- the header buffer has room for 60 bytes of IP header and 60 of TCP header
  if 120 < hdr_len ∨ 120 < csum_end then return .error .tooShort
  return .ok tcp_hlen

def firstId (pkt : List UInt8) (is_v6 : Bool) : Checked UInt16 :=
  if is_v6 then return 0 else be16 pkt 4

def readPlan (pkt : List UInt8) (hdr : VirtioNetHdr) (is_v6 : Bool) (tcp_hlen : ℕ) : Checked Plan := do
  let iphlen := hdr.csum_start.toNat
  let hdr_len ← offset [iphlen, tcp_hlen]
  let csum_at ← offset [iphlen, hdr.csum_offset.toNat]
  let hdr_buf ← copyTo (List.replicate 120 0) 0 hdr_len (← slice pkt 0 hdr_len)
  let hdr_buf ← store hdr_buf csum_at 0
  let hdr_buf ← store hdr_buf (← offset [csum_at, 1]) 0
  let first_seq ← be32 pkt (← offset [iphlen, 4])
  let (addr_off, addr_len) := ipAddrSpan is_v6
  let addrs ← slice pkt addr_off (addr_off + addr_len)
  let first_id ← firstId pkt is_v6
  return { is_v6, iphlen, tcp_hlen, hdr_len, csum_at, hdr_buf, first_seq, addrs, first_id,
           gso_size := hdr.gso_size.toNat }

def writeIp (p : Plan) (ip : List UInt8) (i total_len : ℕ) : Checked (List UInt8) := do
  let ip ← copyTo ip 0 p.iphlen (← slice p.hdr_buf 0 p.iphlen)
  if p.is_v6 then
    let plen ← sub total_len p.iphlen
    copyTo ip 4 6 (BigEndian.encode 2 plen)
  else
    let id := p.first_id + UInt16.ofNat i
    let ip ← copyTo ip 4 6 (BigEndian.encode 2 id.toNat)
    let ip ← copyTo ip 2 4 (BigEndian.encode 2 total_len)
    ipv4WriteCsum ip p.iphlen

/-- FIN and PSH are taken off every segment but the last. -/
def clearFlags (ip : List UInt8) (flags_at : ℕ) (last : Bool) : Checked (List UInt8) := do
  if last then return ip
  store ip flags_at ((← load ip flags_at) &&& ~~~ 0x09)

def writeTcp (p : Plan) (ip : List UInt8) (i : ℕ) (last : Bool) : Checked (List UInt8) := do
  let ip ← copyTo ip p.iphlen p.hdr_len (← slice p.hdr_buf p.iphlen p.hdr_len)
  let seq := p.first_seq + UInt32.ofNat (← mul usizeBound p.gso_size i)
  let ip ← copyTo ip (← offset [p.iphlen, 4]) (← offset [p.iphlen, 4, 4])
    (BigEndian.encode 4 seq.toNat)
  clearFlags ip (← offset [p.iphlen, 13]) last

/-- Segment `i`, written over the IP part of its slot. -/
def segment (p : Plan) (pkt ip : List UInt8) (i next_data seg_end : ℕ) : Checked (List UInt8) := do
  let seg_data_len ← sub seg_end next_data
  let total_len ← offset [p.hdr_len, seg_data_len]
  let ip ← writeIp p ip i total_len
  let ip ← writeTcp p ip i (seg_end = pkt.length)
  let ip ← copyTo ip p.hdr_len total_len (← slice pkt next_data seg_end)
  let len_for_pseudo := (← offset [p.tcp_hlen, seg_data_len]) % 2 ^ 16
  let pseudo ← pseudoHeaderChecksumNofold IPPROTO_TCP p.addrs len_for_pseudo
  let tcp_csum ← checksum (← slice ip p.iphlen total_len) pseudo
  copyTo ip p.csum_at (← offset [p.csum_at, 2]) (BigEndian.encode 2 tcp_csum.toNat)

/-- Slot `i` of the output: an Ethernet header and the segment. -/
def writeSlot (p : Plan) (pkt out : List UInt8) (out_stride i next_data seg_end frame_len : ℕ) :
    Checked (List UInt8) := do
  let lo ← mul usizeBound i out_stride
  let hi ← offset [lo, frame_len]
  let slot ← slice out lo hi
  let slot ← setEtherheader slot (if p.is_v6 then ETH_P_IPV6 else ETH_P_IP)
  let ip ← slice slot ETH_HLEN slot.length
  let ip ← segment p pkt ip i next_data seg_end
  let slot ← copyTo slot ETH_HLEN slot.length ip
  copyTo out lo hi slot

/-- The loop: it is over when the packet is used up or the slots are, so it has no more rounds than
there are slots. -/
def segments (p : Plan) (pkt : List UInt8) (out_stride max_slots : ℕ) :
    ℕ → List UInt8 → List ℕ → ℕ → ℕ → Checked (Except TsoError ℕ × List UInt8 × List ℕ)
  | 0, out, lens, next_data, i =>
    if next_data < pkt.length then .error .diverges else return (.ok i, out, lens)
  | rounds + 1, out, lens, next_data, i => do
    if pkt.length ≤ next_data then return (.ok i, out, lens)
    if max_slots ≤ i ∨ lens.length ≤ i then return (.error .tooManySegments, out, lens)
    let seg_end := min (← offset [next_data, p.gso_size]) pkt.length
    let seg_data_len ← sub seg_end next_data
    let total_len ← offset [p.hdr_len, seg_data_len]
    let frame_len ← offset [ETH_HLEN, total_len]
    if out_stride < frame_len then return (.error .tooManySegments, out, lens)
    let out ← writeSlot p pkt out out_stride i next_data seg_end frame_len
    let lens ← store lens i frame_len
    segments p pkt out_stride max_slots rounds out lens seg_end (← offset [i, 1])

/-- The result, the output buffer and the lengths of the slots. With `GsoType::None` the source has
a debug assertion before this error. -/
def tsoSplit (pkt : List UInt8) (hdr : VirtioNetHdr) (gso_type : GsoType) (out : List UInt8)
    (out_stride : ℕ) (lens : List ℕ) : Checked (Except TsoError ℕ × List UInt8 × List ℕ) :=
  match gso_type with
  | .none => return (.error .ipVersionMismatch, out, lens)
  | .tcpV4 => split false
  | .tcpV6 => split true
where
  split (is_v6 : Bool) : Checked (Except TsoError ℕ × List UInt8 × List ℕ) := do
    match ← checkHeaders pkt hdr is_v6 with
    | .error e => return (.error e, out, lens)
    | .ok tcp_hlen =>
      let p ← readPlan pkt hdr is_v6 tcp_hlen
      let max_slots ← div out.length out_stride
      segments p pkt out_stride max_slots (lens.length + 1) out lens p.hdr_len 0

end Tincr.Tso

import Tincr.Lib.IpText
import Tincr.Proto.Tok

/-!
The text of a subnet: a MAC, IPv4 or IPv6 address, then `/prefix` unless it is the whole address and
`#weight` unless it is the default. The parser strips the weight first, then the prefix, and tries MAC
before IPv4 before IPv6; every subnet whose prefix fits its address is read back from its text.
-/

namespace Tincr.Proto

open Words Numeral IpText

structure Mac where
  octets : List UInt8
  length_eq : octets.length = 6
deriving DecidableEq, Repr

abbrev DEFAULT_WEIGHT : Int32 := 10

inductive Subnet
  | mac (addr : Mac) (weight : Int32)
  | v4 (addr : Ipv4Addr) (prefixLen : UInt8) (weight : Int32)
  | v6 (addr : Ipv6Addr) (prefixLen : UInt8) (weight : Int32)
deriving DecidableEq

namespace Subnet

def weight : Subnet → Int32
  | mac _ w | v4 _ _ w | v6 _ _ w => w

def splitOnce (sep : Char) (cs : List Char) : Option (List Char × List Char) :=
  match cs.dropWhile (· != sep) with
  | [] => none
  | _ :: rest => some (cs.takeWhile (· != sep), rest)

/-- `u8::from_str_radix(p, 16)` of one or two bytes of text. -/
def macByte (p : List Char) : Option UInt8 :=
  if p = [] ∨ 2 < (String.ofList p).utf8ByteSize then none
  else (readUnsigned 16 256 p).map UInt8.ofNat

/-- The parts of a MAC address are taken one after another, and must then be exhausted. -/
def macBytes : ℕ → List (List Char) → Option (List UInt8)
  | 0, [] => some []
  | 0, _ :: _ => none
  | _ + 1, [] => none
  | n + 1, p :: parts => do
    let byte ← macByte p
    let bytes ← macBytes n parts
    return byte :: bytes

def parseMac (cs : List Char) : Option Mac := do
  let octets ← macBytes 6 (cs.splitOn ':')
  if h : octets.length = 6 then some ⟨octets, h⟩ else none

/-- A missing prefix is the whole address. -/
def clamp (prefixLen : Option Int32) (max : UInt8) : Option UInt8 :=
  match prefixLen with
  | none => some max
  | some p => if p.toInt ≤ max.toNat then some (UInt8.ofNat p.toInt.toNat) else none

/-- `#weight` is stripped first. -/
def stripWeight (cs : List Char) : Option (List Char × Int32) :=
  match splitOnce '#' cs with
  | some (head, w) => (readI32 (String.ofList w)).map (head, ·)
  | none => some (cs, DEFAULT_WEIGHT)

/-- `/prefix` is stripped next; it is not negative, and compared with its bound only later. -/
def stripPrefix (cs : List Char) : Option (List Char × Option Int32) :=
  match splitOnce '/' cs with
  | some (head, p) => (readI32 (String.ofList p)).bind fun p => if p < 0 then none else some (head, some p)
  | none => some (cs, none)

def parseAddr (cs : List Char) (prefixLen : Option Int32) (weight : Int32) : Option Subnet :=
  match parseMac cs with
  | some addr => if prefixLen.isSome then none else some (mac addr weight)
  | none =>
    match Ipv4Addr.parse cs with
    | some addr => (clamp prefixLen 32).map (v4 addr · weight)
    | none =>
      match Ipv6Addr.parse cs with
      | some addr => (clamp prefixLen 128).map (v6 addr · weight)
      | none => none

def parse (s : String) : Option Subnet := do
  if 64 ≤ s.utf8ByteSize then failure
  let (cs, weight) ← stripWeight s.toList
  let (cs, prefixLen) ← stripPrefix cs
  parseAddr cs prefixLen weight

def hex2 (b : UInt8) : List Char := [Nat.digitChar (b.toNat / 16), Nat.digitChar (b.toNat % 16)]

def Mac.display (m : Mac) : List Char := [':'].intercalate (m.octets.map hex2)

def displayPrefix (prefixLen max : UInt8) : List Char :=
  if prefixLen ≠ max then '/' :: printInt prefixLen.toNat else []

def displayWeight (weight : Int32) : List Char :=
  if weight ≠ DEFAULT_WEIGHT then '#' :: printInt weight.toInt else []

/-- The address, then `/prefix` if it is below the maximum of its kind. -/
def displayAddr : Subnet → List Char
  | mac addr _ => Mac.display addr
  | v4 addr prefixLen _ => addr.display ++ displayPrefix prefixLen 32
  | v6 addr prefixLen _ => addr.display ++ displayPrefix prefixLen 128

def display (x : Subnet) : List Char := x.displayAddr ++ displayWeight x.weight

def WellFormed : Subnet → Prop
  | mac _ _ => True
  | v4 _ prefixLen _ => prefixLen ≤ 32
  | v6 _ prefixLen _ => prefixLen ≤ 128

instance (x : Subnet) : Decidable x.WellFormed := by
  cases x <;> unfold WellFormed <;> infer_instance

section Split

variable {sep : Char} {xs ys : List Char}

theorem splitOnce_eq_none (h : sep ∉ xs) : splitOnce sep xs = none := by
  have hdrop : xs.dropWhile (· != sep) = [] := by
    rw [List.dropWhile_eq_nil_iff]
    rintro c hc
    rw [bne_iff_ne]
    rintro rfl
    exact h hc
  rw [splitOnce, hdrop]

theorem splitOnce_append (h : sep ∉ xs) : splitOnce sep (xs ++ sep :: ys) = some (xs, ys) := by
  have hall : ∀ c ∈ xs, (c != sep) = true := by
    rintro c hc
    rw [bne_iff_ne]
    rintro rfl
    exact h hc
  rw [splitOnce, List.dropWhile_append_of_pos hall, List.takeWhile_append_of_pos hall]
  simp

end Split

variable {c : Char} {cs p : List Char} {x : Subnet} {b max : UInt8} {parts : List (List Char)} {bs : List UInt8}
  {m : Mac} {d : ℕ}

theorem mem_hex2 (hc : c ∈ hex2 b) : ∃ d < 16, c = Nat.digitChar d := by
  have hlt : b.toNat < 256 := b.toNat_lt
  rcases List.mem_pair.1 hc with rfl | rfl
  · exact ⟨_, by omega, rfl⟩
  · exact ⟨_, by omega, rfl⟩

theorem macByte_hex2 (b : UInt8) : macByte (hex2 b) = some b := by
  have hread : ∀ n < 256,
      readUnsigned 16 256 [Nat.digitChar (n / 16), Nat.digitChar (n % 16)] = some n := by
    decide +kernel
  have hlt : b.toNat < 256 := b.toNat_lt
  have hsize : (String.ofList (hex2 b)).utf8ByteSize = 2 := by
    refine utf8ByteSize_ascii fun c hc => ?_
    obtain ⟨d, hd, rfl⟩ := mem_hex2 hc
    exact (digitChar_solid d hd).1
  rw [macByte, if_neg, hex2, hread _ hlt, Option.map_some, UInt8.ofNat_toNat]
  rw [hsize]
  simp [hex2]

theorem macBytes_hex2 (bs : List UInt8) : macBytes bs.length (bs.map hex2) = some bs := by
  induction bs with
  | nil => rfl
  | cons b bs ih =>
    rw [List.length_cons, List.map_cons, macBytes, macByte_hex2, ih]
    rfl

theorem macBytes_eq_some {n : ℕ} (h : macBytes n parts = some bs) : parts.length = n ∧ [] ∉ parts := by
  induction parts generalizing n bs with
  | nil =>
    cases n with
    | zero => exact ⟨rfl, by simp⟩
    | succ n => exact absurd h (by simp [macBytes])
  | cons p parts ih =>
    cases n with
    | zero => exact absurd h (by simp [macBytes])
    | succ n =>
      rw [macBytes] at h
      obtain ⟨b, hb, h⟩ := Option.bind_eq_some_iff.1 h
      obtain ⟨bs, hbs, -⟩ := Option.bind_eq_some_iff.1 h
      obtain ⟨hlen, hmem⟩ := ih hbs
      refine ⟨by rw [List.length_cons, hlen], ?_⟩
      rintro (_ | ⟨_, hnil⟩)
      · exact absurd hb (by simp [macByte])
      · exact hmem hnil

theorem parseMac_eq_none (h : (cs.splitOn ':').length ≠ 6 ∨ [] ∈ cs.splitOn ':') : parseMac cs = none := by
  unfold parseMac
  cases hbytes : macBytes 6 (cs.splitOn ':') with
  | none => rfl
  | some bs =>
    obtain ⟨hlen, hmem⟩ := macBytes_eq_some hbytes
    exact absurd h (by simp [hlen, hmem])

theorem digitChar_ne_colon : ∀ d < 16, Nat.digitChar d ≠ ':' := by decide

theorem colon_notMem_toDigits (n : ℕ) : ':' ∉ Nat.toDigits 16 n := by
  intro h
  obtain ⟨d, hd, hc⟩ := mem_toDigits prints_sixteen h
  exact digitChar_ne_colon d hd hc.symm

theorem splitOn_displayGroups {gs : List UInt16} (hne : gs ≠ []) :
    ((displayGroups gs).splitOn ':').length = gs.length := by
  rw [displayGroups, List.splitOn_intercalate, List.length_map]
  · intro ds hds
    obtain ⟨g, -, rfl⟩ := List.mem_map.1 hds
    exact colon_notMem_toDigits _
  · simpa using hne

theorem nil_mem_splitOn_gap (xs ys : List Char) : [] ∈ (xs ++ ':' :: ':' :: ys).splitOn ':' := by
  rw [List.splitOn_eq_splitOnP, List.splitOnP_append_cons _ _ (by simp)]
  refine List.mem_append_right _ ?_
  have h : List.splitOnP (· == ':') ([] ++ ':' :: ys) = _ := List.splitOnP_append_cons [] ys (by simp)
  rw [List.nil_append, List.splitOnP_nil] at h
  rw [h]
  exact List.mem_append_left _ (List.mem_singleton_self _)

theorem parseMac_ipv6 (x : Ipv6Addr) : parseMac x.display = none := by
  apply parseMac_eq_none
  rcases displaySegments_cases x.length_eq with ⟨pre, post, -, h⟩ | ⟨y, h⟩ | h <;>
    rw [Ipv6Addr.display, h]
  · exact .inr (nil_mem_splitOn_gap _ _)
  · exact .inr (nil_mem_splitOn_gap [] _)
  · left
    have hne : x.segments ≠ [] := List.ne_nil_of_length_pos (by rw [x.length_eq]; decide)
    rw [splitOn_displayGroups hne, x.length_eq]
    decide

theorem parseMac_ipv4 (x : Ipv4Addr) : parseMac x.display = none := by
  apply parseMac_eq_none
  left
  rw [List.splitOn_eq_splitOnP, List.splitOnP_eq_singleton]
  · simp
  · intro c hc
    rw [beq_eq_false_iff_ne]
    exact (Ipv4Addr.plain_display hc).1

theorem parseMac_display (m : Mac) : parseMac (Mac.display m) = some m := by
  have hsplit : (Mac.display m).splitOn ':' = m.octets.map hex2 := by
    refine List.splitOn_intercalate _ (fun ds hds => ?_) ?_
    · obtain ⟨b, -, rfl⟩ := List.mem_map.1 hds
      intro hc
      obtain ⟨d, hd, heq⟩ := mem_hex2 hc
      exact digitChar_ne_colon d hd heq.symm
    · rw [← List.length_pos_iff_ne_nil, List.length_map, m.length_eq]
      decide
  have hbytes := macBytes_hex2 m.octets
  rw [m.length_eq] at hbytes
  rw [parseMac, hsplit, hbytes]
  simp only [Option.bind_eq_bind, Option.bind_some, m.length_eq, dite_true]

theorem mac_plain (hc : c ∈ Mac.display m) : Plain c := by
  rcases mem_intercalate hc with rfl | ⟨ds, hds, hc⟩
  · exact .inr (.inl rfl)
  · obtain ⟨b, -, rfl⟩ := List.mem_map.1 hds
    exact .inr (.inr (mem_hex2 hc))

theorem plain_ne (h : Plain c) : c ≠ '#' ∧ c ≠ '/' := by
  rcases h with rfl | rfl | ⟨d, hd, rfl⟩
  · decide
  · decide
  · exact (by decide : ∀ d < 16, Nat.digitChar d ≠ '#' ∧ Nat.digitChar d ≠ '/') d hd

theorem stripWeight_display (h : '#' ∉ cs) (weight : Int32) :
    stripWeight (cs ++ displayWeight weight) = some (cs, weight) := by
  unfold stripWeight displayWeight
  split_ifs with hw
  · have hread := readI32_dec weight
    rw [dec] at hread
    rw [splitOnce_append h]
    simp only [hread, Option.map_some]
  · rw [List.append_nil, splitOnce_eq_none h, not_not.1 hw]

/-- The prefix the text states: none for the whole address. -/
def statedPrefix (prefixLen max : UInt8) : Option Int32 :=
  if prefixLen ≠ max then some (Int32.ofInt prefixLen.toNat) else none

theorem toInt_ofInt_u8 (n : UInt8) : (Int32.ofInt n.toNat).toInt = n.toNat := by
  have : n.toNat < 256 := n.toNat_lt
  exact Int32.toInt_ofInt_of_le (by omega) (by omega)

theorem stripPrefix_display (h : '/' ∉ cs) (prefixLen max : UInt8) :
    stripPrefix (cs ++ displayPrefix prefixLen max) = some (cs, statedPrefix prefixLen max) := by
  unfold stripPrefix displayPrefix statedPrefix
  split_ifs with hp
  · have hread := readI32_dec (Int32.ofInt prefixLen.toNat)
    rw [toInt_ofInt_u8, dec] at hread
    have hneg : ¬ Int32.ofInt prefixLen.toNat < 0 := by
      rw [Int32.lt_iff_toInt_lt, toInt_ofInt_u8]
      simp
    rw [splitOnce_append h]
    simp only [hread, Option.bind_some, if_neg hneg]
  · rw [List.append_nil, splitOnce_eq_none h]

theorem clamp_statedPrefix {prefixLen : UInt8} (h : prefixLen ≤ max) :
    clamp (statedPrefix prefixLen max) max = some prefixLen := by
  have hle := UInt8.le_iff_toNat_le.1 h
  unfold clamp statedPrefix
  split_ifs with hp
  · simp only [toInt_ofInt_u8]
    rw [if_pos (by omega)]
    simp
  · simp [not_not.1 hp]

theorem plain_solid (h : Plain c) : c.toNat < 128 ∧ isSpace c = false := by
  rcases h with rfl | rfl | ⟨d, hd, rfl⟩
  · decide +kernel
  · decide +kernel
  · exact digitChar_solid d hd

theorem mem_displayPrefix {prefixLen : UInt8} (hc : c ∈ displayPrefix prefixLen max) : c = '/' ∨ Plain c := by
  unfold displayPrefix at hc
  split_ifs at hc
  · exact (List.mem_cons.1 hc).imp_right (plain_toDigits prints_ten (by decide))
  · exact absurd hc (by simp)

theorem mem_displayAddr (hc : c ∈ x.displayAddr) : c = '/' ∨ Plain c := by
  cases x with
  | mac addr w => exact .inr (mac_plain hc)
  | v4 addr prefixLen w =>
    rcases List.mem_append.1 hc with hc | hc
    · exact .inr (Ipv4Addr.plain_display hc).2
    · exact mem_displayPrefix hc
  | v6 addr prefixLen w =>
    rcases List.mem_append.1 hc with hc | hc
    · exact .inr (Ipv6Addr.plain_display hc)
    · exact mem_displayPrefix hc

theorem display_solid : ∀ c ∈ x.display, c.toNat < 128 ∧ isSpace c = false := by
  intro c hc
  rcases List.mem_append.1 hc with hc | hc
  · rcases mem_displayAddr hc with rfl | h
    · decide +kernel
    · exact plain_solid h
  · unfold displayWeight at hc
    split_ifs at hc
    · rcases List.mem_cons.1 hc with rfl | hc
      · decide +kernel
      · exact printInt_solid _ c hc
    · exact absurd hc (by simp)

theorem length_displayPrefix (prefixLen max : UInt8) : (displayPrefix prefixLen max).length ≤ 5 := by
  have hlt := prefixLen.toNat_lt
  have : (printInt prefixLen.toNat).length ≤ 3 + 1 := length_printInt_le (by decide) (by omega)
  unfold displayPrefix
  split_ifs
  · rw [List.length_cons]
    omega
  · simp

theorem length_displayWeight (weight : Int32) : (displayWeight weight).length ≤ 12 := by
  have := weight.toInt_lt
  have := weight.le_toInt
  have : (printInt weight.toInt).length ≤ 10 + 1 := length_printInt_le (by decide) (by omega)
  unfold displayWeight
  split_ifs
  · rw [List.length_cons]
    omega
  · simp

theorem length_macDisplay (m : Mac) : (Mac.display m).length = 17 := by
  obtain ⟨octets, hlen⟩ := m
  match octets, hlen with
  | [a, b, c, d, e, g], _ => rfl

theorem length_displayAddr (x : Subnet) : x.displayAddr.length ≤ 44 := by
  cases x with
  | mac addr w => exact (length_macDisplay addr).trans_le (by decide)
  | v4 addr prefixLen w =>
    have := IpText.length_display addr
    have := length_displayPrefix prefixLen 32
    rw [displayAddr, List.length_append]
    omega
  | v6 addr prefixLen w =>
    have := addr.length_display
    have := length_displayPrefix prefixLen 128
    rw [displayAddr, List.length_append]
    omega

theorem displayAddr_ne_nil (x : Subnet) : x.displayAddr ≠ [] := by
  intro h
  cases x with
  | mac addr w =>
    have hlen := length_macDisplay addr
    rw [displayAddr] at h
    rw [h] at hlen
    exact absurd hlen (by decide)
  | v4 addr prefixLen w =>
    have hparse := addr.parse_display
    rw [(List.append_eq_nil_iff.1 h).1] at hparse
    have hnone : Ipv4Addr.parse [] = none := rfl
    exact absurd (hnone.symm.trans hparse) (by simp)
  | v6 addr prefixLen w =>
    have hparse := addr.parse_display
    rw [(List.append_eq_nil_iff.1 h).1] at hparse
    exact absurd hparse (by simp [Ipv6Addr.parse, readIpv6, readGroups_first_gap 8 (.inl rfl)])

theorem utf8ByteSize_display (x : Subnet) : (String.ofList x.display).utf8ByteSize < 64 := by
  have := length_displayAddr x
  have := length_displayWeight x.weight
  rw [utf8ByteSize_ascii fun c hc => (display_solid c hc).1, display, List.length_append]
  omega

theorem token_display (x : Subnet) : Token (String.ofList x.display) := by
  have := utf8ByteSize_display x
  rw [utf8ByteSize_ascii fun c hc => (display_solid c hc).1] at this
  refine isWord_ascii ?_ (le_trans (by omega) (by decide : 64 ≤ MAX_STRING)) display_solid
  rw [display]
  exact List.append_ne_nil_of_left_ne_nil (displayAddr_ne_nil x) _

theorem hash_notMem_displayAddr (x : Subnet) : '#' ∉ x.displayAddr := by
  intro hc
  rcases mem_displayAddr hc with h | h
  · exact absurd h (by decide)
  · exact (plain_ne h).1 rfl

theorem parse_display (hx : x.WellFormed) : parse (String.ofList x.display) = some x := by
  have hsize := utf8ByteSize_display x
  rw [parse, if_neg (by omega), String.toList_ofList, display,
    stripWeight_display (hash_notMem_displayAddr x)]
  cases x with
  | mac addr w =>
    have hslash : '/' ∉ Mac.display addr := fun hc => (plain_ne (mac_plain hc)).2 rfl
    have hstrip : stripPrefix (Mac.display addr) = some (Mac.display addr, none) := by
      rw [stripPrefix, splitOnce_eq_none hslash]
    simp [displayAddr, hstrip, parseAddr, parseMac_display, weight]
  | v4 addr prefixLen w =>
    have hslash : '/' ∉ addr.display := fun hc => (plain_ne (Ipv4Addr.plain_display hc).2).2 rfl
    simp [displayAddr, stripPrefix_display hslash, parseAddr, parseMac_ipv4, Ipv4Addr.parse_display,
      clamp_statedPrefix hx, weight]
  | v6 addr prefixLen w =>
    have hslash : '/' ∉ addr.display := fun hc => (plain_ne (Ipv6Addr.plain_display hc)).2 rfl
    simp [displayAddr, stripPrefix_display hslash, parseAddr, parseMac_ipv6, Ipv6Addr.parse_ipv4,
      Ipv6Addr.parse_display, clamp_statedPrefix hx, weight]

theorem wellFormed_of_clamp {prefixLen : Option Int32} {p : UInt8} (h : clamp prefixLen max = some p) :
    p ≤ max := by
  unfold clamp at h
  split at h
  · exact UInt8.le_of_eq (Option.some.inj h).symm
  · split_ifs at h with hle
    have hmax := max.toNat_lt
    obtain rfl := Option.some.inj h
    refine UInt8.le_iff_toNat_le.2 ?_
    rw [UInt8.toNat_ofNat']
    omega

theorem wellFormed_of_parseAddr {prefixLen : Option Int32} {w : Int32} (h : parseAddr cs prefixLen w = some x) :
    x.WellFormed := by
  unfold parseAddr at h
  cases hmac : parseMac cs with
  | some addr =>
    simp only [hmac] at h
    split_ifs at h
    obtain rfl := Option.some.inj h
    trivial
  | none =>
    simp only [hmac] at h
    cases hv4 : Ipv4Addr.parse cs with
    | some addr =>
      simp only [hv4] at h
      obtain ⟨p, hp, rfl⟩ := Option.map_eq_some_iff.1 h
      exact wellFormed_of_clamp hp
    | none =>
      simp only [hv4] at h
      cases hv6 : Ipv6Addr.parse cs with
      | some addr =>
        simp only [hv6] at h
        obtain ⟨p, hp, rfl⟩ := Option.map_eq_some_iff.1 h
        exact wellFormed_of_clamp hp
      | none => simp [hv6] at h

/-- What the parser accepts has a prefix that fits its address. -/
theorem wellFormed_of_parse {s : String} (h : parse s = some x) : x.WellFormed := by
  unfold parse at h
  split_ifs at h
  · exact absurd h (by simp [failure, Alternative.failure])
  obtain ⟨⟨cs, w⟩, -, h⟩ := Option.bind_eq_some_iff.1 h
  obtain ⟨⟨cs', prefixLen⟩, -, h⟩ := Option.bind_eq_some_iff.1 h
  exact wellFormed_of_parseAddr h

/-- A subnet is read back from its text, and what is read from any text is read back from its own. -/
theorem text_inverse : (∀ x : Subnet, x.WellFormed → parse (String.ofList x.display) = some x) ∧
    ∀ s x, parse s = some x → parse (String.ofList x.display) = some x :=
  ⟨fun _ hx => parse_display hx, fun _ _ h => parse_display (wellFormed_of_parse h)⟩

theorem text_inverse_v4 : parse "10.0.0.0/8#3" = some (v4 ⟨10, 0, 0, 0⟩ 8 3) ∧
    parse (String.ofList (v4 ⟨10, 0, 0, 0⟩ 8 3).display) = some (v4 ⟨10, 0, 0, 0⟩ 8 3) :=
  ⟨by decide +kernel, text_inverse.2 "10.0.0.0/8#3" _ (by decide +kernel)⟩

/-! ### The grammar of MAC addresses -/

inductive HexPart : List Char → UInt8 → Prop
  | one {c : Char} {d : ℕ} (hc : digit 16 c = some d) : HexPart [c] (UInt8.ofNat d)
  | two {c c' : Char} {d d' : ℕ} (hc : digit 16 c = some d) (hc' : digit 16 c' = some d') :
      HexPart [c, c'] (UInt8.ofNat (d * 16 + d'))

/-- A digit behind a plus sign, which the number reader of the standard library allows. -/
inductive SignedPart : List Char → UInt8 → Prop
  | plus {c : Char} {d : ℕ} (hc : digit 16 c = some d) : SignedPart ['+', c] (UInt8.ofNat d)

/-- Parts separated by colons, one for each byte of the address. -/
def MacText (part : List Char → UInt8 → Prop) (cs : List Char) (m : Mac) : Prop :=
  ∃ parts, cs = [':'].intercalate parts ∧ List.Forall₂ part parts m.octets

theorem digit_lt (h : digit 16 c = some d) : d < 16 :=
  of_decide_eq_true (Option.filter_eq_some_iff.1 h).2

theorem digit_ascii (h : digit 16 c = some d) : c.toNat < 128 := by
  have hvalue := (Option.filter_eq_some_iff.1 h).1
  unfold digitValue at hvalue
  split_ifs at hvalue with hdec hlow hupp
  · exact Nat.lt_of_le_of_lt hdec.2 (by decide)
  · exact Nat.lt_of_le_of_lt hlow.2 (by decide)
  · exact Nat.lt_of_le_of_lt hupp.2 (by decide)

theorem digit_ne (h : digit 16 c = some d) : c ≠ ':' ∧ c ≠ '+' := by
  have hcolon : digit 16 ':' = none := by decide
  have hplus : digit 16 '+' = none := by decide
  constructor
  · rintro rfl
    simp [hcolon] at h
  · rintro rfl
    simp [hplus] at h

theorem length_le_utf8ByteSize (p : List Char) : p.length ≤ (String.ofList p).utf8ByteSize := by
  rw [String.utf8ByteSize_ofList]
  induction p with
  | nil => rfl
  | cons c p ih =>
    have := Char.utf8Size_pos c
    rw [String.utf8Len_cons, List.length_cons]
    omega

theorem filter_digit (c : Char) : (digit 16 c).filter (fun n => decide (n < 256)) = digit 16 c := by
  cases h : digit 16 c with
  | none => rfl
  | some d => exact Option.filter_some_pos (by have := digit_lt h; exact decide_eq_true (by omega))

theorem readDigits_singleton (c : Char) : readDigits 16 [c] = digit 16 c := by
  cases h : digit 16 c <;> simp [readDigits, h]

theorem readUnsigned_singleton (c : Char) : readUnsigned 16 256 [c] = digit 16 c := by
  have hplus : digit 16 '+' = none := by decide
  unfold readUnsigned
  split
  · next ds heq =>
    obtain ⟨rfl, rfl⟩ := List.cons.inj heq
    exact hplus.symm
  · dsimp only
    rw [if_neg (by simp), readDigits_singleton]
    exact filter_digit c

theorem readUnsigned_signed (c : Char) : readUnsigned 16 256 ['+', c] = digit 16 c := by
  simp only [readUnsigned]
  rw [if_neg (by simp), readDigits_singleton]
  exact filter_digit c

theorem readUnsigned_pair (hc : c ≠ '+') (c' : Char) : readUnsigned 16 256 [c, c'] =
    (digit 16 c).bind fun d => (digit 16 c').map (d * 16 + ·) := by
  unfold readUnsigned
  split
  · next ds heq => exact absurd (List.cons.inj heq).1 hc
  · dsimp only
    rw [if_neg (by simp)]
    cases hd : digit 16 c with
    | none => simp [readDigits, hd]
    | some d =>
      cases hd' : digit 16 c' with
      | none => simp [readDigits, hd, hd']
      | some d' =>
        have := digit_lt hd
        have := digit_lt hd'
        simp only [readDigits, List.foldlM_cons, List.foldlM_nil, hd, hd', Option.map_some, Option.bind_eq_bind,
          Option.bind_some, Option.pure_def]
        rw [Nat.zero_mul, Nat.zero_add]
        exact Option.filter_some_pos (decide_eq_true (show d * 16 + d' < 256 by omega))

theorem macByte_of_ascii (hne : p ≠ []) (hascii : ∀ c ∈ p, c.toNat < 128) (hlen : p.length ≤ 2) :
    macByte p = (readUnsigned 16 256 p).map UInt8.ofNat := by
  rw [macByte, if_neg]
  rw [utf8ByteSize_ascii hascii]
  simp [hne, hlen]

theorem macByte_eq_some_iff : macByte p = some b ↔ HexPart p b ∨ SignedPart p b := by
  constructor
  · intro h
    have hsize := length_le_utf8ByteSize p
    unfold macByte at h
    split_ifs at h with hlong
    obtain ⟨n, hread, rfl⟩ := Option.map_eq_some_iff.1 h
    match p, hlong, hsize, hread with
    | [], hlong, _, _ => exact absurd (.inl rfl) hlong
    | [c], _, _, hread => exact .inl (.one (readUnsigned_singleton c ▸ hread))
    | [c, c'], _, _, hread =>
      by_cases hc : c = '+'
      · subst hc
        exact .inr (.plus (readUnsigned_signed c' ▸ hread))
      · rw [readUnsigned_pair hc] at hread
        obtain ⟨d, hd, hread⟩ := Option.bind_eq_some_iff.1 hread
        obtain ⟨d', hd', rfl⟩ := Option.map_eq_some_iff.1 hread
        exact .inl (.two hd hd')
    | _ :: _ :: _ :: _, hlong, hsize, _ =>
      simp only [List.length_cons] at hsize
      exact absurd (.inr (by omega)) hlong
  · rintro (h | h)
    · cases h with
      | one hc =>
        rw [macByte_of_ascii (by simp) (by simpa using digit_ascii hc) (by simp), readUnsigned_singleton, hc]
        rfl
      | two hc hc' =>
        rw [macByte_of_ascii (by simp) (by simpa using ⟨digit_ascii hc, digit_ascii hc'⟩) (by simp),
          readUnsigned_pair (digit_ne hc).2, hc, hc']
        rfl
    · cases h with
      | plus hc =>
        rw [macByte_of_ascii (by simp) (by simpa using digit_ascii hc) (by simp), readUnsigned_signed, hc]
        rfl

theorem macBytes_eq_some_iff {n : ℕ} :
    macBytes n parts = some bs ↔ parts.length = n ∧ List.Forall₂ (fun p b => HexPart p b ∨ SignedPart p b) parts bs := by
  induction parts generalizing n bs with
  | nil =>
    cases n with
    | zero => simp [macBytes, eq_comm]
    | succ n => simp [macBytes]
  | cons p parts ih =>
    cases n with
    | zero => simp [macBytes]
    | succ n =>
      simp only [macBytes, Option.bind_eq_bind, Option.bind_eq_some_iff, Option.pure_def, Option.some.injEq,
        macByte_eq_some_iff, ih, List.length_cons, Nat.add_right_cancel_iff]
      constructor
      · rintro ⟨b, hb, bs', ⟨hlen, hparts⟩, rfl⟩
        exact ⟨hlen, .cons hb hparts⟩
      · rintro ⟨hlen, hparts⟩
        cases hparts with
        | cons hb hrest => exact ⟨_, hb, _, ⟨hlen, hrest⟩, rfl⟩

theorem colon_notMem_part (h : HexPart p b ∨ SignedPart p b) : ':' ∉ p := by
  rcases h with h | h
  · cases h with
    | one hc => simpa using (digit_ne hc).1.symm
    | two hc hc' => simpa using ⟨(digit_ne hc).1.symm, (digit_ne hc').1.symm⟩
  · cases h with
    | plus hc => simpa using (digit_ne hc).1.symm

/-- The text of an address as the parser reads it: a sign is let through. -/
theorem parseMac_eq_some_iff : parseMac cs = some m ↔ MacText (fun p b => HexPart p b ∨ SignedPart p b) cs m := by
  constructor
  · intro h
    obtain ⟨octets, hbytes, h⟩ := Option.bind_eq_some_iff.1 h
    split_ifs at h with hlen
    obtain rfl := Option.some.inj h
    exact ⟨_, (List.intercalate_splitOn ':').symm, (macBytes_eq_some_iff.1 hbytes).2⟩
  · rintro ⟨parts, rfl, hparts⟩
    have hlen : parts.length = 6 := hparts.length_eq.trans m.length_eq
    have hsplit : ([':'].intercalate parts).splitOn ':' = parts := by
      refine List.splitOn_intercalate _ (fun p hp => ?_) (List.ne_nil_of_length_pos (by omega))
      obtain ⟨i, hi, rfl⟩ := List.getElem_of_mem hp
      exact colon_notMem_part (hparts.get hi (hparts.length_eq ▸ hi))
    have hbytes : macBytes 6 parts = some m.octets := macBytes_eq_some_iff.2 ⟨hlen, hparts⟩
    rw [parseMac, hsplit, hbytes]
    simp only [Option.bind_eq_bind, Option.bind_some, m.length_eq, dite_true]

/-- A text that would be an address if its signs were digits. -/
def SignedMac (cs : List Char) : Prop :=
  '+' ∈ cs ∧ ∃ m, MacText (fun p b => HexPart p b ∨ SignedPart p b) cs m

theorem plus_notMem_hexPart (h : HexPart p b) : '+' ∉ p := by
  cases h with
  | one hc => simpa using (digit_ne hc).2.symm
  | two hc hc' => simpa using ⟨(digit_ne hc).2.symm, (digit_ne hc').2.symm⟩

theorem mem_intercalate_of_mem {sep : Char} (hp : p ∈ parts) (hc : c ∈ p) : c ∈ [sep].intercalate parts := by
  induction parts with
  | nil => simp at hp
  | cons q parts ih =>
    cases parts with
    | nil =>
      obtain rfl := List.mem_singleton.1 hp
      simpa [List.intercalate] using hc
    | cons q' parts =>
      have hsplit : [sep].intercalate (q :: q' :: parts) = q ++ [sep] ++ [sep].intercalate (q' :: parts) := by
        simp [List.intercalate]
      rw [hsplit]
      rcases List.mem_cons.1 hp with rfl | hp
      · exact List.mem_append_left _ (List.mem_append_left _ hc)
      · exact List.mem_append_right _ (ih hp)

theorem exists_of_mem_forall₂ {α β : Type} {R : α → β → Prop} {as : List α} {bs : List β} (h : List.Forall₂ R as bs)
    {a : α} (ha : a ∈ as) : ∃ b, R a b := by
  obtain ⟨i, hi, rfl⟩ := List.getElem_of_mem ha
  exact ⟨_, h.get hi (h.length_eq ▸ hi)⟩

theorem plus_notMem_macText (h : MacText HexPart cs m) : '+' ∉ cs := by
  obtain ⟨parts, rfl, hparts⟩ := h
  intro hplus
  rcases mem_intercalate hplus with hsep | ⟨p, hp, hplus⟩
  · exact absurd hsep (by decide)
  · obtain ⟨b, hb⟩ := exists_of_mem_forall₂ hparts hp
    exact plus_notMem_hexPart hb hplus

/-- Without a sign only digits are left. -/
theorem hexParts_of_plus_notMem (h : List.Forall₂ (fun p b => HexPart p b ∨ SignedPart p b) parts bs)
    (hplus : ∀ p ∈ parts, '+' ∉ p) : List.Forall₂ HexPart parts bs := by
  induction h with
  | nil => exact .nil
  | @cons p b parts bs hpart _ ih =>
    refine .cons ?_ (ih fun q hq => hplus q (List.mem_cons_of_mem _ hq))
    rcases hpart with hhex | hsigned
    · exact hhex
    · cases hsigned with
      | plus hc => exact absurd List.mem_cons_self (hplus _ List.mem_cons_self)

/-- The parser accepts the grammar and nothing else, except for texts with a sign. -/
theorem parseMac_exact_iff (cs : List Char) :
    (∀ m, parseMac cs = some m ↔ MacText HexPart cs m) ↔ ¬ SignedMac cs := by
  constructor
  · rintro hexact ⟨hplus, m, hm⟩
    exact plus_notMem_macText ((hexact m).1 (parseMac_eq_some_iff.2 hm)) hplus
  · intro hsigned m
    rw [parseMac_eq_some_iff]
    constructor
    · intro hm
      have hplus : '+' ∉ cs := fun hplus => hsigned ⟨hplus, m, hm⟩
      obtain ⟨parts, rfl, hparts⟩ := hm
      exact ⟨parts, rfl, hexParts_of_plus_notMem hparts fun p hp hc => hplus (mem_intercalate_of_mem hp hc)⟩
    · rintro ⟨parts, hcs, hparts⟩
      exact ⟨parts, hcs, hparts.imp fun _ _ h => .inl h⟩

/-- The address `+1:0:0:0:0:0` is accepted. -/
theorem parseMac_signed : parseMac "+1:0:0:0:0:0".toList = some ⟨[1, 0, 0, 0, 0, 0], rfl⟩ ∧
    ∀ m, ¬ MacText HexPart "+1:0:0:0:0:0".toList m :=
  ⟨by decide +kernel, fun _ h => plus_notMem_macText h (by decide)⟩

end Subnet

end Tincr.Proto

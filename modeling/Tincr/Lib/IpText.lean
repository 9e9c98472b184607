import Tincr.Lib.Numeral

/-!
The text of IPv4 and IPv6 addresses, as the standard library prints and reads it. An IPv6 address is
printed as hexadecimal groups with its first longest run of two or more zero groups left out, or, when
it stands for an IPv4 address, with that address at its end. The reader takes the groups before and
after `::` and fills the gap with zeros; reading what was printed gives the address back.
-/

namespace IpText

open Numeral

structure Ipv4Addr where
  a : UInt8
  b : UInt8
  c : UInt8
  d : UInt8
deriving DecidableEq, Repr

structure Ipv6Addr where
  segments : List UInt16
  length_eq : segments.length = 8
deriving DecidableEq, Repr

namespace Ipv4Addr

def octets (x : Ipv4Addr) : List UInt8 := [x.a, x.b, x.c, x.d]

def display (x : Ipv4Addr) : List Char := ['.'].intercalate (x.octets.map fun o => Nat.toDigits 10 o.toNat)

end Ipv4Addr

/-- `read_number`: up to `max` digits, without a leading zero unless that is allowed. -/
def readNumber (base max bound : ℕ) (zeroPrefix : Bool) (cs : List Char) : Option (ℕ × List Char) :=
  let ds := cs.takeWhile fun c => (digit base c).isSome
  if ds = [] ∨ max < ds.length ∨ (zeroPrefix = false ∧ ds.head? = some '0' ∧ 1 < ds.length) then none
  else (readDigits base ds).bind fun n =>
    if n < bound then some (n, cs.dropWhile fun c => (digit base c).isSome) else none

/-- `read_separator`: every item but the first is behind a separator. -/
def readSeparator {α : Type} (sep : Char) (first : Bool) (inner : List Char → Option (α × List Char))
    (cs : List Char) : Option (α × List Char) :=
  if first then inner cs
  else match cs with
    | c :: rest => if c = sep then inner rest else none
    | [] => none

def readOctet (first : Bool) : List Char → Option (ℕ × List Char) :=
  readSeparator '.' first (readNumber 10 3 256 false)

def readIpv4 (cs : List Char) : Option (Ipv4Addr × List Char) := do
  let (a, cs) ← readOctet true cs
  let (b, cs) ← readOctet false cs
  let (c, cs) ← readOctet false cs
  let (d, cs) ← readOctet false cs
  return (⟨.ofNat a, .ofNat b, .ofNat c, .ofNat d⟩, cs)

def Ipv4Addr.parse (cs : List Char) : Option Ipv4Addr :=
  if 15 < cs.length then none
  else match readIpv4 cs with
    | some (x, []) => some x
    | _ => none

def Ipv4Addr.groups (x : Ipv4Addr) : List UInt16 :=
  [x.a.toUInt16 <<< 8 ||| x.b.toUInt16, x.c.toUInt16 <<< 8 ||| x.d.toUInt16]

def readGroup (first : Bool) : List Char → Option (ℕ × List Char) :=
  readSeparator ':' first (readNumber 16 4 65536 true)

/-- `read_groups`: up to `n` groups, the last two possibly as an IPv4 address. -/
def readGroups : ℕ → Bool → List Char → List UInt16 × Bool × List Char
  | 0, _, cs => ([], false, cs)
  | n + 1, first, cs =>
    match (if 0 < n then readSeparator ':' first readIpv4 cs else none) with
    | some (x, rest) => (x.groups, true, rest)
    | none =>
      match readGroup first cs with
      | some (g, rest) =>
        let (gs, v4, rest) := readGroups n false rest
        (.ofNat g :: gs, v4, rest)
      | none => ([], false, cs)

/-- `read_ipv6_addr`: the groups, those left out by `::` being zero. -/
def readIpv6 (cs : List Char) : Option (List UInt16 × List Char) :=
  let (head, v4, cs) := readGroups 8 true cs
  if head.length = 8 then some (head, cs)
  else if v4 then none
  else match cs with
    | ':' :: ':' :: cs =>
      let (tail, _, cs) := readGroups (8 - (head.length + 1)) true cs
      some (head ++ List.replicate (8 - tail.length - head.length) 0 ++ tail, cs)
    | _ => none

def Ipv6Addr.parse (cs : List Char) : Option Ipv6Addr :=
  match readIpv6 cs with
  | some (segments, []) => if h : segments.length = 8 then some ⟨segments, h⟩ else none
  | _ => none

structure Span where
  start : ℕ
  len : ℕ

/-- The first longest run of zeros: `current` is the run that ends here, `longest` the best so far. -/
def zeroes : List UInt16 → ℕ → Span → Span → Span
  | [], _, _, longest => longest
  | g :: rest, i, current, longest =>
    if g = 0 then
      let current : Span := ⟨if current.len = 0 then i else current.start, current.len + 1⟩
      zeroes rest (i + 1) current (if longest.len < current.len then current else longest)
    else zeroes rest (i + 1) ⟨0, 0⟩ longest

/-- `to_ipv4_mapped`: the IPv4 address at the end of `::ffff:0:0/96`. -/
def toIpv4Mapped : List UInt16 → Option Ipv4Addr
  | [0, 0, 0, 0, 0, 0xffff, ab, cd] =>
    some ⟨(ab >>> 8).toUInt8, ab.toUInt8, (cd >>> 8).toUInt8, cd.toUInt8⟩
  | _ => none

def displayGroups (gs : List UInt16) : List Char :=
  [':'].intercalate (gs.map fun g => Nat.toDigits 16 g.toNat)

def displaySegments (segments : List UInt16) : List Char :=
  match toIpv4Mapped segments with
  | some x => "::ffff:".toList ++ x.display
  | none =>
    let gap := zeroes segments 0 ⟨0, 0⟩ ⟨0, 0⟩
    if 1 < gap.len then
      displayGroups (segments.take gap.start) ++ ':' :: ':' ::
        displayGroups (segments.drop (gap.start + gap.len))
    else displayGroups segments

def Ipv6Addr.display (x : Ipv6Addr) : List Char := displaySegments x.segments

/-- Nothing in the text behind a number or a group can be taken for more of it. -/
def Ends (base : ℕ) (rest : List Char) : Prop :=
  ∀ c cs, rest = c :: cs → (digit base c).isSome = false

variable {base : ℕ} {rest : List Char}

theorem takeWhile_toDigits (hb : Prints base) (h : Ends base rest) (n : ℕ) :
    (Nat.toDigits base n ++ rest).takeWhile (fun c => (digit base c).isSome) = Nat.toDigits base n ∧
      (Nat.toDigits base n ++ rest).dropWhile (fun c => (digit base c).isSome) = rest := by
  have hall : ∀ c ∈ Nat.toDigits base n, (digit base c).isSome = true := by
    intro c hc
    obtain ⟨d, hd, rfl⟩ := mem_toDigits hb hc
    rw [hb.2 d hd]
    rfl
  rw [List.takeWhile_append_of_pos hall, List.dropWhile_append_of_pos hall]
  cases rest with
  | nil => simp
  | cons c cs =>
    have hc := h c cs rfl
    simp [hc]

variable {gs segments : List UInt16} {c : Char} {n : ℕ} {α : Type}

theorem readNumber_toDigits (hb : Prints base) (h : Ends base rest) {max bound : ℕ} {zeroPrefix : Bool}
    (hmax : 0 < max) (hlen : n < base ^ max) (hn : n < bound) :
    readNumber base max bound zeroPrefix (Nat.toDigits base n ++ rest) = some (n, rest) := by
  obtain ⟨htake, hdrop⟩ := takeWhile_toDigits hb h n
  have hzero : ¬ ((Nat.toDigits base n).head? = some '0' ∧ 1 < (Nat.toDigits base n).length) := by
    rintro ⟨hhead, hlong⟩
    rcases Nat.eq_zero_or_pos n with rfl | hpos
    · rw [Nat.toDigits_of_lt_base (by have := hb.1; omega)] at hlong
      simp at hlong
    · exact head?_toDigits_ne_zero hb hpos hhead
  unfold readNumber
  simp only [htake, hdrop]
  rw [if_neg, readDigits_toDigits hb]
  · simp [hn]
  · have := length_toDigits_le hb hmax hlen
    have := Nat.toDigits_ne_nil (n := n) (b := base)
    rintro (h0 | h1 | ⟨-, h2⟩)
    · exact absurd h0 this
    · omega
    · exact hzero h2

theorem readSeparator_first (sep : Char) (inner : List Char → Option (α × List Char)) (cs : List Char) :
    readSeparator sep true inner cs = inner cs := rfl

theorem readSeparator_cons (sep : Char) (inner : List Char → Option (α × List Char)) (cs : List Char) :
    readSeparator sep false inner (sep :: cs) = inner cs := by
  simp [readSeparator]

theorem ends_nil : Ends base [] := nofun

theorem ends_cons {cs : List Char} (h : (digit base c).isSome = false) : Ends base (c :: cs) := by
  rintro _ _ ⟨⟩
  exact h

theorem readOctet_first (h : Ends 10 rest) (o : UInt8) :
    readOctet true (Nat.toDigits 10 o.toNat ++ rest) = some (o.toNat, rest) := by
  have := o.toNat_lt
  exact readNumber_toDigits prints_ten h (by decide) (by omega) (by omega)

theorem readOctet_next (h : Ends 10 rest) (o : UInt8) :
    readOctet false ('.' :: (Nat.toDigits 10 o.toNat ++ rest)) = some (o.toNat, rest) := by
  have := o.toNat_lt
  rw [readOctet, readSeparator_cons]
  exact readNumber_toDigits prints_ten h (by decide) (by omega) (by omega)

theorem ends_dot (cs : List Char) : Ends 10 ('.' :: cs) := ends_cons (by decide)

theorem readIpv4_display (h : Ends 10 rest) (x : Ipv4Addr) :
    readIpv4 (x.display ++ rest) = some (x, rest) := by
  obtain ⟨a, b, c, d⟩ := x
  simp only [Ipv4Addr.display, Ipv4Addr.octets, List.map_cons, List.map_nil, List.intercalate_cons_cons,
    List.intercalate_singleton, List.append_assoc, List.cons_append, List.nil_append, readIpv4,
    readOctet_first (ends_dot _), readOctet_next (ends_dot _), readOctet_next h, Option.bind_eq_bind, Option.bind_some, UInt8.ofNat_toNat]
  rfl

theorem length_display (x : Ipv4Addr) : x.display.length ≤ 15 := by
  have hlen : ∀ o : UInt8, (Nat.toDigits 10 o.toNat).length ≤ 3 := by
    intro o
    have := o.toNat_lt
    exact length_toDigits_le prints_ten (by decide) (by omega)
  have ha := hlen x.a
  have hb := hlen x.b
  have hc := hlen x.c
  have hd := hlen x.d
  simp only [Ipv4Addr.display, Ipv4Addr.octets, List.map_cons, List.map_nil, List.intercalate_cons_cons,
    List.intercalate_singleton, List.length_append, List.length_cons, List.length_nil]
  omega

theorem Ipv4Addr.parse_display (x : Ipv4Addr) : Ipv4Addr.parse x.display = some x := by
  have h := readIpv4_display ends_nil x
  rw [List.append_nil] at h
  rw [Ipv4Addr.parse, if_neg (by have := length_display x; omega), h]

theorem dropWhile_append_ends (h : Ends base rest) (xs : List Char) :
    (xs ++ rest).dropWhile (fun c => (digit base c).isSome) =
      xs.dropWhile (fun c => (digit base c).isSome) ++ rest := by
  rw [List.dropWhile_append]
  split_ifs with hempty
  · rw [List.isEmpty_iff.1 hempty, List.nil_append]
    cases rest with
    | nil => rfl
    | cons c cs => simp [h c cs rfl]
  · rfl

theorem readNumber_rest {max bound : ℕ} {zeroPrefix : Bool} {cs cs' : List Char}
    (h : readNumber base max bound zeroPrefix cs = some (n, cs')) :
    cs' = cs.dropWhile fun c => (digit base c).isSome := by
  unfold readNumber at h
  simp only at h
  split_ifs at h with hbad
  obtain ⟨m, -, hm⟩ := Option.bind_eq_some_iff.1 h
  split_ifs at hm
  simp only [Option.some.injEq, Prod.mk.injEq] at hm
  exact hm.2.symm

/-- An IPv4 address begins with decimal digits and a dot. -/
theorem readIpv4_eq_none {xs : List Char} (hxs : '.' ∉ xs) (hrest : rest.head? ≠ some '.')
    (hends : Ends 10 rest) : readIpv4 (xs ++ rest) = none := by
  have hdrop := dropWhile_append_ends hends xs
  unfold readIpv4
  cases hfirst : readOctet true (xs ++ rest) with
  | none => rfl
  | some p =>
    obtain ⟨a, cs⟩ := p
    have hcs : cs = xs.dropWhile (fun c => (digit 10 c).isSome) ++ rest := by
      rw [← hdrop]
      exact readNumber_rest hfirst
    have hnext : readOctet false cs = none := by
      unfold readOctet readSeparator
      split
      · simp at *
      · split
        case h_1 c cs' _ =>
          rw [if_neg]
          rintro rfl
          rcases hx : xs.dropWhile (fun c => (digit 10 c).isSome) with _ | ⟨x, xs'⟩
          · rw [hx, List.nil_append] at hcs
            exact hrest (by rw [← hcs]; rfl)
          · rw [hx, List.cons_append, List.cons.injEq] at hcs
            exact hxs ((List.dropWhile_suffix _).subset (by rw [hx, ← hcs.1]; simp))
        case h_2 => rfl
    simp only [Option.bind_eq_bind, Option.bind_some, hnext, Option.bind_none]

def Behind (rest : List Char) : Prop := rest = [] ∨ ∃ cs, rest = ':' :: cs

def Gap (rest : List Char) : Prop := rest = [] ∨ ∃ cs, rest = ':' :: ':' :: cs

theorem Gap.behind (h : Gap rest) : Behind rest := by
  rcases h with rfl | ⟨cs, rfl⟩
  · exact .inl rfl
  · exact .inr ⟨_, rfl⟩

theorem Behind.ends (h : Behind rest) (hb : (digit base ':').isSome = false) : Ends base rest := by
  rcases h with rfl | ⟨cs, rfl⟩
  · exact ends_nil
  · exact ends_cons hb

theorem Behind.head? (h : Behind rest) : rest.head? ≠ some '.' := by
  rcases h with rfl | ⟨cs, rfl⟩ <;> simp

theorem dot_notMem_toDigits (n : ℕ) : '.' ∉ Nat.toDigits 16 n := by
  intro h
  obtain ⟨d, hd, hdot⟩ := mem_toDigits prints_sixteen h
  have hall : ∀ d < 16, Nat.digitChar d ≠ '.' := by decide
  exact hall d hd hdot.symm

/-- What stands before a group: nothing before the first, a colon before the others. -/
def sep (first : Bool) : List Char := if first then [] else [':']

theorem readSeparator_sep (first : Bool) (inner : List Char → Option (α × List Char)) (cs : List Char) :
    readSeparator ':' first inner (sep first ++ cs) = inner cs := by
  cases first
  · exact readSeparator_cons ':' inner cs
  · rfl

theorem readGroups_cons (n : ℕ) (first : Bool) (g : UInt16) (h : Behind rest) :
    readGroups (n + 1) first (sep first ++ (Nat.toDigits 16 g.toNat ++ rest)) =
      (g :: (readGroups n false rest).1, (readGroups n false rest).2) := by
  have hg := g.toNat_lt
  have hv4 : readIpv4 (Nat.toDigits 16 g.toNat ++ rest) = none :=
    readIpv4_eq_none (dot_notMem_toDigits _) h.head? (h.ends (by decide))
  have hgroup : readNumber 16 4 65536 true (Nat.toDigits 16 g.toNat ++ rest) = some (g.toNat, rest) :=
    readNumber_toDigits prints_sixteen (h.ends (by decide)) (by decide) (by omega) (by omega)
  rw [readGroups, readSeparator_sep, hv4, ite_self, readGroup, readSeparator_sep, hgroup]
  simp only [UInt16.ofNat_toNat]

theorem readGroups_gap (n : ℕ) (h : Gap rest) : readGroups n false rest = ([], false, rest) := by
  cases n with
  | zero => rfl
  | succ n =>
    rcases h with rfl | ⟨cs, rfl⟩
    · simp [readGroups, readGroup, readSeparator]
    · have hv4 : readIpv4 (':' :: cs) = none := rfl
      have hgroup : readNumber 16 4 65536 true (':' :: cs) = none := rfl
      rw [readGroups, readSeparator_cons, hv4, ite_self, readGroup, readSeparator_cons, hgroup]

theorem displayGroups_cons (g g' : UInt16) (gs : List UInt16) :
    displayGroups (g :: g' :: gs) = Nat.toDigits 16 g.toNat ++ (sep false ++ displayGroups (g' :: gs)) :=
  rfl

theorem displayGroups_singleton (g : UInt16) : displayGroups [g] = Nat.toDigits 16 g.toNat :=
  List.intercalate_singleton

theorem behind_sep (cs : List Char) : Behind (sep false ++ cs) := .inr ⟨cs, rfl⟩

theorem readGroups_displayGroups (h : Gap rest) (hgs : gs ≠ []) :
    ∀ (n : ℕ) (first : Bool), gs.length ≤ n →
      readGroups n first (sep first ++ (displayGroups gs ++ rest)) = (gs, false, rest) := by
  induction gs with
  | nil => exact absurd rfl hgs
  | cons g gs ih =>
    rintro (_ | n) first hn
    · simp at hn
    rcases gs with _ | ⟨g', gs⟩
    · rw [displayGroups_singleton, readGroups_cons n first g h.behind, readGroups_gap n h]
    · rw [displayGroups_cons, List.append_assoc, List.append_assoc,
        readGroups_cons n first g (behind_sep _), ih (by simp) n false (by simpa using hn)]

theorem readGroups_first_gap (n : ℕ) (h : Gap rest) : readGroups n true rest = ([], false, rest) := by
  cases n with
  | zero => rfl
  | succ n =>
    rcases h with rfl | ⟨cs, rfl⟩
    · have hv4 : readIpv4 [] = none := rfl
      have hgroup : readNumber 16 4 65536 true [] = none := rfl
      rw [readGroups, readSeparator_first, hv4, ite_self, readGroup, readSeparator_first, hgroup]
    · have hv4 : readIpv4 (':' :: ':' :: cs) = none := rfl
      have hgroup : readNumber 16 4 65536 true (':' :: ':' :: cs) = none := rfl
      rw [readGroups, readSeparator_first, hv4, ite_self, readGroup, readSeparator_first, hgroup]

theorem readGroups_all (n : ℕ) (hn : gs.length ≤ n) (h : Gap rest) :
    readGroups n true (displayGroups gs ++ rest) = (gs, false, rest) := by
  rcases eq_or_ne gs [] with rfl | hgs
  · exact readGroups_first_gap n h
  · exact readGroups_displayGroups h hgs n true hn

theorem readIpv6_gap {pre post : List UInt16} (hlen : pre.length + post.length < 8) :
    readIpv6 (displayGroups pre ++ ':' :: ':' :: displayGroups post) =
      some (pre ++ List.replicate (8 - post.length - pre.length) 0 ++ post, []) := by
  have hpre : readGroups 8 true (displayGroups pre ++ ':' :: ':' :: displayGroups post) = (pre, false, _) :=
    readGroups_all 8 (by omega) (.inr ⟨displayGroups post, rfl⟩)
  have hpost : readGroups (8 - (pre.length + 1)) true (displayGroups post ++ []) = (post, false, []) :=
    readGroups_all _ (by omega) (.inl rfl)
  rw [List.append_nil] at hpost
  simp only [readIpv6, hpre, hpost]
  rw [if_neg (by omega)]
  rfl

theorem readIpv6_whole (hlen : segments.length = 8) : readIpv6 (displayGroups segments) = some (segments, []) := by
  have h : readGroups 8 true (displayGroups segments ++ []) = (segments, false, []) :=
    readGroups_all 8 (by omega) (.inl rfl)
  rw [List.append_nil] at h
  simp only [readIpv6, h]
  rw [if_pos hlen]

theorem readIpv6_mapped (x : Ipv4Addr) :
    readIpv6 ("::ffff:".toList ++ x.display) =
      some ([0, 0, 0, 0, 0, 0xffff] ++ x.groups, []) := by
  have hv4 := readIpv4_display ends_nil x
  rw [List.append_nil] at hv4
  have hlast : readGroups 6 false (sep false ++ x.display) = (x.groups, true, []) := by
    rw [readGroups, readSeparator_sep, hv4]
    rfl
  have htail : readGroups 7 true ("ffff".toList ++ (sep false ++ x.display)) =
      (0xffff :: x.groups, true, []) := by
    have h := readGroups_cons 6 true 0xffff (behind_sep x.display)
    rw [hlast] at h
    exact h
  have hhead := readGroups_first_gap 8 (.inr ⟨"ffff".toList ++ (sep false ++ x.display), rfl⟩)
  have htext : "::ffff:".toList ++ x.display =
      ':' :: ':' :: ("ffff".toList ++ (sep false ++ x.display)) := rfl
  have hseven : 8 - (([] : List UInt16).length + 1) = 7 := rfl
  simp only [readIpv6, htext, hhead, hseven, htail]
  rfl

theorem groups_toIpv4Mapped (g : UInt16) :
    (g >>> 8).toUInt8.toUInt16 <<< 8 ||| g.toUInt8.toUInt16 = g := by
  have hg := g.toNat_lt
  rw [← UInt16.toNat_inj]
  have hhi : g.toNat >>> 8 % 256 = g.toNat / 256 := by
    rw [Nat.shiftRight_eq_div_pow]
    omega
  have hword : (g.toNat / 256) <<< 8 % 65536 = (g.toNat / 256) <<< 8 := by
    rw [Nat.shiftLeft_eq]
    omega
  simp only [UInt16.toNat_or, UInt16.toNat_shiftLeft, UInt8.toNat_toUInt16, UInt16.toNat_toUInt8,
    UInt16.toNat_shiftRight]
  change (g.toNat >>> 8 % 256) <<< 8 % 65536 ||| g.toNat % 256 = g.toNat
  rw [hhi, hword, ← Nat.shiftLeft_add_eq_or_of_lt (Nat.mod_lt _ (by decide)), Nat.shiftLeft_eq]
  omega

def Zero (segments : List UInt16) (run : Span) : Prop :=
  ∀ k, run.start ≤ k → k < run.start + run.len → segments[k]? = some 0

theorem zeroes_zero :
    ∀ (gs : List UInt16) (i : ℕ) (current longest : Span), segments.drop i = gs →
      Zero segments current → (current.len = 0 ∨ current.start + current.len = i) →
      Zero segments longest → Zero segments (zeroes gs i current longest) := by
  intro gs
  induction gs with
  | nil => exact fun i current longest _ _ _ h => h
  | cons g gs ih =>
    intro i current longest hdrop hcur hend hlong
    have hdrop' : segments.drop (i + 1) = gs := by
      rw [← List.tail_drop, hdrop, List.tail_cons]
    have hi : segments[i]? = some g := by
      rw [← Nat.add_zero i, ← List.getElem?_drop, hdrop]
      rfl
    by_cases hg : g = 0
    · rw [zeroes, if_pos hg]
      have hcur' : Zero segments ⟨if current.len = 0 then i else current.start, current.len + 1⟩ := by
        intro k hlo hhi
        simp only at hlo hhi
        rcases Nat.lt_or_ge k i with hk | hk
        · rcases hend with h0 | hend
          · simp only [if_pos h0] at hlo
            omega
          · split_ifs at hlo
            · omega
            · exact hcur k hlo (by omega)
        · obtain rfl : k = i := by
            split_ifs at hhi <;> omega
          rw [hi, hg]
      refine ih (i + 1) _ _ hdrop' hcur' (.inr ?_) ?_
      · simp only
        split_ifs <;> omega
      · by_cases hlonger : longest.len < current.len + 1
        · rw [if_pos hlonger]
          exact hcur'
        · rw [if_neg hlonger]
          exact hlong
    · rw [zeroes, if_neg hg]
      exact ih (i + 1) _ _ hdrop' (fun k _ hk => by simp at hk) (.inl rfl) hlong

theorem Zero.split {run : Span} (h : Zero segments run) :
    segments = segments.take run.start ++ List.replicate run.len 0 ++
      segments.drop (run.start + run.len) := by
  have hrun : (segments.drop run.start).take run.len = List.replicate run.len 0 := by
    apply List.ext_getElem?
    intro k
    rw [List.getElem?_take, List.getElem?_drop, List.getElem?_replicate]
    split_ifs with hk
    · exact h _ (by omega) (by omega)
    · rfl
  rw [← hrun, ← List.drop_drop, List.append_assoc, List.take_append_drop, List.take_append_drop]

theorem Zero.le_length {run : Span} (h : Zero segments run) (hlen : 0 < run.len) :
    run.start + run.len ≤ segments.length := by
  have hlast := h (run.start + run.len - 1) (by omega) (by omega)
  obtain ⟨hlt, -⟩ := List.getElem?_eq_some_iff.1 hlast
  omega

theorem zero_zeroes (segments : List UInt16) : Zero segments (zeroes segments 0 ⟨0, 0⟩ ⟨0, 0⟩) :=
  zeroes_zero segments 0 _ _ rfl (fun k _ hk => by simp at hk) (.inl rfl) (fun k _ hk => by simp at hk)

theorem toIpv4Mapped_eq_some {x : Ipv4Addr} (h : toIpv4Mapped segments = some x) :
    segments = [0, 0, 0, 0, 0, 0xffff] ++ x.groups := by
  unfold toIpv4Mapped at h
  split at h
  · obtain rfl := Option.some.inj h
    simp only [Ipv4Addr.groups, groups_toIpv4Mapped]
    rfl
  · exact absurd h (by simp)

theorem readIpv6_displaySegments (hlen : segments.length = 8) :
    readIpv6 (displaySegments segments) = some (segments, []) := by
  unfold displaySegments
  cases hmapped : toIpv4Mapped segments with
  | some x =>
    rw [toIpv4Mapped_eq_some hmapped]
    exact readIpv6_mapped x
  | none =>
    simp only
    split_ifs with hgap
    · have hzero := zero_zeroes segments
      generalize zeroes segments 0 ⟨0, 0⟩ ⟨0, 0⟩ = run at *
      have hle := hzero.le_length (by omega)
      have hpre : (segments.take run.start).length = run.start := by
        rw [List.length_take]
        omega
      have hpost : (segments.drop (run.start + run.len)).length = 8 - (run.start + run.len) := by
        rw [List.length_drop, hlen]
      rw [readIpv6_gap (by omega), hpre, hpost,
        show 8 - (8 - (run.start + run.len)) - run.start = run.len by omega, ← hzero.split]
    · exact readIpv6_whole hlen

theorem Ipv6Addr.parse_display (x : Ipv6Addr) : Ipv6Addr.parse x.display = some x := by
  rw [Ipv6Addr.parse, Ipv6Addr.display, readIpv6_displaySegments x.length_eq]
  simp only [x.length_eq, dite_true]

/-- How an IPv6 address looks: with a gap, as an IPv4 address, or as all its groups. -/
theorem displaySegments_cases (hlen : segments.length = 8) :
    (∃ pre post, pre.length + post.length ≤ 6 ∧
        displaySegments segments = displayGroups pre ++ ':' :: ':' :: displayGroups post) ∨
      (∃ x : Ipv4Addr, displaySegments segments = "::ffff:".toList ++ x.display) ∨
      displaySegments segments = displayGroups segments := by
  unfold displaySegments
  cases toIpv4Mapped segments with
  | some x => exact .inr (.inl ⟨x, rfl⟩)
  | none =>
    simp only
    split_ifs with hgap
    · have hle := (zero_zeroes segments).le_length (by omega)
      refine .inl ⟨_, _, ?_, rfl⟩
      rw [List.length_take, List.length_drop]
      omega
    · exact .inr (.inr rfl)

def Plain (c : Char) : Prop := c = '.' ∨ c = ':' ∨ ∃ d < 16, c = Nat.digitChar d

theorem plain_toDigits (hb : Prints base) (h16 : base ≤ 16) (hc : c ∈ Nat.toDigits base n) : Plain c := by
  obtain ⟨d, hd, rfl⟩ := mem_toDigits hb hc
  exact .inr (.inr ⟨d, by omega, rfl⟩)

theorem mem_intercalate {sep : Char} {xs : List (List Char)} (h : c ∈ [sep].intercalate xs) :
    c = sep ∨ ∃ x ∈ xs, c ∈ x := by
  induction xs with
  | nil => exact absurd h (by simp [List.intercalate])
  | cons x xs ih =>
    cases xs with
    | nil => exact .inr ⟨x, List.mem_cons_self, by rwa [List.intercalate_singleton] at h⟩
    | cons y ys =>
      rw [List.intercalate_cons_cons, List.mem_append, List.mem_append, List.mem_singleton] at h
      rcases h with (h | h) | h
      · exact .inr ⟨x, List.mem_cons_self, h⟩
      · exact .inl h
      · rcases ih h with h | ⟨z, hz, hc⟩
        · exact .inl h
        · exact .inr ⟨z, List.mem_cons_of_mem _ hz, hc⟩

theorem Ipv4Addr.plain_display {x : Ipv4Addr} (hc : c ∈ x.display) : c ≠ ':' ∧ Plain c := by
  rcases mem_intercalate hc with rfl | ⟨ds, hds, hc⟩
  · exact ⟨by decide, .inl rfl⟩
  · obtain ⟨o, -, rfl⟩ := List.mem_map.1 hds
    refine ⟨?_, plain_toDigits prints_ten (by decide) hc⟩
    obtain ⟨d, hd, rfl⟩ := mem_toDigits prints_ten hc
    exact (by decide : ∀ d < 10, Nat.digitChar d ≠ ':') d hd

theorem plain_displayGroups (hc : c ∈ displayGroups gs) : Plain c := by
  rcases mem_intercalate hc with rfl | ⟨ds, hds, hc⟩
  · exact .inr (.inl rfl)
  · obtain ⟨g, -, rfl⟩ := List.mem_map.1 hds
    exact plain_toDigits prints_sixteen le_rfl hc

theorem length_displayGroups (gs : List UInt16) : (displayGroups gs).length ≤ 5 * gs.length - 1 := by
  induction gs with
  | nil => simp [displayGroups, List.intercalate]
  | cons g gs ih =>
    have hg : (Nat.toDigits 16 g.toNat).length ≤ 4 := by
      have := g.toNat_lt
      exact length_toDigits_le prints_sixteen (by decide) (by omega)
    cases gs with
    | nil =>
      rw [displayGroups_singleton, List.length_singleton]
      omega
    | cons g' gs =>
      rw [displayGroups_cons, sep]
      simp only [List.length_append, List.length_cons] at ih ⊢
      simp
      omega

theorem Ipv6Addr.plain_display {x : Ipv6Addr} (hc : c ∈ x.display) : Plain c := by
  rcases displaySegments_cases x.length_eq with ⟨pre, post, -, h⟩ | ⟨y, h⟩ | h <;>
    rw [Ipv6Addr.display, h] at hc
  · simp only [List.mem_append, List.mem_cons] at hc
    rcases hc with hc | hc | hc | hc
    · exact plain_displayGroups hc
    · exact .inr (.inl hc)
    · exact .inr (.inl hc)
    · exact plain_displayGroups hc
  · rcases List.mem_append.1 hc with hc | hc
    · have hf : 'f' = Nat.digitChar 15 := rfl
      have hmem : c = ':' ∨ c = 'f' ∨ c = ':' := by simpa using hc
      rcases hmem with rfl | rfl | rfl
      · exact .inr (.inl rfl)
      · exact .inr (.inr ⟨15, by decide, hf⟩)
      · exact .inr (.inl rfl)
    · exact (Ipv4Addr.plain_display hc).2
  · exact plain_displayGroups hc

theorem Ipv6Addr.length_display (x : Ipv6Addr) : x.display.length ≤ 39 := by
  rcases displaySegments_cases x.length_eq with ⟨pre, post, hlen, h⟩ | ⟨y, h⟩ | h <;>
    rw [Ipv6Addr.display, h]
  · have := length_displayGroups pre
    have := length_displayGroups post
    simp only [List.length_append, List.length_cons]
    omega
  · have := IpText.length_display y
    have : "::ffff:".toList.length = 7 := rfl
    rw [List.length_append]
    omega
  · have := length_displayGroups x.segments
    have := x.length_eq
    omega

theorem displayGroups_append (g : UInt16) (gs : List UInt16) (h : Behind rest) :
    ∃ rest', Behind rest' ∧ displayGroups (g :: gs) ++ rest = Nat.toDigits 16 g.toNat ++ rest' := by
  cases gs with
  | nil => exact ⟨rest, h, by rw [displayGroups_singleton]⟩
  | cons g' gs =>
    refine ⟨_, behind_sep (displayGroups (g' :: gs) ++ rest), ?_⟩
    rw [displayGroups_cons, List.append_assoc, List.append_assoc]

theorem readIpv4_displayGroups (h : Gap rest) (hne : gs ≠ [] ∨ rest ≠ []) :
    readIpv4 (displayGroups gs ++ rest) = none := by
  cases gs with
  | nil =>
    rcases h with rfl | ⟨cs, rfl⟩
    · exact absurd hne (by simp)
    · rfl
  | cons g gs =>
    obtain ⟨rest', hrest, heq⟩ := displayGroups_append g gs h.behind
    rw [heq]
    exact readIpv4_eq_none (dot_notMem_toDigits _) hrest.head? (hrest.ends (by decide))

/-- An IPv6 address does not look like an IPv4 address. -/
theorem Ipv6Addr.parse_ipv4 (x : Ipv6Addr) : Ipv4Addr.parse x.display = none := by
  have hread : readIpv4 x.display = none := by
    rcases displaySegments_cases x.length_eq with ⟨pre, post, -, h⟩ | ⟨y, h⟩ | h <;>
      rw [Ipv6Addr.display, h]
    · exact readIpv4_displayGroups (.inr ⟨_, rfl⟩) (.inr (List.cons_ne_nil _ _))
    · rfl
    · have hne : x.segments ≠ [] := List.ne_nil_of_length_pos (by rw [x.length_eq]; decide)
      have hnone := readIpv4_displayGroups (.inl rfl) (.inl hne)
      rwa [List.append_nil] at hnone
  unfold Ipv4Addr.parse
  rw [hread]
  split_ifs <;> rfl

end IpText

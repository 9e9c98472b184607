import Tincr.Conf.Parse
import Tincr.Crypto.B64

/-!
The URL of an invitation: the address of the inviter, and behind a slash the hash of the invitation key and the
cookie. A host with a colon in it stands in brackets.
-/

namespace Tincr.Cmd

open Conf

abbrev COOKIE_LEN : ℕ := 18
abbrev SLUG_PART_LEN : ℕ := 24
abbrev SLUG_LEN : ℕ := 48

abbrev Cookie := {bytes : List UInt8 // bytes.length = COOKIE_LEN}

def toCookie (bytes : List UInt8) : Option Cookie :=
  if h : bytes.length = COOKIE_LEN then some ⟨bytes, h⟩ else none

/-- `keyHash` is the hash of the invitation key. -/
def buildSlug (keyHash cookie : Cookie) : Text := B64.encodeUrlsafe keyHash ++ B64.encodeUrlsafe cookie

def parseSlug (slug : Text) : Option (Cookie × Cookie) :=
  if utf8Len slug ≠ SLUG_LEN then none
  else if slug.any fun c => 128 ≤ c.toNat then none
  else do
    let hash ← B64.decode (slug.take SLUG_PART_LEN)
    let cookie ← B64.decode (slug.drop SLUG_PART_LEN)
    return (← toCookie hash, ← toCookie cookie)

structure AddressPort where
  host : Text
  port : Text
deriving DecidableEq

def AddressPort.display (a : AddressPort) : Text :=
  if ':' ∈ a.host then '[' :: (a.host ++ ']' :: ':' :: a.port) else a.host ++ ':' :: a.port

structure ParsedUrl where
  host : Text
  port : Text
  keyHash : Cookie
  cookie : Cookie
deriving DecidableEq

def splitOnce (c : Char) (s : Text) : Option (Text × Text) :=
  if c ∈ s then some (s.takeWhile (· != c), (s.dropWhile (· != c)).tail) else none

def DEFAULT_PORT : Text := ['6', '5', '5']

def bracketPort : Text → Option Text
  | [] => some DEFAULT_PORT
  | ':' :: p => if p = [] then none else some p
  | _ => none

def hostPort (addr : Text) : Option (Text × Text) :=
  if addr.head? = some '[' then do
    let (host, after) ← splitOnce ']' addr.tail
    return (host, ← bracketPort after)
  else
    match splitOnce ':' addr with
    | some (h, p) => if p = [] then some (h, DEFAULT_PORT) else some (h, p)
    | none => some (addr, DEFAULT_PORT)

def parseUrl (url : Text) : Option ParsedUrl := do
  let (addr, slug) ← splitOnce '/' url
  if utf8Len slug ≠ SLUG_LEN then none
  else
    let (host, port) ← hostPort addr
    if host = [] then none
    else
      let (keyHash, cookie) ← parseSlug slug
      return ⟨host, port, keyHash, cookie⟩

theorem splitOnce_append {c : Char} {a : Text} (h : c ∉ a) (b : Text) : splitOnce c (a ++ c :: b) = some (a, b) := by
  have hne : ∀ x ∈ a, (x != c) = true := fun x hx => bne_iff_ne.2 fun heq => h (heq ▸ hx)
  rw [splitOnce, if_pos (by simp), List.takeWhile_append_of_pos hne, List.dropWhile_append_of_pos hne]
  simp

theorem utf8Len_ascii {l : Text} (h : ∀ c ∈ l, c.toNat < 128) : utf8Len l = l.length := by
  induction l with
  | nil => rfl
  | cons c l ih =>
    have hc : c.utf8Size = 1 := by
      have hlt := h c List.mem_cons_self
      rw [Char.utf8Size_eq_one_iff]
      exact UInt32.le_iff_toNat_le.2 (by change c.toNat ≤ 127; omega)
    have hrest : utf8Len l = l.length := ih fun d hd => h d (List.mem_cons_of_mem _ hd)
    rw [List.length_cons, ← hrest, utf8Len, utf8Len, List.map_cons, List.sum_cons, hc, Nat.add_comm]

theorem lt_of_mem_slug {keyHash cookie : Cookie} {c : Char} (h : c ∈ buildSlug keyHash cookie) : c.toNat < 128 := by
  have hascii : ∀ i : Fin 64, (B64.ALPHABET_URL.get i).toNat < 128 := by decide +kernel
  have hmem : c ∈ B64.ALPHABET_URL.toList := by
    rcases List.mem_append.1 h with h | h
    · exact B64.mem_encodeWith h
    · exact B64.mem_encodeWith h
  obtain ⟨i, rfl⟩ := B64.exists_get hmem
  exact hascii i

theorem length_part (cookie : Cookie) : (B64.encodeUrlsafe cookie).length = SLUG_PART_LEN := by
  rw [B64.encodeUrlsafe, B64.length_encodeWith, cookie.2]
  rfl

theorem utf8Len_buildSlug (keyHash cookie : Cookie) : utf8Len (buildSlug keyHash cookie) = SLUG_LEN := by
  rw [utf8Len_ascii fun c hc => lt_of_mem_slug hc, buildSlug, List.length_append, length_part, length_part]
  rfl

theorem toCookie_val (cookie : Cookie) : toCookie cookie = some cookie := dif_pos cookie.2

theorem parseSlug_buildSlug (keyHash cookie : Cookie) : parseSlug (buildSlug keyHash cookie) = some (keyHash, cookie) := by
  have hascii : ((buildSlug keyHash cookie).any fun c => 128 ≤ c.toNat) = false := by
    rw [List.any_eq_false]
    intro c hc
    simpa using lt_of_mem_slug hc
  rw [parseSlug, if_neg (not_not.2 (utf8Len_buildSlug keyHash cookie)), hascii, if_neg (by simp), buildSlug,
    List.take_left' (length_part keyHash), List.drop_left' (length_part keyHash), B64.decode_encodeUrlsafe,
    B64.decode_encodeUrlsafe]
  simp [toCookie_val]

structure AddressPort.Plain (a : AddressPort) : Prop where
  host_ne : a.host ≠ []
  port_ne : a.port ≠ []
  slash : '/' ∉ a.host ∧ '/' ∉ a.port
  bracket : '[' ∉ a.host ∧ ']' ∉ a.host

theorem hostPort_display {a : AddressPort} (h : a.Plain) : hostPort a.display = some (a.host, a.port) := by
  obtain ⟨host, port⟩ := a
  have hport : bracketPort (':' :: port) = some port := if_neg h.port_ne
  unfold AddressPort.display
  by_cases hcolon : ':' ∈ host
  · rw [if_pos hcolon, hostPort, List.head?_cons, if_pos rfl, List.tail_cons, splitOnce_append h.bracket.2]
    simp [hport]
  · obtain ⟨c, rest, rfl⟩ := List.exists_cons_of_ne_nil h.host_ne
    have hhead : ¬some c = some '[' := fun heq => h.bracket.1 (by simp [Option.some.inj heq])
    rw [if_neg hcolon, hostPort, List.cons_append, List.head?_cons, if_neg hhead, ← List.cons_append,
      splitOnce_append hcolon]
    exact if_neg h.port_ne

theorem parseUrl_display {a : AddressPort} (h : a.Plain) (keyHash cookie : Cookie) :
    parseUrl (a.display ++ '/' :: buildSlug keyHash cookie) = some ⟨a.host, a.port, keyHash, cookie⟩ := by
  have hslash : '/' ∉ a.display := by
    unfold AddressPort.display
    split_ifs
    · simp [h.slash.1, h.slash.2]
    · simp [h.slash.1, h.slash.2]
  simp only [parseUrl, splitOnce_append hslash, hostPort_display h, parseSlug_buildSlug, utf8Len_buildSlug,
    Option.bind_eq_bind, Option.bind_some, ne_eq, not_true_eq_false, if_false, if_neg h.host_ne]
  rfl

end Tincr.Cmd

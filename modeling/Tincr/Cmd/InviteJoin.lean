import Tincr.Cmd.Invite
import Tincr.Conf.JoinFault
import Tincr.Conf.JoinOwn

/-!
An invitation that is joined. The invitation file goes through the tokenizers of the invitation, of the join and of
the configuration reader; a host file comes out of them with the same entries but for its ports, if each of the three
takes the same lines for a port. The lines are followed one by one, through PEM blocks as well.
-/

namespace Tincr.Cmd

open Conf Lines EStateM

/-! ### A line of the host file on its way -/

theorem chomp_append {tail : Text} (h : ∀ x ∈ tail, x = '\n' ∨ x = '\r') (l : Text) : chomp (l ++ tail) = chomp l := by
  have hnil : tail.rdropWhile (fun c => c == '\n' || c == '\r') = [] := by
    rw [List.rdropWhile_eq_nil_iff]
    intro x hx
    simpa using h x hx
  rw [chomp, rdropWhile_append, if_pos hnil]
  rfl

theorem chomp_stripBom_append {tail : Text} (h : ∀ x ∈ tail, x = '\n' ∨ x = '\r') (first : Bool) (l : Text) :
    chomp (stripBom first (l ++ tail)) = chomp (stripBom first l) := by
  cases l with
  | nil =>
    have hhead : tail.head? ≠ some '\uFEFF' := by
      intro heq
      rcases h _ (List.mem_of_mem_head? heq) with hx | hx <;> exact absurd hx (by decide)
    simp only [List.nil_append, stripBom, hhead, and_false, if_false, List.head?_nil, reduceCtorEq]
    exact chomp_append h []
  | cons c l =>
    rw [List.cons_append, stripBom_cons, stripBom_cons]
    split_ifs
    · exact chomp_append h l
    · exact chomp_append h (c :: l)

theorem stripNewline_tail (c : Text) :
    ∃ tail, c = stripNewline c ++ tail ∧ ∀ x ∈ tail, x = '\n' ∨ x = '\r' := by
  unfold stripNewline
  split_ifs with hnl hcr
  · have hc := List.dropLast_append_getLast? '\n' hnl
    have hd := List.dropLast_append_getLast? '\r' hcr
    refine ⟨['\r', '\n'], ?_, by simp⟩
    rw [show ['\r', '\n'] = ['\r'] ++ ['\n'] from rfl, ← List.append_assoc, hd, hc]
  · exact ⟨['\n'], (List.dropLast_append_getLast? '\n' hnl).symm, by simp⟩
  · exact ⟨[], (List.append_nil c).symm, by simp⟩

/-- What `str::lines` takes away, the reader would take away as well. -/
theorem view_stripNewline (first inPem : Bool) (c : Text) :
    view first inPem (stripNewline c ++ ['\n']) = view first inPem c := by
  obtain ⟨tail, hc, htail⟩ := stripNewline_tail c
  have hchomp : chomp (stripBom first (stripNewline c ++ ['\n'])) = chomp (stripBom first c) := by
    conv_rhs => rw [hc]
    rw [chomp_stripBom_append htail, chomp_stripBom_append (by simp)]
  rw [view_eq, view_eq, trimmed, trimmed, hchomp]

theorem isName_Port : IsName "Port".toList := isName_of_all (by decide)

variable {k key l text value : Text} {entries : List Entry} {s : Char}

theorem isPort_chars (h : isPort k = true) : k ≠ [] ∧ ∀ c ∈ k, c.isAlphanum = true := by
  rw [isPort, eqIgnoreAsciiCase, beq_iff_eq] at h
  constructor
  · rintro rfl
    exact absurd h (by decide)
  · intro c hc
    have hmem : c.toLower ∈ asciiFold "Port".toList := h ▸ List.mem_map_of_mem hc
    exact isAlphanum_of_toLower (isName_Port.folded _ hmem)

theorem isPort_not_separator (h : isPort k = true) : ∀ c ∈ k, isSeparator c = false :=
  fun c hc => isAlphanum_not_separator ((isPort_chars h).2 c hc)

theorem splitKv_key (hk : ∀ c ∈ k, isSeparator c = false) (hs : isSeparator s = true) (rest : Text) :
    (splitKv (k ++ s :: rest)).1 = k := by
  have hnot : ∀ c ∈ k, (!isSeparator c) = true := fun c hc => by rw [hk c hc]; rfl
  rw [splitKv, List.takeWhile_append_of_pos hnot]
  simp [hs]

theorem head_dropWhile {α : Type*} {p : α → Bool} {l : List α} {a : α} (h : (l.dropWhile p).head? = some a) :
    p a = false := by
  have hnot := List.head?_dropWhile_not p l
  rw [h] at hnot
  exact hnot

theorem dropWhile_eq_self {α : Type*} {p : α → Bool} {l : List α} (h : ∀ a, l.head? = some a → p a = false) :
    l.dropWhile p = l := by
  cases l with
  | nil => rfl
  | cons a l => exact List.dropWhile_cons_of_neg (by simp [h a rfl])

theorem trimmed_chunk (c : Text) : ∃ t nl, c = t ++ nl ∧ (nl = [] ∨ nl = ['\n']) ∧
    (if c.getLast? = some '\n' then c.dropLast else c) = t := by
  by_cases hlast : c.getLast? = some '\n'
  · exact ⟨c.dropLast, ['\n'], (List.dropLast_append_getLast? '\n' hlast).symm, .inr rfl, if_pos hlast⟩
  · exact ⟨c, [], (List.append_nil c).symm, .inl rfl, if_neg hlast⟩

/-- What the copy takes for a port: the key, and a blank or nothing behind it. -/
theorem isPortLine_cases {c : Text} (hlead : ∀ b, c.head? = some b → isBlank b = false) (h : isPortLine c = true) :
    ∃ k rest, c = k ++ rest ∧ isPort k = true ∧
      (rest = [] ∨ rest = ['\n'] ∨ ∃ b rest', rest = b :: rest' ∧ isBlank b = true) := by
  obtain ⟨t, nl, hc, hnl, ht⟩ := trimmed_chunk c
  have hleadt : ∀ b, t.head? = some b → isBlank b = false := fun b hb => hlead b (by rw [hc, List.head?_append, hb]; rfl)
  simp only [isPortLine, ht, dropWhile_eq_self hleadt, Bool.and_eq_true] at h
  refine ⟨_, t.dropWhile (fun c => !isBlank c) ++ nl, ?_, h.2, ?_⟩
  · rw [← List.append_assoc, List.takeWhile_append_dropWhile]
    exact hc
  · cases hdrop : t.dropWhile (fun c => !isBlank c) with
    | nil =>
      rw [List.nil_append]
      rcases hnl with rfl | rfl
      · exact .inl rfl
      · exact .inr (.inl rfl)
    | cons b rest =>
      have hb := head_dropWhile (by rw [hdrop]; rfl : (t.dropWhile fun c => !isBlank c).head? = some b)
      exact .inr (.inr ⟨b, rest ++ nl, rfl, by simpa using hb⟩)

theorem utf8Len_port (h : isPort k = true) : utf8Len k = 4 := by
  rw [utf8Len_ascii fun c hc => lt_of_isAlphanum ((isPort_chars h).2 c hc)]
  rw [isPort, eqIgnoreAsciiCase, beq_iff_eq] at h
  have hlen := congrArg List.length h
  simpa [asciiFold] using hlen

theorem ne_newline (h : isSeparator s = true) : s ≠ '\n' := by
  rintro rfl
  exact absurd h (by decide)

theorem cut_newline {rest : Text} (h : l ++ ['\n'] = k ++ s :: rest) (hs : s ≠ '\n') :
    ∃ rest', l = k ++ s :: rest' := by
  rcases List.eq_nil_or_concat rest with rfl | ⟨rest', d, rfl⟩
  · have hlast := congrArg List.getLast? h
    simp at hlast
    exact absurd hlast.symm hs
  · refine ⟨rest', ?_⟩
    rw [List.concat_eq_append, ← List.cons_append, ← List.append_assoc] at h
    exact List.append_inj_left' h rfl

theorem isPortLine_of_blank {k rest : Text} {b : Char} (hk : isPort k = true) (hb : isBlank b = true) :
    isPortLine (k ++ b :: rest) = true := by
  have hsolid : ∀ c ∈ k, isBlank c = false := by
    intro c hc
    have hsep := isPort_not_separator hk c hc
    simp only [isSeparator, Bool.or_eq_false_iff] at hsep
    exact hsep.1
  obtain ⟨t, nl, hc, hnl, ht⟩ := trimmed_chunk (k ++ b :: rest)
  -- the newline is cut off behind the blank
  obtain ⟨rest', rfl⟩ : ∃ rest', t = k ++ b :: rest' := by
    rcases hnl with rfl | rfl
    · exact ⟨rest, by rw [List.append_nil] at hc; exact hc.symm⟩
    · exact cut_newline hc.symm (ne_newline (by simp [isSeparator, hb]))
  have hhead : ∀ c, (k ++ b :: rest').head? = some c → isBlank c = false := by
    obtain ⟨c, k, rfl⟩ := List.exists_cons_of_ne_nil (isPort_chars hk).1
    rintro d ⟨⟩
    exact hsolid c List.mem_cons_self
  have htoken : (k ++ b :: rest').takeWhile (fun c => !isBlank c) = k := by
    rw [List.takeWhile_append_of_pos fun c hc => by rw [hsolid c hc]; rfl]
    simp [hb]
  simp only [isPortLine, ht, dropWhile_eq_self hhead, htoken, utf8Len_port hk, hk]
  rfl

/-- The value of a line that is read has a separator before it. -/
theorem key_of_entry {first inPem : Bool} {c v : Text} (h : view first inPem c = .entry k v) :
    ∃ s rest, stripBom first c = k ++ s :: rest ∧ isSeparator s = true := by
  obtain ⟨rfl, hv, hne⟩ := view_entry h
  obtain ⟨more, hmore⟩ : trimmed first c <+: stripBom first c :=
    (List.rdropWhile_prefix _ _).trans (List.rdropWhile_prefix _ _)
  cases hdrop : (trimmed first c).dropWhile (fun c => !isSeparator c) with
  | nil =>
    rw [splitKv, hdrop] at hv
    exact absurd hv hne
  | cons s rest =>
    have hs := head_dropWhile (by rw [hdrop]; rfl : ((trimmed first c).dropWhile fun c => !isSeparator c).head? = some s)
    refine ⟨s, rest ++ more, ?_, by simpa using hs⟩
    rw [← hmore, ← List.cons_append, ← hdrop, ← List.append_assoc]
    exact congrArg (· ++ more) List.takeWhile_append_dropWhile.symm

/-! ### The copy of the host file -/

/-- A host file that goes through: none of its lines is taken for something else on the way. -/
structure Invitable (body : Text) : Prop where
  blank : ∀ l ∈ strLines body, ∀ b, l.head? = some b → isBlank b = false
  name : ∀ l ∈ strLines body, isNameLine l = false
  separator : SEPARATOR ∉ strLines body
  dropped : ∀ l ∈ strLines body, droppedKey (splitKv l).1 = false
  equals : ∀ l ∈ strLines body, ∀ k rest, l = k ++ '=' :: rest → isPort k = false
  /-- A byte-order mark before a port hides it from the copy, but not from the reader. -/
  mark : ∀ l, (strLines body).head? = some ('\uFEFF' :: l) → isPort (splitKv l).1 = false

/-- A port that comes back as it was written. -/
structure PortOk (port : Text) : Prop where
  token : Token port
  seen : seen port = port
  ne_nil : port ≠ []
  carriage : port.getLast? ≠ some '\r'
  fits : utf8Len (portLine port) ≤ MAX_LINE_LEN

def carried (port c : Text) : Text := if isPortLine c then portLine port else stripNewline c

def replacePort (port : Text) (p : Text × Text) : Text × Text := if isPort p.1 then ("Port".toList, port) else p

/-- What a chunk is to the reader, before and after. -/
structure Carries (port : Text) (inPem : Bool) (v v' : View) : Prop where
  fine : v'.Fine
  after : v'.after inPem = v.after inPem
  pairs : v'.pairs = v.pairs.map (replacePort port)

section Chunk

variable {port c : Text} {first inPem : Bool}

theorem taken_port (h : PortOk port) : Taken ("Port".toList, port) := by
  have hlast : ∀ c, port.getLast? = some c → (c == '\n' || c == '\r') = false := by
    intro c hc
    have hnl : c ≠ '\n' := fun heq => h.token.newline (heq ▸ List.mem_of_getLast? hc)
    have hcr : c ≠ '\r' := fun heq => h.carriage (heq ▸ hc)
    simp [hnl, hcr]
  refine ⟨⟨port.getLast h.ne_nil, List.getLast_mem h.ne_nil, fun heq => ?_⟩, ?_⟩
  · exact h.carriage (by rw [List.getLast?_eq_some_getLast h.ne_nil, heq])
  · rw [show chomp (varLine "Port".toList port) = varLine "Port".toList port from
      rdropWhile_eq_self hlast _ h.ne_nil]
    exact h.fits

theorem view_portLine (h : PortOk port) : view first inPem (portLine port ++ ['\n']) =
    if inPem then .pem true else .entry "Port".toList port := by
  have htaken := taken_port h
  cases inPem with
  | false =>
    have hview := @view_pairLine ("Port".toList, port) first isName_Port h.token htaken
    rw [h.seen] at hview
    exact hview
  | true =>
    have hchomp : chomp (portLine port ++ ['\n']) = chomp (varLine "Port".toList port) :=
      List.rdropWhile_concat_pos _ _ _ (by decide)
    have hplain : Plain (portLine port ++ ['\n']) := plain_varLine isName_Port port
    rw [hplain.view_eq, hchomp, if_neg (Nat.not_lt.2 htaken.fits), if_pos rfl, if_pos rfl]

theorem key_no_separator {k v : Text} (h : view first inPem c = .entry k v) : ∀ s ∈ k, isSeparator s = false := by
  obtain ⟨rfl, -, -⟩ := view_entry h
  intro s hs
  simpa using List.mem_takeWhile_imp hs

/-- The reader takes for a port what the copy took for one. -/
theorem key_of_port {k v key rest : Text} (h : view first inPem c = .entry key v) (hstrip : stripBom first c = c)
    (hk : isPort k = true) (hc : c = k ++ rest)
    (hrest : rest = [] ∨ rest = ['\n'] ∨ ∃ b rest', rest = b :: rest' ∧ isBlank b = true) : key = k := by
  obtain ⟨s, tail, hs, hsep⟩ := key_of_entry h
  rw [hstrip, hc] at hs
  have hsk : s ∉ k := fun hmem => by simp [isPort_not_separator hk s hmem] at hsep
  rcases hrest with rfl | rfl | ⟨b, rest', rfl, hb⟩
  · exact absurd (show s ∈ k ++ [] by rw [hs]; simp) (by simpa using hsk)
  · exact absurd (show s ∈ k ++ ['\n'] by rw [hs]; simp) (by simp [hsk, ne_newline hsep])
  · have hkey := splitKv_key (key_no_separator h) hsep tail
    rw [← hs, splitKv_key (isPort_not_separator hk) (by simp [isSeparator, hb])] at hkey
    exact hkey.symm

theorem carries_port (hport : PortOk port) (hlead : ∀ b, c.head? = some b → isBlank b = false)
    (hc : isPortLine c = true) (hfine : (view first inPem c).Fine) :
    Carries port inPem (view first inPem c) (view first inPem (portLine port ++ ['\n'])) := by
  obtain ⟨k, rest, heq, hk, hrest⟩ := isPortLine_cases hlead hc
  have hplain : Plain c := by
    obtain ⟨hne, hchars⟩ := isPort_chars hk
    obtain ⟨a, k, rfl⟩ := List.exists_cons_of_ne_nil hne
    rw [heq]
    exact plain_of_head (hchars a List.mem_cons_self)
  rw [view_portLine hport]
  cases hview : view first inPem c with
  | tooLong => exact absurd hview hfine.2
  | bad => exact absurd hview hfine.1
  | skip =>
    rw [hplain.view_eq] at hview
    split_ifs at hview
  | pem inside =>
    rw [hplain.view_eq] at hview
    split_ifs at hview with hlong hin
    obtain rfl := View.pem.inj hview
    rw [if_pos hin]
    exact ⟨by simp [View.Fine], rfl, rfl⟩
  | entry key v =>
    have hkey := key_of_port hview (hplain.strip first) hk heq hrest
    rw [hplain.view_eq] at hview
    split_ifs at hview with hlong hin
    rw [if_neg hin]
    refine ⟨by simp [View.Fine], rfl, ?_⟩
    rw [View.pairs_entry, View.pairs_entry, List.map_singleton, replacePort, hkey, if_pos hk]

theorem carries_other (hc : isPortLine c = false) (hequals : ∀ k rest, stripNewline c = k ++ '=' :: rest → isPort k = false)
    (hmark : first = true → ∀ l, stripNewline c = '\uFEFF' :: l → isPort (splitKv l).1 = false)
    (hfine : (view first inPem c).Fine) :
    Carries port inPem (view first inPem c) (view first inPem (stripNewline c ++ ['\n'])) := by
  have hsame := view_stripNewline first inPem c
  rw [hsame]
  refine ⟨hfine, rfl, ?_⟩
  cases hview : view first inPem c with
  | entry k v =>
    have hnot : isPort k = false := by
      rw [hview] at hsame
      obtain ⟨s, rest, hs, hsep⟩ := key_of_entry hsame
      rw [stripBom_newline] at hs
      obtain ⟨rest', hl⟩ := cut_newline hs (ne_newline hsep)
      have hkey := key_no_separator hview
      by_cases hbom : first = true ∧ (stripNewline c).head? = some '\uFEFF'
      · obtain ⟨l, hcons⟩ : ∃ l, stripNewline c = '\uFEFF' :: l := List.head?_eq_some_iff.1 hbom.2
        rw [stripBom, if_pos hbom, hcons, List.tail_cons] at hl
        have hmarked := hmark hbom.1 l hcons
        rwa [hl, splitKv_key hkey hsep] at hmarked
      · rw [stripBom, if_neg hbom] at hl
        rcases Bool.or_eq_true_iff.1 hsep with hblank | heq
        · obtain ⟨tail, htail, -⟩ := stripNewline_tail c
          by_contra hport
          have hline := @isPortLine_of_blank k (rest' ++ tail) s (by simpa using hport) hblank
          rw [← List.cons_append, ← List.append_assoc, ← hl, ← htail, hc] at hline
          cases hline
        · exact hequals k rest' (by rw [hl, eq_of_beq heq])
    rw [View.pairs_entry, List.map_singleton, replacePort, if_neg (by simp [hnot])]
  | _ => rfl

end Chunk

section Copy

variable {port body : Text} {first inPem : Bool} {chunks : List Text}

/-- What the conditions on a host file say of a chunk of it. -/
structure ChunkOk (c : Text) : Prop where
  lead : ∀ b, c.head? = some b → isBlank b = false
  equals : ∀ k rest, stripNewline c = k ++ '=' :: rest → isPort k = false

theorem Invitable.chunk (h : Invitable body) {c : Text} (hc : c ∈ splitInclusive body) : ChunkOk c := by
  have hline : stripNewline c ∈ strLines body := List.mem_map_of_mem hc
  refine ⟨fun b hb => ?_, h.equals _ hline⟩
  obtain ⟨tail, htail, hchars⟩ := stripNewline_tail c
  rw [htail, List.head?_append] at hb
  cases hhead : (stripNewline c).head? with
  | some a =>
    rw [hhead] at hb
    obtain rfl := Option.some.inj hb
    exact h.blank _ hline a hhead
  | none =>
    rw [hhead, Option.none_or] at hb
    rcases hchars b (List.mem_of_mem_head? hb) with rfl | rfl <;> rfl

theorem carries_chunk {c : Text} (hport : PortOk port) (hok : ChunkOk c)
    (hmark : first = true → ∀ l, stripNewline c = '\uFEFF' :: l → isPort (splitKv l).1 = false)
    (hfine : (view first inPem c).Fine) :
    Carries port inPem (view first inPem c) (view first inPem (carried port c ++ ['\n'])) := by
  unfold carried
  split_ifs with hc
  · exact carries_port hport hok.lead hc hfine
  · exact carries_other (by simpa using hc) hok.equals hmark hfine

theorem carries_chunks (hport : PortOk port) (hok : ∀ c ∈ chunks, ChunkOk c)
    (hmark : first = true → ∀ c, chunks.head? = some c → ∀ l, stripNewline c = '\uFEFF' :: l →
      isPort (splitKv l).1 = false)
    (h : AllViews View.Fine first inPem chunks) :
    AllViews View.Fine first inPem (chunks.map fun c => carried port c ++ ['\n']) ∧
      scan first inPem (chunks.map fun c => carried port c ++ ['\n']) =
        (scan first inPem chunks).map (replacePort port) := by
  induction chunks generalizing first inPem with
  | nil => exact ⟨trivial, rfl⟩
  | cons c rest ih =>
    have hstep := carries_chunk hport (hok c List.mem_cons_self) (fun hfirst => hmark hfirst c rfl) h.1
    obtain ⟨hviews, hscan⟩ := ih (fun d hd => hok d (List.mem_cons_of_mem _ hd)) (by simp) h.2
    rw [List.map_cons, AllViews, scan, scan, hstep.after, hstep.pairs, List.map_append, hscan]
    exact ⟨⟨hstep.fine, hviews⟩, rfl⟩

theorem not_mem_carried (hport : PortOk port) {c : Text} (hc : c ∈ splitInclusive body) : '\n' ∉ carried port c := by
  unfold carried
  split_ifs
  · exact not_mem_varLine isName_Port hport.token.newline
  · exact not_mem_stripNewline (List.mem_map_of_mem hc)

def carriedLines (body port : Text) : List Text := (splitInclusive body).map (carried port)

/-- The entries of the copy are those of the original, with the port put in. -/
theorem parse_carriedLines (hport : PortOk port) (hinv : Invitable body) {entries : List Entry}
    (hparse : parseFile body = .ok entries) :
    ∃ entries', parseFile (textOf (carriedLines body port)) = .ok entries' ∧
      entries'.map Entry.pair = (entries.map Entry.pair).map (replacePort port) := by
  obtain ⟨hviews, hpairs⟩ := readLoop_ok hparse
  have hroom := ((readLoop_isOk_iff (Nat.zero_le _)).1 ⟨entries, hparse⟩).2
  have hmark : (true = true) → ∀ c, (splitInclusive body).head? = some c → ∀ l, stripNewline c = '\uFEFF' :: l →
      isPort (splitKv l).1 = false := by
    intro _ c hc l hl
    exact hinv.mark l (by rw [strLines, List.head?_map, hc, Option.map_some, hl])
  obtain ⟨hviews', hscan⟩ := carries_chunks hport (fun c hc => hinv.chunk hc) hmark hviews
  have hlines : ∀ l ∈ carriedLines body port, '\n' ∉ l := by
    intro l hl
    obtain ⟨c, hc, rfl⟩ := List.mem_map.1 hl
    exact not_mem_carried hport hc
  have hchunks : (carriedLines body port).map (· ++ ['\n']) =
      (splitInclusive body).map fun c => carried port c ++ ['\n'] := List.map_map
  have hok : ∃ entries', parseFile (textOf (carriedLines body port)) = .ok entries' := by
    rw [parseFile, splitInclusive_textOf hlines, hchunks, readLoop_isOk_iff (Nat.zero_le _)]
    refine ⟨hviews', ?_⟩
    rw [show ((0 : ℕ) == 0) = true from rfl, hscan, List.length_map]
    exact hroom
  obtain ⟨entries', hparse'⟩ := hok
  refine ⟨entries', hparse', ?_⟩
  rw [parseFile, splitInclusive_textOf hlines, hchunks] at hparse'
  rw [(readLoop_ok hparse').2, hpairs]
  exact hscan

end Copy

/-! ### The lines of the invitation file -/

theorem getLast?_varLine {name : Text} (h : value.getLast? ≠ some '\r') :
    (varLine name value).getLast? ≠ some '\r' := by
  rw [varLine, List.getLast?_append]
  cases hv : value.getLast? with
  | none => simp
  | some c =>
    rw [hv] at h
    exact h

theorem splitInclusive_front {front : List Text} (h : ∀ l ∈ front, '\n' ∉ l) (rest : Text) :
    splitInclusive (textOf front ++ rest) = front.map (· ++ ['\n']) ++ splitInclusive rest := by
  induction front with
  | nil => rfl
  | cons l front ih =>
    rw [textOf_cons, List.append_assoc, List.append_assoc, List.singleton_append,
      splitInclusive_append (h l List.mem_cons_self), ih fun m hm => h m (List.mem_cons_of_mem _ hm)]
    rfl

theorem strLines_copy {body port : Text} (hport : PortOk port) :
    strLines (copyHostReplacingPort body port) = carriedLines body port := by
  have hline : IsLine (portLine port ++ ['\n']) := ⟨_, not_mem_varLine isName_Port hport.token.newline, rfl⟩
  have hcut : Cut ((splitInclusive body).map fun c => if isPortLine c then portLine port ++ ['\n'] else c) := by
    refine (cut_splitInclusive body).map (fun l hl => ?_) fun l hne hno => ?_
    · split_ifs
      · exact hline
      · exact hl
    · split_ifs
      · exact .inl hline
      · exact .inr ⟨hne, hno⟩
  rw [strLines, copyHostReplacingPort, List.flatMap_def, splitInclusive_of_cut hcut, List.map_map, carriedLines]
  refine List.map_congr_left fun c _ => ?_
  simp only [Function.comp_apply, carried]
  split_ifs
  · exact stripNewline_concat (getLast?_varLine hport.carriage)
  · rfl

def Clean (l : Text) : Prop := '\n' ∉ l ∧ l.getLast? ≠ some '\r'

theorem clean_varLine {name : Text} (hname : IsName name) (h : Clean value) : Clean (varLine name value) :=
  ⟨not_mem_varLine hname h.1, getLast?_varLine h.2⟩

theorem strLines_invitation {front : List Text} {body port : Text} (hfront : ∀ l ∈ front, Clean l)
    (hport : PortOk port) :
    strLines (textOf front ++ copyHostReplacingPort body port) = front ++ carriedLines body port := by
  rw [← strLines_copy hport, strLines, splitInclusive_front fun l hl => (hfront l hl).1, List.map_append, List.map_map]
  refine congrArg (· ++ _) ?_
  conv_rhs => rw [← List.map_id front]
  exact List.map_congr_left fun l hl => stripNewline_concat (hfront l hl).2

/-! ### The chunks of the invitation file -/

theorem splitKv_line {name : Text} (hname : IsName name) (h : Token value) :
    splitKv (varLine name value) = (name, value) := by
  have hsep : ∀ c ∈ name, (!isSeparator c) = true := fun c hc => by
    rw [isAlphanum_not_separator (hname.alphanum c hc)]
    rfl
  have hblank : isSeparator ' ' = true ∧ isBlank ' ' = true ∧ isBlank '=' = false := ⟨rfl, rfl, rfl⟩
  rw [varLine, splitKv, List.append_assoc, List.dropWhile_append_of_pos hsep, List.takeWhile_append_of_pos hsep]
  simp [hblank, dropWhile_eq_self h.leading]

structure ServerKey (key : Text) (var : Var) : Prop where
  isName : IsName key
  lookup : lookupVar key = some var
  name : var.name = key
  safe : var.flags.contains .SAFE = true
  host : var.flags.contains .HOST = false
  other : eqIgnoreAsciiCase key "Name".toList = false ∧ eqIgnoreAsciiCase key "NetName".toList = false

theorem exists_serverKey (h : key ∈ ["ConnectTo".toList, "Mode".toList, "Broadcast".toList]) :
    ∃ var, ServerKey key var := by
  have hall : ["ConnectTo".toList, "Mode".toList, "Broadcast".toList].all (fun key =>
      (!key.isEmpty && key.all Char.isAlphanum && (asciiFold key).all Char.isAlphanum) &&
      (lookupVar key).any (fun var => var.name == key && var.flags.contains .SAFE && !var.flags.contains .HOST) &&
      (!eqIgnoreAsciiCase key "Name".toList && !eqIgnoreAsciiCase key "NetName".toList)) = true := by decide
  have hkey := List.all_eq_true.1 hall key h
  simp only [Bool.and_eq_true, Bool.not_eq_true', Option.any_eq_true] at hkey
  obtain ⟨⟨hname, var, hvar, ⟨heq, hsafe⟩, hhost⟩, hother⟩ := hkey
  refine ⟨var, isName_of_all ?_, hvar, eq_of_beq heq, hsafe, hhost, hother⟩
  simpa only [Bool.and_eq_true, Bool.not_eq_true'] using hname

theorem head_varLine {name : Text} (hname : IsName name) (value : Text) :
    ∃ c rest, varLine name value = c :: rest ∧ c.isAlphanum = true := by
  obtain ⟨c, rest, rfl⟩ := List.exists_cons_of_ne_nil hname.ne_nil
  exact ⟨c, _, rfl, hname.alphanum c List.mem_cons_self⟩

theorem not_comment_varLine {name : Text} (hname : IsName name) (value : Text) :
    (varLine name value).head? ≠ some '#' := by
  obtain ⟨c, rest, heq, hc⟩ := head_varLine hname value
  rw [heq, List.head?_cons]
  rintro ⟨⟩
  exact absurd hc (by decide)

theorem ownLine_varLine {name : Text} (hkey : IsName key) (h : Token value) (force : Bool) :
    ownLine name force (varLine key value) =
      if eqIgnoreAsciiCase key "Name".toList then if value = name then .skip else .boundary value
      else if eqIgnoreAsciiCase key "NetName".toList then .skip
      else (lookupVar key).elim .skip fun var =>
        if var.flags.contains .SAFE || force then .var var value else .skip := by
  have hsplit : splitVar (varLine key value) = some (key, value) := by
    rw [splitVar, splitKv_line hkey h, if_neg hkey.ne_nil]
  rw [ownLine, if_neg (not_comment_varLine hkey value), hsplit]
  dsimp only
  cases lookupVar key <;> rfl

theorem ownLine_server {name : Text} {var : Var} (hkey : ServerKey key var) (h : Token value) (force : Bool) :
    ownLine name force (varLine key value) = .var var value := by
  rw [ownLine_varLine hkey.isName h, hkey.other.1, hkey.other.2, hkey.lookup]
  simp [hkey.safe]

section Chunks

variable {name : Text} {force : Bool} {pairs : List (Text × Text)}

theorem chunk1Steps_pairs (h : ∀ p ∈ pairs, (∃ var, ServerKey p.1 var) ∧ Token p.2) (rest : List Text) :
    (chunk1Steps name force (pairs.map pairLine ++ rest)).2 = (chunk1Steps name force rest).2 := by
  induction pairs with
  | nil => rfl
  | cons p pairs ih =>
    obtain ⟨⟨var, hvar⟩, hvalue⟩ := h p List.mem_cons_self
    rw [List.map_cons, List.cons_append, chunk1Steps, pairLine, ownLine_server hvar hvalue]
    exact ih fun q hq => h q (List.mem_cons_of_mem _ hq)

theorem linesFor_ownVars (h : ∀ p ∈ pairs, (∃ var, ServerKey p.1 var) ∧ Token p.2) (rest : List Text) :
    linesFor false (ownVars name force (pairs.map pairLine ++ rest)) =
      pairs.map pairLine ++ linesFor false (ownVars name force rest) := by
  induction pairs with
  | nil => rfl
  | cons p pairs ih =>
    obtain ⟨⟨var, hvar⟩, hvalue⟩ := h p List.mem_cons_self
    rw [List.map_cons, List.cons_append, ownVars, pairLine, ownLine_server hvar hvalue]
    dsimp only
    rw [linesFor_cons, if_pos hvar.host, hvar.name, ih fun q hq => h q (List.mem_cons_of_mem _ hq)]
    rfl

theorem hostSteps_copies {cur : Text} {written lines : List Text} (h : ∀ l ∈ lines, peerLine l = .copy) :
    (hostSteps name cur written lines).2 = .ok written := by
  induction lines with
  | nil => rfl
  | cons l lines ih =>
    rw [hostSteps, h l List.mem_cons_self]
    exact ih fun m hm => h m (List.mem_cons_of_mem _ hm)

theorem hostBlocks_copies {cur : Text} {body lines : List Text} (h : ∀ l ∈ lines, peerLine l = .copy) :
    hostBlocks cur body lines = [(cur, body ++ lines)] := by
  induction lines generalizing body with
  | nil => rw [hostBlocks, List.append_nil]
  | cons l lines ih =>
    rw [hostBlocks, h l List.mem_cons_self]
    dsimp only
    rw [ih fun m hm => h m (List.mem_cons_of_mem _ hm), List.append_assoc, List.singleton_append]

end Chunks

/-! ### The join of an invitation -/

/-- What the invitation says of the variables the new node must share with us. -/
def meshPairs (entries : List Entry) : List (Text × Text) :=
  meshVars.filterMap fun var => (lookup entries var).head?.map fun e => (var, e.value)

theorem meshLines_eq (entries : List Entry) : meshLines entries = (meshPairs entries).map pairLine := by
  rw [meshLines, meshPairs, List.map_filterMap]
  refine List.filterMap_congr fun var _ => ?_
  cases (lookup entries var).head? <;> rfl

theorem peerLine_copy (hsep : l ≠ SEPARATOR) (hname : isNameLine l = false)
    (hdrop : droppedKey (splitKv l).1 = false) : peerLine l = .copy := by
  rw [isNameLine] at hname
  rw [peerLine, if_neg hsep, splitVar]
  by_cases hkey : (splitKv l).1 = []
  · rw [if_pos hkey]
  · rw [if_neg hkey]
    dsimp only
    rw [hname, hdrop]
    rfl

theorem peerLine_portLine (port : Text) : peerLine (portLine port) = .copy := by
  have hkey : (splitKv (portLine port)).1 = "Port".toList := splitKv_varLine isName_Port port
  refine peerLine_copy ?_ ?_ ?_
  · obtain ⟨c, rest, heq, hc⟩ := head_varLine isName_Port port
    intro hsep
    rw [portLine, heq] at hsep
    rw [(List.cons.inj hsep).1] at hc
    exact absurd hc (by decide)
  · rw [isNameLine, hkey]
    decide
  · rw [hkey]
    decide

theorem peerLine_carried {body : Text} (hinv : Invitable body) (port : Text) :
    ∀ l ∈ carriedLines body port, peerLine l = .copy := by
  intro l hl
  obtain ⟨c, hc, rfl⟩ := List.mem_map.1 hl
  have hline : stripNewline c ∈ strLines body := List.mem_map_of_mem hc
  unfold carried
  split_ifs
  · exact peerLine_portLine port
  · exact peerLine_copy (fun heq => hinv.separator (heq ▸ hline)) (hinv.name _ hline) (hinv.dropped _ hline)

section Join

variable {netname : Option Text} {invitee myname body port : Text} {mesh : List (Text × Text)} {force : Bool}

structure FrontOk (netname : Option Text) (invitee myname : Text) (mesh : List (Text × Text)) : Prop where
  inviteeOk : checkId invitee = true
  mynameOk : checkId myname = true
  differ : eqIgnoreAsciiCase myname invitee = false
  netnameOk : ∀ n ∈ netname, '\n' ∉ n ∧ '\r' ∉ n
  meshOk : ∀ p ∈ mesh, p.1 ∈ meshVars ∧ Token p.2 ∧ p.2.getLast? ≠ some '\r'

theorem clean_of_checkId {name : Text} (h : checkId name = true) : Clean name :=
  ⟨not_mem_of_checkId h, fun hlast => ((valueOk_of_checkId h).no_break _ (List.mem_of_getLast? hlast)).2 rfl⟩

theorem isName_NetName : IsName "NetName".toList := isName_of_all (by decide)

theorem serverKey_mesh {key : Text} (h : key ∈ meshVars) : ∃ var, ServerKey key var :=
  exists_serverKey (List.mem_cons_of_mem _ h)

theorem serverKey_connectTo : ∃ var, ServerKey "ConnectTo".toList var := exists_serverKey List.mem_cons_self

theorem clean_separator : Clean SEPARATOR := by
  constructor
  · simp [SEPARATOR]
  · simp [SEPARATOR]

theorem front_clean (h : FrontOk netname invitee myname mesh) :
    ∀ l ∈ frontLines netname invitee myname (mesh.map pairLine), Clean l := by
  obtain ⟨var, hvar⟩ := serverKey_connectTo
  intro l hl
  rw [frontLines] at hl
  rcases List.mem_cons.1 hl with rfl | hl
  · exact clean_varLine isName_Name (clean_of_checkId h.inviteeOk)
  rcases List.mem_append.1 hl with hl | hl
  · obtain ⟨n, hn, rfl⟩ := List.mem_map.1 hl
    obtain ⟨hnl, hcr⟩ := h.netnameOk n (by simpa using hn)
    exact clean_varLine isName_NetName ⟨hnl, fun hlast => hcr (List.mem_of_getLast? hlast)⟩
  rcases List.mem_cons.1 hl with rfl | hl
  · exact clean_varLine hvar.isName (clean_of_checkId h.mynameOk)
  rcases List.mem_append.1 hl with hl | hl
  · obtain ⟨p, hp, rfl⟩ := List.mem_map.1 hl
    obtain ⟨hkey, htoken, hcr⟩ := h.meshOk p hp
    obtain ⟨var, hvar⟩ := serverKey_mesh hkey
    exact clean_varLine hvar.isName ⟨htoken.newline, hcr⟩
  rcases List.mem_cons.1 hl with rfl | hl
  · exact clean_separator
  · obtain rfl := List.mem_singleton.1 hl
    exact clean_varLine isName_Name (clean_of_checkId h.mynameOk)

theorem ownLine_netname (n name : Text) (force : Bool) :
    ownLine name force (varLine "NetName".toList n) = .skip := by
  have hkey := splitKv_varLine isName_NetName n
  rw [ownLine, if_neg (not_comment_varLine isName_NetName n), splitVar, if_neg (by rw [hkey]; decide)]
  dsimp only
  rw [hkey, if_neg (by decide), if_pos (by decide)]

theorem front_chunk1 (h : FrontOk netname invitee myname mesh) (rest : List Text) :
    (chunk1Steps invitee force ((frontLines netname invitee myname (mesh.map pairLine)).tail ++ rest)).2 =
        some (myname, rest) ∧
      linesFor false (ownVars invitee force ((frontLines netname invitee myname (mesh.map pairLine)).tail ++ rest)) =
        varLine "ConnectTo".toList myname :: mesh.map pairLine := by
  have htoken : Token myname := token_of_valueOk (valueOk_of_checkId h.mynameOk)
  have hpairs : ∀ p ∈ ("ConnectTo".toList, myname) :: mesh, (∃ var, ServerKey p.1 var) ∧ Token p.2 := by
    refine List.forall_mem_cons.2 ⟨⟨serverKey_connectTo, htoken⟩, fun p hp => ?_⟩
    obtain ⟨hkey, hvalue, -⟩ := h.meshOk p hp
    exact ⟨serverKey_mesh hkey, hvalue⟩
  -- the boundary: the separator is a comment, and the name is not that of the invitee
  have hsep : ∀ name, ownLine name force SEPARATOR = .skip := fun name => if_pos rfl
  have hbound : ownLine invitee force (varLine "Name".toList myname) = .boundary myname := by
    have hne : myname ≠ invitee := by
      rintro rfl
      simpa [eqIgnoreAsciiCase] using h.differ
    rw [ownLine_varLine isName_Name htoken, if_pos (by decide), if_neg hne]
  have hend : (chunk1Steps invitee force (SEPARATOR :: varLine "Name".toList myname :: rest)).2 = some (myname, rest) ∧
      ownVars invitee force (SEPARATOR :: varLine "Name".toList myname :: rest) = [] := by
    rw [chunk1Steps, hsep, ownVars, hsep]
    dsimp only
    rw [chunk1Steps, ownVars, hbound]
    exact ⟨rfl, rfl⟩
  have hmain : (chunk1Steps invitee force ((("ConnectTo".toList, myname) :: mesh).map pairLine ++
        SEPARATOR :: varLine "Name".toList myname :: rest)).2 = some (myname, rest) ∧
      linesFor false (ownVars invitee force ((("ConnectTo".toList, myname) :: mesh).map pairLine ++
        SEPARATOR :: varLine "Name".toList myname :: rest)) =
        varLine "ConnectTo".toList myname :: mesh.map pairLine := by
    rw [chunk1Steps_pairs hpairs, linesFor_ownVars hpairs, hend.1, hend.2]
    exact ⟨rfl, List.append_nil _⟩
  have hlines : (frontLines netname invitee myname (mesh.map pairLine)).tail ++ rest =
      netname.toList.map (varLine "NetName".toList) ++ ((("ConnectTo".toList, myname) :: mesh).map pairLine ++
        SEPARATOR :: varLine "Name".toList myname :: rest) := by
    simp [frontLines, pairLine]
  rw [hlines]
  cases netname with
  | none => exact hmain
  | some n =>
    rw [Option.toList_some, List.map_singleton, List.singleton_append, chunk1Steps, ownVars, ownLine_netname]
    exact hmain

def invitationText (netname : Option Text) (invitee myname body port : Text) (mesh : List (Text × Text)) : Text :=
  textOf (frontLines netname invitee myname (mesh.map pairLine)) ++ copyHostReplacingPort body port

theorem header_invitation (hfront : FrontOk netname invitee myname mesh) (hport : PortOk port) :
    parseBlobHeader (strLines (invitationText netname invitee myname body port mesh)) =
      .ok (invitee, (frontLines netname invitee myname (mesh.map pairLine)).tail ++ carriedLines body port) := by
  have hfirst : parseNameLine (varLine "Name".toList invitee) = some invitee := by
    have htoken : Token invitee := token_of_valueOk (valueOk_of_checkId hfront.inviteeOk)
    rw [parseNameLine, splitVar, splitKv_line isName_Name htoken, if_neg isName_Name.ne_nil]
    rfl
  rw [invitationText, strLines_invitation (front_clean hfront) hport, frontLines, List.cons_append, parseBlobHeader,
    hfirst]
  simp only [hfront.inviteeOk, if_true, List.tail_cons]

theorem joinSteps_invitation (hfront : FrontOk netname invitee myname mesh) (hport : PortOk port)
    (hinv : Invitable body) (key : NodeKey) :
    (joinSteps (invitationText netname invitee myname body port mesh) (fun _ => none) force key).2 =
      .ok ⟨invitee, key.pubkeyB64, [myname]⟩ := by
  have hopen : hostOpen invitee myname = .ok (.create (.host myname)) := by
    rw [hostOpen, if_neg (by simp [hfront.mynameOk]), if_neg (by simp [hfront.differ])]
  have hpeers : (hostChunkSteps invitee (some (myname, carriedLines body port))).2 = .ok [myname] := by
    rw [hostChunkSteps, hopen]
    exact hostSteps_copies (peerLine_carried hinv port)
  rw [joinSteps, header_invitation hfront hport]
  dsimp only
  rw [(front_chunk1 hfront _).1, if_neg (by simp), hpeers]
  simp

/-- The new node joins, and its files are those of the invitation. -/
theorem join_invitation (hfront : FrontOk netname invitee myname mesh) (hport : PortOk port) (hinv : Invitable body)
    (key : NodeKey) :
    ∃ r d', finalizeJoin (String.ofList (invitationText netname invitee myname body port mesh)).toUTF8 (fun _ => none)
        force key = (.ok r, d') ∧ r.name = invitee ∧
      d'.files .tincConf = some (textOf (varLine "Name".toList invitee :: varLine "ConnectTo".toList myname ::
        mesh.map pairLine)) ∧
      d'.files (.host myname) = some (textOf (carriedLines body port)) := by
  have hjoin := @joinSteps_invitation netname invitee myname body port mesh force hfront hport hinv key
  have hheader := @header_invitation netname invitee myname body port mesh hfront hport
  obtain ⟨hafter, hvars⟩ := @front_chunk1 netname invitee myname mesh force hfront (carriedLines body port)
  generalize hs : String.ofList (invitationText netname invitee myname body port mesh) = s
  have htext : s.toList = invitationText netname invitee myname body port mesh := by
    rw [← hs, String.toList_ofList]
  rw [← htext] at hjoin hheader
  have hrun : ∃ d', finalizeJoin s.toUTF8 (fun _ => none) force key = (.ok ⟨invitee, key.pubkeyB64, [myname]⟩, d') := by
    refine ⟨Disk.after ⟨fun _ => none, []⟩ (joinSteps s.toList (fun _ => none) force key).1, ?_⟩
    simp only [finalizeJoin, finalizeJoinInner, fromUTF8_toUTF8, finalizeJoinText_steps, runOf, hjoin]
  obtain ⟨d', hrun⟩ := hrun
  refine ⟨_, d', hrun, rfl, ?_, ?_⟩
  · rw [(own_files hrun).1]
    simp only [blobVars, fromUTF8_toUTF8, hheader, confLines, hvars]
  · obtain ⟨⟨text, lines, peers, hutf8, hheader', _, hpeersRun, _, rfl, _⟩⟩ := finished_of_run hrun
    rw [fromUTF8_toUTF8, Option.some.injEq] at hutf8
    subst hutf8
    obtain ⟨-, rfl⟩ := Prod.mk.inj (Except.ok.inj (hheader.symm.trans hheader'))
    rw [writeChunk1_steps] at hpeersRun
    dsimp only at hpeersRun
    rw [hafter] at hpeersRun
    obtain ⟨-, hpeers⟩ := writeHostChunks_run hpeersRun
    rw [blocksOf, hostBlocks_copies (peerLine_carried hinv port)] at hpeers
    have hne : Path.host myname ≠ .host invitee := by
      rintro ⟨⟩
      simpa [eqIgnoreAsciiCase] using hfront.differ
    rw [finish_files _ _ _ (by simp) (by simp), if_neg hne, hpeers.files]
    simp [lastBlock]

end Join

/-! ### The inviter's configuration -/

structure IsValue (v : Text) : Prop where
  token : Token v
  ne_nil : v ≠ []
  trailing : ∀ c, v.getLast? = some c → isBlank c = false

theorem not_mem_trimmed (hl : l ∈ splitInclusive text) (first : Bool) : '\n' ∉ trimmed first l := by
  obtain ⟨tail, htail, hchars⟩ := stripNewline_tail l
  have hstrip : stripBom first (stripNewline l) ⊆ stripNewline l := by
    unfold stripBom
    split_ifs
    · exact List.tail_subset _
    · exact fun _ hx => hx
  intro hmem
  have hchomp : '\n' ∈ chomp (stripBom first l) := (List.rdropWhile_prefix _ _).subset hmem
  rw [htail, chomp_stripBom_append hchars] at hchomp
  exact not_mem_stripNewline (List.mem_map_of_mem hl) (hstrip ((List.rdropWhile_prefix _ _).subset hchomp))

theorem isValue_of_parse (h : parseFile text = .ok entries) {e : Entry} (he : e ∈ entries) : IsValue e.value := by
  have hmem : e.pair ∈ scan true false (splitInclusive text) := by
    have hpairs : entries.map Entry.pair = scan true false (splitInclusive text) := (readLoop_ok h).2
    rw [← hpairs]
    exact List.mem_map_of_mem he
  obtain ⟨pre, l, post, inside, hsplit, hview⟩ := mem_scan hmem
  have hl : l ∈ splitInclusive text := by simp [hsplit]
  obtain ⟨-, hv, hne⟩ := view_entry hview
  generalize (true && pre.isEmpty) = first at hv
  have hv' : e.value = (splitKv (trimmed first l)).2 := hv
  obtain ⟨front, hfront⟩ : e.value <:+ trimmed first l := hv' ▸ splitKv_value_suffix _
  refine ⟨⟨fun hnl => ?_, fun c hc => ?_⟩, hne, fun c hc => ?_⟩
  · exact not_mem_trimmed hl first (hfront ▸ List.mem_append_right _ hnl)
  · exact splitKv_value_head _ c (hv' ▸ hc)
  · have hlast : (trimmed first l).getLast? = some c := by rw [← hfront, List.getLast?_append, hc]; rfl
    have hne' : trimmed first l ≠ [] := by
      rintro hnil
      rw [hnil] at hlast
      cases hlast
    have hnot : ¬isBlank ((trimmed first l).getLast hne') = true := List.rdropWhile_last_not isBlank _ hne'
    rw [List.getLast?_eq_some_getLast hne'] at hlast
    rw [← Option.some.inj hlast]
    simpa using hnot

theorem isBlank_of_not_isWhitespace {c : Char} (h : isWhitespace c = false) : isBlank c = false := by
  rw [isBlank, Bool.or_eq_false_iff, beq_eq_false_iff_ne, beq_eq_false_iff_ne]
  constructor
  · rintro rfl
    exact absurd h (by decide)
  · rintro rfl
    exact absurd h (by decide)

theorem isValue_of_word {cs : Text} (hne : firstWord cs ≠ []) : IsValue (firstWord cs) := by
  have hsolid : ∀ c ∈ firstWord cs, isWhitespace c = false := by
    intro c hc
    simpa using List.mem_takeWhile_imp hc
  refine ⟨⟨fun hmem => ?_, fun c hc => ?_⟩, hne, fun c hc => ?_⟩
  · exact absurd (hsolid _ hmem) (by decide)
  · exact isBlank_of_not_isWhitespace (hsolid c (List.mem_of_mem_head? hc))
  · exact isBlank_of_not_isWhitespace (hsolid c (List.mem_of_getLast? hc))

theorem seen_eq_self {v : Text} (h : IsValue v) (hcr : v.getLast? ≠ some '\r') : seen v = v := by
  have hbreak : ∀ c, v.getLast? = some c → (c == '\n' || c == '\r') = false := by
    intro c hc
    have hnl : c ≠ '\n' := fun heq => h.token.newline (heq ▸ List.mem_of_getLast? hc)
    have hcr' : c ≠ '\r' := fun heq => hcr (heq ▸ hc)
    simp [hnl, hcr']
  rw [seen, show chomp v = v from rdropWhile_eq_self hbreak [] h.ne_nil]
  exact rdropWhile_eq_self h.trailing [] h.ne_nil

theorem mem_of_lookup (hparse : parseFile text = .ok entries) {e : Entry} (h : (lookup entries key).head? = some e) :
    e ∈ entries := by
  rw [lookup_eq_filter hparse] at h
  exact List.mem_of_mem_filter (List.mem_of_mem_head? h)

theorem isValue_default : IsValue DEFAULT_PORT := by
  refine ⟨⟨by decide, ?_⟩, by decide, ?_⟩
  · rintro c ⟨⟩
    rfl
  · rintro c ⟨⟩
    rfl

theorem getMyAddress_ok {path : String} {a : AddressPort} (hparse : parseFile text = .ok entries)
    (h : getMyAddress path entries = .ok a) : a.host ≠ [] ∧ IsValue a.port := by
  unfold getMyAddress at h
  split at h
  · cases h
  · next addr haddr =>
    dsimp only at h
    split_ifs at h with hhost hport
    · obtain rfl := Except.ok.inj h
      exact ⟨hhost, isValue_of_word hport⟩
    · split at h
      · obtain rfl := Except.ok.inj h
        exact ⟨hhost, isValue_default⟩
      · next port hentry =>
        split_ifs at h
        obtain rfl := Except.ok.inj h
        exact ⟨hhost, isValue_of_parse hparse (mem_of_lookup hparse hentry)⟩

theorem meshPairs_ok (hparse : parseFile text = .ok entries) :
    ∀ p ∈ meshPairs entries, p.1 ∈ meshVars ∧ IsValue p.2 := by
  intro p hp
  obtain ⟨var, hvar, hentry⟩ := List.mem_filterMap.1 hp
  obtain ⟨e, he, rfl⟩ := Option.map_eq_some_iff.1 hentry
  exact ⟨hvar, isValue_of_parse hparse (mem_of_lookup hparse he)⟩

/-- The invitation of `inviter` to `invitee` comes through: the names differ in more than case, and no value changes
on the way. -/
structure Sendable (inviter : Inviter) (netname : Option Text) (invitee : Text) (conf : List Entry)
    (address : AddressPort) : Prop where
  differ : eqIgnoreAsciiCase inviter.name invitee = false
  netname : ∀ n ∈ netname, '\n' ∉ n ∧ '\r' ∉ n
  mesh : ∀ p ∈ meshPairs conf, p.2.getLast? ≠ some '\r'
  port : address.port.getLast? ≠ some '\r'
  fits : utf8Len (portLine address.port) ≤ MAX_LINE_LEN

theorem invite_join {inviter : Inviter} {netname : Option Text} {invitee : Text} {keyHash cookie : Cookie}
    {conf host : List Entry} {address : AddressPort} {force : Bool} {key : NodeKey}
    (hconf : parseFile inviter.conf = .ok conf) (hhost : parseFile inviter.host = .ok host)
    (hinv : Invitable inviter.host) (haddress : getMyAddress inviter.hostPath host = .ok address)
    (hslash : ∀ c ∈ address.host ++ address.port, c ≠ '/' ∧ c ≠ '[' ∧ c ≠ ']')
    (hinvitee : checkId invitee = true) (hnew : inviter.known invitee = false)
    (hsend : Sendable inviter netname invitee conf address) :
    ∃ invitation, invite inviter netname invitee keyHash cookie = .ok invitation ∧
      parseUrl invitation.url = some ⟨address.host, address.port, keyHash, cookie⟩ ∧
      ∃ r d', finalizeJoin (String.ofList invitation.body).toUTF8 (fun _ => none) force key = (.ok r, d') ∧
        r.name = invitee ∧
        d'.files .tincConf = some (textOf (varLine "Name".toList invitee ::
          varLine "ConnectTo".toList inviter.name :: (meshPairs conf).map pairLine)) ∧
        ∃ text entries, d'.files (.host inviter.name) = some text ∧ parseFile text = .ok entries ∧
          entries.map Entry.pair = host.map fun e => replacePort address.port e.pair := by
  obtain ⟨hhostNe, hvalue⟩ := getMyAddress_ok hhost haddress
  have hport : PortOk address.port :=
    ⟨hvalue.token, seen_eq_self hvalue hsend.port, hvalue.ne_nil, hsend.port, hsend.fits⟩
  have hfront : FrontOk netname invitee inviter.name (meshPairs conf) := by
    refine ⟨hinvitee, inviter.name_ok, hsend.differ, hsend.netname, fun p hp => ?_⟩
    obtain ⟨hvar, hval⟩ := meshPairs_ok hconf p hp
    exact ⟨hvar, hval.token, hsend.mesh p hp⟩
  have hplain : address.Plain := by
    refine ⟨hhostNe, hvalue.ne_nil, ⟨fun h => ?_, fun h => ?_⟩, fun h => ?_, fun h => ?_⟩
    · exact (hslash _ (List.mem_append_left _ h)).1 rfl
    · exact (hslash _ (List.mem_append_right _ h)).1 rfl
    · exact (hslash _ (List.mem_append_left _ h)).2.1 rfl
    · exact (hslash _ (List.mem_append_left _ h)).2.2 rfl
  have hbody : buildInvitationFile inviter netname invitee address =
      .ok (invitationText netname invitee inviter.name inviter.host address.port (meshPairs conf)) := by
    rw [buildInvitationFile, hconf]
    dsimp only
    rw [meshLines_eq]
    rfl
  have hinvite : invite inviter netname invitee keyHash cookie = .ok
      ⟨address.display ++ '/' :: buildSlug keyHash cookie,
        invitationText netname invitee inviter.name inviter.host address.port (meshPairs conf)⟩ := by
    rw [invite, if_neg (by simp [hinvitee]), if_neg (by simp [hnew]), hhost]
    dsimp only
    rw [haddress]
    simp only [bind, Except.bind, hbody]
    rfl
  obtain ⟨r, d', hrun, hname, hconfFile, hhostFile⟩ :=
    @join_invitation netname invitee inviter.name inviter.host address.port _ force hfront hport hinv key
  obtain ⟨entries, hparse, hentries⟩ := parse_carriedLines hport hinv hhost
  refine ⟨_, hinvite, parseUrl_display hplain keyHash cookie, r, d', hrun, hname, hconfFile, _, entries, hhostFile,
    hparse, ?_⟩
  rw [hentries, List.map_map]
  rfl

/-! ### An inviter -/

def aliceInviter : Inviter where
  name := "alice".toList
  conf := "Name = alice\nMode = switch\n".toList
  host := "Address 10.0.0.1 655\nPort 0\n".toList
  confPath := "tinc.conf"
  hostPath := "hosts/alice"
  known := fun n => n == "alice".toList
  name_ok := by decide
  known_self := by decide

def zeroCookie : Cookie := ⟨List.replicate 18 0, rfl⟩

def aliceConf : List Entry := [⟨"Name".toList, "alice".toList, 1⟩, ⟨"Mode".toList, "switch".toList, 2⟩]

def aliceHost : List Entry := [⟨"Address".toList, "10.0.0.1 655".toList, 1⟩, ⟨"Port".toList, "0".toList, 2⟩]

theorem parse_alice : parseFile aliceInviter.conf = .ok aliceConf ∧ parseFile aliceInviter.host = .ok aliceHost := by
  decide

theorem address_alice : getMyAddress aliceInviter.hostPath aliceHost = .ok ⟨"10.0.0.1".toList, "655".toList⟩ := by
  simp only [getMyAddress, lookup_eq_filter parse_alice.2]
  decide

theorem meshPairs_alice : meshPairs aliceConf = [("Mode".toList, "switch".toList)] := by
  simp only [meshPairs, lookup_eq_filter parse_alice.1]
  decide

theorem invitable_alice : Invitable aliceInviter.host := by
  have hlines : strLines aliceInviter.host = ["Address 10.0.0.1 655".toList, "Port 0".toList] := by decide
  have hall : ["Address 10.0.0.1 655".toList, "Port 0".toList].all (fun l =>
      !l.head?.any isBlank && !isNameLine l && l != SEPARATOR && !droppedKey (splitKv l).1 && !l.contains '=') = true := by
    decide
  have hline := List.all_eq_true.1 hall
  rw [← hlines] at hline
  simp only [Bool.and_eq_true, Bool.not_eq_true', bne_iff_ne] at hline
  refine ⟨fun l hl b hb => ?_, fun l hl => (hline l hl).1.1.1.2, fun hsep => (hline _ hsep).1.1.2 rfl,
    fun l hl => (hline l hl).1.2, fun l hl k rest heq => ?_, fun l hl => ?_⟩
  · simpa [hb] using (hline l hl).1.1.1.1
  · have hno := (hline l hl).2
    simp [heq] at hno
  · rw [hlines] at hl
    exact absurd hl (by simp)

theorem invite_join_bob : ∃ invitation r d',
    invite aliceInviter none "bob".toList zeroCookie zeroCookie = .ok invitation ∧
      parseUrl invitation.url = some ⟨"10.0.0.1".toList, "655".toList, zeroCookie, zeroCookie⟩ ∧
      finalizeJoin (String.ofList invitation.body).toUTF8 (fun _ => none) false zeroKey = (.ok r, d') ∧
      r.name = "bob".toList := by
  have hsend : Sendable aliceInviter none "bob".toList aliceConf ⟨"10.0.0.1".toList, "655".toList⟩ := by
    refine ⟨by decide, by simp, ?_, by decide, by decide⟩
    rw [meshPairs_alice]
    decide
  have hall : ("10.0.0.1".toList ++ "655".toList).all (fun c => c != '/' && c != '[' && c != ']') = true := by decide
  have hslash : ∀ c ∈ "10.0.0.1".toList ++ "655".toList, c ≠ '/' ∧ c ≠ '[' ∧ c ≠ ']' := by
    intro c hc
    simpa [and_assoc] using List.all_eq_true.1 hall c hc
  obtain ⟨invitation, hinvite, hurl, r, d', hrun, hname, -⟩ :=
    @invite_join aliceInviter none "bob".toList zeroCookie zeroCookie aliceConf aliceHost _ false zeroKey parse_alice.1
      parse_alice.2 invitable_alice address_alice hslash (by decide) (by decide) hsend
  exact ⟨invitation, r, d', hinvite, hurl, hrun, hname⟩

theorem not_joined {files : Files} {force : Bool} {key : NodeKey} {e : CmdError}
    (h : ((finalizeJoinText text force key).run ⟨files, []⟩).fault? = some e) :
    ∀ r d', finalizeJoin (String.ofList text).toUTF8 files force key ≠ (.ok r, d') := by
  intro r d' hrun
  have hinner : (finalizeJoinInner (String.ofList text).toUTF8 force key).run ⟨files, []⟩ =
      (finalizeJoinText text force key).run ⟨files, []⟩ := by
    simp only [finalizeJoinInner, fromUTF8_toUTF8, String.toList_ofList]
  rw [finalizeJoin, hinner, Result.eq_error_last h] at hrun
  cases (Prod.mk.inj hrun).1

/-- An invitation for a name that differs from ours in case alone is made, but nobody can join with it. -/
theorem invite_join_refused : parseFile aliceInviter.conf = .ok aliceConf ∧ parseFile aliceInviter.host = .ok aliceHost ∧
    Invitable aliceInviter.host ∧
    getMyAddress aliceInviter.hostPath aliceHost = .ok ⟨"10.0.0.1".toList, "655".toList⟩ ∧ ∃ invitation,
    invite aliceInviter none "Alice".toList zeroCookie zeroCookie = .ok invitation ∧
      ∀ r d', finalizeJoin (String.ofList invitation.body).toUTF8 (fun _ => none) false zeroKey ≠ (.ok r, d') := by
  have hbody : buildInvitationFile aliceInviter none "Alice".toList ⟨"10.0.0.1".toList, "655".toList⟩ =
      .ok (invitationText none "Alice".toList "alice".toList aliceInviter.host "655".toList
        [("Mode".toList, "switch".toList)]) := by
    rw [buildInvitationFile, parse_alice.1]
    dsimp only
    rw [meshLines_eq, meshPairs_alice]
    rfl
  have hfault : ((finalizeJoinText (invitationText none "Alice".toList "alice".toList aliceInviter.host "655".toList
      [("Mode".toList, "switch".toList)]) false zeroKey).run ⟨fun _ => none, []⟩).fault? =
        some (.badInput "Secondary chunk would overwrite our own host config file.") := by decide
  refine ⟨parse_alice.1, parse_alice.2, invitable_alice, address_alice,
    ⟨AddressPort.display ⟨"10.0.0.1".toList, "655".toList⟩ ++ '/' :: buildSlug zeroCookie zeroCookie,
    invitationText none "Alice".toList "alice".toList aliceInviter.host "655".toList
    [("Mode".toList, "switch".toList)]⟩, ?_, fun r d' hrun => ?_⟩
  · rw [invite, if_neg (by decide), if_neg (by decide), parse_alice.2]
    dsimp only
    rw [address_alice]
    simp only [bind, Except.bind, hbody]
    rfl
  · exact not_joined hfault r d' hrun

end Tincr.Cmd

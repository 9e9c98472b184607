import Tincr.Lib.IpText

/-!
The dial addresses of a peer. A round walks one cursor over four tiers, of which the last two are filtered as they
are read and the last one may still grow. Growing only appends to the list the cursor walks, so what was returned is
what lies before the cursor, and a round returns every address once as long as no address is in both of the first
two tiers. Adding the known addresses keeps them apart; learning that one of them works does not.
-/

namespace Tincr.Net

open IpText

inductive SocketAddr
  | v4 (ip : Ipv4Addr) (port : UInt16)
  | v6 (ip : Ipv6Addr) (port : UInt16) (flowinfo scopeId : UInt32)
deriving DecidableEq

def SocketAddr.ofHost (host : List Char) (port : UInt16) : Option SocketAddr :=
  match Ipv4Addr.parse host with
  | some ip => some (.v4 ip port)
  | none => (Ipv6Addr.parse host).map fun ip => .v6 ip port 0 0

abbrev MAX_EPHEMERAL : ℕ := 64

def pushNew {α : Type} [DecidableEq α] (as : List α) (a : α) : List α := if a ∈ as then as else as ++ [a]

def splitConfig (lines : List (List Char × UInt16)) : List SocketAddr × List (List Char × UInt16) :=
  lines.foldl (fun (literals, hostnames) (host, port) =>
    match SocketAddr.ofHost host port with
    | some a => (pushNew literals a, hostnames)
    | none => (literals, pushNew hostnames (host, port))) ([], [])

/-- Appends what passes and is not there, up to the cap. -/
def collect (skip : SocketAddr → Bool) : List SocketAddr → List SocketAddr → List SocketAddr
  | tier, [] => tier
  | tier, a :: addrs =>
    if MAX_EPHEMERAL ≤ tier.length then tier
    else if skip a then collect skip tier addrs
    else collect skip (pushNew tier a) addrs

theorem nodup_pushNew {α : Type} [DecidableEq α] {as : List α} (h : as.Nodup) (a : α) : (pushNew as a).Nodup := by
  unfold pushNew
  split_ifs with hmem
  · exact h
  · exact List.nodup_append.2 ⟨h, List.nodup_singleton a, fun b hb c hc heq => hmem (by
      rw [← List.mem_singleton.1 hc, ← heq]
      exact hb)⟩

theorem nodup_splitConfig (lines : List (List Char × UInt16)) : (splitConfig lines).1.Nodup := by
  unfold splitConfig
  refine List.foldlRecOn lines _ (motive := fun r : List SocketAddr × _ => r.1.Nodup) List.nodup_nil ?_
  rintro ⟨literals, hostnames⟩ h ⟨host, port⟩ -
  dsimp only
  split
  · exact nodup_pushNew h _
  · exact h

theorem nodup_collect {skip : SocketAddr → Bool} {tier : List SocketAddr} (h : tier.Nodup) (addrs : List SocketAddr) :
    (collect skip tier addrs).Nodup := by
  induction addrs generalizing tier with
  | nil => exact h
  | cons a addrs ih =>
    unfold collect
    split_ifs
    · exact h
    · exact ih h
    · exact ih (nodup_pushNew h a)

theorem mem_pushNew {α : Type} [DecidableEq α] {as : List α} {a b : α} : b ∈ pushNew as a ↔ b ∈ as ∨ b = a := by
  unfold pushNew
  split_ifs with hmem
  · exact ⟨.inl, fun h => h.elim id fun heq => heq ▸ hmem⟩
  · rw [List.mem_append, List.mem_singleton]

theorem skip_of_mem_collect {skip : SocketAddr → Bool} {tier addrs : List SocketAddr} {a : SocketAddr}
    (h : a ∈ collect skip tier addrs) : a ∈ tier ∨ skip a = false := by
  induction addrs generalizing tier with
  | nil => exact .inl h
  | cons b addrs ih =>
    unfold collect at h
    split_ifs at h with hcap hskip
    · exact .inl h
    · exact ih h
    · rcases ih h with hmem | hkept
      · rcases mem_pushNew.1 hmem with hmem | rfl
        · exact .inl hmem
        · exact .inr (by simpa using hskip)
      · exact .inr hkept

/-- The tiers but the first are only built by `splitConfig` and `collect`: they have no repetitions, and a late
result is not in the configuration. -/
structure AddressCache where
  recent : List SocketAddr
  known : List SocketAddr
  config : List SocketAddr
  resolved : List SocketAddr
  hostnames : List (List Char × UInt16)
  cursor : ℕ
  nodup_known : known.Nodup
  nodup_config : config.Nodup
  nodup_resolved : resolved.Nodup
  new_resolved : ∀ a ∈ resolved, a ∉ config

namespace AddressCache

def new (recent : List SocketAddr) (configAddrs : List (List Char × UInt16)) : AddressCache where
  recent := recent
  known := []
  config := (splitConfig configAddrs).1
  resolved := []
  hostnames := (splitConfig configAddrs).2
  cursor := 0
  nodup_known := List.nodup_nil
  nodup_config := nodup_splitConfig configAddrs
  nodup_resolved := List.nodup_nil
  new_resolved _ h := absurd h List.not_mem_nil

def addKnownAddresses (c : AddressCache) (addrs : List SocketAddr) : AddressCache :=
  { c with
    known := collect (fun a => decide (a ∈ c.recent)) [] addrs
    nodup_known := nodup_collect List.nodup_nil addrs
    resolved := []
    nodup_resolved := List.nodup_nil
    new_resolved _ h := absurd h List.not_mem_nil
    cursor := 0 }

def extendResolved (c : AddressCache) (addrs : List SocketAddr) : AddressCache :=
  { c with
    resolved := collect (fun a => decide (a ∈ c.recent ∨ a ∈ c.known ∨ a ∈ c.config)) c.resolved addrs
    nodup_resolved := nodup_collect c.nodup_resolved addrs
    new_resolved a h hconfig := by
      rcases skip_of_mem_collect h with hmem | hkept
      · exact c.new_resolved a hmem hconfig
      · simp [hconfig] at hkept }

/-- Tiers 3 and 4 without what the first two have. -/
def late (c : AddressCache) : List SocketAddr :=
  (c.config ++ c.resolved).filter fun a => decide (a ∉ c.recent ∧ a ∉ c.known)

def advance (c : AddressCache) : AddressCache := { c with cursor := c.cursor + 1 }

def nextAddr (c : AddressCache) : Option SocketAddr × AddressCache :=
  let r := c.recent.length
  let k := r + c.known.length
  let addr :=
    if c.cursor < r then c.recent[c.cursor]?
    else if c.cursor < k then c.known[c.cursor - r]?
    else c.late[c.cursor - k]?
  (addr, if addr.isSome then c.advance else c)

def addRecent (c : AddressCache) (addr : SocketAddr) : AddressCache :=
  { c with recent := addr :: c.recent.filter (· ≠ addr) }

def reset (c : AddressCache) : AddressCache :=
  { c with
    cursor := 0
    resolved := []
    nodup_resolved := List.nodup_nil
    new_resolved _ h := absurd h List.not_mem_nil }

/-! ### The list under the cursor -/

def candidates (c : AddressCache) : List SocketAddr := c.recent ++ c.known ++ c.late

theorem nextAddr_eq (c : AddressCache) :
    c.nextAddr = (c.candidates[c.cursor]?, if c.cursor < c.candidates.length then c.advance else c) := by
  have haddr : (if c.cursor < c.recent.length then c.recent[c.cursor]?
      else if c.cursor < c.recent.length + c.known.length then c.known[c.cursor - c.recent.length]?
      else c.late[c.cursor - (c.recent.length + c.known.length)]?) = c.candidates[c.cursor]? := by
    unfold candidates
    split_ifs with hrecent hknown
    · rw [List.append_assoc, List.getElem?_append_left hrecent]
    · rw [List.append_assoc, List.getElem?_append_right (by omega), List.getElem?_append_left (by omega)]
    · rw [List.getElem?_append_right (by rw [List.length_append]; omega), List.length_append]
  simp only [nextAddr, haddr, isSome_getElem?]

theorem collect_prefix (skip : SocketAddr → Bool) (tier addrs : List SocketAddr) :
    tier <+: collect skip tier addrs := by
  induction addrs generalizing tier with
  | nil => exact List.prefix_refl _
  | cons a addrs ih =>
    unfold collect
    split_ifs
    · exact List.prefix_refl _
    · exact ih tier
    · refine List.IsPrefix.trans ?_ (ih _)
      unfold pushNew
      split_ifs
      · exact List.prefix_refl _
      · exact List.prefix_append _ _

theorem candidates_extendResolved (c : AddressCache) (addrs : List SocketAddr) :
    c.candidates <+: (c.extendResolved addrs).candidates := by
  obtain ⟨more, hmore⟩ := collect_prefix (fun a => decide (a ∈ c.recent ∨ a ∈ c.known ∨ a ∈ c.config)) c.resolved addrs
  have hlate : (c.extendResolved addrs).late = c.late ++ more.filter fun a => decide (a ∉ c.recent ∧ a ∉ c.known) := by
    rw [late, late, ← List.filter_append, List.append_assoc, hmore]
    rfl
  refine ⟨more.filter fun a => decide (a ∉ c.recent ∧ a ∉ c.known), ?_⟩
  rw [candidates, candidates, hlate, ← List.append_assoc]
  rfl

theorem nodup_late (c : AddressCache) : c.late.Nodup :=
  (List.nodup_append'.2 ⟨c.nodup_config, c.nodup_resolved, fun a hconfig hresolved =>
    c.new_resolved a hresolved hconfig⟩).filter _

/-- No address is there twice, if none is in both of the first two tiers. -/
theorem nodup_candidates_iff {c : AddressCache} (hrecent : c.recent.Nodup) :
    c.candidates.Nodup ↔ c.recent.Disjoint c.known := by
  have hlate : (c.recent ++ c.known).Disjoint c.late := by
    intro a hearly hlate
    have hnot := of_decide_eq_true (List.mem_filter.1 hlate).2
    rcases List.mem_append.1 hearly with h | h
    · exact hnot.1 h
    · exact hnot.2 h
  rw [candidates, List.nodup_append', List.nodup_append']
  exact ⟨fun h => h.1.2.2, fun h => ⟨⟨hrecent, c.nodup_known, h⟩, c.nodup_late, hlate⟩⟩

theorem mem_candidates {c : AddressCache} {a : SocketAddr} :
    a ∈ c.candidates ↔ a ∈ c.recent ∨ a ∈ c.known ∨ a ∈ c.config ∨ a ∈ c.resolved := by
  simp only [candidates, late, List.mem_append, List.mem_filter, decide_eq_true_eq]
  tauto

/-! ### Rounds -/

inductive Event
  | next
  | resolved (addrs : List SocketAddr)

/-- The cache, and what it has returned since the round began. -/
structure Round where
  cache : AddressCache
  returned : List SocketAddr

namespace Round

def step (r : Round) : Event → Round
  | .next => ⟨r.cache.nextAddr.2, r.returned ++ r.cache.nextAddr.1.toList⟩
  | .resolved addrs => ⟨r.cache.extendResolved addrs, r.returned⟩

def run (c : AddressCache) (events : List Event) : Round := events.foldl step ⟨c, []⟩

/-- Every address once, tier by tier, and all of them before the round ends. -/
structure Ok (r : Round) : Prop where
  distinct : r.returned.Nodup
  ordered : ∃ recent known config resolved, r.returned = recent ++ known ++ config ++ resolved ∧
    recent <+: r.cache.recent ∧ known <+: r.cache.known ∧ config.Sublist r.cache.config ∧
      resolved.Sublist r.cache.resolved
  complete : r.cache.nextAddr.1 = none → ∀ a, a ∈ r.cache.recent ∨ a ∈ r.cache.known ∨ a ∈ r.cache.config ∨
    a ∈ r.cache.resolved → a ∈ r.returned

/-- What was returned is what lies before the cursor, and the first tiers are still those of the start. -/
structure Walked (c : AddressCache) (r : Round) : Prop where
  recent : r.cache.recent = c.recent
  known : r.cache.known = c.known
  cursor : r.cache.cursor ≤ r.cache.candidates.length
  returned : r.returned = r.cache.candidates.take r.cache.cursor

theorem Walked.step {c : AddressCache} {r : Round} (h : Walked c r) (e : Event) : Walked c (r.step e) := by
  cases e with
  | next =>
    rw [Round.step, nextAddr_eq]
    by_cases hlt : r.cache.cursor < r.cache.candidates.length
    · simp only [if_pos hlt]
      refine ⟨h.recent, h.known, hlt, ?_⟩
      rw [h.returned]
      exact List.take_add_one.symm
    · simp only [if_neg hlt, List.getElem?_eq_none (Nat.not_lt.1 hlt)]
      exact ⟨h.recent, h.known, h.cursor, by rw [Option.toList_none, List.append_nil]; exact h.returned⟩
  | resolved addrs =>
    obtain ⟨more, hmore⟩ := r.cache.candidates_extendResolved addrs
    have hcursor : (r.cache.extendResolved addrs).cursor = r.cache.cursor := rfl
    refine ⟨h.recent, h.known, ?_, ?_⟩
    · rw [Round.step, hcursor, ← hmore, List.length_append]
      exact h.cursor.trans (Nat.le_add_right _ _)
    · rw [Round.step, hcursor, ← hmore, List.take_append_of_le_length h.cursor]
      exact h.returned

theorem walked_run {c : AddressCache} (hstart : c.cursor = 0) (events : List Event) : Walked c (run c events) := by
  refine List.foldlRecOn events step ⟨rfl, rfl, ?_, ?_⟩ fun r h e _ => h.step e
  · rw [hstart]
    exact Nat.zero_le _
  · rw [hstart, List.take_zero]

/-- The part of the list before the cursor, tier by tier. -/
theorem Walked.ordered {c : AddressCache} {r : Round} (h : Walked c r) :
    ∃ recent known config resolved, r.returned = recent ++ known ++ config ++ resolved ∧
      recent <+: r.cache.recent ∧ known <+: r.cache.known ∧ config.Sublist r.cache.config ∧
      resolved.Sublist r.cache.resolved := by
  rw [h.returned, candidates, late, List.filter_append, ← List.append_assoc, List.take_append, List.take_append,
    List.take_append]
  exact ⟨_, _, _, _, rfl, List.take_prefix _ _, List.take_prefix _ _,
    (List.take_sublist _ _).trans List.filter_sublist, (List.take_sublist _ _).trans List.filter_sublist⟩

theorem Walked.complete {c : AddressCache} {r : Round} (h : Walked c r) (hnone : r.cache.nextAddr.1 = none) :
    r.returned = r.cache.candidates := by
  rw [nextAddr_eq, List.getElem?_eq_none_iff] at hnone
  rw [h.returned, List.take_of_length_le hnone]

/-- A round over tiers that are apart. -/
theorem ok_of_disjoint {c : AddressCache} (hstart : c.cursor = 0) (hrecent : c.recent.Nodup)
    (hapart : c.recent.Disjoint c.known) (events : List Event) : (run c events).Ok := by
  have hwalked := walked_run hstart events
  have hnodup : (run c events).cache.candidates.Nodup := by
    rw [nodup_candidates_iff (hwalked.recent ▸ hrecent), hwalked.recent, hwalked.known]
    exact hapart
  refine ⟨?_, hwalked.ordered, fun hnone a ha => ?_⟩
  · rw [hwalked.returned]
    exact hnodup.sublist (List.take_sublist _ _)
  · rw [hwalked.complete hnone]
    exact mem_candidates.2 ha

theorem run_nexts {c : AddressCache} {n : ℕ} (hn : c.cursor + n ≤ c.candidates.length) (out : List SocketAddr) :
    ((List.replicate n .next).foldl step ⟨c, out⟩).returned = out ++ (c.candidates.drop c.cursor).take n := by
  induction n generalizing c out with
  | zero => simp
  | succ n ih =>
    have hlt : c.cursor < c.candidates.length := by omega
    have hnext : step ⟨c, out⟩ .next = ⟨c.advance, out ++ [c.candidates[c.cursor]]⟩ := by
      simp only [step, nextAddr_eq, if_pos hlt, List.getElem?_eq_getElem hlt, Option.toList_some]
    have hsame : c.advance.candidates = c.candidates := rfl
    have hcursor : c.advance.cursor = c.cursor + 1 := rfl
    rw [List.replicate_succ, List.foldl_cons, hnext, ih (by rw [hsame, hcursor]; omega), hsame, hcursor,
      List.drop_eq_getElem_cons hlt, List.take_succ_cons, List.append_assoc]
    rfl

/-- Rounds that start with the known addresses are right; those that start with a reset alone are right exactly if
no known address is a recent one. -/
theorem round_iff {c : AddressCache} (hrecent : c.recent.Nodup) :
    ((∀ events, (run c.reset events).Ok) ↔ c.recent.Disjoint c.known) ∧
      ∀ addrs events, (run (c.addKnownAddresses addrs) events).Ok := by
  refine ⟨⟨fun hok => ?_, fun hapart => @ok_of_disjoint c.reset rfl hrecent hapart⟩, fun addrs events => ?_⟩
  · -- as many calls as there are candidates return all of them
    have hall := (hok (List.replicate c.reset.candidates.length .next)).distinct
    rw [run, run_nexts (Nat.zero_add _).le, List.nil_append] at hall
    have hcandidates : c.reset.candidates.Nodup := by simpa [AddressCache.reset] using hall
    exact (@nodup_candidates_iff c.reset hrecent).1 hcandidates
  · refine @ok_of_disjoint (c.addKnownAddresses addrs) rfl hrecent (fun a ha hknown => ?_) events
    rcases skip_of_mem_collect hknown with hnil | hkept
    · exact absurd hnil List.not_mem_nil
    · have hnot : a ∉ c.recent := by simpa using hkept
      exact hnot ha

def home : SocketAddr := .v4 ⟨10, 0, 0, 5⟩ 655

def away : SocketAddr := .v4 ⟨10, 0, 0, 6⟩ 655

/-- A round over a recent and a known address. -/
theorem round_iff_two : ((new [home] []).addKnownAddresses [home, away]).recent.Nodup ∧
    ∀ events, (run (((new [home] []).addKnownAddresses [home, away]).reset) events).Ok := by
  have hnodup : ((new [home] []).addKnownAddresses [home, away]).recent.Nodup := by decide +kernel
  have hapart : ∀ a ∈ [home], a ∉ ((new [home] []).addKnownAddresses [home, away]).known := by decide +kernel
  exact ⟨hnodup, (round_iff hnodup).1.2 fun a => hapart a⟩

/-- The address that was found among the known ones has worked; when that connection ends the next round tries it
twice. -/
theorem run_twice :
    (run (((new [] []).addKnownAddresses [home]).nextAddr.2.addRecent home).reset [.next, .next]).returned =
      [home, home] := by
  decide +kernel

end Round

end AddressCache

end Tincr.Net

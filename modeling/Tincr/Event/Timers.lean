import Tincr.Lib.OrderedMap
import Tincr.Lib.Slab
import Tincr.Lib.Sorted

/-!
The timer wheel. A timer is a slot that is armed or not; the armed ones are also in a map ordered by deadline, with a
sequence number against equal deadlines. It is compared with a queue that holds the armed timers in the order in which
they were armed. The two agree as long as the sequence number does not wrap.
-/

namespace Tincr.Event

/-- A deadline, in nanoseconds, and the number of the `set` that made it. -/
abbrev Key := ℕ ×ₗ ℕ

def Key.when (k : Key) : ℕ := (ofLex k).1

def Key.seq (k : Key) : ℕ := (ofLex k).2

/-- One timer slot; `armed` is its key in the map. -/
structure Slot (W : Type) where
  what : W
  armed : Option Key := none

/-- `slots` is the slot storage with its free list. -/
structure Timers (W : Type) where
  byDeadline : OrderedMap Key ℕ
  slots : Slab (Slot W)
  seq : ℕ
  now : ℕ

/-- The seconds of an `Instant` are an `i64`. -/
def instantLimit : ℕ := 2 ^ 63 * 10 ^ 9

def checkedAdd (now after : ℕ) : Option ℕ := if now + after < instantLimit then some (now + after) else none

def year : ℕ := 86400 * 365 * 10 ^ 9

/-- The deadline of a `set`: a year from now if it is past the last instant, which can itself overflow. -/
def deadline (now after : ℕ) : Option ℕ := (checkedAdd now after).or (checkedAdd now year)

namespace Timers

variable {W : Type}

def new (now : ℕ) : Timers W := ⟨.empty, .empty, 0, now⟩

def add (t : Timers W) (what : W) : Timers W × ℕ := ({ t with slots := t.slots.insert { what } }, t.slots.next)

def unlink (m : OrderedMap Key ℕ) : Option Key → OrderedMap Key ℕ
  | some key => m.remove key
  | none => m

/-- Panics if the slot is free. The sequence number is a `u64`. -/
def set (t : Timers W) (id after : ℕ) : Option (Timers W) := do
  let slot ← t.slots.get id
  let when ← deadline t.now after
  let seq := (t.seq + 1) % 2 ^ 64
  let key : Key := toLex (when, seq)
  return {
    byDeadline := (unlink t.byDeadline slot.armed).insert key id
    slots := t.slots.modify id fun slot => { slot with armed := some key }
    seq
    now := t.now }

def del (t : Timers W) (id : ℕ) : Timers W :=
  match t.slots.get id with
  | none => t
  | some slot => { t with byDeadline := unlink t.byDeadline slot.armed, slots := t.slots.erase id }

/-- An entry goes and its slot is disarmed, but stays. -/
def pop (t : Timers W) (key : Key) (idx : ℕ) : Timers W :=
  { t with
    byDeadline := t.byDeadline.remove key
    slots := t.slots.modify idx fun slot => { slot with armed := none } }

/-- The loop of `tick`, once for each entry at most. Panics if an entry has no slot. -/
def drain : ℕ → Timers W → Option (Timers W × List W)
  | 0, t => some (t, [])
  | fuel + 1, t =>
    match t.byDeadline.first with
    | none => some (t, [])
    | some (key, idx) =>
      if key.when ≤ t.now then
        match t.slots.get idx with
        | none => none
        | some slot => (drain fuel (t.pop key idx)).map fun (t, out) => (t, slot.what :: out)
      else some (t, [])

def nextTimeout (t : Timers W) : Option ℕ := t.byDeadline.first.map fun (key, _) => key.when - t.now

/-- The fired timers, and the time to the next one. `now` is what the clock reads. -/
def tick (t : Timers W) (now : ℕ) : Option (Timers W × List W × Option ℕ) :=
  (drain t.byDeadline.entries.length { t with now }).map fun (t, out) => (t, out, t.nextTimeout)

end Timers

inductive Op (W : Type)
  | add (what : W)
  | set (id after : ℕ)
  | del (id : ℕ)
  | tick (now : ℕ)

inductive Seen (W : Type)
  | added (id : ℕ)
  | done
  | fired (out : List W) (next : Option ℕ)

def Timers.step {W : Type} (t : Timers W) : Op W → Option (Timers W × Seen W)
  | .add what => let (t, id) := t.add what; some (t, .added id)
  | .set id after => (t.set id after).map fun t => (t, .done)
  | .del id => some (t.del id, .done)
  | .tick now => (t.tick now).map fun (t, out, next) => (t, .fired out next)

/-! ### The queue in order of arming -/

/-- The timers there are, and the armed ones with their deadlines, the last armed at the end. -/
structure Queue (W : Type) where
  live : ℕ → Option W
  armed : List (ℕ × ℕ)
  now : ℕ

namespace Queue

variable {W : Type}

def new (now : ℕ) : Queue W := ⟨fun _ => none, [], now⟩

def nextTimeout (q : Queue W) : Option ℕ := (q.armed.map Prod.snd).min?.map (· - q.now)

/-- First by deadline, then by the order of arming. -/
def Before (armed : List (ℕ × ℕ)) (a b : ℕ × ℕ) : Prop := a.2 < b.2 ∨ a.2 = b.2 ∧ [a, b].Sublist armed

def rest (q : Queue W) (now : ℕ) : Queue W := { q with armed := q.armed.filter fun a => now < a.2, now }

inductive Step : Queue W → Op W → Seen W → Queue W → Prop
  | add {q : Queue W} (what : W) {id : ℕ} (hfree : q.live id = none) :
      Step q (.add what) (.added id) { q with live := Function.update q.live id (some what) }
  | set {q : Queue W} {id after when : ℕ} (hlive : (q.live id).isSome) (hwhen : deadline q.now after = some when) :
      Step q (.set id after) .done { q with armed := (q.armed.filter fun a => a.1 ≠ id) ++ [(id, when)] }
  | del {q : Queue W} (id : ℕ) :
      Step q (.del id) .done
        { q with live := Function.update q.live id none, armed := q.armed.filter fun a => a.1 ≠ id }
  | tick {q : Queue W} {now : ℕ} {fired : List (ℕ × ℕ)} {out : List W}
      (hperm : fired.Perm (q.armed.filter fun a => a.2 ≤ now)) (hord : fired.Pairwise (Before q.armed))
      (hout : out.map some = fired.map fun a => q.live a.1) :
      Step q (.tick now) (.fired out (q.rest now).nextTimeout) (q.rest now)

end Queue

/-! ### The map and the slots -/

def Slot.expire {W : Type} (now : ℕ) (slot : Slot W) : Slot W :=
  if slot.armed.any fun key => key.when ≤ now then { slot with armed := none } else slot

namespace Timers

variable {W : Type} {t : Timers W}

/-- The entries of the map are those of the armed slots. -/
def Matched (t : Timers W) : Prop :=
  ∀ key idx, (key, idx) ∈ t.byDeadline ↔ ∃ slot, t.slots.get idx = some slot ∧ slot.armed = some key

theorem matched_new (now : ℕ) : (new now : Timers W).Matched := by
  intro key idx
  simp [new, Slab.get, Slab.empty]

variable {t' : Timers W} {after fuel id : ℕ} {slot : Slot W} {out : List W}

theorem entries_unlink (h : t.Matched) (hslot : t.slots.get id = some slot) :
    (unlink t.byDeadline slot.armed).entries = t.byDeadline.entries.filter fun e => e.2 ≠ id := by
  have hid : ∀ e ∈ t.byDeadline.entries, e.2 = id ↔ slot.armed = some e.1 := by
    rintro ⟨key, idx⟩ he
    obtain ⟨slot', hslot', harmed⟩ := (h key idx).1 he
    constructor
    · rintro rfl
      cases hslot.symm.trans hslot'
      exact harmed
    · intro harmed'
      have hmem : (key, id) ∈ t.byDeadline := (h key id).2 ⟨slot, hslot, harmed'⟩
      exact congrArg Prod.snd (OrderedMap.eq_of_fst_eq he hmem rfl)
  rcases harmed : slot.armed with _ | key
  · refine (List.filter_eq_self.2 fun e he => ?_).symm
    rw [decide_eq_true_eq, Ne, hid e he, harmed]
    exact Option.some_ne_none _ ∘ Eq.symm
  · refine List.filter_congr fun e he => ?_
    rw [decide_eq_decide, not_iff_not, hid e he, harmed, Option.some_inj, eq_comm]

theorem mem_unlink (h : t.Matched) (hslot : t.slots.get id = some slot) {e : Key × ℕ} :
    e ∈ unlink t.byDeadline slot.armed ↔ e ∈ t.byDeadline ∧ e.2 ≠ id := by
  rw [OrderedMap.mem_def, entries_unlink h hslot, List.mem_filter, decide_eq_true_eq]
  rfl

theorem matched_add (h : t.Matched) (what : W) : (t.add what).1.Matched := by
  intro key idx
  refine (h key idx).trans ?_
  simp only [add, Slab.get_insert]
  by_cases hidx : t.slots.next = idx
  · simp [← hidx, t.slots.get_next]
  · simp [hidx]

theorem set_eq_some (h : t.set id after = some t') :
    ∃ slot when, t.slots.get id = some slot ∧ deadline t.now after = some when ∧
      t' = ⟨(unlink t.byDeadline slot.armed).insert (toLex (when, (t.seq + 1) % 2 ^ 64)) id,
        t.slots.modify id fun slot => { slot with armed := some (toLex (when, (t.seq + 1) % 2 ^ 64)) },
        (t.seq + 1) % 2 ^ 64, t.now⟩ := by
  simp only [set, Option.bind_eq_bind, Option.bind_eq_some_iff, Option.pure_def, Option.some_inj] at h
  obtain ⟨slot, hslot, when, hwhen, rfl⟩ := h
  exact ⟨slot, when, hslot, hwhen, rfl⟩

theorem matched_set (h : t.Matched) (hnew : ∀ e ∈ t.byDeadline, e.1.seq ≠ (t.seq + 1) % 2 ^ 64)
    (hset : t.set id after = some t') : t'.Matched := by
  obtain ⟨slot, when, hslot, -, rfl⟩ := set_eq_some hset
  intro key idx
  rw [OrderedMap.mem_insert, mem_unlink h hslot, Slab.get_modify, h key idx]
  by_cases hidx : id = idx
  · subst hidx
    simp [hslot, eq_comm]
  · have hne : (key, idx) ∈ t.byDeadline → key ≠ toLex (when, (t.seq + 1) % 2 ^ 64) := by
      rintro hmem rfl
      exact hnew _ hmem rfl
    rw [h key idx] at hne
    simp only [if_neg hidx, Prod.mk.injEq, Ne.symm hidx, and_false, false_or, Ne, not_false_eq_true, and_true]
    exact and_iff_left_of_imp hne

theorem matched_del (h : t.Matched) (id : ℕ) : (t.del id).Matched := by
  unfold del
  split
  · exact h
  · rename_i slot hslot
    intro key idx
    rw [mem_unlink h hslot, h key idx]
    by_cases hidx : id = idx
    · simp [hidx]
    · simp [hidx, Ne.symm hidx]

theorem matched_pop (h : t.Matched) {key : Key} {idx : ℕ} (hmem : (key, idx) ∈ t.byDeadline) :
    (t.pop key idx).Matched := by
  intro key' idx'
  rw [pop, OrderedMap.mem_remove, Slab.get_modify]
  by_cases hidx : idx = idx'
  · subst hidx
    obtain ⟨slot, hslot, harmed⟩ := (h key idx).1 hmem
    have hkey : (key', idx) ∈ t.byDeadline → key' = key := by
      rw [h key' idx]
      rintro ⟨slot', hslot', harmed'⟩
      cases hslot.symm.trans hslot'
      exact Option.some_inj.1 (harmed'.symm.trans harmed)
    simpa [hslot] using hkey
  · have hkey : (key', idx') ∈ t.byDeadline → key' ≠ key := by
      rintro hmem' rfl
      exact hidx (congrArg Prod.snd (OrderedMap.eq_of_fst_eq hmem hmem' rfl))
    rw [if_neg hidx, ← h key' idx']
    exact and_iff_left_of_imp hkey

/-- What the loop of `tick` has done when it ends. -/
structure Drained (t t' : Timers W) (out : List W) : Prop where
  entries : t'.byDeadline.entries = t.byDeadline.entries.filter fun e => t.now < e.1.when
  slots : ∀ i, t'.slots.get i = (t.slots.get i).map (Slot.expire t.now)
  out : out.map some = (t.byDeadline.entries.filter fun e => e.1.when ≤ t.now).map
    fun e => (t.slots.get e.2).map Slot.what
  seq : t'.seq = t.seq
  now : t'.now = t.now

/-- Nothing is due if the first is not. -/
theorem drained_refl (h : t.Matched) (hlate : ∀ e ∈ t.byDeadline, t.now < e.1.when) : Drained t t [] := by
  have hnone : t.byDeadline.entries.filter (fun e => e.1.when ≤ t.now) = [] := by
    refine List.filter_eq_nil_iff.2 fun e he => ?_
    rw [decide_eq_true_eq, not_le]
    exact hlate e he
  refine ⟨(List.filter_eq_self.2 fun e he => decide_eq_true (hlate e he)).symm, fun i => ?_, ?_, rfl, rfl⟩
  · rcases hslot : t.slots.get i with _ | slot
    · rfl
    · rcases harmed : slot.armed with _ | key
      · simp [Slot.expire, harmed]
      · have hkey : t.now < key.when := hlate (key, i) ((h key i).2 ⟨slot, hslot, harmed⟩)
        simp [Slot.expire, harmed, hkey]
  · rw [hnone]
    rfl

theorem drained_pop (h : t.Matched) {key : Key} {idx : ℕ} {rest : List (Key × ℕ)}
    (hfirst : t.byDeadline.entries = (key, idx) :: rest) (hdue : key.when ≤ t.now)
    (hslot : t.slots.get idx = some slot) (hrest : Drained (t.pop key idx) t' out) :
    Drained t t' (slot.what :: out) := by
  have hentries : (t.pop key idx).byDeadline.entries = rest := OrderedMap.remove_head hfirst
  have harmed : slot.armed = some key := by
    have hmem : (key, idx) ∈ t.byDeadline := by
      rw [OrderedMap.mem_def, hfirst]
      exact List.mem_cons_self
    obtain ⟨slot', hslot', harmed⟩ := (h key idx).1 hmem
    cases hslot.symm.trans hslot'
    exact harmed
  refine ⟨?_, fun i => ?_, ?_, hrest.seq, hrest.now⟩
  · rw [hrest.entries, hentries, hfirst, List.filter_cons_of_neg (by simpa using hdue)]
    rfl
  · rw [hrest.slots, pop, Slab.get_modify]
    split_ifs with hi
    · subst hi
      simp [hslot, Slot.expire, harmed, hdue]
    · rfl
  · have hwhat : ∀ i, ((t.pop key idx).slots.get i).map Slot.what = (t.slots.get i).map Slot.what := by
      intro i
      rw [pop, Slab.get_modify]
      split_ifs
      · rw [Option.map_map]
        rfl
      · rfl
    rw [List.map_cons, hrest.out, hentries, hfirst, List.filter_cons_of_pos (by simpa using hdue), List.map_cons, hslot]
    simp only [hwhat]
    rfl

theorem drain_eq (h : t.Matched) (hfuel : t.byDeadline.entries.length ≤ fuel) :
    ∃ t' out, drain fuel t = some (t', out) ∧ Drained t t' out ∧ t'.Matched := by
  induction fuel generalizing t with
  | zero =>
    have hnil : t.byDeadline.entries = [] := List.length_eq_zero_iff.1 (Nat.le_zero.1 hfuel)
    refine ⟨t, [], rfl, drained_refl h fun e he => ?_, h⟩
    rw [OrderedMap.mem_def, hnil] at he
    cases he
  | succ fuel ih =>
    rw [drain]
    rcases hentries : t.byDeadline.entries with _ | ⟨⟨key, idx⟩, rest⟩
    · have hfirst : t.byDeadline.first = none := by rw [OrderedMap.first, hentries, List.head?_nil]
      rw [hfirst]
      refine ⟨t, [], rfl, drained_refl h fun e he => ?_, h⟩
      exact absurd he (OrderedMap.first_eq_none.1 hfirst e)
    · have hfirst : t.byDeadline.first = some (key, idx) := by rw [OrderedMap.first, hentries, List.head?_cons]
      rw [hfirst]
      dsimp only
      split_ifs with hdue
      · have hmem : (key, idx) ∈ t.byDeadline := List.mem_of_mem_head? hfirst
        obtain ⟨slot, hslot, -⟩ := (h key idx).1 hmem
        have hlen : (t.pop key idx).byDeadline.entries.length ≤ fuel := by
          have hrest : (t.pop key idx).byDeadline.entries = rest := OrderedMap.remove_head hentries
          rw [hrest]
          rw [hentries, List.length_cons] at hfuel
          exact Nat.le_of_succ_le_succ hfuel
        obtain ⟨t', out, hdrain, hrest, h'⟩ := ih (matched_pop h hmem) hlen
        rw [hslot]
        dsimp only
        rw [hdrain]
        exact ⟨t', slot.what :: out, rfl, drained_pop h hentries hdue hslot hrest, h'⟩
      · refine ⟨t, [], rfl, drained_refl h fun e he => ?_, h⟩
        have hle : key ≤ e.1 := OrderedMap.le_of_first hfirst he
        exact (not_le.1 hdue).trans_le (Prod.Lex.monotone_fst _ _ hle)

/-! ### The timers show the queue -/

def armedOf (e : Key × ℕ) : ℕ × ℕ := (e.2, e.1.when)

/-- The slots are the timers of the queue, and the map, put in order of the sequence numbers, the armed ones. -/
structure Shows (t : Timers W) (q : Queue W) : Prop where
  matched : t.Matched
  seq_le : ∀ e ∈ t.byDeadline, e.1.seq ≤ t.seq
  live : ∀ i, q.live i = (t.slots.get i).map Slot.what
  now : q.now = t.now
  armed : ∃ l : List (Key × ℕ), l.Perm t.byDeadline.entries ∧ (l.Pairwise fun a b => a.1.seq < b.1.seq) ∧
    q.armed = l.map armedOf

variable {q : Queue W}

theorem shows_new (now : ℕ) : Shows (new now : Timers W) (Queue.new now) := by
  refine ⟨matched_new now, nofun, fun i => ?_, rfl, [], .nil, .nil, rfl⟩
  simp [new, Slab.get, Slab.empty, Queue.new]

theorem shows_add (h : Shows t q) (what : W) :
    ∃ q', Queue.Step q (.add what) (.added (t.add what).2) q' ∧ Shows (t.add what).1 q' := by
  have hfree : q.live t.slots.next = none := by
    rw [h.live, t.slots.get_next]
    rfl
  refine ⟨_, .add what hfree, matched_add h.matched what, h.seq_le, fun i => ?_, h.now, h.armed⟩
  simp only [add, Slab.get_insert, Function.update_apply]
  by_cases hi : i = t.slots.next
  · simp [hi]
  · simp [hi, Ne.symm hi, h.live]

/-- Taking a slot out of the map takes its timer out of the queue. -/
theorem armed_unlink (h : Shows t q) (hslot : t.slots.get id = some slot) :
    ∃ l : List (Key × ℕ), l.Perm (unlink t.byDeadline slot.armed).entries ∧
      (l.Pairwise fun a b => a.1.seq < b.1.seq) ∧ (q.armed.filter fun a => a.1 ≠ id) = l.map armedOf := by
  obtain ⟨l, hperm, hord, harmed⟩ := h.armed
  refine ⟨l.filter fun e => e.2 ≠ id, ?_, hord.sublist List.filter_sublist, ?_⟩
  · rw [entries_unlink h.matched hslot]
    exact hperm.filter _
  · rw [harmed, List.filter_map]
    rfl

theorem shows_set (h : Shows t q) (hseq : t.seq + 1 < 2 ^ 64) (hset : t.set id after = some t') :
    t'.seq = t.seq + 1 ∧ ∃ q', Queue.Step q (.set id after) .done q' ∧ Shows t' q' := by
  have hmod : (t.seq + 1) % 2 ^ 64 = t.seq + 1 := Nat.mod_eq_of_lt hseq
  have hmatched : t'.Matched := by
    refine matched_set h.matched (fun e he heq => ?_) hset
    have hle := h.seq_le e he
    omega
  obtain ⟨slot, when, hslot, hwhen, rfl⟩ := set_eq_some hset
  rw [hmod] at hmatched ⊢
  have hlive : (q.live id).isSome := by
    rw [h.live, hslot]
    rfl
  obtain ⟨l, hperm, hord, harmed⟩ := armed_unlink h hslot
  have hlt : ∀ e ∈ unlink t.byDeadline slot.armed, e.1.seq < t.seq + 1 := fun e he =>
    Nat.lt_succ_of_le (h.seq_le e ((mem_unlink h.matched hslot).1 he).1)
  refine ⟨rfl, _, .set hlive (h.now ▸ hwhen), hmatched, fun e he => ?_, fun i => ?_, h.now,
    l ++ [(toLex (when, t.seq + 1), id)], ?_, ?_, ?_⟩
  · rcases OrderedMap.mem_insert.1 he with rfl | ⟨he, -⟩
    · exact le_rfl
    · exact (hlt e he).le
  · rw [h.live, Slab.get_modify]
    split_ifs
    · rw [Option.map_map]
      rfl
    · rfl
  · have hnew : ∀ e ∈ unlink t.byDeadline slot.armed, e.1 ≠ toLex (when, t.seq + 1) := by
      rintro e he heq
      exact (hlt e he).ne (congrArg Key.seq heq)
    exact (List.perm_append_singleton _ _).trans ((hperm.cons _).trans (OrderedMap.perm_insert hnew).symm)
  · rw [List.pairwise_append]
    refine ⟨hord, List.pairwise_singleton _ _, fun a ha b hb => ?_⟩
    rw [List.mem_singleton.1 hb]
    exact hlt a (hperm.mem_iff.1 ha)
  · rw [harmed, List.map_append]
    rfl

theorem shows_del (h : Shows t q) (id : ℕ) : ∃ q', Queue.Step q (.del id) .done q' ∧ Shows (t.del id) q' := by
  refine ⟨_, .del id, ?_⟩
  rcases hslot : t.slots.get id with _ | slot
  · have hdel : t.del id = t := by rw [del, hslot]
    rw [hdel]
    obtain ⟨l, hperm, hord, harmed⟩ := h.armed
    refine ⟨h.matched, h.seq_le, fun i => ?_, h.now, l, hperm, hord, ?_⟩
    · dsimp only
      rw [Function.update_apply]
      split_ifs with hi
      · rw [hi, hslot]
        rfl
      · exact h.live i
    · refine (List.filter_eq_self.2 fun a ha => decide_eq_true ?_).trans harmed
      -- A timer of a free slot is not in the queue.
      rintro rfl
      rw [harmed] at ha
      obtain ⟨⟨key, idx⟩, he, rfl⟩ := List.mem_map.1 ha
      obtain ⟨slot, hslot', -⟩ := (h.matched key idx).1 (hperm.mem_iff.1 he)
      cases hslot.symm.trans hslot'
  · have hmatched := matched_del h.matched id
    have hdel : t.del id = { t with byDeadline := unlink t.byDeadline slot.armed, slots := t.slots.erase id } := by
      rw [del, hslot]
    rw [hdel] at hmatched ⊢
    refine ⟨hmatched, fun e he => ?_, fun i => ?_, h.now, armed_unlink h hslot⟩
    · exact h.seq_le e ((mem_unlink h.matched hslot).1 he).1
    · dsimp only
      rw [Function.update_apply, Slab.get_erase, h.live]
      by_cases hi : i = id
      · simp [hi]
      · simp [hi, Ne.symm hi]

/-- Both have the earliest deadline first. -/
theorem nextTimeout_eq (h : Shows t q) : t.nextTimeout = q.nextTimeout := by
  obtain ⟨l, hperm, -, harmed⟩ := h.armed
  have hwhen : q.armed.map Prod.snd = l.map fun e => e.1.when := by
    rw [harmed, List.map_map]
    rfl
  rw [nextTimeout, Queue.nextTimeout, hwhen, h.now]
  rcases hfirst : t.byDeadline.first with _ | ⟨key, idx⟩
  · have hnil : l = [] := List.eq_nil_iff_forall_not_mem.2 fun e he =>
      OrderedMap.first_eq_none.1 hfirst e (hperm.mem_iff.1 he)
    rw [hnil]
    rfl
  · have hmin : (l.map fun e => e.1.when).min? = some key.when := by
      refine List.min?_eq_some_iff.2 ⟨?_, fun d hd => ?_⟩
      · exact List.mem_map.2 ⟨(key, idx), hperm.mem_iff.2 (List.mem_of_mem_head? hfirst), rfl⟩
      · obtain ⟨e, he, rfl⟩ := List.mem_map.1 hd
        exact Prod.Lex.monotone_fst _ _ (OrderedMap.le_of_first hfirst (hperm.mem_iff.1 he))
    rw [hmin]
    rfl

/-- The loop fires what is due, in the order of the map, which is that of the queue. -/
theorem fired_before (h : Shows t q) (p : Key × ℕ → Bool) :
    ((t.byDeadline.entries.filter p).map armedOf).Pairwise (Queue.Before q.armed) := by
  obtain ⟨l, hperm, hord, harmed⟩ := h.armed
  have hsorted := (List.Pairwise.and_mem.1 t.byDeadline.sorted).sublist (List.filter_sublist (p := p))
  refine List.pairwise_map.2 (hsorted.imp fun {a b} hab => ?_)
  obtain ⟨ha, hb, hlt⟩ := hab
  rcases Prod.Lex.lt_iff.1 hlt with hwhen | ⟨hwhen, hseq⟩
  · exact .inl hwhen
  · refine .inr ⟨hwhen, ?_⟩
    rw [harmed]
    exact (List.pair_sublist_of_lt (f := fun e : Key × ℕ => e.1.seq) hord (hperm.mem_iff.2 ha) (hperm.mem_iff.2 hb)
      hseq).map armedOf

theorem shows_tick (h : Shows t q) (now : ℕ) :
    ∃ t' out next q', t.tick now = some (t', out, next) ∧ t'.seq = t.seq ∧
      Queue.Step q (.tick now) (.fired out next) q' ∧ Shows t' q' := by
  have hnow : Shows { t with now } { q with now } := ⟨h.matched, h.seq_le, h.live, rfl, h.armed⟩
  obtain ⟨t', out, hdrain, hd, hmatched⟩ := drain_eq hnow.matched le_rfl
  have htick : t.tick now = some (t', out, t'.nextTimeout) := by
    rw [tick, hdrain]
    rfl
  obtain ⟨l, hperm, hord, harmed⟩ := h.armed
  have hfilter : ∀ (p : ℕ → Bool), (q.armed.filter fun a => p a.2) = (l.filter fun e => p e.1.when).map armedOf := by
    intro p
    rw [harmed, List.filter_map]
    rfl
  have hshows : Shows t' (q.rest now) := by
    refine ⟨hmatched, fun e he => ?_, fun i => ?_, hd.now.symm, l.filter fun e => now < e.1.when, ?_,
      hord.sublist List.filter_sublist, hfilter fun d => now < d⟩
    · rw [OrderedMap.mem_def, hd.entries] at he
      exact hd.seq ▸ h.seq_le e (List.mem_of_mem_filter he)
    · rw [hd.slots, Option.map_map]
      refine (h.live i).trans (congrArg (fun f => (t.slots.get i).map f) (funext fun slot => ?_))
      simp only [Function.comp_apply, Slot.expire]
      split_ifs
      · rfl
      · rfl
    · rw [hd.entries]
      exact hperm.filter _
  have hfired : ((t.byDeadline.entries.filter fun e => e.1.when ≤ now).map armedOf).Perm
      (q.armed.filter fun a => a.2 ≤ now) := by
    rw [hfilter fun d => d ≤ now]
    exact (hperm.symm.filter _).map armedOf
  have hout : out.map some
      = ((t.byDeadline.entries.filter fun e => e.1.when ≤ now).map armedOf).map fun a => q.live a.1 := by
    rw [hd.out, List.map_map]
    exact List.map_congr_left fun e _ => (h.live e.2).symm
  refine ⟨t', out, _, _, htick, hd.seq, ?_, hshows⟩
  rw [nextTimeout_eq hshows]
  exact .tick hfired (fired_before h _) hout

/-! ### Runs -/

def run (t : Timers W) : List (Op W) → Option (Timers W × List (Seen W))
  | [] => some (t, [])
  | op :: ops => do
    let (t, seen) ← t.step op
    let (t, rest) ← run t ops
    return (t, seen :: rest)

theorem run_cons {op : Op W} {ops : List (Op W)} {seen : List (Seen W)} :
    t.run (op :: ops) = some (t', seen) ↔
      ∃ t1 s rest, t.step op = some (t1, s) ∧ t1.run ops = some (t', rest) ∧ seen = s :: rest := by
  simp only [run, Option.bind_eq_bind, Option.bind_eq_some_iff, Option.pure_def, Option.some_inj, Prod.mk.injEq,
    Prod.exists]
  constructor
  · rintro ⟨t1, s, hstep, t2, rest, hrun, rfl, rfl⟩
    exact ⟨t1, s, rest, hstep, hrun, rfl⟩
  · rintro ⟨t1, s, rest, hstep, hrun, rfl⟩
    exact ⟨t1, s, hstep, t', rest, hrun, rfl, rfl⟩

theorem run_append {ops ops' : List (Op W)} {t1 : Timers W} {seen seen' : List (Seen W)}
    (h : t.run ops = some (t1, seen)) (h' : t1.run ops' = some (t', seen')) :
    t.run (ops ++ ops') = some (t', seen ++ seen') := by
  induction ops generalizing t seen with
  | nil =>
    cases h
    exact h'
  | cons op ops ih =>
    obtain ⟨t2, s, rest, hstep, hrest, rfl⟩ := run_cons.1 h
    exact run_cons.2 ⟨t2, s, rest ++ seen', hstep, ih hrest, rfl⟩

/-- A `set` panics on a free slot, or on a clock in its last year; nothing else does. -/
theorem step_eq_none_iff (h : Shows t q) (op : Op W) :
    t.step op = none ↔ ∃ id after, op = .set id after ∧ (t.slots.get id = none ∨ deadline t.now after = none) := by
  cases op with
  | add what => simp [step]
  | set id after =>
    simp only [step, Option.map_eq_none_iff, Op.set.injEq]
    rw [set]
    rcases hslot : t.slots.get id with _ | slot
    · simp [hslot]
    · rcases hwhen : deadline t.now after with _ | when
      · simp [hwhen]
      · simp [hslot, hwhen]
  | del id => simp [step]
  | tick now =>
    obtain ⟨t', out, next, -, htick, -⟩ := shows_tick h now
    simp [step, htick]

end Timers

def sets {W : Type} (ops : List (Op W)) : ℕ :=
  ops.countP fun
    | .set _ _ => true
    | _ => false

inductive Queue.Run {W : Type} : Queue W → List (Op W) → List (Seen W) → Queue W → Prop
  | nil (q : Queue W) : Run q [] [] q
  | cons {q q1 q' : Queue W} {op : Op W} {ops : List (Op W)} {seen : Seen W} {rest : List (Seen W)}
      (hstep : Step q op seen q1) (hrun : Run q1 ops rest q') : Run q (op :: ops) (seen :: rest) q'

namespace Timers

variable {W : Type} {t : Timers W} {q : Queue W}

/-- One operation of the timers is one of the queue. -/
theorem shows_step (h : Shows t q) {op : Op W} {t' : Timers W} {seen : Seen W} (hseq : t.seq + sets [op] < 2 ^ 64)
    (hstep : t.step op = some (t', seen)) :
    t'.seq = t.seq + sets [op] ∧ ∃ q', Queue.Step q op seen q' ∧ Shows t' q' := by
  cases op with
  | add what =>
    cases hstep
    exact ⟨rfl, shows_add h what⟩
  | set id after =>
    obtain ⟨t1, hset, heq⟩ := Option.map_eq_some_iff.1 hstep
    cases heq
    exact shows_set h hseq hset
  | del id =>
    cases hstep
    obtain ⟨q', hq, h'⟩ := shows_del h id
    refine ⟨?_, q', hq, h'⟩
    unfold del
    split
    · rfl
    · rfl
  | tick now =>
    obtain ⟨t1, out, next, q', htick, hseq', hq, h'⟩ := shows_tick h now
    rw [step, htick] at hstep
    cases hstep
    exact ⟨hseq', q', hq, h'⟩

theorem shows_run (h : Shows t q) {ops : List (Op W)} {t' : Timers W} {seen : List (Seen W)}
    (hseq : t.seq + sets ops < 2 ^ 64) (hrun : t.run ops = some (t', seen)) :
    ∃ q', Queue.Run q ops seen q' ∧ Shows t' q' := by
  induction ops generalizing t q seen with
  | nil =>
    cases hrun
    exact ⟨q, .nil q, h⟩
  | cons op ops ih =>
    obtain ⟨t1, s, rest, hstep, hrest, rfl⟩ := run_cons.1 hrun
    have hsets : sets (op :: ops) = sets [op] + sets ops := @List.countP_append _ _ [op] ops
    obtain ⟨hseq1, q1, hq, h1⟩ := shows_step h (by omega) hstep
    obtain ⟨q', hrun', h'⟩ := ih h1 (by omega) hrest
    exact ⟨q', .cons hq hrun', h'⟩

/-- A timer is armed in its slot as it is in the queue. -/
theorem Shows.mem_armed (h : Shows t q) {id d : ℕ} :
    (id, d) ∈ q.armed ↔ ∃ slot key, t.slots.get id = some slot ∧ slot.armed = some key ∧ key.when = d := by
  obtain ⟨l, hperm, -, harmed⟩ := h.armed
  rw [harmed, List.mem_map]
  constructor
  · rintro ⟨⟨key, idx⟩, he, heq⟩
    cases heq
    obtain ⟨slot, hslot, hkey⟩ := (h.matched key idx).1 (hperm.mem_iff.1 he)
    exact ⟨slot, key, hslot, hkey, rfl⟩
  · rintro ⟨slot, key, hslot, hkey, rfl⟩
    exact ⟨(key, id), hperm.mem_iff.2 ((h.matched key id).2 ⟨slot, hslot, hkey⟩), rfl⟩

theorem Shows.nodup_armed (h : Shows t q) : (q.armed.map Prod.fst).Nodup := by
  obtain ⟨l, hperm, -, harmed⟩ := h.armed
  rw [harmed, List.map_map]
  have hentries : (t.byDeadline.entries.map Prod.snd).Nodup := by
    refine (List.nodup_map_iff_inj_on t.byDeadline.nodup).2 ?_
    rintro ⟨key, idx⟩ he ⟨key', idx'⟩ he' rfl
    obtain ⟨slot, hslot, hkey⟩ := (h.matched key idx).1 he
    obtain ⟨slot', hslot', hkey'⟩ := (h.matched key' idx).1 he'
    cases hslot.symm.trans hslot'
    cases hkey.symm.trans hkey'
    rfl
  exact (hperm.map Prod.snd).nodup_iff.2 hentries

/-- In every run with fewer than 2^64 settings the map and the armed slots correspond, the free list holds the unused
slots once each, and what is seen of the timers is what is seen of the queue: the due timers fire once each, by deadline
and then by arming. -/
theorem timers_run {start : ℕ} {ops : List (Op W)} {seen : List (Seen W)} (hsets : sets ops < 2 ^ 64)
    (hrun : (new start).run ops = some (t, seen)) :
    t.Matched ∧ t.slots.free.Nodup ∧ (∀ i, i ∈ t.slots.free ↔ t.slots.cells[i]? = some none) ∧
      (∀ op, t.step op = none ↔
        ∃ id after, op = .set id after ∧ (t.slots.get id = none ∨ deadline t.now after = none)) ∧
      ∃ q, Queue.Run (Queue.new start) ops seen q ∧ (∀ i, q.live i = (t.slots.get i).map Slot.what) ∧
        (q.armed.map Prod.fst).Nodup ∧
        (∀ id d, (id, d) ∈ q.armed ↔ ∃ slot key, t.slots.get id = some slot ∧ slot.armed = some key ∧ key.when = d) ∧
        t.nextTimeout = q.nextTimeout := by
  have hseq : (new start : Timers W).seq + sets ops < 2 ^ 64 := (Nat.zero_add _).symm ▸ hsets
  obtain ⟨q, hq, h⟩ := shows_run (shows_new start) hseq hrun
  exact ⟨h.matched, t.slots.free_nodup, t.slots.mem_free, step_eq_none_iff h, q, hq, h.live, h.nodup_armed,
    fun id d => h.mem_armed, nextTimeout_eq h⟩

/-- Two timers with one deadline, the first set again, and a freed slot used again. -/
def rearmed : List (Op ℕ) := [.add 7, .add 8, .set 0 5, .set 1 5, .set 0 5, .tick 5, .del 1, .add 9, .set 1 3]

theorem timers_run_rearmed :
    ∃ t seen q, (new 0).run rearmed = some (t, seen) ∧ Queue.Run (Queue.new 0) rearmed seen q ∧
      t.nextTimeout = q.nextTimeout := by
  obtain ⟨⟨t, seen⟩, hrun⟩ := Option.isSome_iff_exists.1 (show ((new 0).run rearmed).isSome by decide)
  obtain ⟨-, -, -, -, q, hq, -, -, -, hnext⟩ := timers_run (by decide) hrun
  exact ⟨t, seen, q, hrun, hq, hnext⟩

/-! ### When the sequence number wraps -/

/-- Timer 0 set for the `n`th time, and timer 1 not yet. -/
def often (n : ℕ) : Timers ℕ where
  byDeadline := ⟨[(toLex (5, n), 0)], List.pairwise_singleton _ _⟩
  slots := ((Slab.empty.insert { what := 0 }).insert { what := 1 }).modify 0
    fun slot => { slot with armed := some (toLex (5, n)) }
  seq := n
  now := 0

theorem set_often {n : ℕ} (h : n + 1 < 2 ^ 64) : (often n).set 0 5 = some (often (n + 1)) := by
  have hmod : (n + 1) % 2 ^ 64 = n + 1 := Nat.mod_eq_of_lt h
  have hslot : (often n).slots.get 0 = some ⟨0, some (toLex (5, n))⟩ := rfl
  have hwhen : deadline (often n).now 5 = some 5 := rfl
  have hfirst : (often n).byDeadline.entries = (toLex (5, n), 0) :: [] := rfl
  have hentries : (unlink (often n).byDeadline (some (toLex (5, n)))).entries = [] := OrderedMap.remove_head hfirst
  have hmap : (unlink (often n).byDeadline (some (toLex (5, n)))).insert (toLex (5, n + 1)) 0
      = (often (n + 1)).byDeadline := by
    refine OrderedMap.ext ?_
    simp only [OrderedMap.insert, hentries]
    rfl
  have hslots : (often n).slots.modify 0 (fun slot => { slot with armed := some (toLex (5, n + 1)) })
      = (often (n + 1)).slots := Slab.modify_modify _ _ _ _
  simp only [set, hslot, hwhen, Option.bind_eq_bind, Option.bind_some, Option.pure_def]
  rw [show (often n).seq = n from rfl, hmod, hmap, hslots]
  rfl

theorem run_often {n k : ℕ} (h : n + k < 2 ^ 64) :
    (often n).run (List.replicate k (.set 0 5)) = some (often (n + k), List.replicate k .done) := by
  induction k generalizing n with
  | zero => rfl
  | succ k ih =>
    have hset : (often n).step (.set 0 5) = some (often (n + 1), .done) := by
      rw [step, set_often (by omega)]
      rfl
    have hrest := ih (n := n + 1) (by omega)
    rw [Nat.add_right_comm] at hrest
    exact run_cons.2 ⟨_, _, _, hset, hrest, rfl⟩

/-- Timer 0 is set 2^64 - 1 times and then timer 1 once, for the same instant. Timer 1 has the number 0 and fires
first. -/
theorem fired_out_of_order :
    ∃ t seen, (new 0).run (([.add 0, .add 1, .set 0 5] ++ (List.replicate (2 ^ 64 - 2) (.set 0 5) ++ [.set 1 5]))
      ++ [.tick 5]) = some (t, seen ++ [.fired [1, 0] none]) := by
  have hstart : (new 0).run [.add 0, .add 1, .set 0 5] = some (often 1, [.added 0, .added 1, .done]) := rfl
  have hmany : (often 1).run (List.replicate (2 ^ 64 - 2) (.set 0 5)) = some (often (1 + (2 ^ 64 - 2)), _) :=
    run_often (by decide)
  obtain ⟨t1, t, hset, htick⟩ : ∃ t1 t, (often (1 + (2 ^ 64 - 2))).run [.set 1 5] = some (t1, [.done]) ∧
      t1.run [.tick 5] = some (t, [.fired [1, 0] none]) := ⟨_, _, rfl, rfl⟩
  exact ⟨t, _, run_append (run_append hstart (run_append hmany hset)) htick⟩

end Timers

end Tincr.Event

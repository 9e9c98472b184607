import Tincr.Lib.Budget

/-!
The two rate limits of the daemon: the token bucket on forwarded gossip (`seen.rs`) and the leaky
buckets in front of `accept` (`listen/tarpit.rs`). Times are nanoseconds since the component was made.
Both are bounded by a potential that grows with time; that of the tarpit is in the second bucket only,
since a connection gets through by that one.
-/

namespace Tincr.Net

abbrev SECOND : ℕ := 1000000000

/-! ### Forwarded gossip -/

abbrev FLOOD_RATE_PER_SEC : ℕ := 200
abbrev FLOOD_BURST : ℕ := 1000

structure FloodLimiter where
  tokens : ℕ
  last_refill : Option ℕ
  warned : Bool
deriving DecidableEq, Repr

namespace FloodLimiter

def new : FloodLimiter := ⟨FLOOD_BURST, none, false⟩

/-- Whole tokens for the whole milliseconds since the last refill; with none to add, the time stays. -/
def refill (l : FloodLimiter) (now : ℕ) : FloodLimiter :=
  match l.last_refill with
  | none => { l with last_refill := some now }
  | some last =>
    let add := min (FLOOD_RATE_PER_SEC * ((now - last) / 1000000) / 1000) FLOOD_BURST
    if 0 < add then
      { tokens := min (l.tokens + add) FLOOD_BURST, last_refill := some now, warned := false }
    else l

def allow (l : FloodLimiter) (now : ℕ) : Bool × FloodLimiter :=
  let l := l.refill now
  if 0 < l.tokens then (true, { l with tokens := l.tokens - 1 }) else (false, l)

/-- The time a token takes to come back. -/
abbrev TOKEN : ℕ := 5000000

def idle (l : FloodLimiter) (now : ℕ) : ℕ :=
  match l.last_refill with
  | none => 0
  | some last => now - last

/-- The tokens at hand and the time that counts towards the next ones. -/
def credit (l : FloodLimiter) (now : ℕ) : ℕ := l.tokens * TOKEN + l.idle now

def Fits (l : FloodLimiter) : Prop :=
  l.tokens ≤ FLOOD_BURST ∧ (l.last_refill = none ∨ l.tokens < FLOOD_BURST)

/-- A refill never adds to the credit, and what it leaves over is worth less than a token. -/
theorem refill_credit (l : FloodLimiter) (now : ℕ) :
    (l.refill now).credit now ≤ l.credit now ∧ (l.refill now).idle now < TOKEN := by
  unfold refill
  cases hlast : l.last_refill with
  | none => simp [credit, idle, hlast]
  | some last =>
    dsimp only [FLOOD_RATE_PER_SEC, FLOOD_BURST]
    split_ifs with hadd
    · simp only [credit, idle, hlast, TOKEN]
      omega
    · simp only [idle, hlast, TOKEN]
      omega

theorem refill_fits {l : FloodLimiter} (h : l.Fits) (now : ℕ) :
    (l.refill now).tokens ≤ FLOOD_BURST ∧
      ((l.refill now).idle now = 0 ∨ (l.refill now).tokens < FLOOD_BURST) := by
  obtain ⟨hle, hfull⟩ := h
  unfold refill
  cases hlast : l.last_refill with
  | none => exact ⟨hle, .inl (by simp [idle])⟩
  | some last =>
    dsimp only
    split_ifs
    · exact ⟨Nat.min_le_right _ _, .inl (by simp [idle])⟩
    · exact ⟨hle, .inr (hfull.resolve_left (by simp [hlast]))⟩

theorem credit_take {l : FloodLimiter} (h : 0 < l.tokens) (now : ℕ) :
    TOKEN + ({ l with tokens := l.tokens - 1 } : FloodLimiter).credit now = l.credit now := by
  simp only [credit, idle, TOKEN]
  omega

theorem allow_cases (l : FloodLimiter) (now : ℕ) :
    0 < (l.refill now).tokens ∧
        l.allow now = (true, { l.refill now with tokens := (l.refill now).tokens - 1 }) ∨
      (l.refill now).tokens = 0 ∧ l.allow now = (false, l.refill now) := by
  unfold allow
  rcases Nat.eq_zero_or_pos (l.refill now).tokens with hzero | hpos
  · exact .inr ⟨hzero, by simp [hzero]⟩
  · exact .inl ⟨hpos, by simp [hpos]⟩

theorem allow_accounts : Budget.Accounts id allow Fits credit TOKEN (FLOOD_BURST * TOKEN) where
  keeps l now h := by
    obtain ⟨hle, -⟩ := refill_fits h now
    rcases allow_cases l now with ⟨hpos, hallow⟩ | ⟨hzero, hallow⟩ <;> rw [hallow]
    · exact ⟨(Nat.sub_le _ _).trans hle, .inr ((Nat.sub_lt hpos Nat.one_pos).trans_le hle)⟩
    · exact ⟨hle, .inr (by simp [hzero])⟩
  drift l t t' ht := by
    unfold credit idle
    split <;> omega
  pays l now h := by
    obtain ⟨hcredit, -⟩ := refill_credit l now
    rcases allow_cases l now with ⟨hpos, hallow⟩ | ⟨hzero, hallow⟩ <;> rw [hallow]
    · rw [if_pos rfl, id, credit_take hpos]
      exact hcredit
    · rw [if_neg (by simp), Nat.zero_add]
      exact hcredit
  enters l now h := by
    obtain ⟨hle, hfull⟩ := refill_fits h now
    obtain ⟨-, hidle⟩ := refill_credit l now
    -- a bucket that was not refilled was not full, and what is left over is less than a token
    have hbound : (l.refill now).credit now ≤ FLOOD_BURST * TOKEN := by
      simp only [credit, FLOOD_BURST, TOKEN] at *
      omega
    rcases allow_cases l now with ⟨hpos, hallow⟩ | ⟨hzero, hallow⟩ <;> rw [hallow]
    · rwa [if_pos rfl, id, credit_take hpos]
    · rwa [if_neg (by simp), Nat.zero_add]

/-- In every window of time the limiter lets through no more than the burst and the rate allow. -/
theorem allow_window_le {times : List ℕ} (hsorted : times.Pairwise (· ≤ ·)) (a b : ℕ) :
    SECOND * Budget.grantsIn id allow new times a b ≤ SECOND * FLOOD_BURST + FLOOD_RATE_PER_SEC * (b - a) := by
  have hwindow := allow_accounts.window_le (s := new) ⟨le_rfl, .inl rfl⟩ hsorted a b
  simp only [SECOND, FLOOD_BURST, FLOOD_RATE_PER_SEC, TOKEN] at *
  omega

theorem allow_window_le_two :
    SECOND * Budget.grantsIn id allow new [0, 3000000] 0 3000000 ≤
      SECOND * FLOOD_BURST + FLOOD_RATE_PER_SEC * (3000000 - 0) :=
  allow_window_le (by decide) 0 3000000

/-- However few tokens are left: lines that come at the rate of the limiter or slower are all let through. -/
theorem allow_paced {l : FloodLimiter} {last : ℕ} {times : List ℕ} (hlast : l.last_refill = some last)
    (hpaced : (last :: times).IsChain fun a b => a + TOKEN ≤ b) : Budget.granted allow l times = times := by
  induction times generalizing l last with
  | nil => rfl
  | cons now rest ih =>
    obtain ⟨hwait, hrest⟩ := List.isChain_cons_cons.1 hpaced
    have hadd : 0 < min (FLOOD_RATE_PER_SEC * ((now - last) / 1000000) / 1000) FLOOD_BURST := by
      simp only [FLOOD_RATE_PER_SEC, FLOOD_BURST, TOKEN] at hwait ⊢
      omega
    have hrefill : (l.refill now).last_refill = some now ∧ 0 < (l.refill now).tokens := by
      rw [refill, hlast]
      dsimp only
      rw [if_pos hadd]
      exact ⟨rfl, lt_min (Nat.add_pos_right _ hadd) (by decide)⟩
    rcases allow_cases l now with ⟨-, hallow⟩ | ⟨hzero, -⟩
    · simp only [Budget.granted, hallow, if_true]
      exact congrArg _ (ih hrefill.1 hrest)
    · exact absurd hzero hrefill.2.ne'

theorem allow_paced_empty : Budget.granted allow ⟨0, some 0, true⟩ [5000000, 10000000] = [5000000, 10000000] :=
  allow_paced rfl (by decide)

end FloodLimiter

/-! ### Accepted connections -/

/-- Only the IP of an address is compared, and the ring of ignored sockets decides nothing: they are
left out. -/
structure Tarpit (Ip : Type) where
  prev_addr : Option Ip
  samehost_burst : UInt32
  samehost_time : ℕ
  allhost_burst : UInt32
  allhost_time : ℕ
  max_burst : UInt32
deriving DecidableEq, Repr

namespace Tarpit

variable {Ip : Type} [DecidableEq Ip]

def new (max_burst : UInt32) : Tarpit Ip := ⟨none, 0, 0, 0, 0, max_burst⟩

def leak (burst : UInt32) (amount : ℕ) : UInt32 := UInt32.ofNat (burst.toNat - amount)

/-- The two buckets, with the amount that leaks between two times as a parameter. The first returns
early and is not clamped. The counters are 32 bits wide and `+= 1` wraps. -/
def checkWith (drain : ℕ → ℕ → ℕ) (tp : Tarpit Ip) (addr : Ip) (now : ℕ) : Bool × Tarpit Ip :=
  let same_host := tp.prev_addr = some addr
  let tp :=
    if same_host then
      { tp with
        samehost_burst := leak tp.samehost_burst (drain tp.samehost_time now) + 1
        samehost_time := now }
    else tp
  if same_host ∧ tp.max_burst < tp.samehost_burst then (true, tp)
  else
    let tp :=
      { tp with
        prev_addr := some addr
        allhost_burst := leak tp.allhost_burst (drain tp.allhost_time now) + 1
        allhost_time := now }
    if tp.max_burst ≤ tp.allhost_burst then (true, { tp with allhost_burst := tp.max_burst })
    else (false, tp)

/-- Whole seconds of the time that has passed, cut to 32 bits. -/
def elapsed (last now : ℕ) : ℕ := (now - last) / SECOND % 2 ^ 32

def check (tp : Tarpit Ip) (addr : Ip) (now : ℕ) : Bool × Tarpit Ip := tp.checkWith elapsed addr now

def letThrough (tp : Tarpit Ip) (call : Ip × ℕ) : Bool × Tarpit Ip :=
  (!(tp.check call.1 call.2).1, (tp.check call.1 call.2).2)

variable {tp : Tarpit Ip} {drain : ℕ → ℕ → ℕ} {addr : Ip} {now : ℕ}

/-- What a call does to the bucket of all hosts: nothing, if that of the one host is over, or it leaks
and takes one more. The bucket is full then, and the connection is pitted, or it is not. -/
inductive Outcome (drain : ℕ → ℕ → ℕ) (tp : Tarpit Ip) (now : ℕ) : Bool → Tarpit Ip → Prop
  | early {tp' : Tarpit Ip} (hmax : tp'.max_burst = tp.max_burst) (hburst : tp'.allhost_burst = tp.allhost_burst)
      (htime : tp'.allhost_time = tp.allhost_time)
      (hover : tp.max_burst < leak tp.samehost_burst (drain tp.samehost_time now) + 1) :
      Outcome drain tp now true tp'
  | full {tp' : Tarpit Ip} (hmax : tp'.max_burst = tp.max_burst) (hburst : tp'.allhost_burst = tp.max_burst)
      (htime : tp'.allhost_time = now)
      (hfull : tp.max_burst ≤ leak tp.allhost_burst (drain tp.allhost_time now) + 1) :
      Outcome drain tp now true tp'
  | room {tp' : Tarpit Ip} (hmax : tp'.max_burst = tp.max_burst)
      (hburst : tp'.allhost_burst = leak tp.allhost_burst (drain tp.allhost_time now) + 1)
      (htime : tp'.allhost_time = now)
      (hroom : ¬ tp.max_burst ≤ leak tp.allhost_burst (drain tp.allhost_time now) + 1) :
      Outcome drain tp now false tp'

theorem checkWith_outcome (tp : Tarpit Ip) (addr : Ip) (now : ℕ) :
    Outcome drain tp now (tp.checkWith drain addr now).1 (tp.checkWith drain addr now).2 := by
  unfold checkWith
  dsimp only
  by_cases hsame : tp.prev_addr = some addr
  · rw [if_pos hsame]
    dsimp only
    split_ifs with hpit hfull
    · exact .early rfl rfl rfl hpit.2
    · exact .full rfl rfl rfl hfull
    · exact .room rfl rfl rfl hfull
  · rw [if_neg hsame, if_neg fun hpit => hsame hpit.1]
    split_ifs with hfull
    · exact .full rfl rfl rfl hfull
    · exact .room rfl rfl rfl hfull

/-- The places that are free and the time that counts towards the next, up to one place below the
capacity. -/
def places (tp : Tarpit Ip) (now : ℕ) : ℕ :=
  min ((tp.max_burst.toNat - 1) * SECOND)
    ((tp.max_burst.toNat - 1 - tp.allhost_burst.toNat) * SECOND + (now - tp.allhost_time))

theorem toNat_leak (burst : UInt32) (amount : ℕ) : (leak burst amount).toNat = burst.toNat - amount := by
  have := burst.toNat_lt
  exact UInt32.toNat_ofNat_of_lt' (show burst.toNat - amount < 2 ^ 32 by omega)

theorem toNat_max : (0xffffffff : UInt32).toNat = 0xffffffff := by
  decide +kernel

/-- Below the largest capacity the counter of all hosts does not wrap. -/
theorem toNat_leak_succ {burst max_burst : UInt32} {amount : ℕ} (hle : burst ≤ max_burst)
    (hmax : max_burst ≠ 0xffffffff) : (leak burst amount + 1).toNat = burst.toNat - amount + 1 := by
  have hlt := max_burst.toNat_lt
  have hne : max_burst.toNat ≠ 0xffffffff := fun h => hmax (UInt32.toNat_inj.1 (h.trans toNat_max.symm))
  have hb := UInt32.le_iff_toNat_le.1 hle
  rw [UInt32.toNat_add, toNat_leak, UInt32.toNat_one]
  exact Nat.mod_eq_of_lt (by omega)

def Within (max_burst : UInt32) (tp : Tarpit Ip) : Prop :=
  tp.max_burst = max_burst ∧ tp.allhost_burst ≤ max_burst

/-- A place taken is paid for by those that were free and the seconds that leaked. -/
theorem places_take {capacity burst amount since second : ℕ} (hroom : burst - amount + 1 < capacity)
    (hamount : amount ≤ since / second) :
    second + min ((capacity - 1) * second) ((capacity - 1 - (burst - amount + 1)) * second) ≤
      min ((capacity - 1) * second) ((capacity - 1 - burst) * second + since) := by
  have hsince : amount * second ≤ since :=
    (Nat.mul_le_mul_right _ hamount).trans (Nat.div_mul_le_self _ _)
  have hcap : (capacity - 1 - (burst - amount + 1) + 1) * second ≤ (capacity - 1) * second :=
    Nat.mul_le_mul_right _ (by omega)
  have hfree : (capacity - 1 - (burst - amount + 1) + 1) * second ≤ (capacity - 1 - burst + amount) * second :=
    Nat.mul_le_mul_right _ (by omega)
  rw [Nat.succ_mul] at hcap hfree
  rw [Nat.add_mul] at hfree
  omega

theorem letThrough_pays {max_burst : UInt32} (hmax : max_burst ≠ 0xffffffff) (call : Ip × ℕ)
    (h : tp.Within max_burst) :
    (if (tp.letThrough call).1 then SECOND else 0) + (tp.letThrough call).2.places call.2 ≤ tp.places call.2 ∧
      (tp.letThrough call).2.Within max_burst := by
  obtain ⟨rfl, hle⟩ := h
  have hsucc : (leak tp.allhost_burst (elapsed tp.allhost_time call.2) + 1).toNat = _ := toNat_leak_succ hle hmax
  have hb := UInt32.le_iff_toNat_le.1 hle
  have helapsed : elapsed tp.allhost_time call.2 ≤ (call.2 - tp.allhost_time) / SECOND := Nat.mod_le _ _
  have hcall : Outcome elapsed tp call.2 _ _ := checkWith_outcome tp call.1 call.2
  unfold letThrough check
  generalize (tp.checkWith elapsed call.1 call.2).1 = pit at hcall ⊢
  generalize (tp.checkWith elapsed call.1 call.2).2 = tp' at hcall ⊢
  cases hcall with
  | early hmax' hburst htime _ => exact ⟨by simp [places, hmax', hburst, htime], hmax', hburst ▸ hle⟩
  | full hmax' hburst htime hfull =>
    refine ⟨?_, hmax', by rw [hburst]; exact UInt32.le_refl _⟩
    simp [places, hmax', hburst, htime]
  | room hmax' hburst htime hroom =>
    have hlt := Nat.not_le.1 fun h => hroom (UInt32.le_iff_toNat_le.2 h)
    refine ⟨?_, hmax', UInt32.le_iff_toNat_le.2 (hburst ▸ hlt.le)⟩
    simp only [places, hmax', hburst, htime, hsucc, Bool.not_false, if_true, Nat.sub_self, Nat.add_zero]
    exact places_take (hsucc ▸ hlt) helapsed

theorem letThrough_accounts {max_burst : UInt32} (hmax : max_burst ≠ 0xffffffff) :
    Budget.Accounts Prod.snd (@letThrough Ip _) (Within max_burst) places SECOND
      ((max_burst.toNat - 1) * SECOND) where
  keeps tp call h := (letThrough_pays hmax call h).2
  drift tp t t' ht := by
    unfold places
    omega
  pays tp call h := (letThrough_pays hmax call h).1
  enters tp call h := by
    refine (letThrough_pays hmax call h).1.trans ?_
    rw [← h.1]
    exact Nat.min_le_left _ _

theorem letThrough_window_le {max_burst : UInt32} (hmax : max_burst ≠ 0xffffffff) {calls : List (Ip × ℕ)}
    (hsorted : calls.Pairwise fun c c' => c.2 ≤ c'.2) (a b : ℕ) :
    Budget.grantsIn Prod.snd letThrough (new max_burst) calls a b ≤ max_burst.toNat - 1 + (b - a) / SECOND := by
  have hwindow := (letThrough_accounts hmax).window_le (s := new max_burst) ⟨rfl, UInt32.zero_le⟩ hsorted a b
  simp only [SECOND] at *
  omega

/-- A tarpit of the largest capacity, all calls at time 0, with this level for all hosts. -/
def AtLevel (level : ℕ) (tp : Tarpit Ip) : Prop :=
  tp.max_burst = 0xffffffff ∧ tp.allhost_burst.toNat = level ∧ tp.allhost_time = 0

/-- The bucket of one host is never above the largest capacity, and at one time nothing leaks: each
call adds one, the last before the wrap is pitted. -/
theorem letThrough_atLevel {level : ℕ} (h : tp.AtLevel level) (ip : Ip) :
    (level + 1 = 0xffffffff → (tp.letThrough (ip, 0)).1 = false ∧ (tp.letThrough (ip, 0)).2.AtLevel (level + 1)) ∧
      (level + 1 ≠ 0xffffffff → (tp.letThrough (ip, 0)).1 = true ∧
        (tp.letThrough (ip, 0)).2.AtLevel ((level + 1) % 2 ^ 32)) := by
  obtain ⟨hmax, hlevel, htime⟩ := h
  have hzero : elapsed tp.allhost_time 0 = 0 := by
    simp [elapsed]
  have hsucc : (leak tp.allhost_burst (elapsed tp.allhost_time 0) + 1).toNat = (level + 1) % 2 ^ 32 := by
    rw [hzero, UInt32.toNat_add, toNat_leak, hlevel, UInt32.toNat_one, Nat.sub_zero]
  have hlt : level < 2 ^ 32 := hlevel ▸ tp.allhost_burst.toNat_lt
  have hfull : tp.max_burst ≤ leak tp.allhost_burst (elapsed tp.allhost_time 0) + 1 ↔
      level + 1 = 0xffffffff := by
    rw [UInt32.le_iff_toNat_le, hsucc, hmax, toNat_max]
    omega
  have hcall : Outcome elapsed tp 0 _ _ := checkWith_outcome tp ip 0
  unfold letThrough check
  generalize (tp.checkWith elapsed ip 0).1 = pit at hcall ⊢
  generalize (tp.checkWith elapsed ip 0).2 = tp' at hcall ⊢
  cases hcall with
  | early hmax' hburst htime' hover =>
    rw [hmax, UInt32.lt_iff_toNat_lt, toNat_max] at hover
    have := (leak tp.samehost_burst (elapsed tp.samehost_time 0) + 1).toNat_lt
    omega
  | full hmax' hburst htime' hover =>
    refine ⟨fun heq => ⟨rfl, hmax'.trans hmax, ?_, htime'⟩, fun hne => absurd (hfull.1 hover) hne⟩
    rw [hburst, hmax, heq, toNat_max]
  | room hmax' hburst htime' hroom =>
    exact ⟨fun heq => absurd (hfull.2 heq) hroom,
      fun _ => ⟨rfl, hmax'.trans hmax, by rw [hburst, hsucc], htime'⟩⟩

/-- All calls until the level is next to full are let through. -/
theorem grantsIn_replicate (ip : Ip) (n : ℕ) {level : ℕ} (h : tp.AtLevel level)
    (hn : level + n < 0xffffffff) (rest : List (Ip × ℕ)) :
    ∃ tp' : Tarpit Ip, tp'.AtLevel (level + n) ∧
      Budget.grantsIn Prod.snd letThrough tp (List.replicate n (ip, 0) ++ rest) 0 0 =
        n + Budget.grantsIn Prod.snd letThrough tp' rest 0 0 := by
  induction n generalizing tp level with
  | zero => exact ⟨tp, h, by simp⟩
  | succ n ih =>
    obtain ⟨hgrant, hat⟩ := (letThrough_atLevel h ip).2 (by omega)
    rw [Nat.mod_eq_of_lt (by omega)] at hat
    obtain ⟨tp', hat', hcount⟩ := ih hat (by omega)
    refine ⟨tp', by rwa [Nat.add_assoc, Nat.add_comm 1 n] at hat', ?_⟩
    rw [List.replicate_succ, List.cons_append, Budget.grantsIn_cons, hcount, hgrant, if_pos (by simp)]
    omega

/-- With one call more than it takes to fill the bucket, at one time, one is pitted: the one that
brings the counter to the largest capacity. The next finds it wrapped to 0. -/
theorem grantsIn_wrap (ip : Ip) {n : ℕ} (hn : n + 1 = 0xffffffff) :
    Budget.grantsIn Prod.snd letThrough (new 0xffffffff) (List.replicate n (ip, 0) ++ [(ip, 0), (ip, 0)]) 0 0 =
      n + 1 := by
  have hstart : (new 0xffffffff : Tarpit Ip).AtLevel 0 := ⟨rfl, rfl, rfl⟩
  obtain ⟨tp, hat, hcount⟩ := grantsIn_replicate ip n hstart (by omega) [(ip, 0), (ip, 0)]
  rw [Nat.zero_add] at hat
  obtain ⟨hpit, hfull⟩ := (letThrough_atLevel hat ip).1 hn
  obtain ⟨hwrap, -⟩ := (letThrough_atLevel hfull ip).2 (by omega)
  rw [hcount, Budget.grantsIn_cons, hpit, Budget.grantsIn_cons, hwrap]
  simp [Budget.grantsIn, Budget.granted]

theorem not_bounded_wrap (ip : Ip) :
    ¬ ∀ calls : List (Ip × ℕ), calls.Pairwise (fun c c' => c.2 ≤ c'.2) → ∀ a b,
      Budget.grantsIn Prod.snd letThrough (new 0xffffffff) calls a b ≤
        (0xffffffff : UInt32).toNat - 1 + (b - a) / SECOND := by
  obtain ⟨n, hn⟩ : ∃ n, n + 1 = 0xffffffff := ⟨0xfffffffe, rfl⟩
  intro hbound
  have hsorted : (List.replicate n (ip, 0) ++ [(ip, 0), (ip, 0)]).Pairwise
      fun c c' : Ip × ℕ => c.2 ≤ c'.2 := by
    refine List.pairwise_of_forall_mem_list fun c hc c' _ => ?_
    have hzero : c.2 = 0 := by
      rcases List.mem_append.1 hc with hc | hc
      · rw [List.eq_of_mem_replicate hc]
      · simp only [List.mem_cons, List.not_mem_nil, or_false, or_self] at hc
        rw [hc]
    omega
  have hle := hbound _ hsorted 0 0
  rw [grantsIn_wrap ip hn, hn, toNat_max] at hle
  simp only [Nat.sub_self, Nat.zero_div] at hle
  omega

/-! ### Whole-second times -/

/-- The difference of the two times, each rounded down to whole seconds since the tarpit was made. -/
def wholeSeconds (last now : ℕ) : ℕ := now / SECOND - last / SECOND

def verdicts (drain : ℕ → ℕ → ℕ) : Tarpit Ip → List (Ip × ℕ) → List Bool
  | _, [] => []
  | tp, (addr, now) :: calls =>
    let (pit, tp) := tp.checkWith drain addr now
    pit :: verdicts drain tp calls

/-- Each bucket that the call updates leaks to the same level by both drains. -/
def SameLeak (tp : Tarpit Ip) (addr : Ip) (now : ℕ) : Prop :=
  (tp.prev_addr = some addr →
    leak tp.samehost_burst (elapsed tp.samehost_time now) =
      leak tp.samehost_burst (wholeSeconds tp.samehost_time now)) ∧
  (¬ (tp.prev_addr = some addr ∧
      tp.max_burst < leak tp.samehost_burst (elapsed tp.samehost_time now) + 1) →
    leak tp.allhost_burst (elapsed tp.allhost_time now) =
      leak tp.allhost_burst (wholeSeconds tp.allhost_time now))

def SameLeaks : Tarpit Ip → List (Ip × ℕ) → Prop
  | _, [] => True
  | tp, (addr, now) :: calls => tp.SameLeak addr now ∧ SameLeaks (tp.check addr now).2 calls

theorem SameLeak.check_eq (h : tp.SameLeak addr now) :
    tp.checkWith wholeSeconds addr now = tp.check addr now := by
  obtain ⟨hsame, hall⟩ := h
  unfold check checkWith
  by_cases hprev : tp.prev_addr = some addr
  · simp only [hprev, if_true, true_and, hsame hprev] at hall ⊢
    by_cases hpit : tp.max_burst < leak tp.samehost_burst (wholeSeconds tp.samehost_time now) + 1
    · rw [if_pos hpit, if_pos hpit]
    · rw [if_neg hpit, if_neg hpit, hall hpit]
  · simp only [hprev, if_false, false_and, not_false_iff, true_imp_iff] at hall ⊢
    simp only [hall]

end Tarpit

end Tincr.Net

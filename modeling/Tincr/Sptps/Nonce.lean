import Tincr.Sptps.Run

/-!
Nonces across the session and its shards. A sending tunnel is a session whose counter is shared: shards
hold copies of its cipher taken when a handshake completed (`TunnelHandles`), reserve numbers off the
counter through `tx_probe`, and seal with the copy; the session's own workers reserve through
`alloc_seqnos` and seal with whatever cipher the session has then.

Each number is counted from the key it is for. A refused reservation and a handshake record pass the
gate all the same, so the count can run past `2 ^ 32` and a wire number come back under the same key;
as long as no handshake record goes out there, all nonces of a key differ.
-/

set_option linter.dupNamespace false

namespace Tincr.Sptps

open EStateM M

variable {C : Crypto} {cfg : Config C} {cx cx' : Cx C}

/-- The sending half of a shard's `TunnelHandles`. -/
structure TunnelHandles where
  outcipher : SptpsCipher
  outKeyBase : UInt64
deriving DecidableEq, Repr

/-- `tx_probe`, once its routing gates have passed: the reservation is its one side effect. -/
def txProbe (h : TunnelHandles) (count : UInt32) : M C (Option UInt32) :=
  fetchSeqnos h.outKeyBase count

/-- A number off the shared counter that nothing has been sealed with yet: who may seal with it, and
the cipher that was in force when it was taken. On the wire it is the low 32 bits of `number`. -/
structure Reservation where
  byShard : Bool
  cipher : Option SptpsCipher
  number : UInt64
deriving DecidableEq, Repr

structure Tunnel (C : Crypto) where
  cx : Cx C
  handles : List TunnelHandles
  reserved : List Reservation

/-- The `n` numbers from the counter on, when the reservation was granted. -/
def reservations (byShard : Bool) (cipher : Option SptpsCipher) (first : UInt64) (n : UInt32) :
    Option UInt32 → List Reservation
  | none => []
  | some _ => (List.range n.toNat).map fun i => ⟨byShard, cipher, first + UInt64.ofNat i⟩

inductive Move (C : Crypto)
  | call (c : Call) (rng : C.Rng)
  | alloc (n : UInt32)
  | sealReserved (r : Reservation) (ty : UInt8) (body : Bytes) (headroom : ℕ)
  | publish
  | probe (h : TunnelHandles) (count : UInt32)
  | shardSeal (r : Reservation) (ty : UInt8) (body : Bytes)

/-- The calls a move makes on the session itself; reserving and sealing a reserved number are moves of
their own, since a number may be sealed once. -/
def Call.isWhole : Call → Bool
  | .allocSeqnos _ | .sealWithSeqno .. => false
  | _ => true

/-- The result of a call that did not panic. -/
def Returns (x : M C Unit) (cx cx' : Cx C) : Prop :=
  x.run cx = .ok () cx' ∨ ∃ e, x.run cx = .error (.err e) cx'

inductive TunnelStep (w : Tunnel C) : Move C → Tunnel C → Prop
  | call {c rng cx'} (hc : c.isWhole = true) (h : Returns c.exec (w.cx.withRng rng) cx') :
      TunnelStep w (.call c rng) { w with cx := cx' }
  | alloc {n base cx'} (hn : n.toNat ≤ 2 ^ 16) (h : (allocSeqnos n).run w.cx = .ok base cx') :
      TunnelStep w (.alloc n) { w with
        cx := cx'
        reserved := w.reserved ++
          reservations false w.cx.self.outcipher w.cx.self.outseqno n base }
  | sealReserved {r ty body headroom out cx'} (hr : r ∈ w.reserved) (hs : r.byShard = false)
      (h : (sealWithSeqno r.number.toUInt32 ty body headroom).run w.cx = .ok out cx') :
      TunnelStep w (.sealReserved r ty body headroom)
        { w with cx := cx', reserved := w.reserved.erase r }
  | publish {c} (hst : w.cx.self.state ≠ .confirm) (hc : w.cx.self.outcipher = some c) :
      TunnelStep w .publish { w with handles := w.handles ++ [⟨c, w.cx.self.outKeyBase⟩] }
  | probe {h n base cx'} (hh : h ∈ w.handles) (hn : n.toNat ≤ 2 ^ 16)
      (hrun : (txProbe h n).run w.cx = .ok base cx') :
      TunnelStep w (.probe h n) { w with
        cx := cx'
        reserved := w.reserved ++
          reservations true (some h.outcipher) w.cx.self.outseqno n base }
  | shardSeal {r ty body c} (hr : r ∈ w.reserved) (hs : r.byShard = true) (hc : r.cipher = some c) :
      TunnelStep w (.shardSeal r ty body) { w with
        cx := { w.cx with log := w.cx.log ++ [.sealed (some c) r.number.toUInt32 ty body] }
        reserved := w.reserved.erase r }

inductive TunnelRun (cfg : Config C) : Tunnel C → Prop
  | start {rng cx} (h : startWith cfg rng = .ok () cx) : TunnelRun cfg ⟨cx, [], []⟩
  | step {w w' m} (hrun : TunnelRun cfg w) (h : TunnelStep w m w') : TunnelRun cfg w'

def installedKeys (log : List Event) : List Bytes :=
  log.filterMap fun
    | .installed c => some c.key
    | _ => none

/-- Key and wire number of every record sealed under a cipher, by the session or a shard. -/
def sealedNonces (log : List Event) : List (Bytes × UInt32) :=
  log.filterMap fun
    | .sealed (some c) seqno _ _ => some (c.key, seqno)
    | _ => none

/-- The calls that can seal a handshake record. -/
def Call.mayHandshake : Call → Bool
  | .receive _ | .forceKex => true
  | _ => false

/-- What a move needs of the state before it: the 64-bit counter does not wrap, a call that may send
handshake records leaves room for two of them below the `2 ^ 32`-th number of the key, and a number
taken by `alloc_seqnos` is sealed under the cipher it was taken for. -/
def Safe (w : Tunnel C) : Move C → Prop
  | .call c _ => w.cx.self.outseqno.toNat + 3 < 2 ^ 64 ∧
      (c.mayHandshake = true → w.cx.self.outcipher.isSome →
        w.cx.self.sealedCount.toNat + 2 ≤ 2 ^ 32)
  | .alloc n | .probe _ n => w.cx.self.outseqno.toNat + n.toNat < 2 ^ 64
  | .sealReserved r .. => r.cipher = w.cx.self.outcipher
  | .publish | .shardSeal .. => True

inductive SafeRun (cfg : Config C) : Tunnel C → Prop
  | start {rng cx} (h : startWith cfg rng = .ok () cx) : SafeRun cfg ⟨cx, [], []⟩
  | step {w w' m} (hrun : SafeRun cfg w) (hsafe : Safe w m) (h : TunnelStep w m w') : SafeRun cfg w'

/-- The number lies in the `2 ^ 32` numbers from where the cipher was installed. -/
def InEpoch (epochs : List (SptpsCipher × ℕ)) (c : SptpsCipher) (x : ℕ) : Prop :=
  ∃ b, (c, b) ∈ epochs ∧ b ≤ x ∧ x < b + 2 ^ 32

/-- The full numbers behind the log: `used` are those sealed with, in order, and `epochs` the ciphers
installed with the counter at that moment. No number is taken twice, and each is within its epoch. -/
structure Ledger (handles : List TunnelHandles) (reserved : List Reservation)
    (used epochs : List (SptpsCipher × ℕ)) (cx : Cx C) : Prop where
  seals : sealedNonces cx.log = used.map fun u => (u.1.key, UInt32.ofNat u.2)
  keys : installedKeys cx.log = epochs.map (·.1.key)
  distinct : (used.map (·.2) ++ reserved.map (·.number.toNat)).Nodup
  below : ∀ x ∈ used.map (·.2) ++ reserved.map (·.number.toNat), x < cx.self.outseqno.toNat
  usedIn : ∀ u ∈ used, InEpoch epochs u.1 u.2
  reservedIn : ∀ r ∈ reserved, ∀ c, r.cipher = some c → InEpoch epochs c r.number.toNat
  current : ∀ c, cx.self.outcipher = some c → (c, cx.self.outKeyBase.toNat) ∈ epochs
  base_le : cx.self.outKeyBase.toNat ≤ cx.self.outseqno.toNat
  handlesIn : ∀ h ∈ handles, (h.outcipher, h.outKeyBase.toNat) ∈ epochs
  epochs_le : ∀ e ∈ epochs, e.2 ≤ cx.self.outseqno.toNat

def Tidy (handles : List TunnelHandles) (reserved : List Reservation) (cx : Cx C) : Prop :=
  ∃ used epochs, Ledger handles reserved used epochs cx

section Tidy

variable {handles : List TunnelHandles} {reserved : List Reservation}
  {used epochs : List (SptpsCipher × ℕ)}

@[simp] theorem sealedNonces_append (l es : List Event) :
    sealedNonces (l ++ es) = sealedNonces l ++ sealedNonces es := List.filterMap_append

@[simp] theorem installedKeys_append (l es : List Event) :
    installedKeys (l ++ es) = installedKeys l ++ installedKeys es := List.filterMap_append

def SameSending (s s' : Sptps C) : Prop :=
  s'.outseqno = s.outseqno ∧ s'.outcipher = s.outcipher ∧ s'.outKeyBase = s.outKeyBase

theorem Tidy.quiet {es : List Event} (h : Tidy handles reserved cx) (hsame : SameSending cx.self cx'.self)
    (hlog : cx'.log = cx.log ++ es) (hs : sealedNonces es = []) (hk : installedKeys es = []) :
    Tidy handles reserved cx' := by
  obtain ⟨used, epochs, h⟩ := h
  obtain ⟨hseq, hout, hbase⟩ := hsame
  exact ⟨used, epochs, by simpa [hlog, hs] using h.seals, by simpa [hlog, hk] using h.keys, h.distinct,
    by simpa [hseq] using h.below, h.usedIn, h.reservedIn, by simpa [hout, hbase] using h.current,
    by simpa [hseq, hbase] using h.base_le, h.handlesIn, by simpa [hseq] using h.epochs_le⟩

theorem Tidy.same (h : Tidy handles reserved cx) (hsame : SameSending cx.self cx'.self)
    (hlog : cx'.log = cx.log) : Tidy handles reserved cx' :=
  h.quiet hsame (hlog.trans (List.append_nil _).symm) rfl rfl

theorem toNat_add_one {x : UInt64} (h : x.toNat + 1 < 2 ^ 64) : (x + 1).toNat = x.toNat + 1 := by
  rw [UInt64.toNat_add, UInt64.toNat_one, Nat.mod_eq_of_lt h]

/-- One more record, under the current cipher and within its epoch. -/
theorem Tidy.next {es : List Event} (h : Tidy handles reserved cx)
    (hwrap : cx.self.outseqno.toNat + 1 < 2 ^ 64)
    (hroom : cx.self.outcipher.isSome → cx.self.outseqno.toNat + 1 ≤ cx.self.outKeyBase.toNat + 2 ^ 32)
    (hseq : cx'.self.outseqno = cx.self.outseqno + 1) (hout : cx'.self.outcipher = cx.self.outcipher)
    (hbase : cx'.self.outKeyBase = cx.self.outKeyBase) (hlog : cx'.log = cx.log ++ es)
    (hs : sealedNonces es = cx.self.outcipher.toList.map fun c => (c.key, cx.self.outseqno.toUInt32))
    (hk : installedKeys es = []) : Tidy handles reserved cx' := by
  obtain ⟨used, epochs, h⟩ := h
  have hnext : cx'.self.outseqno.toNat = cx.self.outseqno.toNat + 1 := hseq ▸ toNat_add_one hwrap
  have hkeys : installedKeys cx'.log = epochs.map (·.1.key) := by simpa [hlog, hk] using h.keys
  have hcurrent : ∀ c, cx'.self.outcipher = some c → (c, cx'.self.outKeyBase.toNat) ∈ epochs := by
    simpa [hout, hbase] using h.current
  have hle : cx'.self.outKeyBase.toNat ≤ cx'.self.outseqno.toNat := by
    rw [hnext, hbase]
    exact Nat.le_succ_of_le h.base_le
  have hepochs : ∀ e ∈ epochs, e.2 ≤ cx'.self.outseqno.toNat := fun e he =>
    hnext ▸ Nat.le_succ_of_le (h.epochs_le e he)
  have hbelow : ∀ x ∈ used.map (·.2) ++ reserved.map (·.number.toNat), x < cx'.self.outseqno.toNat :=
    fun x hx => hnext ▸ Nat.lt_succ_of_lt (h.below x hx)
  cases hc : cx.self.outcipher with
  | none =>
    refine ⟨used, epochs, ?_, hkeys, h.distinct, hbelow, h.usedIn, h.reservedIn, hcurrent, hle,
      h.handlesIn, hepochs⟩
    rw [hlog, sealedNonces_append, hs, hc, h.seals]
    simp
  | some c =>
    refine ⟨used ++ [(c, cx.self.outseqno.toNat)], epochs, ?_, hkeys, ?_, ?_, ?_, h.reservedIn, hcurrent,
      hle, h.handlesIn, hepochs⟩
    · rw [hlog, sealedNonces_append, hs, hc, h.seals]
      simp
    · rw [List.map_append, List.append_assoc, List.map_cons, List.map_nil, List.singleton_append,
        List.nodup_middle, List.nodup_cons]
      exact ⟨fun hmem => lt_irrefl _ (h.below _ hmem), h.distinct⟩
    · intro x hx
      rw [List.map_append, List.append_assoc, List.map_cons, List.map_nil, List.singleton_append,
        List.mem_append, List.mem_cons] at hx
      obtain hx | rfl | hx := hx
      · exact hbelow x (List.mem_append_left _ hx)
      · exact hnext ▸ Nat.lt_succ_self _
      · exact hbelow x (List.mem_append_right _ hx)
    · intro u hu
      obtain hu | rfl := by simpa [or_comm] using List.mem_append.mp hu
      · exact h.usedIn u hu
      · exact ⟨_, h.current c hc, h.base_le, hroom (by simp [hc])⟩

theorem Tidy.emit (h : Tidy handles reserved cx) (hwrap : cx.self.outseqno.toNat + 1 < 2 ^ 64)
    (hroom : cx.self.outcipher.isSome → cx.self.outseqno.toNat + 1 ≤ cx.self.outKeyBase.toNat + 2 ^ 32)
    (ty : UInt8) (body : Bytes) : Tidy handles reserved (cx.emit ty body) := by
  refine h.next hwrap hroom rfl rfl rfl rfl ?_ rfl
  cases hc : cx.self.outcipher <;> simp [sealedNonces]

theorem Tidy.emitAll (bodies : List Bytes) : ∀ {cx : Cx C}, Tidy handles reserved cx →
    cx.self.outseqno.toNat + bodies.length < 2 ^ 64 →
    (cx.self.outcipher.isSome →
      cx.self.outseqno.toNat + bodies.length ≤ cx.self.outKeyBase.toNat + 2 ^ 32) →
    Tidy handles reserved (cx.emitAll bodies) := by
  induction bodies with
  | nil => exact fun h _ _ => h
  | cons body rest ih =>
    intro cx h hwrap hroom
    rw [List.length_cons] at hwrap hroom
    have hnext : (cx.emit REC_HANDSHAKE body).self.outseqno.toNat = cx.self.outseqno.toNat + 1 :=
      toNat_add_one (by omega)
    have hstep : Tidy handles reserved (cx.emit REC_HANDSHAKE body) :=
      h.emit (by omega) (fun ho => by have := hroom ho; omega) REC_HANDSHAKE body
    have hwrap' : (cx.emit REC_HANDSHAKE body).self.outseqno.toNat + rest.length < 2 ^ 64 := by omega
    refine ih hstep hwrap' fun ho => ?_
    have := hroom ho
    change (cx.emit REC_HANDSHAKE body).self.outseqno.toNat + _ ≤ cx.self.outKeyBase.toNat + 2 ^ 32
    omega

/-- A new cipher starts an epoch of its own. -/
theorem Tidy.setOut (h : Tidy handles reserved cx) (k : Bytes) : Tidy handles reserved (cx.setOut k) := by
  obtain ⟨used, epochs, h⟩ := h
  have hmono : ∀ c x, InEpoch epochs c x →
      InEpoch (epochs ++ [(cx.self.outCipherOf k, cx.self.outseqno.toNat)]) c x :=
    fun c x ⟨b, hb, hx⟩ => ⟨b, List.mem_append_left _ hb, hx⟩
  refine ⟨used, epochs ++ [(cx.self.outCipherOf k, cx.self.outseqno.toNat)],
    by simpa [Cx.setOut, sealedNonces] using h.seals, ?_, h.distinct, h.below,
    fun u hu => hmono _ _ (h.usedIn u hu), fun r hr c hc => hmono _ _ (h.reservedIn r hr c hc), ?_, le_rfl,
    fun th hth => List.mem_append_left _ (h.handlesIn th hth), ?_⟩
  · simp only [Cx.setOut, installedKeys_append, h.keys, List.map_append]
    rfl
  · intro c hc
    obtain rfl : cx.self.outCipherOf k = c := Option.some.inj hc
    exact List.mem_append_right _ (List.mem_singleton_self _)
  · intro e he
    obtain he | rfl := by simpa using List.mem_append.mp he
    · exact h.epochs_le e he
    · exact le_rfl

/-- The numbers a call may still take: two under the current cipher, and one under the next. -/
structure Room (cx : Cx C) : Prop where
  wrap : cx.self.outseqno.toNat + 3 < 2 ^ 64
  cipher : cx.self.outcipher.isSome → cx.self.outseqno.toNat + 2 ≤ cx.self.outKeyBase.toNat + 2 ^ 32

theorem emitAll_toNat (cx : Cx C) (bodies : List Bytes)
    (h : cx.self.outseqno.toNat + bodies.length < 2 ^ 64) :
    (cx.emitAll bodies).self.outseqno.toNat = cx.self.outseqno.toNat + bodies.length := by
  rw [emitAll_self, UInt64.toNat_add, UInt64.toNat_ofNat']
  omega

theorem Tidy.opens {cx1 : Cx C} (h : Tidy handles reserved cx) (hroom : Room cx) (hopen : Opens cx cx1) :
    Tidy handles reserved cx1 ∧ cx1.self.outseqno.toNat ≤ cx.self.outseqno.toNat + 1 ∧
      cx1.self.outcipher = cx.self.outcipher ∧ cx1.self.outKeyBase = cx.self.outKeyBase := by
  obtain ⟨hwrap, hcap⟩ := hroom
  cases hopen with
  | kex => exact ⟨h, Nat.le_succ _, rfl, rfl⟩
  | secondary =>
    have hemit := h.emit (by omega) (fun ho => by have := hcap ho; omega) REC_HANDSHAKE
      (drawKex cx.self.kex cx.rng).1.body
    exact ⟨hemit.same ⟨rfl, rfl, rfl⟩ rfl, (toNat_add_one (by omega)).le, rfl, rfl⟩

/-- SIG and ACK under the old cipher, and the switch to the new one. -/
theorem Tidy.signed {k : Bytes} {cx1 : Cx C} (h : Tidy handles reserved cx) (hroom : Room cx)
    (hsig : Signed cx k cx1) : Tidy handles reserved cx1 ∧
      cx1.self.outseqno.toNat ≤ cx.self.outseqno.toNat + 2 ∧ cx1.self.outKeyBase = cx1.self.outseqno := by
  obtain ⟨hwrap, hcap⟩ := hroom
  obtain @⟨mk, hk, e, m, sigs, acks, -, -, -, -, hs, ha⟩ := hsig
  let cx2 := cx.agreed (cx.self.peerTranscript mk hk) m (some k)
  have h2 : Tidy handles reserved cx2 := h.quiet ⟨rfl, rfl, rfl⟩ rfl rfl rfl
  have hN2 : cx2.self.outseqno.toNat = cx.self.outseqno.toNat := rfl
  have hN3 := emitAll_toNat cx2 sigs (by omega)
  have h3 : Tidy handles reserved (cx2.emitAll sigs) :=
    h2.emitAll sigs (by omega) fun ho => by
      have := hcap ho
      change cx.self.outseqno.toNat + sigs.length ≤ cx.self.outKeyBase.toNat + 2 ^ 32
      omega
  have hN4 : ((cx2.emitAll sigs).dropKex.emitAll acks).self.outseqno.toNat =
      cx.self.outseqno.toNat + sigs.length + acks.length :=
    (emitAll_toNat (cx2.emitAll sigs).dropKex acks (by
      change (cx2.emitAll sigs).self.outseqno.toNat + _ < _
      omega)).trans (congrArg (· + acks.length) hN3)
  have h4 : Tidy handles reserved ((cx2.emitAll sigs).dropKex.emitAll acks) := by
    have hdrop : Tidy handles reserved (cx2.emitAll sigs).dropKex := h3.same ⟨rfl, rfl, rfl⟩ rfl
    refine hdrop.emitAll acks ?_ fun ho => ?_
    · change (cx2.emitAll sigs).self.outseqno.toNat + _ < _
      omega
    · have hout : cx.self.outcipher.isSome := by simpa [Cx.dropKex, cx2, Cx.agreed] using ho
      have hbase : (cx2.emitAll sigs).dropKex.self.outKeyBase = cx.self.outKeyBase := by
        simp [Cx.dropKex, cx2, Cx.agreed]
      have := hcap hout
      rw [hbase]
      change (cx2.emitAll sigs).self.outseqno.toNat + _ ≤ _
      omega
  refine ⟨h4.setOut k, ?_, rfl⟩
  change ((cx2.emitAll sigs).dropKex.emitAll acks).self.outseqno.toNat ≤ _
  omega

theorem tidy_handled {body : Bytes} (h : Tidy handles reserved cx) (hroom : Room cx)
    (hd : Handled cx body cx') : Tidy handles reserved cx' := by
  have hwrap := hroom.wrap
  cases hd with
  | rejected => exact h
  | kexRefused hopen => exact (h.opens hroom hopen).1.same ⟨rfl, rfl, rfl⟩ rfl
  | @kexTaken cx1 e r sigs hopen hbody hs =>
    obtain ⟨h1, hN, hout, hbase⟩ := h.opens hroom hopen
    have h2 : Tidy handles reserved (cx1.kexStored body e r) := h1.same ⟨rfl, rfl, rfl⟩ rfl
    have h3 : Tidy handles reserved ((cx1.kexStored body e r).emitAll sigs) := by
      refine h2.emitAll sigs ?_ fun ho => ?_
      · change cx1.self.outseqno.toNat + _ < _
        omega
      · change cx1.self.outseqno.toNat + _ ≤ cx1.self.outKeyBase.toNat + _
        have := hroom.cipher (hout ▸ ho)
        rw [hbase]
        omega
    exact h3.same ⟨rfl, rfl, rfl⟩ rfl
  | sigRefused => exact h.quiet ⟨rfl, rfl, rfl⟩ rfl rfl rfl
  | sigRekey hsig => exact (h.signed hroom hsig).1.same ⟨rfl, rfl, rfl⟩ rfl
  | sigFirst hsig => exact (h.signed hroom hsig).1.quiet ⟨rfl, rfl, rfl⟩ rfl rfl rfl
  | @sigFirstHybrid k cx1 hsig =>
    obtain ⟨h1, hN, hbase⟩ := h.signed hroom hsig
    have h2 : Tidy handles reserved (cx1.setIn k) := h1.same ⟨rfl, rfl, rfl⟩ rfl
    have h3 : Tidy handles reserved ((cx1.setIn k).emitAll [[]]) := by
      refine h2.emitAll [[]] ?_ fun _ => ?_
      · change cx1.self.outseqno.toNat + 1 < _
        omega
      · change cx1.self.outseqno.toNat + 1 ≤ cx1.self.outKeyBase.toNat + _
        rw [hbase]
        omega
    exact h3.same ⟨rfl, rfl, rfl⟩ rfl
  | acked | confirmed => exact h.quiet ⟨rfl, rfl, rfl⟩ rfl rfl rfl

theorem tidy_received (h : Tidy handles reserved cx) (hroom : Room cx) (hr : Received cx cx') :
    Tidy handles reserved cx' := by
  cases hr with
  | framing => exact h.same ⟨rfl, rfl, rfl⟩ rfl
  | @opened st w n seqno ty body _ hd =>
    have ho : Tidy handles reserved ((cx.framed st w n).opening seqno ty body) :=
      h.quiet ⟨rfl, rfl, rfl⟩ rfl rfl rfl
    cases hd with
    | refused => exact ho
    | record => exact ho.quiet ⟨rfl, rfl, rfl⟩ rfl rfl rfl
    | handshake _ hh => exact tidy_handled ho ⟨hroom.wrap, hroom.cipher⟩ hh

theorem toNat_add_ofNat {x : UInt64} {i : ℕ} (h : x.toNat + i < 2 ^ 64) :
    (x + UInt64.ofNat i).toNat = x.toNat + i := by
  rw [UInt64.toNat_add, UInt64.toNat_ofNat']
  omega

theorem mem_reservations {byShard : Bool} {cipher : Option SptpsCipher} {first : UInt64} {n : UInt32}
    {base : Option UInt32} (hwrap : first.toNat + n.toNat < 2 ^ 64) {r : Reservation}
    (hr : r ∈ reservations byShard cipher first n base) :
    base.isSome ∧ r.cipher = cipher ∧ first.toNat ≤ r.number.toNat ∧
      r.number.toNat < first.toNat + n.toNat := by
  cases base with
  | none => simp [reservations] at hr
  | some b =>
    obtain ⟨i, hi, rfl⟩ := List.mem_map.mp hr
    have hin := List.mem_range.mp hi
    have hnum := toNat_add_ofNat (x := first) (i := i) (by omega)
    refine ⟨rfl, rfl, ?_, ?_⟩
    · exact hnum ▸ Nat.le_add_right _ _
    · exact hnum ▸ Nat.add_lt_add_left hin _

theorem reservations_nodup {byShard : Bool} {cipher : Option SptpsCipher} {first : UInt64} {n : UInt32}
    {base : Option UInt32} (hwrap : first.toNat + n.toNat < 2 ^ 64) :
    ((reservations byShard cipher first n base).map (·.number.toNat)).Nodup := by
  cases base with
  | none => simp [reservations]
  | some b =>
    rw [reservations, List.map_map]
    refine List.Nodup.map_on (fun i hi j hj hij => ?_) List.nodup_range
    have hi := List.mem_range.mp hi
    have hj := List.mem_range.mp hj
    rw [Function.comp, Function.comp, toNat_add_ofNat (by omega), toNat_add_ofNat (by omega)] at hij
    omega

/-- Numbers taken off the counter and reserved within their epoch, or burned. -/
theorem Tidy.reserve (byShard : Bool) (cipher : Option SptpsCipher) {n : UInt32} (base : Option UInt32)
    (h : Tidy handles reserved cx) (hwrap : cx.self.outseqno.toNat + n.toNat < 2 ^ 64)
    (hin : ∀ used epochs, Ledger handles reserved used epochs cx → base.isSome →
      ∀ c, cipher = some c → ∃ b, (c, b) ∈ epochs ∧ cx.self.outseqno.toNat + n.toNat ≤ b + 2 ^ 32) :
    Tidy handles (reserved ++ reservations byShard cipher cx.self.outseqno n base)
      (cx.bump n.toUInt64) := by
  obtain ⟨used, epochs, h⟩ := h
  have hnext : (cx.bump n.toUInt64).self.outseqno.toNat = cx.self.outseqno.toNat + n.toNat := by
    change (cx.self.outseqno + n.toUInt64).toNat = _
    rw [UInt64.toNat_add, UInt32.toNat_toUInt64, Nat.mod_eq_of_lt hwrap]
  have hnew : ∀ r ∈ reservations byShard cipher cx.self.outseqno n base, _ :=
    fun r hr => mem_reservations hwrap hr
  refine ⟨used, epochs, h.seals, h.keys, ?_, ?_, h.usedIn, ?_, h.current, ?_, h.handlesIn, ?_⟩
  · rw [List.map_append, ← List.append_assoc]
    refine List.Nodup.append h.distinct (reservations_nodup hwrap) ?_
    intro x hx hx'
    obtain ⟨r, hr, rfl⟩ := List.mem_map.mp hx'
    exact absurd (h.below _ hx) (not_lt.mpr (hnew r hr).2.2.1)
  · intro x hx
    rw [List.map_append, ← List.append_assoc, List.mem_append] at hx
    rw [hnext]
    obtain hx | hx := hx
    · have := h.below x hx
      omega
    · obtain ⟨r, hr, rfl⟩ := List.mem_map.mp hx
      exact (hnew r hr).2.2.2
  · intro r hr c hc
    obtain hr | hr := List.mem_append.mp hr
    · exact h.reservedIn r hr c hc
    · obtain ⟨hsome, hcip, hlo, hhi⟩ := hnew r hr
      obtain ⟨b, hb, hcap⟩ := hin used epochs h hsome c (hcip ▸ hc)
      exact ⟨b, hb, (h.epochs_le _ hb).trans hlo, by omega⟩
  · rw [hnext]
    exact h.base_le.trans (Nat.le_add_right _ _)
  · intro e he
    rw [hnext]
    exact (h.epochs_le e he).trans (Nat.le_add_right _ _)

theorem Tidy.burn {n : UInt32} (h : Tidy handles reserved cx)
    (hwrap : cx.self.outseqno.toNat + n.toNat < 2 ^ 64) :
    Tidy handles reserved (cx.bump n.toUInt64) := by
  have hnone := h.reserve true none none hwrap fun _ _ _ hs => by simp at hs
  simpa [reservations] using hnone

/-- The count of the current cipher, as the gates read it. -/
theorem sealedCount_toNat {s : Sptps C} (h : s.outKeyBase.toNat ≤ s.outseqno.toNat) :
    s.sealedCount.toNat = s.outseqno.toNat - s.outKeyBase.toNat := by
  rw [Sptps.sealedCount, UInt64.toNat_sub_of_le _ _ (UInt64.le_iff_toNat_le.mpr h)]

theorem Tidy.base_le (h : Tidy handles reserved cx) :
    cx.self.outKeyBase.toNat ≤ cx.self.outseqno.toNat :=
  h.elim fun _ h => h.elim fun _ h => h.base_le

theorem tidy_sendRecord (h : Tidy handles reserved cx) (hwrap : cx.self.outseqno.toNat + 3 < 2 ^ 64)
    (ty : UInt8) (body : Bytes) :
    Ends (sendRecord ty body) cx (fun _ => Tidy handles reserved) (Tidy handles reserved) := by
  simp only [sendRecord, ends_bind, ends_self, ends_ite, ends_fail, ends_freshOut]
  refine ⟨fun _ => h, fun hgate => ⟨fun _ => h, fun _ => sendRecordPriv_ends _ _ _ ?_⟩⟩
  have hclear : Tidy handles reserved { cx with out := [] } := h.same ⟨rfl, rfl, rfl⟩ rfl
  refine hclear.emit (by change cx.self.outseqno.toNat + 1 < _; omega) (fun _ => ?_) ty body
  have hlimit : cx.self.sealedCount.toNat < SEAL_KEY_LIMIT := by
    simp only [not_or, Sptps.needsRekey, decide_eq_true_eq, not_le] at hgate
    exact hgate.2.2
  rw [sealedCount_toNat h.base_le, SEAL_KEY_LIMIT] at hlimit
  change cx.self.outseqno.toNat + 1 ≤ cx.self.outKeyBase.toNat + 2 ^ 32
  omega

theorem tidy_sealDataInto (h : Tidy handles reserved cx) (hwrap : cx.self.outseqno.toNat + 3 < 2 ^ 64)
    (ty : UInt8) (body : Bytes) (headroom : ℕ) :
    Ends (sealDataInto ty body headroom) cx (fun _ => Tidy handles reserved)
      (Tidy handles reserved) := by
  simp only [sealDataInto, ends_bind, ends_self, ends_ite, ends_fail]
  refine ⟨fun _ => h, fun _ => ⟨fun _ => h, fun _ => ?_⟩⟩
  refine (ends_of_ok (allocSeqnos_apply cx 1)).mpr ?_
  have hburn : Tidy handles reserved (cx.bump 1) := h.burn (n := 1) (by simp; omega)
  split_ifs with hgate
  · simp only [ends_okOr]
    exact ⟨fun _ hn => by simp at hn, fun _ => hburn⟩
  · simp only [ends_okOr]
    refine ⟨fun seqno hseqno => ?_, fun _ => hburn⟩
    obtain rfl := Option.some.inj hseqno
    refine sealWithSeqno_ends _ _ ty body headroom hburn fun _ _ hready => ?_
    rw [not_le, UInt64.toNat_sub_of_le _ _ (UInt64.le_iff_toNat_le.mpr h.base_le), SEAL_KEY_LIMIT] at hgate
    refine h.next (by omega) (fun _ => by omega) rfl rfl rfl rfl ?_ rfl
    cases hc : cx.self.outcipher <;> simp [sealedNonces, Cx.bump, hc]

theorem tidy_exec {c : Call} (hc : c.isWhole = true) (h : Tidy handles reserved cx)
    (hwrap : cx.self.outseqno.toNat + 3 < 2 ^ 64)
    (hroom : c.mayHandshake = true → cx.self.outcipher.isSome → cx.self.sealedCount.toNat + 2 ≤ 2 ^ 32) :
    Ends c.exec cx (fun _ => Tidy handles reserved) (Tidy handles reserved) := by
  have hroom' : c.mayHandshake = true → Room cx := fun hm => ⟨hwrap, fun ho => by
    have hcount := hroom hm ho
    rw [sealedCount_toNat h.base_le] at hcount
    have := h.base_le
    omega⟩
  cases c with
  | receive data =>
    have hclear : Tidy handles reserved cx.clearOut := h.same ⟨rfl, rfl, rfl⟩ rfl
    have hroomc : Room cx.clearOut := ⟨(hroom' rfl).wrap, (hroom' rfl).cipher⟩
    exact forget_ends ((receive_received cx data).mono (fun _ _ => tidy_received hclear hroomc)
      fun _ => tidy_received hclear hroomc)
  | sendRecord ty body => exact tidy_sendRecord h hwrap ty body
  | sealDataInto ty body headroom => exact forget_ends (tidy_sealDataInto h hwrap ty body headroom)
  | sealWithSeqno | allocSeqnos => simp [Call.isWhole] at hc
  | openDataInto data out headroom =>
    exact okOr_ends (openDataInto_ends cx data out headroom (fun _ _ => h)
      fun _ _ _ _ _ _ _ _ => h.quiet ⟨rfl, rfl, rfl⟩ rfl rfl rfl)
  | openWithSeqno data out headroom =>
    exact okOr_ends (openWithSeqno_ends cx data out headroom (fun _ _ => h)
      fun _ _ _ _ _ _ _ => h.quiet ⟨rfl, rfl, rfl⟩ rfl rfl rfl)
  | forceKex =>
    obtain ⟨hwrap, hcap⟩ := hroom' rfl
    have hforce : Tidy handles reserved (cx.setState .kex).clearOut := h.same ⟨rfl, rfl, rfl⟩ rfl
    refine forceKex_ends cx h (fun _ _ => hforce) fun _ _ _ => ?_
    refine (hforce.emit ?_ (fun ho => ?_) REC_HANDSHAKE _).same ⟨rfl, rfl, rfl⟩ rfl
    · change cx.self.outseqno.toNat + 1 < _
      omega
    · have := hcap ho
      change cx.self.outseqno.toNat + 1 ≤ cx.self.outKeyBase.toNat + _
      omega
  | replayCheck seqno =>
    simp only [Call.exec, ends_bind, ends_replayCheck]
    unfold okOr
    split <;> exact h.same ⟨rfl, rfl, rfl⟩ rfl

theorem Tidy.use {r : Reservation} {c : SptpsCipher} {es : List Event} (h : Tidy handles reserved cx)
    (hr : r ∈ reserved) (hc : r.cipher = some c) (hsame : SameSending cx.self cx'.self)
    (hlog : cx'.log = cx.log ++ es) (hs : sealedNonces es = [(c.key, r.number.toUInt32)])
    (hk : installedKeys es = []) : Tidy handles (reserved.erase r) cx' := by
  obtain ⟨used, epochs, h⟩ := h
  obtain ⟨hseq, hout, hbase⟩ := hsame
  have hperm : ((used ++ [(c, r.number.toNat)]).map (·.2) ++ (reserved.erase r).map (·.number.toNat)).Perm
      (used.map (·.2) ++ reserved.map (·.number.toNat)) := by
    rw [List.map_append, List.append_assoc, List.map_cons, List.map_nil, List.singleton_append]
    exact ((List.perm_cons_erase hr).map (·.number.toNat)).symm.append_left _
  refine ⟨used ++ [(c, r.number.toNat)], epochs, ?_, by simpa [hlog, hk] using h.keys,
    hperm.nodup_iff.mpr h.distinct, ?_, ?_, fun r' hr' => h.reservedIn r' (List.mem_of_mem_erase hr'),
    by simpa [hout, hbase] using h.current, by simpa [hseq, hbase] using h.base_le, h.handlesIn,
    by simpa [hseq] using h.epochs_le⟩
  · rw [hlog, sealedNonces_append, hs, h.seals]
    simp
  · intro x hx
    rw [hseq]
    exact h.below x (hperm.mem_iff.mp hx)
  · intro u hu
    obtain hu | rfl := by simpa [or_comm] using List.mem_append.mp hu
    · exact h.usedIn u hu
    · exact h.reservedIn r hr c hc

end Tidy

theorem tidy_start {rng : C.Rng} (h : startWith cfg rng = .ok () cx) : Tidy [] [] cx := by
  obtain rfl : Cx.kexSent ⟨.fresh cfg, rng, [], []⟩ = cx := by
    simpa using (startWith_apply cfg rng).symm.trans h
  have hfresh : Tidy [] [] (⟨.fresh cfg, rng, [], []⟩ : Cx C) :=
    ⟨[], [], rfl, rfl, by simp, by simp, by simp, by simp, by simp [Sptps.fresh], le_rfl, by simp, by simp⟩
  exact (hfresh.emit (by simp [Sptps.fresh]) (by simp [Sptps.fresh]) REC_HANDSHAKE _).same
    ⟨rfl, rfl, rfl⟩ rfl

theorem granted_room {prev keyBase : UInt64} {n : UInt32} (hn : n.toNat ≤ 2 ^ 16)
    (hle : keyBase.toNat ≤ prev.toNat)
    (hsome : (if SEAL_KEY_LIMIT ≤ (prev - keyBase).toNat then none else some prev.toUInt32).isSome) :
    prev.toNat + n.toNat ≤ keyBase.toNat + 2 ^ 32 := by
  split_ifs at hsome with hgate
  · simp at hsome
  · rw [not_le, UInt64.toNat_sub_of_le _ _ (UInt64.le_iff_toNat_le.mpr hle), SEAL_KEY_LIMIT] at hgate
    omega

theorem tidy_step {w w' : Tunnel C} {m : Move C} (h : Tidy w.handles w.reserved w.cx) (hsafe : Safe w m)
    (hstep : TunnelStep w m w') : Tidy w'.handles w'.reserved w'.cx := by
  cases hstep with
  | @call c rng cx' hc hret =>
    have hrng : Tidy w.handles w.reserved (w.cx.withRng rng) := h.same ⟨rfl, rfl, rfl⟩ rfl
    have hends := tidy_exec hc hrng hsafe.1 hsafe.2
    obtain hok | ⟨e, herr⟩ := hret
    · exact (ends_of_ok hok).mp hends
    · exact (ends_of_err herr).mp hends
  | @alloc n base cx' hn hrun =>
    rw [allocSeqnos_apply] at hrun
    obtain ⟨rfl, rfl⟩ : _ = base ∧ _ = cx' := by simpa using hrun
    refine h.reserve false w.cx.self.outcipher _ hsafe fun used epochs hl hsome c hc => ?_
    exact ⟨_, hl.current c hc, granted_room hn hl.base_le hsome⟩
  | @sealReserved r ty body headroom out cx' hr hs hrun =>
    have hends : Ends (sealWithSeqno r.number.toUInt32 ty body headroom) w.cx
        (fun _ => Tidy w.handles (w.reserved.erase r)) fun _ => True := by
      refine sealWithSeqno_ends w.cx _ ty body headroom trivial fun _ _ hready => ?_
      obtain ⟨c, hc⟩ := Option.isSome_iff_exists.mp ((appSendReady_iff _).mp hready).1
      exact h.use hr (hsafe.trans hc) ⟨rfl, rfl, rfl⟩ rfl (by simp [sealedNonces, hc]) rfl
    exact (ends_of_ok hrun).mp hends
  | publish hst hc =>
    obtain ⟨used, epochs, hl⟩ := h
    refine ⟨used, epochs, hl.seals, hl.keys, hl.distinct, hl.below, hl.usedIn, hl.reservedIn, hl.current,
      hl.base_le, fun th hth => ?_, hl.epochs_le⟩
    obtain hth | rfl := by simpa using List.mem_append.mp hth
    · exact hl.handlesIn th hth
    · exact hl.current _ hc
  | @probe th n base cx' hh hn hrun =>
    rw [txProbe, fetchSeqnos_apply] at hrun
    obtain ⟨rfl, rfl⟩ : _ = base ∧ _ = cx' := by simpa using hrun
    refine h.reserve true (some th.outcipher) _ hsafe fun used epochs hl hsome c hc => ?_
    obtain rfl := Option.some.inj hc
    have hepoch := hl.handlesIn th hh
    exact ⟨_, hepoch, granted_room hn (hl.epochs_le _ hepoch) hsome⟩
  | shardSeal hr hs hc => exact h.use hr hc ⟨rfl, rfl, rfl⟩ rfl rfl rfl

theorem tidy_run {w : Tunnel C} (h : SafeRun cfg w) : Tidy w.handles w.reserved w.cx := by
  induction h with
  | start h => exact tidy_start h
  | step _ hsafe hstep ih => exact tidy_step ih hsafe hstep

/-- In one epoch, different numbers have different low halves. -/
theorem nonces_nodup {handles : List TunnelHandles} {reserved : List Reservation}
    (h : Tidy handles reserved cx) (hfresh : (installedKeys cx.log).Nodup) :
    (sealedNonces cx.log).Nodup := by
  obtain ⟨used, epochs, h⟩ := h
  rw [h.keys] at hfresh
  rw [h.seals]
  have hused : used.Nodup := List.Nodup.of_map (·.2) (List.Nodup.of_append_left h.distinct)
  refine List.Nodup.map_on (fun u hu v hv huv => ?_) hused
  obtain ⟨b, hb, hbu, hub⟩ := h.usedIn u hu
  obtain ⟨b', hb', hbv, hvb⟩ := h.usedIn v hv
  obtain ⟨hkey, hnum⟩ := Prod.mk.inj huv
  -- one key was installed once, so both numbers are counted from the same base
  obtain ⟨hcip, rfl⟩ : u.1 = v.1 ∧ b = b' := by
    have := List.inj_on_of_nodup_map hfresh hb hb' hkey
    simpa using this
  have hmod : u.2 % 2 ^ 32 = v.2 % 2 ^ 32 := by
    have := congrArg UInt32.toNat hnum
    simpa using this
  exact Prod.ext hcip (by omega)

/-- In every run whose moves are all `Safe`, and whose key exchanges never yield a key twice, no two
records are sealed under one key with one wire number. -/
theorem sealedNonces_nodup {w : Tunnel C} (h : SafeRun cfg w)
    (hfresh : (installedKeys w.cx.log).Nodup) : (sealedNonces w.cx.log).Nodup :=
  nonces_nodup (tidy_run h) hfresh

/-- `k` reservations of `n` numbers each move the counter by `k * n`, whether granted or refused. -/
theorem alloc_many {w : Tunnel C} {n : UInt32} (hn : n.toNat ≤ 2 ^ 16) (h : TunnelRun cfg w) (k : ℕ) :
    ∃ rs, TunnelRun cfg ⟨w.cx.bump (UInt64.ofNat (k * n.toNat)), w.handles, rs⟩ := by
  induction k with
  | zero => exact ⟨w.reserved, by simpa [Cx.bump] using h⟩
  | succ k ih =>
    obtain ⟨rs, hk⟩ := ih
    have hsum : UInt64.ofNat (k * n.toNat) + n.toUInt64 = UInt64.ofNat ((k + 1) * n.toNat) := by
      rw [Nat.succ_mul, UInt64.ofNat_add, UInt64.ofNat_uInt32ToNat]
    have hstep := hk.step (.alloc hn (allocSeqnos_apply _ n))
    rw [bump_bump, hsum] at hstep
    exact ⟨_, hstep⟩

/-- A datagram session with its handshake done and one data record sent. -/
def nullDatagram : Config Crypto.null :=
  ⟨.initiator, .datagram, .x25519, (), [], [], .chaCha20Poly1305, 16⟩

def nullCall (cx : Cx Crypto.null) (c : Call) : EStateM.Result Fault (Cx Crypto.null) Unit :=
  c.exec.run (cx.withRng ())

def nullPeer (seqno : UInt32) (body : Bytes) : Call :=
  .receive (recordWire (C := Crypto.null) .datagram none seqno REC_HANDSHAKE body)

def nullOpen : Cx Crypto.null := Cx.kexSent ⟨.fresh nullDatagram, (), [], []⟩
def nullKeyed : Cx Crypto.null := (nullCall nullOpen (nullPeer 0 (List.replicate 65 0))).last
def nullReady : Cx Crypto.null := (nullCall nullKeyed (nullPeer 1 (List.replicate 64 0))).last
def nullSent : Cx Crypto.null := (nullCall nullReady (.sealDataInto 0 [] 0)).last

theorem null_returns : nullCall nullOpen (nullPeer 0 (List.replicate 65 0)) = .ok () nullKeyed ∧
    nullCall nullKeyed (nullPeer 1 (List.replicate 64 0)) = .ok () nullReady ∧
    nullCall nullReady (.sealDataInto 0 [] 0) = .ok () nullSent :=
  ⟨Result.eq_ok_last (by decide), Result.eq_ok_last (by decide),
    Result.eq_ok_last (by decide)⟩

theorem nullReady_self : nullReady.self.framing = .datagram ∧ nullReady.self.state ≠ .confirm ∧
    nullReady.self.incipher = some ⟨.chaCha20Poly1305, List.replicate 64 0⟩ ∧
    nullReady.self.incipherKey = some (List.replicate 64 0) ∧ nullReady.self.aead = .chaCha20Poly1305 := by
  decide

def nullRekey : Cx Crypto.null := (nullCall nullSent .forceKex).last

theorem sealedNonces_nodup_null : SafeRun nullDatagram ⟨nullRekey, [], []⟩ ∧
    (sealedNonces nullRekey.log).length = 2 ∧ (sealedNonces nullRekey.log).Nodup := by
  obtain ⟨hkeyedRet, hreadyRet, hsentRet⟩ := null_returns
  have hrekey : nullCall nullSent .forceKex = .ok () nullRekey := Result.eq_ok_last (by decide)
  have hopen : SafeRun nullDatagram ⟨nullOpen, [], []⟩ := .start (startWith_apply _ ())
  have hkeyed : SafeRun nullDatagram ⟨nullKeyed, [], []⟩ :=
    hopen.step (by exact ⟨by decide, by decide⟩) (.call rfl (.inl hkeyedRet))
  have hready : SafeRun nullDatagram ⟨nullReady, [], []⟩ :=
    hkeyed.step (by exact ⟨by decide, by decide⟩) (.call rfl (.inl hreadyRet))
  have hsent : SafeRun nullDatagram ⟨nullSent, [], []⟩ :=
    hready.step (by exact ⟨by decide, by decide⟩) (.call rfl (.inl hsentRet))
  have hrun : SafeRun nullDatagram ⟨nullRekey, [], []⟩ :=
    hsent.step (by exact ⟨by decide, by decide⟩) (.call rfl (.inl hrekey))
  exact ⟨hrun, by decide, sealedNonces_nodup hrun (by decide)⟩

def nullBurned : Cx Crypto.null := nullSent.bump 4294967295
def nullReused : Cx Crypto.null := (nullCall nullBurned .forceKex).last

/-- One data record, `2 ^ 32 - 1` numbers reserved in batches of at most `2 ^ 16`, the last of them
refused, and a rekey: its KEX has the data record's number and key. -/
theorem sealedNonces_repeat : ¬ ∀ (C : Crypto) (cfg : Config C) (w : Tunnel C), TunnelRun cfg w →
    (installedKeys w.cx.log).Nodup → (sealedNonces w.cx.log).Nodup := by
  intro hall
  have hreused : nullCall nullBurned .forceKex = .ok () nullReused := Result.eq_ok_last (by decide)
  obtain ⟨hkeyedRet, hreadyRet, hsentRet⟩ := null_returns
  have hopen : TunnelRun nullDatagram ⟨nullOpen, [], []⟩ := .start (startWith_apply _ ())
  have hsent : TunnelRun nullDatagram ⟨nullSent, [], []⟩ :=
    ((hopen.step (.call rfl (.inl hkeyedRet))).step (.call rfl (.inl hreadyRet))).step (.call rfl (.inl hsentRet))
  obtain ⟨rs, hbatch⟩ := alloc_many (n := 65536) (by decide) hsent 65535
  obtain ⟨rs', hlast⟩ := alloc_many (n := 65535) (by decide) hbatch 1
  have hsum : UInt64.ofNat (65535 * (65536 : UInt32).toNat) + UInt64.ofNat (1 * (65535 : UInt32).toNat) =
      4294967295 := by decide
  have hburned : TunnelRun nullDatagram ⟨nullBurned, [], rs'⟩ := by
    rwa [bump_bump, hsum] at hlast
  have hrun : TunnelRun nullDatagram ⟨nullReused, [], rs'⟩ := hburned.step (.call rfl (.inl hreused))
  have hkeys : (installedKeys nullReused.log).Nodup := by decide
  have hrepeat : ¬ (sealedNonces nullReused.log).Nodup := by decide
  exact hrepeat (hall _ _ _ hrun hkeys)

end Tincr.Sptps

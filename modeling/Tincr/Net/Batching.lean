import Tincr.Net.Transmit

/-!
Batching is transparent except in one case. The staged datagrams are, at any time, those that were
shipped followed by those in the batch; a ship keeps that, with every address and payload, and with the
sockets too if it goes through the listener of the run. The ship of a super goes through the listener
of the super, so the sockets are kept exactly when no super is sealed while a run for another listener
waits.
-/

namespace Tincr.Net

variable {Addr : Type}

def Tx.shipped (σ : Tx Addr) : List (Packet Addr) :=
  σ.wire.filterMap fun
    | .batched p => some p
    | .immediate _ => none

/-- The same address and payload, possibly another socket. -/
def SameLoad (p q : Packet Addr) : Prop := p.dst = q.dst ∧ p.bytes = q.bytes

namespace Tx

/-- Of what was staged, `done` has been shipped and `pending` is in the batch. -/
structure Inv (σ : Tx Addr) (done : List (Packet Addr)) (pending : List (Datagram Addr)) : Prop where
  holds : σ.batch.Holds pending
  staged : σ.staged = done ++ pending.map Datagram.packet
  shipped : List.Forall₂ SameLoad σ.shipped done

/-- What was shipped left through the sockets it was staged for. -/
def Right (σ : Tx Addr) : Prop := σ.shipped <+: σ.staged

/-- No run for another listener is waiting. -/
def Fits (σ : Tx Addr) (sock : ℕ) : Prop := σ.batch.count = 0 ∨ σ.batch.sock = sock

instance (σ : Tx Addr) (sock : ℕ) : Decidable (σ.Fits sock) := inferInstanceAs (Decidable (_ ∨ _))

variable {σ : Tx Addr} {done : List (Packet Addr)} {pending : List (Datagram Addr)} {env : Env} {sock : ℕ}

theorem Inv.right_iff (h : σ.Inv done pending) : σ.Right ↔ σ.shipped = done := by
  rw [Right, h.staged, List.prefix_iff_eq_take, h.shipped.length_eq, List.take_left]

theorem Inv.fits_iff (h : σ.Inv done pending) : σ.Fits sock ↔ ∀ d ∈ pending, d.sock = sock := by
  constructor
  · rintro (hcount | hsock) d hd
    · rw [h.holds.nil_of_count hcount] at hd
      cases hd
    · exact (h.holds.sock d hd).symm.trans hsock
  · intro hall
    cases pending with
    | nil => exact .inl h.holds.count
    | cons d ds => exact .inr ((h.holds.sock d List.mem_cons_self).trans (hall d List.mem_cons_self))

def through (sock : ℕ) (pending : List (Datagram Addr)) : List (Packet Addr) :=
  pending.map fun d => ⟨sock, d.dst, d.bytes⟩

theorem sameLoad_through (sock : ℕ) (pending : List (Datagram Addr)) :
    List.Forall₂ SameLoad (through sock pending) (pending.map Datagram.packet) := by
  induction pending with
  | nil => exact .nil
  | cons d ds ih => exact .cons ⟨rfl, rfl⟩ ih

theorem through_eq_iff : through sock pending = pending.map Datagram.packet ↔ ∀ d ∈ pending, d.sock = sock := by
  induction pending with
  | nil => simp [through]
  | cons d ds ih =>
    have hhead : (⟨sock, d.dst, d.bytes⟩ : Packet Addr) = d.packet ↔ d.sock = sock := by
      simp [Datagram.packet, eq_comm]
    rw [List.forall_mem_cons, ← ih, ← hhead]
    simp [through]

/-- A run that leaves through an existing listener. -/
theorem Inv.sent (h : σ.Inv done pending) (sock : ℕ) {σ' : Tx Addr} (hcount : σ'.batch.count = 0)
    (hstaged : σ'.staged = σ.staged) (hshipped : σ'.shipped = σ.shipped ++ through sock pending) :
    σ'.Inv (done ++ pending.map Datagram.packet) [] ∧ (σ'.Right ↔ σ.Right ∧ σ.Fits sock) := by
  have hinv : σ'.Inv (done ++ pending.map Datagram.packet) [] := by
    refine ⟨TxBatch.holds_nil hcount, ?_, ?_⟩
    · rw [hstaged, h.staged, List.map_nil, List.append_nil]
    · rw [hshipped]
      exact List.rel_append h.shipped (sameLoad_through sock pending)
  refine ⟨hinv, ?_⟩
  rw [hinv.right_iff, h.right_iff, h.fits_iff, hshipped, ← through_eq_iff]
  constructor
  · intro heq
    exact List.append_inj heq h.shipped.length_eq
  · rintro ⟨hdone, hrun⟩
    rw [hdone, hrun]

theorem shipped_append (σ : Tx Addr) (ps : List (Packet Addr)) (batch : TxBatch Addr) :
    Tx.shipped { σ with wire := σ.wire ++ ps.map Sent.batched, batch := batch } = σ.shipped ++ ps := by
  simp [Tx.shipped, List.filterMap_append, List.filterMap_map]

/-- What the two ways to ship have in common: a run is taken and sent through `sock`. -/
theorem Inv.shipThrough (h : σ.Inv done pending) (hsock : sock < env.listeners) {σ' : Tx Addr}
    (hnone : σ.batch.take = none → σ' = σ)
    (hsome : ∀ e relay origlen, σ.batch.take = some (e, σ.batch.sock, relay, origlen) →
      σ' = { σ with wire := σ.wire ++ sendAll env sock e, batch := σ.batch.reset }) :
    σ'.Inv (done ++ pending.map Datagram.packet) [] ∧ (σ'.Right ↔ σ.Right ∧ σ.Fits sock) := by
  rcases eq_or_ne pending [] with rfl | hne
  · have hcount : σ.batch.count = 0 := h.holds.count
    rw [hnone (by rw [TxBatch.take, if_pos hcount])]
    exact h.sent sock hcount rfl (by simp [through])
  · obtain ⟨e, relay, origlen, htake, hsend, hall⟩ := h.holds.take hne env.backend
    have hwire : sendAll env sock e = (through sock pending).map Sent.batched := by
      rw [sendAll, if_pos hsock, hsend, through, List.map_map, List.map_map]
      refine List.map_congr_left fun d hd => ?_
      simp only [Function.comp_apply, (hall d hd).1]
    have hσ' := hsome e relay origlen htake
    rw [hwire] at hσ'
    subst hσ'
    exact h.sent sock rfl rfl (shipped_append σ _ _)

/-- `ship` sends the waiting run through the listener it is given. -/
theorem Inv.ship (h : σ.Inv done pending) (hsock : sock < env.listeners) :
    (σ.ship env sock).Inv (done ++ pending.map Datagram.packet) [] ∧
      ((σ.ship env sock).Right ↔ σ.Right ∧ σ.Fits sock) := by
  refine h.shipThrough hsock ?_ ?_
  · intro hnone
    rw [Tx.ship, hnone]
  · intro e relay origlen hsome
    rw [Tx.ship, hsome]

/-- `ship_tx_batch` sends the waiting run through its own listener, which keeps the sockets. -/
theorem Inv.shipTxBatch (h : σ.Inv done pending) (hsock : ∀ d ∈ pending, d.sock < env.listeners) :
    (σ.shipTxBatch env).Inv (done ++ pending.map Datagram.packet) [] ∧
      ((σ.shipTxBatch env).Right ↔ σ.Right) := by
  cases pending with
  | nil =>
    have hnone : σ.batch.take = none := by
      rw [TxBatch.take, if_pos]
      exact h.holds.count
    rw [Tx.shipTxBatch, hnone]
    simpa using h
  | cons d ds =>
    have hown : σ.batch.sock = d.sock := h.holds.sock d List.mem_cons_self
    have hfits : σ.Fits σ.batch.sock := .inr rfl
    rw [← and_iff_left (a := (σ.Right)) hfits]
    refine h.shipThrough (hown ▸ hsock d List.mem_cons_self) ?_ ?_
    · intro hnone
      rw [Tx.shipTxBatch, hnone]
    · intro e relay origlen hsome
      rw [Tx.shipTxBatch, hsome]

/-- The state in every run: some of what was staged has been shipped, the rest waits for listeners that
exist. -/
def Ok (env : Env) (σ : Tx Addr) : Prop :=
  ∃ done pending, σ.Inv done pending ∧ ∀ d ∈ pending, d.sock < env.listeners

theorem Ok.ship (h : σ.Ok env) (hsock : sock < env.listeners) :
    (σ.ship env sock).Ok env ∧ (σ.ship env sock).batch.count = 0 ∧
      ((σ.ship env sock).Right ↔ σ.Right ∧ σ.Fits sock) := by
  obtain ⟨done, pending, hinv, -⟩ := h
  obtain ⟨hinv', hright⟩ := hinv.ship hsock
  exact ⟨⟨_, [], hinv', by simp⟩, hinv'.holds.count, hright⟩

theorem Ok.shipTxBatch (h : σ.Ok env) :
    (σ.shipTxBatch env).Ok env ∧ (σ.shipTxBatch env).batch.count = 0 ∧
      ((σ.shipTxBatch env).Right ↔ σ.Right) := by
  obtain ⟨done, pending, hinv, hsock⟩ := h
  obtain ⟨hinv', hright⟩ := hinv.shipTxBatch hsock
  exact ⟨⟨_, [], hinv', by simp⟩, hinv'.holds.count, hright⟩

variable [DecidableEq Addr]

theorem canCoalesce_of_empty {b : TxBatch Addr} (h : b.count = 0) (d : Datagram Addr) :
    b.canCoalesce d.dst d.sock d.bytes.length = true := by
  simp [TxBatch.canCoalesce, h]

theorem Ok.stage (h : σ.Ok env) (d : Datagram Addr) (hsock : d.sock < env.listeners) (relay origlen : ℕ)
    (hcan : σ.batch.canCoalesce d.dst d.sock d.bytes.length = true) :
    (σ.stage d relay origlen).Ok env ∧ ((σ.stage d relay origlen).Right ↔ σ.Right) ∧
      ((σ.stage d relay origlen).Fits d.sock ↔ σ.Fits d.sock) := by
  obtain ⟨done, pending, hinv, hlisteners⟩ := h
  have hinv' : (σ.stage d relay origlen).Inv done (pending ++ [d]) := by
    refine ⟨hinv.holds.stage d relay origlen hcan, ?_, hinv.shipped⟩
    simp [Tx.stage, hinv.staged]
  refine ⟨⟨done, pending ++ [d], hinv', ?_⟩, ?_, ?_⟩
  · intro e he
    rcases List.mem_append.1 he with he | he
    · exact hlisteners e he
    · rwa [List.mem_singleton.1 he]
  · rw [hinv'.right_iff, hinv.right_iff]
    rfl
  · rw [hinv'.fits_iff, hinv.fits_iff, List.forall_mem_append]
    simp

/-- A segment of a super: a run for another listener still waits, or has left through this one. -/
theorem Ok.sealChunk (h : σ.Ok env) {target : TxTarget Addr} (hsock : target.sock < env.listeners)
    (c : Chunk) :
    (σ.sealChunk env target c).Ok env ∧
      ((σ.sealChunk env target c).Right ∧ (σ.sealChunk env target c).Fits target.sock ↔
        σ.Right ∧ σ.Fits target.sock) := by
  simp only [Tx.sealChunk]
  split_ifs with hcan
  · obtain ⟨hok, hright, hfits⟩ := h.stage _ hsock target.toNid c.origlen hcan
    exact ⟨hok, and_congr hright hfits⟩
  · obtain ⟨hok, hcount, hright⟩ := h.ship hsock
    have hfits : (σ.ship env target.sock).Fits target.sock := .inl hcount
    obtain ⟨hok', hright', hfits'⟩ := hok.stage ⟨target.sock, target.dst, c.frame⟩ hsock target.toNid
      c.origlen (canCoalesce_of_empty hcount _)
    refine ⟨hok', ?_⟩
    rw [← hright]
    exact ⟨fun hboth => hright'.1 hboth.1, fun hr => ⟨hright'.2 hr, hfits'.2 hfits⟩⟩

theorem Ok.sealSuper (h : σ.Ok env) {target : TxTarget Addr} (hsock : target.sock < env.listeners)
    (chunks : List Chunk) :
    (σ.sealSuper env target chunks).Ok env ∧
      ((σ.sealSuper env target chunks).Right ↔ σ.Right ∧ σ.Fits target.sock) := by
  induction chunks generalizing σ with
  | nil =>
    obtain ⟨hok, -, hright⟩ := h.ship hsock
    exact ⟨hok, hright⟩
  | cons c cs ih =>
    obtain ⟨hok, hboth⟩ := h.sealChunk hsock c
    obtain ⟨hok', hright⟩ := ih hok
    exact ⟨hok', hright.trans hboth⟩

/-- A frame on the slow path never changes a socket. -/
theorem Ok.send (h : σ.Ok env) {r : SendReq Addr} (hsock : r.datagram.sock < env.listeners) :
    (σ.send env r).Ok env ∧ ((σ.send env r).Right ↔ σ.Right) := by
  simp only [Tx.send]
  split_ifs with hhot hcan
  · obtain ⟨hok, hright, -⟩ := h.stage _ hsock r.relay r.origlen hcan
    exact ⟨hok, hright⟩
  · obtain ⟨hok, hcount, hright⟩ := h.shipTxBatch
    obtain ⟨hok', hright', -⟩ := hok.stage _ hsock r.relay r.origlen (canCoalesce_of_empty hcount _)
    exact ⟨hok', hright'.trans hright⟩
  · obtain ⟨done, pending, hinv, hlisteners⟩ := h
    have hshipped : Tx.shipped { σ with wire := σ.wire ++ [.immediate r.datagram.packet] } = σ.shipped := by
      simp [Tx.shipped, List.filterMap_append]
    refine ⟨⟨done, pending, ⟨hinv.holds, hinv.staged, ?_⟩, hlisteners⟩, ?_⟩
    · rw [hshipped]
      exact hinv.shipped
    · rw [Right, Right, hshipped]

end Tx

def Op.Valid (env : Env) : Op Addr → Prop
  | .arm => True
  | .send r => r.datagram.sock < env.listeners
  | .super target _ => target.sock < env.listeners

/-- The op finds no run that it would send through another listener. -/
def Op.Fits (σ : Tx Addr) : Op Addr → Prop
  | .arm => True
  | .send _ => True
  | .super target _ => σ.Fits target.sock

instance (σ : Tx Addr) : ∀ op : Op Addr, Decidable (op.Fits σ)
  | .arm => .isTrue trivial
  | .send _ => .isTrue trivial
  | .super target _ => inferInstanceAs (Decidable (σ.Fits target.sock))

section Run

variable [DecidableEq Addr] {env : Env} {σ : Tx Addr} {op : Op Addr} {ops : List (Op Addr)}

theorem Tx.Ok.step (h : σ.Ok env) (hvalid : op.Valid env) :
    (σ.step env op).Ok env ∧ ((σ.step env op).Right ↔ σ.Right ∧ op.Fits σ) := by
  cases op with
  | arm =>
    obtain ⟨done, pending, hinv, hlisteners⟩ := h
    refine ⟨⟨done, pending, ⟨hinv.holds, hinv.staged, hinv.shipped⟩, hlisteners⟩, ?_⟩
    exact (and_iff_left trivial).symm
  | send r =>
    obtain ⟨hok, hright⟩ := h.send hvalid
    exact ⟨hok, hright.trans (and_iff_left trivial).symm⟩
  | super target chunks => exact h.sealSuper hvalid chunks

/-- Over a run the sockets are right iff every super found a batch it could ship. -/
theorem Tx.Ok.run (h : σ.Ok env) (hvalid : ∀ op ∈ ops, op.Valid env) :
    (σ.run env ops).Ok env ∧
      ((σ.run env ops).Right ↔
        σ.Right ∧ ∀ (k : ℕ) (op : Op Addr), ops[k]? = some op → op.Fits (σ.run env (ops.take k))) := by
  induction ops generalizing σ with
  | nil => exact ⟨h, by simp [Tx.run]⟩
  | cons op ops ih =>
    obtain ⟨hok, hright⟩ := h.step (hvalid op List.mem_cons_self)
    obtain ⟨hok', hright'⟩ := ih hok fun op' hop' => hvalid op' (List.mem_cons_of_mem _ hop')
    refine ⟨hok', ?_⟩
    change ((σ.step env op).run env ops).Right ↔ _
    rw [hright', hright, and_assoc]
    refine and_congr_right fun _ => ?_
    constructor
    · rintro ⟨hhead, htail⟩ k op' hget
      cases k with
      | zero =>
        obtain rfl : op = op' := by simpa using hget
        exact hhead
      | succ k => exact htail k op' (by simpa using hget)
    · intro hall
      exact ⟨hall 0 op rfl, fun k op' hget => hall (k + 1) op' (by simpa using hget)⟩

end Run

/-- The sends on the slow path that a drain leads to. -/
def Drain.sends : Drain Addr → List (SendReq Addr)
  | .frames sends => sends.flatten
  | .super (some sends) _ => sends.flatten
  | _ => []

theorem superOps_valid {env : Env} {sends : List (List (SendReq Addr))}
    {probe : Option (TxTarget Addr × List Chunk)}
    (hsends : ∀ r ∈ sends.flatten, r.datagram.sock < env.listeners) :
    ∀ op ∈ superOps env sends probe, op.Valid env := by
  have hslow : ∀ op ∈ sends.flatten.map Op.send, op.Valid env := by
    intro op hop
    obtain ⟨r, hr, rfl⟩ := List.mem_map.1 hop
    exact hsends r hr
  intro op hop
  rcases List.mem_append.1 hop with harm | hrest
  · split_ifs at harm
    · obtain rfl := List.mem_singleton.1 harm
      trivial
    · cases harm
  · cases probe with
    | none => exact hslow op hrest
    | some p =>
      dsimp only at hrest
      split_ifs at hrest with hgate
      · obtain rfl := List.mem_singleton.1 hrest
        exact hgate.2
      · exact hslow op hrest

theorem drainOps_valid {env : Env} {drains : List (Drain Addr)}
    (hsends : ∀ d ∈ drains, ∀ r ∈ d.sends, r.datagram.sock < env.listeners) (iters : ℕ) :
    ∀ op ∈ drainOps env iters drains, op.Valid env := by
  induction drains generalizing iters with
  | nil => simp [drainOps]
  | cons d ds ih =>
    have hhead := hsends d List.mem_cons_self
    have htail := ih fun d' hd' => hsends d' (List.mem_cons_of_mem _ hd')
    intro op hop
    unfold drainOps at hop
    by_cases hcap : iters < DEVICE_DRAIN_CAP
    · rw [if_pos hcap] at hop
      cases d with
      | empty | error => cases hop
      | frames sends =>
        rcases List.mem_append.1 hop with hfirst | hrest
        · rcases List.mem_append.1 hfirst with harm | hsend
          · split_ifs at harm
            · obtain rfl := List.mem_singleton.1 harm
              trivial
            · cases harm
          · obtain ⟨r, hr, rfl⟩ := List.mem_map.1 hsend
            exact hhead r hr
        · split_ifs at hrest
          · cases hrest
          · cases hrest
          · exact htail _ op hrest
      | super segments probe =>
        cases segments with
        | none => cases hop
        | some sends => exact superOps_valid hhead op hop
    · rw [if_neg hcap] at hop
      cases hop

/-- Lists of packets that agree on the addresses are equal if they are for every destination. -/
theorem eq_of_filter_dst [DecidableEq Addr] {ps qs : List (Packet Addr)} (h : List.Forall₂ SameLoad ps qs)
    (hfilter : ∀ dst, ps.filter (·.dst = dst) = qs.filter (·.dst = dst)) : ps = qs := by
  induction h with
  | nil => rfl
  | @cons p q ps qs hload _ ih =>
    have hdst : p.dst = q.dst := hload.1
    have hhead : p = q := by
      have hp := hfilter p.dst
      rw [List.filter_cons_of_pos (by simp), List.filter_cons_of_pos (by simp [hdst])] at hp
      exact (List.cons.inj hp).1
    subst hhead
    congr 1
    refine ih fun dst => ?_
    have hd := hfilter dst
    by_cases hp : p.dst = dst
    · rw [List.filter_cons_of_pos (by simpa using hp), List.filter_cons_of_pos (by simpa using hp)] at hd
      exact (List.cons.inj hd).2
    · rwa [List.filter_cons_of_neg (by simpa using hp), List.filter_cons_of_neg (by simpa using hp)] at hd

/-- For every destination the staged datagrams, and nothing else, left the batch: each once, in staging
order, with its bytes, through the listener it was staged for; and the batch is empty. -/
def Tx.Delivered [DecidableEq Addr] (σ : Tx Addr) : Prop :=
  (∀ dst, σ.shipped.filter (·.dst = dst) = σ.staged.filter (·.dst = dst)) ∧ σ.batch.count = 0

theorem Tx.Ok.delivered_finish [DecidableEq Addr] {env : Env} {σ : Tx Addr} (h : σ.Ok env) :
    (σ.finish env).Delivered ↔ σ.Right := by
  obtain ⟨hok, hcount, hright⟩ := h.shipTxBatch
  obtain ⟨done, pending, hinv, -⟩ := hok
  obtain rfl := hinv.holds.nil_of_count hcount
  have hstaged : (σ.shipTxBatch env).staged = done := by
    simpa using hinv.staged
  rw [← hright, hinv.right_iff]
  constructor
  · rintro ⟨hfilter, -⟩
    refine eq_of_filter_dst hinv.shipped fun dst => ?_
    rw [← hstaged]
    exact hfilter dst
  · intro heq
    refine ⟨fun dst => ?_, hcount⟩
    change (σ.shipTxBatch env).shipped.filter _ = (σ.shipTxBatch env).staged.filter _
    rw [heq, hstaged]

/-- A read delivers what it stages iff every super it seals finds the batch empty or holding a run for
the listener of the super. -/
theorem onDeviceRead_delivered_iff [DecidableEq Addr] (env : Env) (batch : TxBatch Addr)
    (drains : List (Drain Addr)) (hbatch : batch.count = 0)
    (hsends : ∀ d ∈ drains, ∀ r ∈ d.sends, r.datagram.sock < env.listeners) :
    (onDeviceRead env batch drains).Delivered ↔
      ∀ (k : ℕ) (op : Op Addr), (drainOps env 0 drains)[k]? = some op →
        op.Fits ((Tx.start batch).run env ((drainOps env 0 drains).take k)) := by
  have hstart : (Tx.start batch).Inv [] [] := ⟨TxBatch.holds_nil hbatch, rfl, .nil⟩
  have hok : (Tx.start batch).Ok env := ⟨[], [], hstart, by simp⟩
  obtain ⟨hok', hright⟩ := hok.run (drainOps_valid hsends 0)
  rw [onDeviceRead, hok'.delivered_finish, hright]
  exact and_iff_right (hstart.right_iff.2 rfl)

namespace Sample

def env : Env := ⟨2, .portable⟩

def frame (n : Fin 100) : Frame where
  bytes := List.replicate (n + 1) (UInt8.ofNat n)
  nonempty := by simp
  small := by
    rw [List.length_replicate]
    omega

def sendTo (sock dst : ℕ) (n : Fin 100) : SendReq ℕ := ⟨⟨sock, dst, frame n⟩, 0, 1500, true⟩

/-- Two single frames for a node behind listener `0`, then a super for a node behind listener `sock`. -/
def drains (sock : ℕ) : List (Drain ℕ) :=
  [.frames [[sendTo 0 7 3]], .frames [[sendTo 0 7 4]],
    .super (some [[sendTo sock 8 5], [sendTo sock 8 2]])
      (some (⟨8, sock, 1⟩, [⟨frame 5, 1500⟩, ⟨frame 2, 400⟩]))]

end Sample

/-- The second frame was staged for listener `0` and leaves through listener `1`. -/
theorem not_delivered_super_other_listener :
    ¬ (onDeviceRead Sample.env TxBatch.empty (Sample.drains 1)).Delivered := by
  rintro ⟨hfilter, -⟩
  have h7 := hfilter 7
  revert h7
  decide +kernel

theorem onDeviceRead_delivered_iff_same_listener :
    (onDeviceRead Sample.env TxBatch.empty (Sample.drains 0)).Delivered := by
  refine (onDeviceRead_delivered_iff Sample.env TxBatch.empty (Sample.drains 0) rfl ?_).2 ?_
  · decide +kernel
  · have hall : ∀ k : Fin (drainOps Sample.env 0 (Sample.drains 0)).length,
        (drainOps Sample.env 0 (Sample.drains 0))[k].Fits
          ((Tx.start TxBatch.empty).run Sample.env ((drainOps Sample.env 0 (Sample.drains 0)).take k)) := by
      decide +kernel
    intro k op hget
    obtain ⟨hk, rfl⟩ := List.getElem?_eq_some_iff.1 hget
    exact hall ⟨k, hk⟩

end Tincr.Net

import Tincr.Gossip.MacTable

/-!
The flood of a line through the mesh. A daemon hands a line on to its other peers, and its cache of lines is all that
stops the flood: however the deliveries interleave and whatever else is sent in between, no daemon hands on over one
connection two lines that differ in the nonce only, as long as the cache forgets nothing.
-/

namespace Tincr.Gossip

open Function Relation

/-- The bodies that go to `forward_request`. -/
def forwards (es : List Effect) : List ByteArray :=
  es.filterMap fun
    | .forward body => some body
    | _ => none

def keyOf (body : ByteArray) : Option String := (String.fromUTF8? body).map normalizeKey

/-! ### The cache -/

def SeenRequests.Knows (s : SeenRequests) (key : String) : Prop := (s.cache.lookup key).isSome

theorem SeenRequests.check_knows {s : SeenRequests} {line key : String} (now : ℕ) (h : s.Knows key) :
    (s.check line now).2.Knows key := by
  unfold check
  dsimp only
  split_ifs
  · exact h
  · exact h
  · rw [Knows, List.lookup_cons]
    split
    · rfl
    · exact h

theorem SeenRequests.check_new {s : SeenRequests} {line : String} {now : ℕ} (h : (s.check line now).1 = false) :
    ¬ s.Knows (normalizeKey line) ∧ (s.check line now).2.Knows (normalizeKey line) := by
  unfold check at h ⊢
  dsimp only at h ⊢
  split_ifs at h ⊢ with hseen hfull
  exact ⟨hseen, by simp [Knows]⟩

namespace Daemon

variable {d d' : Daemon} {m : Msg} {es : List Effect}

theorem seen_lookupOrAddNode (d : Daemon) (name : String) (fresh : NodeId) :
    (d.lookupOrAddNode name fresh).2.seen = d.seen := by
  unfold lookupOrAddNode
  split <;> rfl

/-- What a handler did with the line: only the check touches the cache, and a line is handed on only if it was new. -/
def Passed (d : Daemon) (m : Msg) (d' : Daemon) (es : List Effect) : Prop :=
  d'.seen = (d.seenRequest m.body m.now).2.seen ∧
    (forwards es = [] ∨ forwards es = [m.body] ∧ (d.seenRequest m.body m.now).1 = false)

theorem floodedPrologue_seen (d : Daemon) (m : Msg) (about : List String) :
    (d.floodedPrologue m about).2.seen = (d.seenRequest m.body m.now).2.seen ∧
      ((d.floodedPrologue m about).1 = true → (d.seenRequest m.body m.now).1 = false) := by
  unfold floodedPrologue
  dsimp only
  split_ifs with hseen hreject
  · exact ⟨rfl, by simp⟩
  · exact ⟨rfl, by simp⟩
  · exact ⟨rfl, fun _ => by simpa using hseen⟩

theorem handle_parsed (h : d.handle m = .ok (d', es)) : ∃ msg, parseSubnetBody m.body = .ok msg := by
  cases hparse : parseSubnetBody m.body with
  | ok msg => exact ⟨msg, rfl⟩
  | error e =>
    unfold handle at h
    cases hkind : m.kind <;> simp [hkind, onAddSubnet, onDelSubnet, hparse, bind, Except.bind] at h

theorem handle_passed (h : d.handle m = .ok (d', es)) : Passed d m d' es := by
  obtain ⟨⟨owner, subnet⟩, hparse⟩ := handle_parsed h
  obtain ⟨hcache, hnew⟩ := floodedPrologue_seen d m [owner]
  unfold handle at h
  cases hkind : m.kind with
  | addSubnet =>
    simp only [hkind, onAddSubnet, hparse, bind, Except.bind, pure, Except.pure] at h
    generalize d.floodedPrologue m [owner] = p at h hcache hnew
    have hadd := (seen_lookupOrAddNode p.2 owner m.fresh).trans hcache
    generalize p.2.lookupOrAddNode owner m.fresh = q at h hadd
    split_ifs at h with hproceed <;> obtain ⟨rfl, rfl⟩ := Prod.mk.inj (Except.ok.inj h)
    all_goals first
      | exact ⟨hcache, .inl rfl⟩
      | exact ⟨hadd, .inl rfl⟩
      | exact ⟨hadd, .inr ⟨rfl, hnew (by simpa using hproceed)⟩⟩
  | delSubnet =>
    simp only [hkind, onDelSubnet, hparse, bind, Except.bind, pure, Except.pure] at h
    generalize d.floodedPrologue m [owner] = p at h hcache hnew
    cases hid : p.2.nodeId owner with
    | none =>
      simp only [hid, ite_self, Except.ok.injEq, Prod.mk.injEq] at h
      obtain ⟨rfl, rfl⟩ := h
      exact ⟨hcache, .inl rfl⟩
    | some id =>
      simp only [hid] at h
      split_ifs at h with hproceed <;> obtain ⟨rfl, rfl⟩ := Prod.mk.inj (Except.ok.inj h)
      all_goals first
        | exact ⟨hcache, .inl rfl⟩
        | exact ⟨hcache, .inr ⟨rfl, hnew (by simpa using hproceed)⟩⟩

/-- A line that is handed on was not in the cache and is now; nothing leaves the cache. -/
theorem handle_forwards (h : d.handle m = .ok (d', es)) :
    (∀ key, d.seen.Knows key → d'.seen.Knows key) ∧
      (forwards es = [] ∨ forwards es = [m.body] ∧ ∃ text, String.fromUTF8? m.body = some text ∧
        ¬ d.seen.Knows (normalizeKey text) ∧ d'.seen.Knows (normalizeKey text)) := by
  obtain ⟨msg, hparse⟩ := handle_parsed h
  obtain ⟨hcache, hforward⟩ := handle_passed h
  obtain ⟨text, htext⟩ : ∃ text, String.fromUTF8? m.body = some text := by
    cases htext : String.fromUTF8? m.body with
    | none => simp [parseSubnetBody, htext] at hparse
    | some text => exact ⟨text, rfl⟩
  simp only [seenRequest, htext] at hcache hforward
  refine ⟨fun key hkey => hcache ▸ SeenRequests.check_knows _ hkey, hforward.imp_right ?_⟩
  rintro ⟨hbody, hnew⟩
  obtain ⟨hunknown, hknown⟩ := SeenRequests.check_new hnew
  exact ⟨hbody, text, htext, hunknown, hcache ▸ hknown⟩

end Daemon

/-! ### The mesh -/

variable {α : Type}

/-- The daemons, the lines in flight with both ends of their connection, and a record of the lines handed on. -/
structure Mesh (α : Type) where
  daemons : α → Daemon
  flight : List (α × α × ByteArray)
  forwarded : List (α × α × Option String)

/-- `broadcast_targets`: `peers` are those with an active connection, of which each has one. -/
structure Topology (α : Type) where
  peers : α → List α
  nodup : ∀ v, (peers v).Nodup

/-- Every forward is over a connection, once, and of a line that the daemon still has in its cache. -/
structure Mesh.Flooded (T : Topology α) (s : Mesh α) : Prop where
  nodup : s.forwarded.Nodup
  peer : ∀ e ∈ s.forwarded, e.2.1 ∈ T.peers e.1
  known : ∀ e ∈ s.forwarded, ∃ key, e.2.2 = some key ∧ (s.daemons e.1).seen.Knows key

namespace Mesh

variable {T : Topology α} {s s' : Mesh α}

/-- New forwards are of lines that the daemon did not have in its cache before. -/
theorem Flooded.extend {daemons : α → Daemon} {flight : List (α × α × ByteArray)} {new : List (α × α × Option String)}
    (h : s.Flooded T) (hkeep : ∀ v key, (s.daemons v).seen.Knows key → (daemons v).seen.Knows key) (hnodup : new.Nodup)
    (hnew : ∀ e ∈ new, e.2.1 ∈ T.peers e.1 ∧ ∃ key, e.2.2 = some key ∧ ¬ (s.daemons e.1).seen.Knows key ∧
      (daemons e.1).seen.Knows key) : Flooded T ⟨daemons, flight, s.forwarded ++ new⟩ := by
  refine ⟨List.nodup_append.2 ⟨h.nodup, hnodup, ?_⟩, fun e he => ?_, fun e he => ?_⟩
  · rintro e hold _ he rfl
    obtain ⟨-, key, hkey, hunknown, -⟩ := hnew e he
    obtain ⟨key', hkey', hknown⟩ := h.known e hold
    obtain rfl : key' = key := Option.some.inj (hkey'.symm.trans hkey)
    exact hunknown hknown
  · rcases List.mem_append.1 he with he | he
    · exact h.peer e he
    · exact (hnew e he).1
  · rcases List.mem_append.1 he with he | he
    · obtain ⟨key, hkey, hknown⟩ := h.known e he
      exact ⟨key, hkey, hkeep _ _ hknown⟩
    · obtain ⟨-, key, hkey, -, hknown⟩ := hnew e he
      exact ⟨key, hkey, hknown⟩

end Mesh

variable [DecidableEq α]

def Topology.targets (T : Topology α) (src dst : α) : List α := (T.peers dst).filter (· ≠ src)

/-- A line is sent by its origin or as an answer; one that arrives is handled, and handed on if the flood limiter lets
it; or it ends its connection. -/
inductive Mesh.Step (T : Topology α) : Mesh α → Mesh α → Prop
  | send {s : Mesh α} (src dst : α) (body : ByteArray) : Step T s { s with flight := s.flight ++ [(src, dst, body)] }
  | deliver {s : Mesh α} {pre post : List (α × α × ByteArray)} {src dst : α} {m : Msg} {d' : Daemon}
      {es : List Effect} (hflight : s.flight = pre ++ (src, dst, m.body) :: post)
      (hhandle : (s.daemons dst).handle m = .ok (d', es)) (allowed : Bool) :
      Step T s
        { daemons := update s.daemons dst d'
          flight := pre ++ post ++ if allowed then
            (forwards es).flatMap fun body => (T.targets src dst).map fun w => (dst, w, body) else []
          forwarded := s.forwarded ++ if allowed then
            (forwards es).flatMap fun body => (T.targets src dst).map fun w => (dst, w, keyOf body) else [] }
  | reject {s : Mesh α} {pre post : List (α × α × ByteArray)} {e : α × α × ByteArray}
      (hflight : s.flight = pre ++ e :: post) : Step T s { s with flight := pre ++ post }

namespace Mesh

variable {T : Topology α} {s s' : Mesh α}

theorem Flooded.step (h : s.Flooded T) (hstep : Step T s s') : s'.Flooded T := by
  cases hstep with
  | send src dst body => exact ⟨h.nodup, h.peer, h.known⟩
  | reject hflight => exact ⟨h.nodup, h.peer, h.known⟩
  | @deliver pre post src dst m d' es hflight hhandle allowed =>
    obtain ⟨hmono, hforward⟩ := Daemon.handle_forwards hhandle
    have hkeep : ∀ v key, (s.daemons v).seen.Knows key → (update s.daemons dst d' v).seen.Knows key := by
      intro v key hknown
      by_cases hv : v = dst
      · subst hv
        rw [update_self]
        exact hmono key hknown
      · rwa [update_of_ne hv]
    refine h.extend hkeep ?_ fun e he => ?_
    · split_ifs
      · rcases hforward with hnone | ⟨hbody, -⟩
        · simp [hnone]
        · have hinj : Injective fun w : α => (dst, w, keyOf m.body) := fun a b hab => (Prod.mk.inj (Prod.mk.inj hab).2).1
          rw [hbody, List.flatMap_singleton]
          exact ((T.nodup dst).filter _).map hinj
      · exact List.nodup_nil
    · split_ifs at he
      · rcases hforward with hnone | ⟨hbody, text, htext, hunknown, hknown⟩
        · simp [hnone] at he
        · rw [hbody, List.flatMap_singleton] at he
          obtain ⟨w, hw, rfl⟩ := List.mem_map.1 he
          refine ⟨List.mem_of_mem_filter hw, normalizeKey text, by rw [keyOf, htext]; rfl, hunknown, ?_⟩
          rwa [update_self]
      · cases he

/-- In every run no daemon hands on, over one connection, two lines that are the same up to the nonce; so a line is
handed on no more often than there are connections, in both directions. -/
theorem flood_once [Fintype α] (hstart : s.forwarded = []) (hrun : ReflTransGen (Step T) s s') :
    s'.forwarded.Nodup ∧ ∀ key, (s'.forwarded.filter fun e => e.2.2 = key).length ≤ ∑ v, (T.peers v).length := by
  have hflooded : s'.Flooded T := by
    induction hrun with
    | refl => exact ⟨by simp [hstart], by simp [hstart], by simp [hstart]⟩
    | tail _ hstep ih => exact ih.step hstep
  refine ⟨hflooded.nodup, fun key => ?_⟩
  have hpairs : ((s'.forwarded.filter fun e => e.2.2 = key).map fun e => (e.1, e.2.1)).Nodup := by
    refine List.Nodup.map_on (fun e he f hf heq => ?_) (hflooded.nodup.filter _)
    have hkeys : e.2.2 = f.2.2 :=
      (of_decide_eq_true (List.mem_filter.1 he).2).trans (of_decide_eq_true (List.mem_filter.1 hf).2).symm
    exact Prod.ext (Prod.mk.inj heq).1 (Prod.ext (Prod.mk.inj heq).2 hkeys)
  have hsub : ((s'.forwarded.filter fun e => e.2.2 = key).map fun e => (e.1, e.2.1)) ⊆
      Finset.univ.toList.flatMap fun v => (T.peers v).map fun w => (v, w) := by
    intro link hlink
    obtain ⟨e, he, rfl⟩ := List.mem_map.1 hlink
    simpa using hflooded.peer e (List.mem_of_mem_filter he)
  have hle := (List.subperm_of_subset hpairs hsub).length_le
  simpa [List.length_flatMap] using hle

/-- Three daemons, all connected: bob announces an address to one of them, which hands the line on to the third. -/
theorem flood_once_three :
    ∃ (T : Topology (Fin 3)) (s s' : Mesh (Fin 3)), s.forwarded = [] ∧ ReflTransGen (Step T) s s' ∧
      s'.forwarded.length = 1 ∧ s'.forwarded.Nodup ∧
      ∀ key, (s'.forwarded.filter fun e => e.2.2 = key).length ≤ ∑ v, (T.peers v).length := by
  let T : Topology (Fin 3) := ⟨fun v => (List.finRange 3).filter (· ≠ v), by decide⟩
  let m := Daemon.sampleMsg .addSubnet .addSubnet "bob" 1 1
  have hforwards : (Daemon.sampleDaemon.handle m).toOption.any fun r => (forwards r.2).length == 1 := by decide
  cases hhandle : Daemon.sampleDaemon.handle m with
  | error e => simp [hhandle, Except.toOption] at hforwards
  | ok r =>
    obtain ⟨d', es⟩ := r
    have hlen : (forwards es).length = 1 := by simpa [hhandle, Except.toOption] using hforwards
    let s : Mesh (Fin 3) := ⟨fun _ => Daemon.sampleDaemon, [(0, 1, m.body)], []⟩
    have hflight : s.flight = [] ++ (0, 1, m.body) :: [] := rfl
    have hrun := ReflTransGen.single (Step.deliver (T := T) hflight hhandle true)
    refine ⟨T, s, _, rfl, hrun, ?_, flood_once rfl hrun⟩
    obtain ⟨body, hbody⟩ := List.length_eq_one_iff.1 hlen
    simp only [s, hbody, List.nil_append, if_true, List.flatMap_singleton, List.length_map]
    decide

end Mesh

end Tincr.Gossip

import Tincr.Gossip.Mesh

/-!
Reports of one name alternate. The bit of a live node is what was last reported under its name, and a name
that no live node has was last reported down: creating a node unreachable, deleting unreachable nodes only,
and reporting every change of the bit keep this, whatever becomes of the slots.
-/

namespace Tincr

open Function Tincr.Graph

def reports (log : List (String × Bool)) (name : String) : List Bool := (log.filter fun p => p.1 == name).map (·.2)

def isUp (log : List (String × Bool)) (name : String) : Bool := (reports log name).getLast?.getD false

def Alternates (l : List Bool) : Prop := l.IsChain (· ≠ ·) ∧ l.head? ≠ some false

theorem reports_snoc (log : List (String × Bool)) (name name' : String) (b : Bool) :
    reports (log ++ [(name', b)]) name = if name' = name then reports log name ++ [b] else reports log name := by
  rw [reports, List.filter_append, List.map_append]
  split_ifs with h
  · rw [List.filter_cons_of_pos (by simpa using h)]
    rfl
  · rw [List.filter_cons_of_neg (by simpa using h)]
    exact List.append_nil _

theorem isUp_snoc (log : List (String × Bool)) (name name' : String) (b : Bool) :
    isUp (log ++ [(name', b)]) name = if name' = name then b else isUp log name := by
  rw [isUp, reports_snoc]
  split_ifs
  · simp
  · rfl

theorem Alternates.snoc {l : List Bool} (h : Alternates l) : Alternates (l ++ [!l.getLast?.getD false]) := by
  obtain ⟨hchain, hhead⟩ := h
  refine ⟨List.isChain_append.2 ⟨hchain, by simp, fun a ha b hb => ?_⟩, ?_⟩
  · simp only [List.head?_cons, Option.mem_some_iff] at hb
    rw [Option.mem_def] at ha
    simp [← hb, ha]
  · cases l with
    | nil => simp
    | cons a l => simpa using hhead

/-- The bits and the names of the nodes, the ids by name and the reports agree. -/
structure Told (labels : NodeId → Option (String × Bool)) (myself : NodeId) (nodeIds : String → Option NodeId)
    (log : List (String × Bool)) : Prop where
  ids : ∀ name n, nodeIds name = some n ↔ ∃ b, labels n = some (name, b)
  self : ∃ name, labels myself = some (name, true)
  bit : ∀ n name b, labels n = some (name, b) → n ≠ myself → b = isUp log name
  gone : ∀ name, nodeIds name = none → isUp log name = false
  alternates : ∀ name, Alternates (reports log name)

namespace Told

variable {labels : NodeId → Option (String × Bool)} {myself n : NodeId} {nodeIds : String → Option NodeId}
  {log : List (String × Bool)} {name : String}

theorem start (name : String) :
    Told (update (fun _ => none) 0 (some (name, true))) 0 (update (fun _ => none) name (some 0)) [] where
  ids name' n := by
    simp only [update_apply]
    split_ifs with hname hn hn <;> simp_all [eq_comm]
  self := ⟨name, by simp⟩
  bit n name' b hn hne := by
    rw [update_of_ne hne] at hn
    cases hn
  gone _ _ := rfl
  alternates _ := ⟨List.isChain_nil, by simp [reports]⟩

theorem create (h : Told labels myself nodeIds log) (hname : nodeIds name = none) (hn : labels n = none) :
    Told (update labels n (some (name, false))) myself (update nodeIds name (some n)) log where
  ids name' n' := by
    have hids := h.ids name' n'
    simp only [update_apply]
    by_cases hn' : n' = n
    · subst hn'
      by_cases hname' : name' = name
      · simp [hname']
      · rw [if_neg hname', hids, if_pos rfl, hn]
        simp [Ne.symm hname']
    · rw [if_neg hn', ← hids]
      by_cases hname' : name' = name
      · subst hname'
        simp [hname, Ne.symm hn']
      · rw [if_neg hname']
  self := by
    obtain ⟨name', hself⟩ := h.self
    have hne : myself ≠ n := by
      rintro rfl
      rw [hn] at hself
      cases hself
    exact ⟨name', by rw [update_of_ne hne, hself]⟩
  bit n' name' b hn' hne := by
    by_cases heq : n' = n
    · subst heq
      rw [update_self] at hn'
      obtain ⟨rfl, rfl⟩ := Prod.mk.inj (Option.some.inj hn')
      exact (h.gone name hname).symm
    · rw [update_of_ne heq] at hn'
      exact h.bit n' name' b hn' hne
  gone name' hname' := by
    by_cases heq : name' = name
    · exact heq ▸ h.gone name hname
    · rw [update_of_ne heq] at hname'
      exact h.gone name' hname'
  alternates := h.alternates

theorem ne_myself (h : Told labels myself nodeIds log) (hn : labels n = some (name, false)) : n ≠ myself := by
  rintro rfl
  obtain ⟨name', hself⟩ := h.self
  rw [hn] at hself
  simp at hself

theorem forget (h : Told labels myself nodeIds log) (hn : labels n = some (name, false)) :
    Told (update labels n none) myself (update nodeIds name none) log where
  ids name' n' := by
    have hids := h.ids name' n'
    simp only [update_apply]
    by_cases hn' : n' = n
    · subst hn'
      by_cases hname' : name' = name
      · simp [hname']
      · rw [if_neg hname', hids, if_pos rfl, hn]
        simp [Ne.symm hname']
    · by_cases hname' : name' = name
      · subst hname'
        rw [if_pos rfl, if_neg hn', ← hids, (h.ids name' n).2 ⟨false, hn⟩]
        simp [Ne.symm hn']
      · rw [if_neg hname', if_neg hn', hids]
  self := by
    obtain ⟨name', hself⟩ := h.self
    exact ⟨name', by rw [update_of_ne (h.ne_myself hn).symm, hself]⟩
  bit n' name' b hn' hne := by
    by_cases heq : n' = n
    · subst heq
      rw [update_self] at hn'
      cases hn'
    · rw [update_of_ne heq] at hn'
      exact h.bit n' name' b hn' hne
  gone name' hname' := by
    by_cases heq : name' = name
    · exact heq ▸ (h.bit n name false hn (h.ne_myself hn)).symm
    · rw [update_of_ne heq] at hname'
      exact h.gone name' hname'
  alternates := h.alternates

theorem report (h : Told labels myself nodeIds log) {b : Bool} (hn : labels n = some (name, b)) (hne : n ≠ myself) :
    Told (update labels n (some (name, !b))) myself nodeIds (log ++ [(name, !b)]) where
  ids name' n' := by
    rw [h.ids name' n', update_apply]
    split_ifs with hn'
    · subst hn'
      simp [hn]
    · rfl
  self := by
    obtain ⟨name', hself⟩ := h.self
    exact ⟨name', by rw [update_of_ne hne.symm, hself]⟩
  bit n' name' b' hn' hne' := by
    rw [isUp_snoc]
    by_cases heq : n' = n
    · subst heq
      rw [update_self] at hn'
      obtain ⟨rfl, rfl⟩ := Prod.mk.inj (Option.some.inj hn')
      rw [if_pos rfl]
    · rw [update_of_ne heq] at hn'
      -- another node has another name
      have hother : name ≠ name' := by
        rintro rfl
        have hsome := (h.ids name n).2 ⟨b, hn⟩
        rw [(h.ids name n').2 ⟨b', hn'⟩] at hsome
        exact heq (Option.some.inj hsome)
      rw [if_neg hother]
      exact h.bit n' name' b' hn' hne'
  gone name' hname' := by
    have hother : name ≠ name' := by
      rintro rfl
      rw [(h.ids name n).2 ⟨b, hn⟩] at hname'
      cases hname'
    rw [isUp_snoc, if_neg hother]
    exact h.gone name' hname'
  alternates name' := by
    rw [reports_snoc]
    split_ifs with heq
    · subst heq
      rw [h.bit n name b hn hne]
      exact (h.alternates name).snoc
    · exact h.alternates name'

end Told

namespace Graph

def labels (g : Graph) (n : NodeId) : Option (String × Bool) := (g.nodes.get n).map Node.label

variable {g : Graph}

theorem labels_eq_some {n : NodeId} {name : String} {b : Bool} :
    g.labels n = some (name, b) ↔ ∃ x, g.nodes.get n = some x ∧ x.name = name ∧ x.reachable = b := by
  simp [labels, Node.label]

theorem SameNodes.labels_eq {g' : Graph} (h : SameNodes g g') : g'.labels = g.labels := funext h.2

theorem labels_setReachable (h : g.Inv) {n : NodeId} {name : String} {b : Bool} (hn : g.labels n = some (name, b))
    (r : Bool) :
    ∃ g', g.setReachable n r = .ok g' ∧ g'.Inv ∧ g'.edges = g.edges ∧
      g'.nodes.cells.length = g.nodes.cells.length ∧ g'.labels = update g.labels n (some (name, r)) := by
  obtain ⟨x, hx, rfl, rfl⟩ := labels_eq_some.1 hn
  obtain ⟨g', hrun, hinv, hedges, hnodes⟩ := h.setReachable hx r
  refine ⟨g', hrun, hinv, hedges, by rw [hnodes, Slab.length_modify], funext fun m => ?_⟩
  rw [labels, hnodes, Slab.get_modify, update_apply]
  by_cases hm : m = n
  · subst hm
    simp [hx, Node.label]
  · rw [if_neg (Ne.symm hm), if_neg hm]
    rfl

end Graph

namespace Mesh

variable {g g' : Graph} {m : Mesh}

theorem purgeEdges_spec (h : g.Inv) (l : List (NodeId × String)) :
    ∃ g', purgeEdges g l = .ok g' ∧ g'.Inv ∧ SameNodes g g' := by
  induction l generalizing g with
  | nil => exact ⟨g, rfl, h, rfl, fun _ => rfl⟩
  | cons p l ih =>
    have hdrain : ∃ g₁, (g.nodeEdges p.1).foldlM (fun g eid => do pure (← g.delEdge eid).2) g = .ok g₁ ∧ g₁.Inv ∧
        SameNodes g g₁ := by
      cases hx : g.nodes.get p.1 with
      | none => exact ⟨g, by rw [nodeEdges, hx]; rfl, h, rfl, fun _ => rfl⟩
      | some x =>
        obtain ⟨g₁, hrun, hinv, hsame, -⟩ := h.drain x.edges hx
        exact ⟨g₁, by rw [nodeEdges, hx]; exact hrun, hinv, hsame⟩
    obtain ⟨g₁, hrun, hinv, hsame⟩ := hdrain
    obtain ⟨g₂, hrun₂, hinv₂, hsame₂⟩ := ih hinv
    refine ⟨g₂, ?_, hinv₂, hsame₂.1.trans hsame.1, fun n => (hsame₂.2 n).trans (hsame.2 n)⟩
    rw [purgeEdges, List.foldlM_cons, hrun]
    exact hrun₂

/-- The graph keeps its invariant, and the reports fit the bits. -/
structure Sound (m : Mesh) : Prop where
  inv : m.graph.Inv
  told : Told m.graph.labels m.myself m.nodeIds m.log

/-- A node keeps its name and its bit, or it was down and is deleted. -/
def Keeps (g g' : Graph) : Prop :=
  ∀ n, g'.labels n = g.labels n ∨ g'.labels n = none ∧ ∃ name, g.labels n = some (name, false)

theorem Keeps.trans {g'' : Graph} (h : Keeps g g') (h' : Keeps g' g'') : Keeps g g'' := by
  intro n
  rcases h' n with hsame' | ⟨hnone, name, hdown⟩
  · rw [hsame']
    exact h n
  · rcases h n with hsame | ⟨hnone', -⟩
    · exact .inr ⟨hnone, name, hsame ▸ hdown⟩
    · rw [hnone'] at hdown
      cases hdown

theorem purgeNodes_spec {m : Mesh} (h : m.Sound) (kept : String → Bool) {targets : List NodeId}
    (htargets : ∀ e d, m.graph.edges.get e = some d → d.toNode ∈ targets) {l : List (NodeId × String)}
    (hl : ∀ p ∈ l, m.graph.labels p.1 = some (p.2, false)) (hnodup : (l.map (·.1)).Nodup) :
    ∃ m', purgeNodes kept targets l m = .ok m' ∧ m'.Sound ∧ m'.log = m.log ∧ m'.myself = m.myself ∧
      m'.graph.nodes.cells.length = m.graph.nodes.cells.length ∧ Keeps m.graph m'.graph := by
  induction l generalizing m with
  | nil => exact ⟨m, rfl, h, rfl, rfl, rfl, fun _ => .inl rfl⟩
  | cons p l ih =>
    obtain ⟨nid, name⟩ := p
    rw [List.map_cons, List.nodup_cons] at hnodup
    obtain ⟨hfresh, hnodup⟩ := hnodup
    have hrest : ∀ p ∈ l, m.graph.labels p.1 = some (p.2, false) := fun p hp => hl p (List.mem_cons_of_mem _ hp)
    have hlabel := hl (nid, name) List.mem_cons_self
    obtain ⟨x, hx, hxname, hdown⟩ := labels_eq_some.1 hlabel
    rw [purgeNodes]
    split_ifs with hup hpointed hkept
    · exact ih h htargets hrest hnodup
    · exact ⟨m, rfl, h, rfl, rfl, rfl, fun _ => .inl rfl⟩
    · exact ih h htargets hrest hnodup
    · obtain ⟨g', hrun, hinv, hlen, hlabels, hedges⟩ := h.inv.delNode hx fun e d hd hto => by
        rw [← show d.toNode = nid from hto] at hpointed
        exact hpointed (htargets e d hd)
      have hlabels' : g'.labels = update m.graph.labels nid none := by
        funext n
        rw [labels, hlabels, update_apply]
        simp only [eq_comm, labels]
      obtain ⟨m', hrun', hsound, hlog, hself, hlen', hkeeps⟩ :=
        @ih { m with graph := g', nodeIds := update m.nodeIds name none }
          ⟨hinv, by rw [hlabels']; exact h.told.forget hlabel⟩
          (fun e d hd => by
            obtain ⟨r, hr⟩ := hedges e d hd
            have hto := htargets e _ hr
            exact hto)
          (fun p hp => by
            have hne : p.1 ≠ nid := fun heq => hfresh (List.mem_map.2 ⟨p, hp, heq⟩)
            rw [hlabels', update_of_ne hne]
            exact hrest p hp)
          hnodup
      refine ⟨m', ?_, hsound, hlog, hself, hlen'.trans hlen, Keeps.trans (fun n => ?_) hkeeps⟩
      · rw [hrun]
        exact hrun'
      · rw [hlabels', update_apply]
        split_ifs with hn
        · exact .inr ⟨rfl, name, hn ▸ hlabel⟩
        · exact .inl rfl

theorem nodeIds_eq (hsize : g.nodes.cells.length < 2 ^ 32) :
    g.nodeIds = .ok ((List.range g.nodes.cells.length).filter fun n => (g.nodes.get n).isSome) := if_neg (by omega)

theorem mem_liveIds {n : NodeId} :
    n ∈ (List.range g.nodes.cells.length).filter (fun n => (g.nodes.get n).isSome) ↔ (g.nodes.get n).isSome := by
  rw [List.mem_filter, List.mem_range, and_iff_right_iff_imp]
  intro hn
  obtain ⟨x, hx⟩ := Option.isSome_iff_exists.1 hn
  exact Slab.lt_length_of_get hx

theorem purge_spec (h : m.Sound) (hsize : m.graph.nodes.cells.length < 2 ^ 32) (kept : String → Bool) :
    ∃ m', m.purge kept = .ok m' ∧ m'.Sound ∧ m'.log = m.log ∧ m'.myself = m.myself ∧
      m'.graph.nodes.cells.length = m.graph.nodes.cells.length ∧ Keeps m.graph m'.graph := by
  generalize hl : ((List.range m.graph.nodes.cells.length).filter fun n => (m.graph.nodes.get n).isSome).filterMap
    (fun nid => (m.graph.node nid).bind fun x => if x.reachable then none else some (nid, x.name)) = l
  obtain ⟨g, hrun, hinv, hsame⟩ := purgeEdges_spec h.inv l
  have hlabels := hsame.labels_eq
  have hdown : ∀ p ∈ l, g.labels p.1 = some (p.2, false) := by
    intro p hp
    rw [← hl, List.mem_filterMap] at hp
    obtain ⟨n, -, hn⟩ := hp
    obtain ⟨x, hx, hp⟩ := Option.bind_eq_some_iff.1 hn
    split_ifs at hp with hreach
    obtain rfl := Option.some.inj hp
    rw [hlabels, labels_eq_some]
    exact ⟨x, hx, rfl, by simpa using hreach⟩
  have hnodup : (l.map (·.1)).Nodup := by
    have hpairs : ∀ n p, ((m.graph.node n).bind fun x => if x.reachable then none else some (n, x.name)) = some p →
        p.1 = n := by
      intro n p hp
      obtain ⟨x, -, hp⟩ := Option.bind_eq_some_iff.1 hp
      split_ifs at hp
      rw [← Option.some.inj hp]
    rw [← hl, List.Nodup, List.pairwise_map, List.pairwise_filterMap]
    refine (List.nodup_range.filter _).imp fun hne p hp q hq => ?_
    rw [hpairs _ _ hp, hpairs _ _ hq]
    exact hne
  obtain ⟨m', hrun', hsound, hlog, hself, hlen, hkeeps⟩ := @purgeNodes_spec { m with graph := g }
    ⟨hinv, by rw [hlabels]; exact h.told⟩ kept (g.edges.cells.filterMap fun c => c.map (·.toNode))
    (fun e d hd => List.mem_filterMap.2 ⟨some d, List.mem_of_getElem? (Slab.get_eq_some.1 hd), rfl⟩) l hdown hnodup
  refine ⟨m', ?_, hsound, hlog, hself, hlen.trans hsame.1, fun n => ?_⟩
  · rw [purge, nodeIds_eq hsize]
    simp only [bind, Except.bind, hl, hrun]
    exact hrun'
  · rw [← hlabels]
    exact hkeeps n

/-- Transitions are reported under names, which the bits do not touch. -/
theorem reported_congr (h : ∀ n, (g'.labels n).map (·.1) = (g.labels n).map (·.1)) : reported g' = reported g := by
  have hname : ∀ n, (g'.node n).map (·.name) = (g.node n).map (·.name) := by
    intro n
    have hn := h n
    rw [labels, labels, Option.map_map, Option.map_map] at hn
    exact hn
  funext t
  cases t <;> simp only [reported, hname]

theorem reported_eq {n : NodeId} {name : String} {b : Bool} (hn : g.labels n = some (name, b)) :
    ((g.node n).map (·.name)).getD "<unknown>" = name := by
  obtain ⟨x, hx, hname, -⟩ := labels_eq_some.1 hn
  rw [Graph.node, hx, ← hname]
  rfl

def compared (labels : NodeId → Option (String × Bool)) (myself : NodeId) (routes : NodeId → Option Route)
    (l : List NodeId) (n : NodeId) : Option (String × Bool) :=
  (labels n).map fun p => (p.1, if n ∈ l ∧ n ≠ myself then (routes n).isSome else p.2)

section Diff

variable {myself : NodeId} {routes : NodeId → Option Route} {nodeIds : String → Option NodeId} {log : List (String × Bool)}

/-- One node: its bit is the table's, and a change is reported. -/
theorem diffNode_spec {g : Graph} {ts : List Transition} (h : g.Inv)
    (htold : Told g.labels myself nodeIds (log ++ ts.map (reported g))) {n : NodeId} (hn : (g.nodes.get n).isSome) :
    ∃ ts' g', diffNode myself routes (ts, g) n = .ok (ts', g') ∧ g'.Inv ∧ g'.edges = g.edges ∧
      g'.nodes.cells.length = g.nodes.cells.length ∧ g'.labels = compared g.labels myself routes [n] ∧
      Told g'.labels myself nodeIds (log ++ ts'.map (reported g')) := by
  obtain ⟨x, hx⟩ := Option.isSome_iff_exists.1 hn
  have hlabel : g.labels n = some (x.name, x.reachable) := labels_eq_some.2 ⟨x, hx, rfl, rfl⟩
  rw [diffNode]
  split_ifs with hself
  · refine ⟨ts, g, rfl, h, rfl, rfl, funext fun m => ?_, htold⟩
    simp [compared, hself]
  simp only [Graph.node, hx]
  split_ifs with hsame
  · refine ⟨ts, g, rfl, h, rfl, rfl, funext fun m => ?_, htold⟩
    by_cases hm : m = n
    · simp [compared, hm, hlabel, hself, hsame]
    · simp [compared, hm]
  · have hflip : (routes n).isSome = !x.reachable := Bool.eq_not_of_ne hsame
    obtain ⟨g', hrun, hinv, hedges, hlen, hlabels⟩ := labels_setReachable h hlabel (routes n).isSome
    have hreported : reported g' = reported g := reported_congr fun m => by
      rw [hlabels, update_apply]
      split_ifs with hm
      · rw [hm, hlabel]
        rfl
      · rfl
    have hcompared : g'.labels = compared g.labels myself routes [n] := by
      funext m
      rw [hlabels, update_apply, compared]
      split_ifs with hm hboth hboth
      · simp [hm, hlabel]
      · exact (hboth ⟨by simp [hm], hm ▸ hself⟩).elim
      · exact (hm (by simpa using hboth.1)).elim
      · simp
    have hnew := htold.report hlabel hself
    rw [← hflip] at hnew
    cases hroute : routes n with
    | none =>
      refine ⟨ts ++ [.becameUnreachable n], g', ?_, hinv, hedges, hlen, hcompared, ?_⟩
      · rw [hroute] at hrun
        simp only [bind, Except.bind, hrun]
        rfl
      · rw [hroute] at hnew hlabels
        rw [hlabels, hreported, List.map_append, ← List.append_assoc]
        simp only [List.map_cons, List.map_nil, reported, reported_eq hlabel]
        exact hnew
    | some r =>
      refine ⟨ts ++ [.becameReachable n r.via], g', ?_, hinv, hedges, hlen, hcompared, ?_⟩
      · rw [hroute] at hrun
        simp only [bind, Except.bind, hrun]
        rfl
      · rw [hroute] at hnew hlabels
        rw [hlabels, hreported, List.map_append, ← List.append_assoc]
        simp only [List.map_cons, List.map_nil, reported, reported_eq hlabel]
        exact hnew

theorem diffFold_spec {g : Graph} {ts : List Transition} (h : g.Inv)
    (htold : Told g.labels myself nodeIds (log ++ ts.map (reported g))) {l : List NodeId}
    (hl : ∀ n ∈ l, (g.nodes.get n).isSome) :
    ∃ ts' g', l.foldlM (diffNode myself routes) (ts, g) = .ok (ts', g') ∧ g'.Inv ∧ g'.edges = g.edges ∧
      g'.nodes.cells.length = g.nodes.cells.length ∧ g'.labels = compared g.labels myself routes l ∧
      Told g'.labels myself nodeIds (log ++ ts'.map (reported g')) := by
  induction l generalizing g ts with
  | nil => exact ⟨ts, g, rfl, h, rfl, rfl, funext fun m => by simp [compared], htold⟩
  | cons n l ih =>
    obtain ⟨ts₁, g₁, hrun, hinv, hedges, hlen, hlabels, htold₁⟩ :=
      @diffNode_spec _ routes _ _ _ _ h htold _ (hl n List.mem_cons_self)
    have hl₁ : ∀ m ∈ l, (g₁.nodes.get m).isSome := by
      intro m hm
      have hsome : (g₁.labels m).isSome := by
        rw [hlabels]
        simpa [compared, labels] using hl m (List.mem_cons_of_mem _ hm)
      simpa [labels] using hsome
    obtain ⟨ts₂, g₂, hrun₂, hinv₂, hedges₂, hlen₂, hlabels₂, htold₂⟩ := ih hinv htold₁ hl₁
    refine ⟨ts₂, g₂, ?_, hinv₂, hedges₂.trans hedges, hlen₂.trans hlen, ?_, htold₂⟩
    · rw [List.foldlM_cons, hrun]
      exact hrun₂
    · rw [hlabels₂, hlabels]
      funext m
      simp only [compared, Option.map_map, Function.comp_def, List.mem_cons, List.not_mem_nil, or_false]
      congr 1
      funext p
      by_cases hm : m ∈ l ∧ m ≠ myself
      · rw [if_pos hm, if_pos ⟨.inr hm.1, hm.2⟩]
      · rw [if_neg hm]
        by_cases hmn : m = n
        · simp [hmn]
        · simp [hmn, hm]

end Diff

/-- The bit of a live node says whether it is joined to the daemon. -/
def Current (m : Mesh) : Prop :=
  ∀ n x, m.graph.nodes.get n = some x → (x.reachable = true ↔ m.graph.Reach m.myself n)

theorem Sound.self_live (h : m.Sound) : (m.graph.nodes.get m.myself).isSome := by
  obtain ⟨name, hself⟩ := h.told.self
  obtain ⟨x, hx, -⟩ := labels_eq_some.1 hself
  rw [hx]
  rfl

/-- `run_graph_and_log` returns, unless the slots cannot be counted in 32 bits. -/
theorem runGraphAndLog_spec (h : m.Sound) :
    (2 ^ 32 ≤ m.graph.nodes.cells.length ∧ m.runGraphAndLog = some (.error .u32Slots)) ∨
      ∃ m', m.runGraphAndLog = some (.ok m') ∧ m'.Sound ∧ m'.graph.nodes.cells.length < 2 ^ 32 ∧ m'.Current ∧
        ∀ n, (m'.graph.labels n).map (·.1) = (m.graph.labels n).map (·.1) := by
  have hlive := h.self_live
  obtain ⟨st, hsearch⟩ := search_returns h.inv hlive fun n => (m.lastRoutes[n]?.join).map (·.nexthop)
  have hsssp := ssspSticky_eq hlive hsearch
  generalize (if m.lastRoutes = [] then st.route else stickyPostPass st.route m.lastRoutes st.stickyWdist) = routes
    at hsssp
  have hreach := ssspSticky_reach h.inv hlive hsssp
  by_cases hsize : 2 ^ 32 ≤ m.graph.nodes.cells.length
  · refine .inl ⟨hsize, ?_⟩
    have hids : m.graph.nodeIds = .error .u32Slots := if_pos hsize
    simp only [runGraphAndLog, runGraph, hsssp, diffReachability, hids]
    rfl
  · have hsize : m.graph.nodes.cells.length < 2 ^ 32 := not_le.1 hsize
    obtain ⟨ts, g, hdiff, hinv, hedges, hlen, hlabels, htold⟩ := @diffFold_spec m.myself routes m.nodeIds m.log m.graph
      [] h.inv (by simpa using h.told) _ fun n hn => mem_liveIds.1 hn
    obtain ⟨es, hmst⟩ := mst_returns hinv
    refine .inr ⟨{ m with
      graph := g, lastRoutes := m.graph.table routes, lastMst := es, log := m.log ++ ts.map (reported g) }, ?_,
      ⟨hinv, htold⟩, by rw [← hlen] at hsize; exact hsize, ?_, fun n => ?_⟩
    · simp only [runGraphAndLog, runGraph, hsssp, diffReachability, nodeIds_eq hsize, bind, Except.bind, hdiff, hmst]
      rfl
    · intro n x hx
      have hlabel : compared m.graph.labels m.myself routes _ n = some (x.name, x.reachable) :=
        hlabels ▸ labels_eq_some.2 ⟨x, hx, rfl, rfl⟩
      obtain ⟨⟨name, b⟩, hb, hxb⟩ := Option.map_eq_some_iff.1 hlabel
      have hbit := (Prod.mk.inj hxb).2
      have hsame : g.Reach m.myself n ↔ m.graph.Reach m.myself n := by
        rw [Reach, Reach, show g.Link = m.graph.Link by funext a b; rw [Link, Link, hedges]]
      show x.reachable = true ↔ g.Reach m.myself n
      rw [hsame, ← hreach n, ← hbit]
      obtain ⟨y, hy, -⟩ := labels_eq_some.1 hb
      by_cases hn : n = m.myself
      · -- the daemon itself is up and reaches itself
        obtain ⟨name', hself⟩ := h.told.self
        rw [if_neg fun hboth => hboth.2 hn, hreach n]
        rw [hn, hself] at hb
        have hup := (Prod.mk.inj (Option.some.inj hb)).2
        rw [hn]
        exact ⟨fun _ => .refl, fun _ => hup.symm⟩
      · rw [if_pos ⟨mem_liveIds.2 (by rw [hy]; rfl), hn⟩]
    · show (g.labels n).map _ = _
      rw [hlabels, compared, Option.map_map]
      rfl

/-- What the handlers of gossip look at before a change. -/
def Change.Allowed (m : Mesh) : Change → Prop
  | node _ => True
  | addEdge fromNode toNode _ _ => (m.graph.nodes.get fromNode).isSome ∧ (m.graph.nodes.get toNode).isSome ∧
      fromNode ≠ toNode ∧ ∀ c ∈ m.graph.edges.cells, ∀ d ∈ c, d.fromNode = fromNode → d.toNode ≠ toNode
  | updateEdge e _ _ => Issued m.graph.edges e
  | delEdge e => Issued m.graph.edges e
  | purge _ => True

def Change.Fits (m : Mesh) : Change → Prop
  | node name => m.nodeIds name ≠ none ∨ m.graph.nodes.free ≠ [] ∨ m.graph.nodes.cells.length + 1 < 2 ^ 32
  | addEdge .. => HasSlot m.graph.edges
  | _ => True

def Spared (g g' : Graph) : Prop := ∀ n name b, g.labels n = some (name, b) →
  (g'.labels n).map (·.1) = some name ∨ g'.labels n = none ∧ b = false

theorem Keeps.spared (h : Keeps g g') : Spared g g' := by
  intro n name b hn
  rcases h n with hsame | ⟨hnone, name', hdown⟩
  · exact .inl (by rw [hsame, hn]; rfl)
  · rw [hn] at hdown
    exact .inr ⟨hnone, (Prod.mk.inj (Option.some.inj hdown)).2⟩

theorem spared_of_eq (h : g'.labels = g.labels) : Spared g g' := Keeps.spared fun n => .inl (by rw [h])

theorem lookupOrAddNode_spec (h : m.Sound) (hsize : m.graph.nodes.cells.length < 2 ^ 32) (name : String) :
    ∃ id m', m.lookupOrAddNode name = .ok (id, m') ∧ m'.Sound ∧
      ((Change.node name).Fits m → m'.graph.nodes.cells.length < 2 ^ 32) ∧ m'.log = m.log ∧ m'.myself = m.myself ∧
      Spared m.graph m'.graph := by
  rw [lookupOrAddNode]
  cases hname : m.nodeIds name with
  | some id => exact ⟨id, m, rfl, h, fun _ => hsize, rfl, rfl, spared_of_eq rfl⟩
  | none =>
    have hnew : ∀ n x, m.graph.nodes.get n = some x → x.name ≠ name := by
      rintro n x hx rfl
      rw [(h.told.ids x.name n).2 ⟨x.reachable, labels_eq_some.2 ⟨x, hx, rfl, rfl⟩⟩] at hname
      cases hname
    obtain ⟨g₁, hrun, hinv, -, hnodes⟩ := h.inv.addNode (fun hfull => absurd hfull.2 (by omega)) hnew
    have hlabels : g₁.labels = update m.graph.labels m.graph.nodes.next (some (name, true)) := by
      funext n
      rw [labels, hnodes, Slab.get_insert, update_apply]
      by_cases hn : n = m.graph.nodes.next
      · rw [if_pos hn.symm, if_pos hn]
        rfl
      · rw [if_neg (Ne.symm hn), if_neg hn]
        rfl
    obtain ⟨g₂, hrun₂, hinv₂, -, hlen, hlabels₂⟩ :=
      labels_setReachable hinv (show g₁.labels _ = _ by rw [hlabels, update_self]) false
    rw [hlabels, update_idem] at hlabels₂
    have hfree : m.graph.labels m.graph.nodes.next = none := by rw [labels, Slab.get_next]; rfl
    refine ⟨m.graph.nodes.next, { m with
      graph := g₂, nodeIds := update m.nodeIds name (some m.graph.nodes.next) }, ?_,
      ⟨hinv₂, by rw [hlabels₂]; exact h.told.create hname hfree⟩, fun hfits => ?_, rfl, rfl, fun n name' b hn => ?_⟩
    · simp only [bind, Except.bind, hrun, hrun₂]
      rfl
    · have hlen₁ : g₂.nodes.cells.length =
          if m.graph.nodes.free = [] then m.graph.nodes.cells.length + 1 else m.graph.nodes.cells.length := by
        rw [hlen, hnodes, Slab.length_insert]
      show g₂.nodes.cells.length < 2 ^ 32
      rw [hlen₁]
      split_ifs with hempty
      · exact (hfits.resolve_left (not_not.2 hname)).resolve_left (not_not.2 hempty)
      · exact hsize
    · have hne : n ≠ m.graph.nodes.next := by
        rintro rfl
        rw [hfree] at hn
        cases hn
      exact .inl (by rw [hlabels₂, update_of_ne hne, hn]; rfl)

theorem apply_spec (h : m.Sound) (hsize : m.graph.nodes.cells.length < 2 ^ 32) {c : Change} (hc : c.Allowed m) :
    (¬ c.Fits m ∧ ∃ p, c.apply m = .error p) ∨ ∃ m', c.apply m = .ok m' ∧ m'.Sound ∧
      (c.Fits m → m'.graph.nodes.cells.length < 2 ^ 32) ∧ m'.log = m.log ∧ m'.myself = m.myself ∧
      Spared m.graph m'.graph := by
  -- the changes of edges leave the nodes as they are
  have hedge : ∀ {g' : Graph}, g'.Inv → SameNodes m.graph g' → Sound { m with graph := g' } ∧
      (c.Fits m → g'.nodes.cells.length < 2 ^ 32) ∧ Spared m.graph g' := fun hinv hsame =>
    ⟨⟨hinv, by rw [hsame.labels_eq]; exact h.told⟩, fun _ => hsame.1 ▸ hsize, spared_of_eq hsame.labels_eq⟩
  cases c with
  | node name =>
    obtain ⟨id, m', hrun, hsound, hfits, hlog, hself, hspared⟩ := lookupOrAddNode_spec h hsize name
    exact .inr ⟨m', by rw [Change.apply, hrun]; rfl, hsound, hfits, hlog, hself, hspared⟩
  | addEdge a b weight options =>
    obtain ⟨hx, hy, hne, hnew⟩ := hc
    obtain ⟨x, hx⟩ := Option.isSome_iff_exists.1 hx
    obtain ⟨y, hy⟩ := Option.isSome_iff_exists.1 hy
    by_cases hslot : HasSlot m.graph.edges
    · obtain ⟨g', _, hrun, hinv, hsame, -⟩ :=
        h.inv.addEdge hslot hx hy hne (fun e d hd => forall_cells hnew hd) weight options
      obtain ⟨hsound, hfits, hspared⟩ := hedge hinv hsame
      exact .inr ⟨{ m with graph := g' }, by rw [Change.apply, hrun]; rfl, hsound, hfits, rfl, rfl, hspared⟩
    · refine .inl ⟨hslot, .u32Slots, ?_⟩
      rw [Change.apply, Graph.addEdge, allocSlot, if_pos (not_not.1 hslot)]
      rfl
  | updateEdge e weight options =>
    rcases Issued.cases hc with ⟨d, hd⟩ | hfree
    · obtain ⟨g', hrun, hinv, hnodes, -⟩ := h.inv.updateEdge hd weight options
      obtain ⟨hsound, hfits, hspared⟩ := hedge hinv ⟨by rw [hnodes], fun n => by rw [hnodes]⟩
      exact .inr ⟨{ m with graph := g' }, by rw [Change.apply, hrun]; rfl, hsound, hfits, rfl, rfl, hspared⟩
    · exact .inr ⟨m, by rw [Change.apply, Graph.updateEdge, hfree]; rfl, h, fun _ => hsize, rfl, rfl, spared_of_eq rfl⟩
  | delEdge e =>
    rcases Issued.cases hc with ⟨d, hd⟩ | hfree
    · obtain ⟨x, hx⟩ := Option.isSome_iff_exists.1 (h.inv.ends hd).1
      obtain ⟨g', hrun, hinv, hsame, -⟩ := h.inv.delEdge hd hx
      obtain ⟨hsound, hfits, hspared⟩ := hedge hinv hsame
      exact .inr ⟨{ m with graph := g' }, by rw [Change.apply, hrun]; rfl, hsound, hfits, rfl, rfl, hspared⟩
    · exact .inr ⟨m, by rw [Change.apply, Graph.delEdge, hfree]; rfl, h, fun _ => hsize, rfl, rfl, spared_of_eq rfl⟩
  | purge kept =>
    obtain ⟨m', hrun, hsound, hlog, hself, hlen, hkeeps⟩ := purge_spec h hsize kept
    exact .inr ⟨m', hrun, hsound, fun _ => hlen ▸ hsize, hlog, hself, hkeeps.spared⟩

theorem init_sound (name : String) : (init name).Sound where
  inv := by
    obtain ⟨g, hrun, hinv, -⟩ := @Inv.addNode _ inv_new name (by decide) fun n x hx => by cases hx
    cases hrun
    exact hinv
  told := by
    have hlabels : (init name).graph.labels = update (fun _ => none) (0 : NodeId) (some (name, true)) := by
      funext n
      cases n <;> rfl
    rw [hlabels]
    exact Told.start name

/-- The daemon after any changes that gossip allows, each with its `run_graph`. -/
inductive Reached (name : String) : Mesh → Prop
  | init : Reached name (init name)
  | step {m m' : Mesh} {c : Change} : Reached name m → c.Allowed m → m.step c = some (.ok m') → Reached name m'

theorem step_spec (h : m.Sound) (hsize : m.graph.nodes.cells.length < 2 ^ 32) {c : Change} (hc : c.Allowed m) :
    (¬ c.Fits m ∧ ∃ p, m.step c = some (.error p)) ∨ ∃ m', m.step c = some (.ok m') ∧ m'.Sound ∧
      m'.graph.nodes.cells.length < 2 ^ 32 ∧ m'.Current ∧ Spared m.graph m'.graph := by
  rcases apply_spec h hsize hc with ⟨hfull, p, hrun⟩ | ⟨m₁, hrun, hsound, hfits, -, -, hspared⟩
  · exact .inl ⟨hfull, p, by rw [step, hrun]⟩
  rcases runGraphAndLog_spec hsound with ⟨hmany, hstop⟩ | ⟨m', hlog, hsound', hsize', hcurrent, hnames⟩
  · refine .inl ⟨fun hc => absurd (hfits hc) (not_lt.2 hmany), .u32Slots, ?_⟩
    rw [step, hrun]
    exact hstop
  · refine .inr ⟨m', by rw [step, hrun]; exact hlog, hsound', hsize', hcurrent, fun n name b hn => ?_⟩
    rcases hspared n name b hn with hkept | ⟨hnone, hdown⟩
    · exact .inl ((hnames n).trans hkept)
    · have hnone' := hnames n
      rw [hnone, Option.map_none, Option.map_eq_none_iff] at hnone'
      exact .inr ⟨hnone', hdown⟩

theorem Reached.sound {name : String} (h : Reached name m) : m.Sound ∧ m.graph.nodes.cells.length < 2 ^ 32 := by
  induction h with
  | init => exact ⟨init_sound name, show 1 < 2 ^ 32 by norm_num⟩
  | step _ hc hstep ih =>
    rcases step_spec ih.1 ih.2 hc with ⟨-, p, herr⟩ | ⟨m', hok, hsound, hsize, -⟩
    · rw [hstep] at herr
      cases herr
    · rw [hstep] at hok
      cases hok
      exact ⟨hsound, hsize⟩

/-- Reports of one name alternate, up first; a change is made and reported unless the slots run out; then the bits
say which nodes are joined to the daemon, and a node that went was last reported down. -/
theorem reports_alternate {name : String} {m : Mesh} (h : Reached name m) {c : Change} (hc : c.Allowed m) :
    (∀ name', Alternates (reports m.log name')) ∧
      ((¬ c.Fits m ∧ ∃ p, m.step c = some (.error p)) ∨
        ∃ m', m.step c = some (.ok m') ∧ (∀ name', Alternates (reports m'.log name')) ∧
          (∀ n x, m'.graph.nodes.get n = some x → (x.reachable = true ↔ m'.graph.Reach m'.myself n)) ∧
          ∀ n x, m.graph.nodes.get n = some x → (∃ y, m'.graph.nodes.get n = some y ∧ y.name = x.name) ∨
            m'.graph.nodes.get n = none ∧ isUp m.log x.name = false) := by
  obtain ⟨hsound, hsize⟩ := h.sound
  refine ⟨hsound.told.alternates, ?_⟩
  rcases step_spec hsound hsize hc with hfull | ⟨m', hstep, hsound', -, hcurrent, hspared⟩
  · exact .inl hfull
  · refine .inr ⟨m', hstep, hsound'.told.alternates, hcurrent, fun n x hx => ?_⟩
    have hlabel : m.graph.labels n = some (x.name, x.reachable) := labels_eq_some.2 ⟨x, hx, rfl, rfl⟩
    rcases hspared n x.name x.reachable hlabel with hkept | ⟨hnone, hdown⟩
    · obtain ⟨⟨name', b⟩, hb, rfl⟩ := Option.map_eq_some_iff.1 hkept
      obtain ⟨y, hy, hname, -⟩ := labels_eq_some.1 hb
      exact .inl ⟨y, hy, hname⟩
    · rw [hdown] at hlabel
      refine .inr ⟨Option.map_eq_none_iff.1 hnone, ?_⟩
      exact (hsound.told.bit n x.name false hlabel (hsound.told.ne_myself hlabel)).symm

instance (m : Mesh) : (c : Change) → Decidable (c.Allowed m)
  | .node _ => inferInstanceAs (Decidable True)
  | .addEdge fromNode toNode _ _ => inferInstanceAs (Decidable ((m.graph.nodes.get fromNode).isSome ∧
      (m.graph.nodes.get toNode).isSome ∧ fromNode ≠ toNode ∧
      ∀ c ∈ m.graph.edges.cells, ∀ d ∈ c, d.fromNode = fromNode → d.toNode ≠ toNode))
  | .updateEdge e _ _ => inferInstanceAs (Decidable (Issued m.graph.edges e))
  | .delEdge e => inferInstanceAs (Decidable (Issued m.graph.edges e))
  | .purge _ => inferInstanceAs (Decidable True)

/-- A sequence of changes, as long as they are allowed and made. -/
def follow : List Change → Mesh → Option Mesh
  | [], m => some m
  | c :: cs, m =>
    if c.Allowed m then
      match m.step c with
      | some (.ok m') => follow cs m'
      | _ => none
    else none

theorem Reached.follow {name : String} {cs : List Change} {m' : Mesh} (h : Reached name m)
    (hrun : Mesh.follow cs m = some m') : Reached name m' := by
  induction cs generalizing m with
  | nil =>
    obtain rfl := Option.some.inj hrun
    exact h
  | cons c cs ih =>
    rw [Mesh.follow] at hrun
    split_ifs at hrun with hc
    split at hrun
    · rename_i m₁ hstep
      exact ih (h.step hc hstep) hrun
    · cases hrun

/-- A peer appears, is linked, loses a link and is purged; its slot goes to another name, which is linked. -/
def recycled : List Change :=
  [.node "b", .addEdge 0 1 1 0, .addEdge 1 0 1 0, .delEdge 0, .purge fun _ => false, .node "c", .addEdge 0 1 1 0,
    .addEdge 1 0 1 0, .delEdge 1]

theorem reports_alternate_recycled : ∃ m, Reached "a" m ∧ reports m.log "b" = [true, false] ∧
    reports m.log "c" = [true, false] ∧ ∃ m', m.step (.purge fun _ => false) = some (.ok m') ∧
      (∀ name, Alternates (reports m'.log name)) ∧
      (∀ n x, m'.graph.nodes.get n = some x → (x.reachable = true ↔ m'.graph.Reach m'.myself n)) ∧
      ∀ n x, m.graph.nodes.get n = some x → (∃ y, m'.graph.nodes.get n = some y ∧ y.name = x.name) ∨
        m'.graph.nodes.get n = none ∧ isUp m.log x.name = false := by
  have hrun : (follow recycled (init "a")).any (fun m => reports m.log "b" == [true, false] &&
      reports m.log "c" == [true, false]) = true := by decide
  obtain ⟨m, hm, hlog⟩ := (Option.any_eq_true _ _).1 hrun
  simp only [Bool.and_eq_true, beq_iff_eq] at hlog
  have hreached : Reached "a" m := Reached.init.follow hm
  obtain ⟨-, ⟨hfull, -⟩ | hstep⟩ := reports_alternate (c := .purge fun _ => false) hreached trivial
  · exact (hfull trivial).elim
  · exact ⟨m, hreached, hlog.1, hlog.2, hstep⟩

end Mesh

end Tincr

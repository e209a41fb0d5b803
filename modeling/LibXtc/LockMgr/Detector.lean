import LibXtc.LockMgr.Scan

/-!
# What the detector finds

After its scan the detector searches its graph for a cycle, aborts a victim and cuts the victim's
edges, until no cycle is left. Each round cuts a node that had edges, so the rounds end; and a set
of lockers each of which waits for a holder in the set keeps a cycle in the graph until one of
them is the victim. Waits behind a queue are not edges of the graph, so a deadlock that rests on
one is not found.
-/

namespace LibXtc.LockMgr

open Foundations Manager List
open Relation (TransGen)

/-! ## Cutting a node -/

namespace DdState

variable {g : DdState} {u v l m : ℕ}

theorem nodeAt_cut : (g.cut v).NodeAt u l ↔ g.NodeAt u l := by
  rw [nodeAt_iff, nodeAt_iff, cut, map_modify_out (·.id) fun _ => []]

theorem out_cut : (g.cut v).out u = if u = v then [] else g.out u := by
  simp only [out, cut, getElem?_modify]
  split
  · rename_i hu
    subst hu
    cases g.nodes[v]? <;> simp
  · rename_i hu
    simp [Ne.symm hu]

theorem tag_cut : (g.cut v).tag u = g.tag u := by
  rw [tag, tag, DdState.cut, getElem?_modify]
  cases g.nodes[u]? with
  | none => rfl
  | some n => by_cases h : v = u <;> simp [h]

/-- A cut takes edges away. -/
theorem rel_of_cut {y : ℕ} (h : (g.cut v).rel u y) : g.rel u y := by
  have hmem : y ∈ (g.cut v).out u := h
  rw [out_cut] at hmem
  split_ifs at hmem
  · cases hmem
  · exact hmem

/-- A cycle through a node survives the cut of a node that is not on a cycle with it. -/
theorem onCycle_cut (h : OnCycle g.rel u) (hv : ¬(TransGen g.rel v u ∧ TransGen g.rel u v)) :
    OnCycle (g.cut v).rel u := by
  refine h.within.mono fun x y ⟨hux, hxu, hxy⟩ => ?_
  have hne : x ≠ v := fun heq => hv (heq ▸ ⟨hxu, hux⟩)
  show y ∈ (g.cut v).out x
  rwa [out_cut, if_neg hne]

theorem WellFormed.cut (hg : g.WellFormed) (v : ℕ) : (g.cut v).WellFormed := by
  have hlen : (g.cut v).nodes.length = g.nodes.length := by simp [DdState.cut]
  constructor
  · intro x y hy
    rw [hlen]
    rw [out_cut] at hy
    split at hy
    · cases hy
    · exact hg.range x y hy
  · rw [DdState.cut, map_modify_out (·.id) fun _ => []]
    exact hg.ids

/-- The edges of the other lockers stay. -/
theorem HasEdge.cut {k : ℕ} (h : g.HasEdge l m) (hv : g.NodeAt v k) (hl : l ≠ k) :
    (g.cut v).HasEdge l m := by
  obtain ⟨x, y, hx, hy, hmem⟩ := h
  refine ⟨x, y, nodeAt_cut.mpr hx, nodeAt_cut.mpr hy, ?_⟩
  rw [out_cut, if_neg]
  · exact hmem
  · rintro rfl
    obtain ⟨n, hn, rfl⟩ := hx
    obtain ⟨n', hn', rfl⟩ := hv
    exact hl (congrArg DdNode.id (Option.some.inj (hn.symm.trans hn')))

/-- The number of nodes with edges. -/
def active (g : DdState) : ℕ :=
  ((Finset.range g.nodes.length).filter fun u => g.out u ≠ []).card

theorem active_cut_lt (hv : g.out v ≠ []) : (g.cut v).active < g.active := by
  have hlt : v < g.nodes.length := by
    by_contra hle
    exact hv (out_eq_nil (by omega))
  have hlen : (g.cut v).nodes.length = g.nodes.length := by simp [cut]
  rw [active, active, hlen]
  refine Finset.card_lt_card (Finset.ssubset_iff_of_subset ?_ |>.mpr ⟨v, ?_, ?_⟩)
  · refine Finset.monotone_filter_right _ fun u _ hu => ?_
    rw [out_cut] at hu
    split at hu
    · exact absurd rfl hu
    · exact hu
  · simpa using ⟨hlt, hv⟩
  · simp [out_cut]

/-- Each locker of the set waits for a locker of the set. -/
def Closed (g : DdState) (E : Set ℕ) : Prop := E.Nonempty ∧ ∀ l ∈ E, ∃ m ∈ E, g.HasEdge l m

/-- Such a set has a cycle of the graph inside it. -/
theorem Closed.exists_onCycle {E : Set ℕ} (h : g.Closed E) :
    ∃ l, OnCycle (fun l m => l ∈ E ∧ m ∈ E ∧ g.HasEdge l m) l := by
  have hfin : E.Finite := by
    refine ((g.nodes.map (·.id)).finite_toSet).subset fun l hl => ?_
    obtain ⟨m, -, u, v, ⟨n, hn, hid⟩, -⟩ := h.2 l hl
    exact hid ▸ mem_map_of_mem (mem_of_getElem? hn)
  obtain ⟨l, -, hl⟩ := exists_onCycle_of_finite hfin h.1 h.2
  exact ⟨l, hl⟩

/-- A cycle of lockers is a cycle of their nodes. -/
theorem reachesCycle_of_lockers (hg : g.WellFormed)
    (h : OnCycle (fun l m => g.HasEdge l m) l) : ∃ u, ReachesCycle g.rel u := by
  have hpath {m : ℕ} (hm : TransGen (fun l m => g.HasEdge l m) l m) :
      ∃ u v, g.NodeAt u l ∧ g.NodeAt v m ∧ TransGen g.rel u v := by
    induction hm with
    | single hedge =>
      obtain ⟨u, v, hu, hv, hmem⟩ := hedge
      exact ⟨u, v, hu, hv, .single hmem⟩
    | tail _ hedge ih =>
      obtain ⟨u, v, hu, hv, hpath⟩ := ih
      obtain ⟨x, y, hx, hy, hmem⟩ := hedge
      obtain rfl := hg.nodeAt_unique hv hx
      exact ⟨u, y, hu, hy, hpath.tail hmem⟩
  obtain ⟨u, v, hu, hv, hcycle⟩ := hpath h
  obtain rfl := hg.nodeAt_unique hu hv
  exact ⟨u, OnCycle.reachesCycle hcycle⟩

end DdState

/-! ## Rounds -/

variable {c : Config} {s : Manager} {A : Key → ObjView} {d : Detection} {rand : ℕ → ℤ}
  {pick : Option (List ℕ → ℤ)} {x : ℕ}

/-- The detector has scanned the tables, and its graph and the lists are in order. -/
structure Manager.Detecting (c : Config) (s : Manager) (d : Detection) : Prop where
  represents : ∃ A, Represents s A none
  keys : s.keys.Nodup
  detection : s.detection = some d
  scanned : d.scanned = c.nParts
  wf : d.graph.WellFormed

/-- The next round cuts node `x`: the victim, or the node where the cycle was seen if there is no
victim. -/
structure DdState.Cuts (c : Config) (g : DdState) (rand : ℕ → ℤ) (pick : Option (List ℕ → ℤ))
    (x : ℕ) : Prop where
  node : ∃ l, g.NodeAt x l
  out : g.out x ≠ []
  cause : chooseVictim c g rand pick = some x ∨
    chooseVictim c g rand pick = none ∧ g.search.cycleIn = some x

/-- One round: the graph has no cycle and the pass ends, or a node with edges is cut. -/
theorem round_spec (h : s.Detecting c d) (rand : ℕ → ℤ) (pick : Option (List ℕ → ℤ)) :
    ((∀ u, ¬ReachesCycle d.graph.rel u) ∧
        ∃ s', s.step c (.detectRound rand pick) = some s' ∧ s'.detection = none) ∨
      ∃ x k s', d.graph.Cuts c rand pick x ∧ (c.victim ≠ .expire → 0 < k) ∧
        s.step c (.detectRound rand pick) = some s' ∧
        s'.Detecting c { d with graph := d.graph.cut x, killed := k } := by
  obtain ⟨⟨A, hrep⟩, hkeys, hd, hscan, hwf⟩ := h
  have hstep : s.step c (.detectRound rand pick) = s.round c d rand pick := by
    simp [step, hd, hscan]
  rcases d.graph.search_spec hwf.range with ⟨hnone, hno⟩ | ⟨w, p, hstack⟩
  · refine .inl ⟨hno, { s with detection := none }, ?_, rfl⟩
    simp only [hstep, Manager.round, hnone]
  · have hout {x : ℕ} (hx : x ∈ w :: p) : d.graph.out x ≠ [] := by
      obtain ⟨y, hy, -⟩ := reachesCycle_iff.mp ((hstack.mem x).mp hx).reachesCycle
      exact ne_nil_of_mem hy
    have hnodeAt {x : ℕ} (hx : x ∈ w :: p) : ∃ node, d.graph.nodes[x]? = some node :=
      ⟨_, getElem?_eq_getElem (hstack.lt x hx)⟩
    cases hv : chooseVictim c d.graph rand pick with
    | none =>
      obtain ⟨node, hnode⟩ := hnodeAt mem_cons_self
      refine .inr ⟨w, d.killed, { s with detection := some { d with graph := d.graph.cut w } },
        ⟨⟨_, node, hnode, rfl⟩, hout mem_cons_self, .inr ⟨hv, hstack.cycleIn⟩⟩, fun hc => ?_, ?_,
        ⟨A, hrep.congr (fun _ => rfl) fun _ => rfl⟩, hkeys, rfl, hscan, hwf.cut w⟩
      · obtain ⟨v, hsome⟩ := chooseVictim_isSome hc hstack.cycleIn rand pick
        cases hv.symm.trans hsome
      · simp only [hstep, Manager.round, hstack.cycleIn, hv]
    | some v =>
      have hmem : v ∈ w :: p := by
        rw [chooseVictim, hstack.cycleIn, Option.bind_some] at hv
        exact hstack.pickVictim_mem hv
      obtain ⟨node, hnode⟩ := hnodeAt hmem
      obtain ⟨t, ht, hq, hrep'⟩ :=
        hrep.dropLockerOn_spec (c := c) node.id (Sound.nodup_tables (c := c) hkeys)
      refine .inr ⟨v, d.killed + 1,
        { t.modStats fun x => { x with nDeadlocksFound := x.nDeadlocksFound + 1 } with
          detection := some { d with graph := d.graph.cut v, killed := d.killed + 1 } },
        ⟨⟨_, node, hnode, rfl⟩, hout hmem, .inl hv⟩, fun _ => d.killed.succ_pos, ?_,
        ⟨_, hrep'.congr (fun _ => rfl) fun _ => rfl⟩,
        hq.keys.nodup hkeys, rfl, hscan, hwf.cut v⟩
      rw [hstep]
      simp only [Manager.round, hstack.cycleIn, hv, hnode, Option.bind_some, abortVictim, ht,
        Option.map_some]

/-- The detector's graph is in order. It charts the scanned partitions during the scan, and after
it until a cut, if each cut has a victim. -/
def Charted (c : Config) (s : Manager) : Prop :=
  ∀ d, s.detection = some d → d.graph.WellFormed ∧
    (d.scanned < c.nParts ∨ c.victim ≠ .expire ∧ d.killed = 0 → s.Charting c d)

theorem Charted.step {a : Act} {s' : Manager} (h : Charted c s) (hsound : Sound s)
    (hok : StepOk c s a) (ht : s.step c a = some s') : Charted c s' := by
  intro d' hd'
  by_cases ha : a.isDetect = false
  · have hreach := hsound.step hok ht
    have hd : s.detection = some d' := by
      rw [← hreach.detection.resolve_right (by simp [ha]), hd']
    exact ⟨(h d' hd).1, fun hwhen => ((h d' hd).2 hwhen).of_other hd hreach ht ha⟩
  · cases a with
    | detectBegin now =>
      obtain ⟨-, ht⟩ := Option.ite_none_right_eq_some.mp ht
      obtain rfl := Option.some.inj ht
      cases hd'
      have hempty : Charts .empty (s.PartyBelow c 0) (s.EdgeBelow c 0) :=
        Charts.empty.congr (fun _ => id) fun a b => by simp [Manager.EdgeBelow]
      exact ⟨hempty.wf, fun _ => hempty⟩
    | detectScan =>
      obtain ⟨d, hd, ht'⟩ := Option.bind_eq_some_iff.mp ht
      obtain ⟨hlt, -⟩ := Option.ite_none_right_eq_some.mp ht'
      have hcharts := ((h d hd).2 (.inl hlt)).scan hd hsound ht hd'
      exact ⟨hcharts.wf, fun _ => hcharts⟩
    | detectRound rand pick =>
      obtain ⟨d, hd, ht'⟩ := Option.bind_eq_some_iff.mp ht
      obtain ⟨hall, -⟩ := Option.ite_none_right_eq_some.mp ht'
      have hdet : s.Detecting c d := ⟨⟨_, hsound.represents⟩, hsound.keys, hd, hall, (h d hd).1⟩
      rcases round_spec hdet rand pick with ⟨-, t, ht', hend⟩ | ⟨x, k, t, -, hk, ht', hnext⟩
      · obtain rfl := Option.some.inj (ht.symm.trans ht')
        cases hend.symm.trans hd'
      · obtain rfl := Option.some.inj (ht.symm.trans ht')
        obtain rfl := Option.some.inj (hnext.detection.symm.trans hd')
        refine ⟨hnext.wf, ?_⟩
        rintro (hlt | ⟨hc, hkill⟩)
        · exact absurd hnext.scanned hlt.ne
        · exact absurd hkill (hk hc).ne'
    | _ => simp [Act.isDetect] at ha

theorem charted_of_reachable (hs : (lockSystem c).ReachableUnder (StepOk c) s) :
    Sound s ∧ Charted c s := by
  refine hs.invariant (I := fun s => Sound s ∧ Charted c s) ?_ fun s a s' h hok ht =>
    ⟨(h.1.step hok ht).sound, h.2.step h.1 hok ht⟩
  rintro _ rfl
  exact ⟨Sound.create, fun d hd => by cases hd⟩

theorem detecting_of_reachable (hs : (lockSystem c).ReachableUnder (StepOk c) s)
    (hd : s.detection = some d) (hscan : d.scanned = c.nParts) : s.Detecting c d := by
  obtain ⟨hsound, h⟩ := charted_of_reachable hs
  exact ⟨⟨_, hsound.represents⟩, hsound.keys, hd, hscan, (h d hd).1⟩

/-- The rounds of a pass, with the answers of the environment to each. -/
def roundActs (answers : ℕ → (ℕ → ℤ) × Option (List ℕ → ℤ)) (n : ℕ) : List Act :=
  (range n).map fun i => .detectRound (answers i).1 (answers i).2

variable (answers : ℕ → (ℕ → ℤ) × Option (List ℕ → ℤ))

/-- The lockers that `n` rounds abort. -/
def Manager.aborts (c : Config) (s : Manager) (n : ℕ) : Set ℕ :=
  { l | ∃ i < n, ∃ t, (lockSystem c).run s (roundActs answers i) = some t ∧
    t.victimId c (answers i).1 (answers i).2 = some l }

/-- The rounds of a pass end. If only a graph with a cycle has `P`, and every round keeps `P` or
aborts a locker in `R`, then a locker in `R` is aborted. -/
theorem rounds_until (h : s.Detecting c d) :
    ∃ n s', (lockSystem c).run s (roundActs answers n) = some s' ∧ s'.detection = none ∧
      ∀ (P : DdState → Prop) (R : Set ℕ), (∀ g, g.WellFormed → P g → ∃ u, ReachesCycle g.rel u) →
        (∀ i t d x, (lockSystem c).run s (roundActs answers i) = some t → t.detection = some d →
          d.graph.Cuts c (answers i).1 (answers i).2 x → P d.graph →
          (∃ l ∈ R, d.graph.NodeAt x l ∧
            chooseVictim c d.graph (answers i).1 (answers i).2 = some x) ∨ P (d.graph.cut x)) →
        P d.graph → ∃ l ∈ R, l ∈ s.aborts answers c n := by
  induction hact : d.graph.active using Nat.strong_induction_on generalizing s d answers with
  | _ k ih =>
    have hrun {s' : Manager}
        (hs' : (lockSystem c).step s (.detectRound (answers 0).1 (answers 0).2) = some s') (n : ℕ) :
        (lockSystem c).run s (roundActs answers (n + 1)) =
          (lockSystem c).run s' (roundActs (fun i => answers (i + 1)) n) := by
      rw [roundActs, range_succ_eq_map, map_cons, map_map, System.run_cons, hs']
      rfl
    rcases round_spec h (answers 0).1 (answers 0).2 with
      ⟨hno, s', hs', hend⟩ | ⟨x, k', s', hcuts, -, hs', h'⟩
    · refine ⟨1, s', by rw [hrun hs']; rfl, hend, fun P R hcycle _ hP => ?_⟩
      obtain ⟨u, hu⟩ := hcycle _ h.wf hP
      exact absurd hu (hno u)
    · obtain ⟨n, s'', hrest, hend, hrounds⟩ := ih _ (hact ▸ DdState.active_cut_lt hcuts.out)
        (fun i => answers (i + 1)) h' rfl
      refine ⟨n + 1, s'', by rw [hrun hs', hrest], hend, fun P R hcycle hkeep hP => ?_⟩
      rcases hkeep 0 s d x rfl h.detection hcuts hP with ⟨l, hl, ⟨node, hnode, rfl⟩, hx⟩ | hP'
      · exact ⟨_, hl, 0, by omega, s, rfl, by simp [victimId, h.detection, hx, hnode]⟩
      · obtain ⟨l, hl, i, hi, t, ht, hvictim⟩ := hrounds P R hcycle
          (fun i t d' y ht => hkeep (i + 1) t d' y (by rw [hrun hs', ht])) hP'
        exact ⟨l, hl, i + 1, by omega, t, by rw [hrun hs', ht], hvictim⟩

/-- The rounds of a pass end, and abort a member of every set whose members wait for holders in the
set. -/
theorem rounds_spec (hc : c.victim ≠ .expire) (h : s.Detecting c d) :
    ∃ n s', (lockSystem c).run s (roundActs answers n) = some s' ∧ s'.detection = none ∧
      ∀ E, d.graph.Closed E → ∃ l ∈ E, l ∈ s.aborts answers c n := by
  obtain ⟨n, s', hrun, hend, hrounds⟩ := rounds_until answers h
  refine ⟨n, s', hrun, hend, fun E hE => hrounds (·.Closed E) E ?_ ?_ hE⟩
  · intro g hwf hcl
    obtain ⟨m, hm⟩ := hcl.exists_onCycle
    exact DdState.reachesCycle_of_lockers hwf (hm.mono fun _ _ h => h.2.2)
  · intro i t d' x ht hd' hcuts hcl
    obtain ⟨l, hl⟩ := hcuts.node
    by_cases hlE : l ∈ E
    · refine .inl ⟨l, hlE, hl, hcuts.cause.resolve_right fun ⟨hnone, hseen⟩ => ?_⟩
      obtain ⟨v, hv⟩ := chooseVictim_isSome hc hseen (answers i).1 (answers i).2
      cases hnone.symm.trans hv
    · -- the victim is no member, so the members still wait for each other in the cut graph
      refine .inr ⟨hcl.1, fun a ha => ?_⟩
      obtain ⟨b, hb, hab⟩ := hcl.2 a ha
      exact ⟨b, hb, hab.cut hl fun heq => hlE (heq ▸ ha)⟩

/-! ## Limits -/

namespace Manager

/-- The lockers that have a request on some object, with repetitions. -/
def parties (s : Manager) : List ℕ :=
  s.keys.flatMap fun k => ((s.view k).waiting ++ (s.view k).granted).map (·.locker)

/-- The pairs of a waiting locker and a locker that holds a conflicting mode on the same object,
with repetitions. -/
def waitEdges (c : Config) (s : Manager) : List (ℕ × ℕ) :=
  s.keys.flatMap fun k => (s.view k).waiting.flatMap fun w =>
    ((s.view k).granted.filter fun r =>
      r.locker ≠ w.locker ∧ c.matrix.conflicts r.mode w.mode = true).map fun r =>
        (w.locker, r.locker)

/-- The tables of the detector have room for the lockers and the waits of the state. -/
def FitsDetector (c : Config) (s : Manager) : Prop :=
  s.parties.dedup.length ≤ maxLockers ∧ (s.waitEdges c).dedup.length ≤ maxLockers * 8

instance (c : Config) (s : Manager) : Decidable (s.FitsDetector c) :=
  inferInstanceAs (Decidable (_ ∧ _))

end Manager

/-- A key with requests is the key of an object. -/
theorem Represents.mem_keys (h : Represents s A none) {k : Key} {r : Req}
    (hr : r ∈ (A k).waiting ++ (A k).granted) : k ∈ s.keys := by
  obtain ⟨g, hg⟩ : ∃ g, r ∈ (A k).side g := Bool.exists_bool.mpr (mem_append.mp hr)
  obtain ⟨o, ho⟩ := h.objLookup_of_mem (mem_addrs.mpr ⟨r, hg, rfl⟩)
  have hkey : o.key = k := by simpa using find?_some ho
  exact hkey ▸ mem_map_of_mem (mem_of_find?_eq_some ho)

/-- The listed waits are the waits on the objects. -/
theorem mem_waitEdges (hsound : Sound s) {a b : ℕ} :
    (a, b) ∈ s.waitEdges c ↔ ∃ k, (s.view k).WaitEdge c.matrix a b := by
  simp only [waitEdges, mem_flatMap, mem_map, mem_filter, decide_eq_true_eq, Prod.mk.injEq]
  constructor
  · rintro ⟨k, -, w, hw, r, ⟨hr, hne, hconf⟩, rfl, rfl⟩
    exact ⟨k, w, hw, r, hr, rfl, rfl, hne, hconf⟩
  · rintro ⟨k, w, hw, r, hr, rfl, rfl, hne, hconf⟩
    exact ⟨k, hsound.represents.mem_keys (mem_append_left _ hw), w, hw, r, ⟨hr, hne, hconf⟩,
      rfl, rfl⟩

/-- Within the limits the graph after the last scan has an edge exactly for each wait. -/
theorem hasEdge_iff (hsound : Sound s) {g : DdState}
    (h : Charts g (s.PartyBelow c c.nParts) (s.EdgeBelow c c.nParts)) (hfits : s.FitsDetector c)
    {a b : ℕ} : g.HasEdge a b ↔ (a, b) ∈ s.waitEdges c := by
  have hpart (k : Key) : c.part k < c.nParts := Nat.mod_lt _ c.parts_pos
  rw [mem_waitEdges hsound]
  constructor
  · intro hedge
    obtain ⟨k, -, hk⟩ := h.edges a b hedge
    exact ⟨k, hk⟩
  · rintro ⟨k, hk⟩
    by_contra hno
    rcases h.missing a b ⟨k, hpart k, hk⟩ hno with ⟨hfull, p, ⟨k', -, r, hr, hp⟩, hnone⟩ | hfull
    · -- one more locker than nodes
      have hnodup : (p :: g.nodes.map (·.id)).Nodup := by
        refine nodup_cons.mpr ⟨fun hmem => ?_, h.wf.ids⟩
        obtain ⟨n, hn, hid⟩ := mem_map.mp hmem
        obtain ⟨u, hu⟩ := getElem?_of_mem hn
        exact hnone u ⟨n, hu, hid⟩
      have hparty {l : ℕ} {k : Key} (hl : (s.view k).Party l) : l ∈ s.parties.dedup := by
        obtain ⟨r, hr, rfl⟩ := hl
        rw [mem_dedup, parties, mem_flatMap]
        exact ⟨k, hsound.represents.mem_keys hr, mem_map_of_mem hr⟩
      have hsub : p :: g.nodes.map (·.id) ⊆ s.parties.dedup := by
        intro l hl
        rcases mem_cons.mp hl with rfl | hl
        · exact hparty ⟨r, hr, hp⟩
        · obtain ⟨n, hn, rfl⟩ := mem_map.mp hl
          obtain ⟨u, hu⟩ := getElem?_of_mem hn
          obtain ⟨k, -, hk⟩ := h.parties u _ ⟨n, hu, rfl⟩
          exact hparty hk
      have hlen := (subperm_of_subset hnodup hsub).length_le
      have hmax := hfits.1
      simp only [length_cons, length_map] at hlen
      omega
    · -- one more wait than edges
      obtain ⟨L, hnodup, hlen, hL⟩ := h.counted
      have hnodup' : ((a, b) :: L).Nodup :=
        nodup_cons.mpr ⟨fun hmem => hno (hL _ hmem), hnodup⟩
      have hsub : (a, b) :: L ⊆ (s.waitEdges c).dedup := by
        intro e he
        rw [mem_dedup, mem_waitEdges hsound]
        rcases mem_cons.mp he with rfl | he
        · exact ⟨k, hk⟩
        · obtain ⟨k', -, hk'⟩ := h.edges _ _ (hL e he)
          exact ⟨k', hk'⟩
      have hlen' := (subperm_of_subset hnodup' hsub).length_le
      have hmax := hfits.2
      simp only [length_cons] at hlen'
      omega

/-! ## Completeness -/

/-- The graph has a cycle through lockers of the set. -/
def DdState.CycleWithin (g : DdState) (D : Set ℕ) : Prop :=
  ∃ l, OnCycle (fun l m => l ∈ D ∧ m ∈ D ∧ g.HasEdge l m) l

/-- The pass that is under way ends, whatever the environment answers, and aborts a locker of the
set before it does. -/
def Manager.AbortsMember (c : Config) (s : Manager) (D : Set ℕ) : Prop :=
  ∀ answers : ℕ → (ℕ → ℤ) × Option (List ℕ → ℤ),
    ∃ n s', (lockSystem c).run s (roundActs answers n) = some s' ∧ s'.detection = none ∧
      ∃ i < n, ∃ t, (lockSystem c).run s (roundActs answers i) = some t ∧
        ∃ l ∈ D, t.victimId c (answers i).1 (answers i).2 = some l

/-- After the scan, within the limits of its tables, the detector has a cycle through lockers of
`D` in its graph and aborts one of them, exactly if some of the lockers in `D` wait in a circle
for locks that they hold. -/
theorem deadlock_found_iff (hc : c.victim ≠ .expire)
    (hs : (lockSystem c).ReachableUnder (StepOk c) s) {d : Detection} (hd : s.detection = some d)
    (hscan : d.scanned = c.nParts) (hkilled : d.killed = 0) (hfits : s.FitsDetector c)
    (D : Set ℕ) :
    (d.graph.CycleWithin D ∧ s.AbortsMember c D) ↔
      ∃ E ⊆ D, E.Nonempty ∧ ∀ l ∈ E, ∃ m ∈ E, (l, m) ∈ s.waitEdges c := by
  have hsound := sound_of_reachable hs
  have hcharts := ((charted_of_reachable hs).2 d hd).2 (.inr ⟨hc, hkilled⟩)
  rw [Charting, hscan] at hcharts
  have hedge {a b : ℕ} := hasEdge_iff hsound hcharts hfits (a := a) (b := b)
  constructor
  · rintro ⟨⟨l, hl⟩, -⟩
    obtain ⟨E, hlE, hE⟩ := hl.exists_closed
    refine ⟨E, fun x hx => ?_, ⟨l, hlE⟩, fun x hx => ?_⟩
    · obtain ⟨y, -, hxD, -⟩ := hE x hx
      exact hxD
    · obtain ⟨y, hy, -, -, hxy⟩ := hE x hx
      exact ⟨y, hy, hedge.mp hxy⟩
  · rintro ⟨E, hED, hne, hE⟩
    have hclosed : d.graph.Closed E := ⟨hne, fun l hl => by
      obtain ⟨m, hm, hlm⟩ := hE l hl
      exact ⟨m, hm, hedge.mpr hlm⟩⟩
    constructor
    · obtain ⟨l, hl⟩ := hclosed.exists_onCycle
      exact ⟨l, hl.mono fun x y h => ⟨hED h.1, hED h.2.1, h.2.2⟩⟩
    · intro answers
      obtain ⟨n, s', hrun, hend, hmem⟩ :=
        rounds_spec answers hc (detecting_of_reachable hs hd hscan)
      obtain ⟨l, hl, i, hi, t, ht, hvictim⟩ := hmem E hclosed
      exact ⟨n, s', hrun, hend, i, hi, t, ht, l, hED hl, hvictim⟩

/-- Two lockers wait for each other's locks, and the detector has scanned the tables. -/
def crossedLocks : List Act :=
  [.get 0 1 [1] Mode.x (-1) false true (some 0), .get 0 2 [2] Mode.x (-1) false true (some 1),
    .get 0 1 [2] Mode.x (-1) false true (some 2), .get 1 2 [1] Mode.x (-1) false true (some 3),
    .detectBegin 10] ++ replicate 64 .detectScan

/-- The detector finds the cycle of the two lockers and aborts one of them. -/
theorem deadlock_found_crossedLocks :
    ∃ s ∈ (lockSystem .default).runUnder (StepOk .default) .create crossedLocks,
      ∃ d ∈ s.detection, d.scanned = Config.default.nParts ∧ d.killed = 0 ∧
        s.FitsDetector .default ∧ d.graph.CycleWithin {1, 2} ∧ s.AbortsMember .default {1, 2} := by
  have hrun : ∃ s ∈ (lockSystem .default).runUnder (StepOk .default) .create crossedLocks,
      ∃ d ∈ s.detection, d.scanned = Config.default.nParts ∧ d.killed = 0 ∧
        s.FitsDetector .default ∧ (1, 2) ∈ s.waitEdges .default ∧
        (2, 1) ∈ s.waitEdges .default := by decide
  obtain ⟨s, hrun, d, hd, hscan, hkilled, hfits, h12, h21⟩ := hrun
  refine ⟨s, hrun, d, hd, hscan, hkilled, hfits, (deadlock_found_iff (by decide)
    (.runUnder (.start rfl) hrun) hd hscan hkilled hfits {1, 2}).mpr ?_⟩
  refine ⟨{1, 2}, subset_refl _, ⟨1, by simp⟩, ?_⟩
  rintro l (rfl | rfl)
  · exact ⟨2, by simp, h12⟩
  · exact ⟨1, by simp, h21⟩

/-- Every locker of the set waits, and each of its requests can only be granted after a locker of
the set releases a lock that conflicts with it or leaves the queue ahead of it. -/
def Manager.Deadlocked (c : Config) (s : Manager) (D : Finset ℕ) : Prop :=
  D.Nonempty ∧ ∀ l ∈ D, (∃ k ∈ s.keys, ∃ w ∈ (s.view k).waiting, w.locker = l ∧ w.aborted = false) ∧
    ∀ k ∈ s.keys, ∀ i < (s.view k).waiting.length, ∀ w ∈ (s.view k).waiting[i]?,
      w.locker = l → w.aborted = false →
      (∃ r ∈ (s.view k).granted,
        r.locker ∈ D ∧ r.locker ≠ l ∧ c.matrix.conflicts r.mode w.mode = true) ∨
      ∃ b ∈ (s.view k).waiting.take i, b.locker ∈ D ∧ b.aborted = false

instance (c : Config) (s : Manager) (D : Finset ℕ) : Decidable (s.Deadlocked c D) :=
  inferInstanceAs (Decidable (D.Nonempty ∧ ∀ l ∈ D, _))

/-- Locker 3 waits for locker 1, locker 2 is queued behind locker 3, and locker 1 waits for
locker 2. The detector has scanned the tables. -/
def queuedDeadlock : List Act :=
  [.get 0 1 [1] Mode.s (-1) false true (some 0), .get 0 2 [2] Mode.x (-1) false true (some 1),
    .get 0 3 [1] Mode.x (-1) false true (some 2), .get 1 2 [1] Mode.s (-1) false true (some 3),
    .get 2 1 [2] Mode.x (-1) false true (some 4), .detectBegin 10] ++ replicate 64 .detectScan

/-- The three lockers are deadlocked, the graph has no cycle, and the pass ends without a victim. -/
theorem queuedDeadlock_not_found : ∃ s ∈ (lockSystem .default).run .create queuedDeadlock,
      ∃ d ∈ s.detection, d.scanned = Config.default.nParts ∧ d.killed = 0 ∧
        s.FitsDetector .default ∧ s.Deadlocked .default {1, 2, 3} ∧
        (∀ D, ¬d.graph.CycleWithin D) ∧ ∀ rand pick, s.victimId .default rand pick = none ∧
          ∃ s', s.step .default (.detectRound rand pick) = some s' ∧ s'.detection = none := by
  have hrun : ∃ s ∈ (lockSystem .default).run .create queuedDeadlock,
      ∃ d ∈ s.detection, d.scanned = Config.default.nParts ∧ d.killed = 0 ∧
        s.FitsDetector .default ∧ s.Deadlocked .default {1, 2, 3} ∧
        d.graph.search.cycleIn = none ∧
        (∀ u < d.graph.nodes.length, ∀ v ∈ d.graph.out u, v < d.graph.nodes.length) ∧
        (d.graph.nodes.map (·.id)).Nodup := by decide
  obtain ⟨s, hrun, d, hd, hscan, hkilled, hfits, hdead, hnone, hrange, hids⟩ := hrun
  have hwf : d.graph.WellFormed :=
    ⟨fun u v hv => hrange u (DdState.lt_of_mem_out hv) v hv, hids⟩
  refine ⟨s, hrun, d, hd, hscan, hkilled, hfits, hdead, ?_, fun rand pick => ⟨?_, ?_⟩⟩
  · rintro D ⟨l, hl⟩
    obtain ⟨u, hu⟩ := DdState.reachesCycle_of_lockers hwf (hl.mono fun _ _ h => h.2.2)
    rcases d.graph.search_spec hwf.range with ⟨-, hno⟩ | ⟨w, p, hstack⟩
    · exact hno u hu
    · cases hnone.symm.trans hstack.cycleIn
  · simp [victimId, Option.mem_def.mp hd, chooseVictim, hnone]
  · exact ⟨{ s with detection := none },
      by simp [step, Option.mem_def.mp hd, hscan, Manager.round, hnone], rfl⟩

/-! ## The whole pass -/

/-- No round without a victim cuts a node that is on a cycle with node `e`. -/
def Manager.Spares (c : Config) (s : Manager) (e : ℕ) : Prop :=
  ∀ i t d u, (lockSystem c).run s (roundActs answers i) = some t → t.detection = some d →
    chooseVictim c d.graph (answers i).1 (answers i).2 = none → d.graph.search.cycleIn = some u →
    ¬(TransGen d.graph.rel u e ∧ TransGen d.graph.rel e u)

/-- A manager that aborts only lockers past their expiry. -/
def expireVictim : Config := { Config.default with victim := .expire }

/-- Lockers 1 and 2 wait for locker 3, which waits for both. Locker `id` is past its expiry. The
detector has scanned the tables. -/
def sharedHolder (id : ℕ) : List Act :=
  [.newLocker 1, .newLocker 1, .newLocker 1, .setTimeout id 5,
    .get 0 1 [1] Mode.s (-1) false true (some 0), .get 0 2 [1] Mode.s (-1) false true (some 1),
    .get 0 3 [2] Mode.x (-1) false true (some 2), .get 0 1 [2] Mode.x (-1) false true (some 3),
    .get 1 2 [2] Mode.x (-1) false true (some 4), .get 2 3 [1] Mode.x (-1) false true (some 5),
    .detectBegin 10] ++ replicate 64 .detectScan

/-- Scores that are all 0, and no callback. -/
def noAnswers : ℕ → (ℕ → ℤ) × Option (List ℕ → ℤ) := fun _ => (fun _ => 0, none)

end LibXtc.LockMgr

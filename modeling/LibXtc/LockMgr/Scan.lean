import LibXtc.LockMgr.Steps
import LibXtc.LockMgr.Victim

/-!
# The scan of the detector

What graph `xtc_lockmgr_check_deadlocks` builds: its edges lead from the locker of a waiting request
to the lockers that hold a conflicting mode on the same object, and all of these are there unless
one of the two tables of the detector is full. The detector keeps each partition locked once it has
scanned it, so that after the last scan the graph describes one state of the whole manager.
-/

namespace LibXtc.LockMgr

open DdState List

namespace DdState

/-- Node `u` is the node of locker `l`. -/
def NodeAt (g : DdState) (u l : ℕ) : Prop := ∃ n, g.nodes[u]? = some n ∧ n.id = l

/-- The graph has an edge between the nodes of two lockers. -/
def HasEdge (g : DdState) (l m : ℕ) : Prop := ∃ u v, g.NodeAt u l ∧ g.NodeAt v m ∧ v ∈ g.out u

/-- What `__dd_node_idx` returns for locker `l`: its node, or none if the table is full. -/
def Located (g : DdState) (i : Option ℕ) (l : ℕ) : Prop :=
  (∃ u, i = some u ∧ g.NodeAt u l) ∨ (i = none ∧ maxLockers ≤ g.nodes.length ∧ ∀ u, ¬g.NodeAt u l)

variable {g : DdState} {u v l m x : ℕ} {n : DdNode}

theorem NodeAt.lt (h : g.NodeAt u l) : u < g.nodes.length := by
  obtain ⟨n, hn, -⟩ := h
  exact (List.getElem?_eq_some_iff.mp hn).1

theorem WellFormed.nodeAt_unique (hg : g.WellFormed) (hu : g.NodeAt u l) (hv : g.NodeAt v l) :
    u = v := by
  obtain ⟨n, hn, hid⟩ := hu
  obtain ⟨n', hn', hid'⟩ := hv
  exact hg.node_unique hn hn' (hid.trans hid'.symm)

/-! ## Adding a node -/

/-- The graph with a new node. -/
def withNode (g : DdState) (n : DdNode) : DdState := { g with nodes := g.nodes ++ [n] }

theorem nodeAt_withNode :
    (g.withNode n).NodeAt u l ↔ g.NodeAt u l ∨ (u = g.nodes.length ∧ l = n.id) := by
  simp only [NodeAt, withNode, List.getElem?_append]
  constructor
  · rintro ⟨x, hx, rfl⟩
    split at hx
    · exact .inl ⟨x, hx, rfl⟩
    · obtain ⟨hlt', rfl⟩ := List.getElem?_eq_some_iff.mp hx
      simp only [length_singleton] at hlt'
      exact .inr ⟨by omega, by simp⟩
  · rintro (⟨x, hx, hid⟩ | ⟨rfl, rfl⟩)
    · rw [if_pos (List.getElem?_eq_some_iff.mp hx).1]
      exact ⟨x, hx, hid⟩
    · exact ⟨n, by simp, rfl⟩

/-- A new node has no edges. -/
theorem out_withNode (hn : n.out = []) : (g.withNode n).out u = g.out u := by
  simp only [out, withNode, getElem?_append]
  split
  · rfl
  · rw [getElem?_eq_none (by omega : g.nodes.length ≤ u)]
    cases hx : [n][u - g.nodes.length]? with
    | none => rfl
    | some x =>
      obtain rfl := mem_singleton.mp (mem_of_getElem? hx)
      simp [hn]

theorem hasEdge_withNode (hg : g.WellFormed) (hn : n.out = []) :
    (g.withNode n).HasEdge l m ↔ g.HasEdge l m := by
  constructor
  · rintro ⟨u, v, hu, hv, hedge⟩
    rw [out_withNode hn] at hedge
    have hult := lt_of_mem_out hedge
    have hvlt := hg.range u v hedge
    refine ⟨u, v, (nodeAt_withNode.mp hu).resolve_right fun h => ?_,
      (nodeAt_withNode.mp hv).resolve_right fun h => ?_, hedge⟩ <;> omega
  · rintro ⟨u, v, hu, hv, hedge⟩
    exact ⟨u, v, nodeAt_withNode.mpr (.inl hu), nodeAt_withNode.mpr (.inl hv),
      by rwa [out_withNode hn]⟩

theorem WellFormed.withNode (hg : g.WellFormed) (hn : n.out = [])
    (hnew : ∀ u, ¬g.NodeAt u n.id) : (g.withNode n).WellFormed := by
  constructor
  · intro u v hv
    rw [out_withNode hn] at hv
    have := hg.range u v hv
    simp only [DdState.withNode, length_append]
    omega
  · simp only [DdState.withNode, map_append]
    rw [nodup_append]
    refine ⟨hg.ids, nodup_singleton _, fun a ha b hb heq => ?_⟩
    obtain rfl := mem_singleton.mp hb
    obtain ⟨x, hx, hid⟩ := mem_map.mp ha
    obtain ⟨u, hu⟩ := getElem?_of_mem hx
    exact hnew u ⟨x, hu, hid.trans heq⟩

/-- `__dd_node_idx` finds the node, adds it, or finds the table full. -/
theorem nodeIdx_cases (g : DdState) (id : ℕ) (lr : Option LockerRec) (now : ℤ) :
    (∃ u, g.nodeIdx id lr now = (g, some u) ∧ g.NodeAt u id) ∨ (∀ u, ¬g.NodeAt u id) ∧
        ((maxLockers ≤ g.nodes.length ∧ g.nodeIdx id lr now = (g, none)) ∨
          (g.nodes.length < maxLockers ∧ g.nodeIdx id lr now =
            (g.withNode (newNode id lr now), some g.nodes.length))) := by
  unfold nodeIdx
  cases hfind : g.nodes.findIdx? (·.id == id) with
  | some i =>
    obtain ⟨hlt, hid, -⟩ := findIdx?_eq_some_iff_getElem.mp hfind
    exact .inl ⟨i, rfl, _, getElem?_eq_getElem hlt, by simpa using hid⟩
  | none =>
    refine .inr ⟨?_, ?_⟩
    · rintro u ⟨n, hn, hid⟩
      have := findIdx?_eq_none_iff.mp hfind n (mem_of_getElem? hn)
      simp [hid] at this
    · dsimp only
      split
      · rename_i hfull
        exact .inl ⟨hfull, rfl⟩
      · exact .inr ⟨by omega, rfl⟩

/-! ## Adding an edge -/

/-- The graph with a new edge. -/
def withEdge (g : DdState) (u v : ℕ) : DdState where
  nodes := g.nodes.modify u fun n => { n with out := v :: n.out }
  nEdges := g.nEdges + 1

/-- A change of a node's edges leaves what else the nodes have. -/
theorem map_modify_out {α : Type} (p : DdNode → α) (f : List ℕ → List ℕ)
    (hp : ∀ n l, p { n with out := l } = p n := by exact fun _ _ => rfl) :
    (g.nodes.modify u fun n => { n with out := f n.out }).map p = g.nodes.map p := by
  refine ext_getElem? fun i => ?_
  simp only [getElem?_map, getElem?_modify]
  cases g.nodes[i]? with
  | none => rfl
  | some n => by_cases hi : u = i <;> simp [hi, hp]

theorem nodeAt_iff : g.NodeAt x l ↔ (g.nodes.map (·.id))[x]? = some l := by
  simp [NodeAt]

theorem nodeAt_withEdge : (g.withEdge u v).NodeAt x l ↔ g.NodeAt x l := by
  rw [nodeAt_iff, nodeAt_iff, withEdge, map_modify_out (·.id)]

theorem length_withEdge : (g.withEdge u v).nodes.length = g.nodes.length := by
  simp [withEdge]

theorem out_withEdge (hu : u < g.nodes.length) :
    (g.withEdge u v).out x = if x = u then v :: g.out u else g.out x := by
  simp only [out, withEdge]
  split
  · rename_i hx
    subst hx
    simp [getElem?_eq_getElem hu]
  · rename_i hx
    simp [Ne.symm hx]

theorem WellFormed.withEdge (hg : g.WellFormed) (hu : u < g.nodes.length)
    (hv : v < g.nodes.length) : (g.withEdge u v).WellFormed := by
  constructor
  · intro x y hy
    rw [length_withEdge]
    rw [out_withEdge hu] at hy
    split at hy
    · rcases mem_cons.mp hy with rfl | hy
      · exact hv
      · exact hg.range u y hy
    · exact hg.range x y hy
  · rw [DdState.withEdge, map_modify_out (·.id)]
    exact hg.ids

theorem hasEdge_withEdge (hu : g.NodeAt u l) (hv : g.NodeAt v m) {a b : ℕ} :
    (g.withEdge u v).HasEdge a b ↔ g.HasEdge a b ∨ (a = l ∧ b = m) := by
  simp only [HasEdge, nodeAt_withEdge, out_withEdge hu.lt]
  constructor
  · rintro ⟨x, y, hx, hy, hedge⟩
    split at hedge
    · rename_i hxu
      subst hxu
      rcases mem_cons.mp hedge with rfl | hedge
      · obtain ⟨n, hn, rfl⟩ := hu
        obtain ⟨n', hn', rfl⟩ := hx
        obtain rfl := Option.some.inj (hn.symm.trans hn')
        obtain ⟨k, hk, rfl⟩ := hv
        obtain ⟨k', hk', rfl⟩ := hy
        obtain rfl := Option.some.inj (hk.symm.trans hk')
        exact .inr ⟨rfl, rfl⟩
      · exact .inl ⟨x, y, hx, hy, hedge⟩
    · exact .inl ⟨x, y, hx, hy, hedge⟩
  · rintro (⟨x, y, hx, hy, hedge⟩ | ⟨rfl, rfl⟩)
    · refine ⟨x, y, hx, hy, ?_⟩
      split
      · rename_i hxu
        exact mem_cons_of_mem v (hxu ▸ hedge)
      · exact hedge
    · exact ⟨u, v, hu, hv, by simp⟩

end DdState

/-! ## What the graph says about the tables -/

/-- The graph charts the lockers `P` and the waits `E`: it has nodes for lockers in `P` and edges
for waits in `E` only, and a wait without an edge means that a table is full. -/
structure Charts (g : DdState) (P : ℕ → Prop) (E : ℕ → ℕ → Prop) : Prop where
  wf : g.WellFormed
  parties : ∀ u l, g.NodeAt u l → P l
  edges : ∀ l m, g.HasEdge l m → E l m
  counted : ∃ L : List (ℕ × ℕ), L.Nodup ∧ L.length = g.nEdges ∧ ∀ e ∈ L, g.HasEdge e.1 e.2
  missing : ∀ l m, E l m → ¬g.HasEdge l m →
    (maxLockers ≤ g.nodes.length ∧ ∃ p, P p ∧ ∀ u, ¬g.NodeAt u p) ∨ maxLockers * 8 ≤ g.nEdges

namespace Charts

variable {g : DdState} {P : ℕ → Prop} {E E' : ℕ → ℕ → Prop} {l m : ℕ}

theorem congr {P' : ℕ → Prop} (h : Charts g P E) (hP : ∀ l, P l → P' l)
    (hE : ∀ l m, E' l m ↔ E l m) : Charts g P' E' where
  wf := h.wf
  parties u l hu := hP l (h.parties u l hu)
  edges l m he := (hE l m).mpr (h.edges l m he)
  counted := h.counted
  missing l m he hno := (h.missing l m ((hE l m).mp he) hno).imp_left fun ⟨hfull, p, hp, hnone⟩ =>
    ⟨hfull, p, hP p hp, hnone⟩

theorem empty : Charts .empty P fun _ _ => False := by
  have hnode (u l : ℕ) : ¬DdState.empty.NodeAt u l := by simp [DdState.NodeAt, DdState.empty]
  refine ⟨⟨fun u v hv => ?_, nodup_nil⟩, fun u l hu => absurd hu (hnode u l), ?_,
    ⟨[], nodup_nil, rfl, by simp⟩, by simp⟩
  · simp [out, DdState.empty] at hv
  · rintro l m ⟨u, v, hu, -⟩
    exact hnode u l hu

/-- Looking up the node of a locker. -/
theorem nodeIdx (h : Charts g P E) (hl : P l) (lr : Option LockerRec) (now : ℤ) :
    Charts (g.nodeIdx l lr now).1 P E ∧ (g.nodeIdx l lr now).1.Located (g.nodeIdx l lr now).2 l ∧
      ∀ i k, g.Located i k → (g.nodeIdx l lr now).1.Located i k := by
  rcases g.nodeIdx_cases l lr now with ⟨u, heq, hu⟩ | ⟨hnone, ⟨hfull, heq⟩ | ⟨hroom, heq⟩⟩ <;>
    rw [heq]
  · exact ⟨h, .inl ⟨u, rfl, hu⟩, fun _ _ => id⟩
  · exact ⟨h, .inr ⟨rfl, hfull, hnone⟩, fun _ _ => id⟩
  · have hout : (newNode l lr now).out = [] := rfl
    refine ⟨⟨h.wf.withNode hout hnone, fun u k hu => ?_, fun a b hab => ?_, ?_,
      fun a b hab hno => ?_⟩,
      .inl ⟨_, rfl, nodeAt_withNode.mpr (.inr ⟨rfl, rfl⟩)⟩, ?_⟩
    · rcases nodeAt_withNode.mp hu with hu | ⟨-, rfl⟩
      · exact h.parties u k hu
      · exact hl
    · exact h.edges a b ((hasEdge_withNode h.wf hout).mp hab)
    · obtain ⟨L, hnodup, hlen, hL⟩ := h.counted
      exact ⟨L, hnodup, hlen, fun e he => (hasEdge_withNode h.wf hout).mpr (hL e he)⟩
    · rw [hasEdge_withNode h.wf hout] at hno
      rcases h.missing a b hab hno with ⟨hfull, -⟩ | hedges
      · omega
      · exact .inr hedges
    · rintro i k (⟨u, rfl, hu⟩ | ⟨-, hfull, -⟩)
      · exact .inl ⟨u, rfl, nodeAt_withNode.mpr (.inl hu)⟩
      · omega

/-- Recording the wait of one locker for another. -/
theorem addEdge (h : Charts g P E) (hl : P l) (hm : P m) {i j : Option ℕ} (hi : g.Located i l)
    (hj : g.Located j m) :
    Charts (g.addEdge i j) P (fun a b => E a b ∨ (a = l ∧ b = m)) ∧
      ∀ x k, g.Located x k → (g.addEdge i j).Located x k := by
  -- the graph stays as it is, and the edge is there or a table is full
  have hkeep (hcase : g.HasEdge l m ∨
      (maxLockers ≤ g.nodes.length ∧ ∃ p, P p ∧ ∀ u, ¬g.NodeAt u p) ∨
      maxLockers * 8 ≤ g.nEdges) : Charts g P fun a b => E a b ∨ (a = l ∧ b = m) := by
    refine ⟨h.wf, h.parties, fun a b hab => .inl (h.edges a b hab), h.counted, ?_⟩
    rintro a b (hab | ⟨rfl, rfl⟩) hno
    · exact h.missing a b hab hno
    · exact hcase.resolve_left hno
  rcases hi with ⟨u, rfl, hu⟩ | ⟨rfl, hfull, hnone⟩
  · rcases hj with ⟨v, rfl, hv⟩ | ⟨rfl, hfull, hnone⟩
    · unfold DdState.addEdge
      dsimp only
      split
      · rename_i hcase
        refine ⟨hkeep ?_, fun _ _ => id⟩
        exact hcase.symm.imp (fun hmem => ⟨u, v, hu, hv, hmem⟩) .inr
      · rename_i hcase
        rw [not_or] at hcase
        have hnew : ¬g.HasEdge l m := by
          rintro ⟨x, y, hx, hy, hmem⟩
          obtain rfl := h.wf.nodeAt_unique hx hu
          obtain rfl := h.wf.nodeAt_unique hy hv
          exact hcase.2 hmem
        change Charts (g.withEdge u v) _ _ ∧ ∀ x k, g.Located x k → (g.withEdge u v).Located x k
        refine ⟨⟨h.wf.withEdge hu.lt hv.lt, fun x k hx => h.parties x k (nodeAt_withEdge.mp hx),
          fun a b hab => ((hasEdge_withEdge hu hv).mp hab).imp_left (h.edges a b), ?_, ?_⟩,
          ?_⟩
        · obtain ⟨L, hnodup, hlen, hL⟩ := h.counted
          refine ⟨(l, m) :: L, nodup_cons.mpr ⟨fun hmem => hnew (hL _ hmem), hnodup⟩, ?_, ?_⟩
          · rw [length_cons, hlen]
            rfl
          · intro e he
            rw [hasEdge_withEdge hu hv]
            rcases mem_cons.mp he with rfl | he
            · exact .inr ⟨rfl, rfl⟩
            · exact .inl (hL e he)
        · intro a b hab hno
          rw [hasEdge_withEdge hu hv, not_or] at hno
          have hold := h.missing a b (hab.resolve_right hno.2) hno.1
          simp only [nodeAt_withEdge, length_withEdge]
          refine hold.imp_right fun hfull => hfull.trans ?_
          exact Nat.le_succ _
        · rintro i k (⟨x, rfl, hx⟩ | ⟨rfl, hfull, hnone⟩)
          · exact .inl ⟨x, rfl, nodeAt_withEdge.mpr hx⟩
          · refine .inr ⟨rfl, ?_, ?_⟩
            · rwa [length_withEdge]
            · simpa only [nodeAt_withEdge] using hnone
    · exact ⟨hkeep (.inr (.inl ⟨hfull, m, hm, hnone⟩)), fun _ _ => id⟩
  · exact ⟨hkeep (.inr (.inl ⟨hfull, l, hl, hnone⟩)), fun _ _ => id⟩

end Charts

/-! ## The waits of an object and of the manager -/

/-- A request of locker `a` waits for a request that locker `b` was granted. -/
def ObjView.WaitEdge (m : ConflictMatrix) (v : ObjView) (a b : ℕ) : Prop :=
  ∃ w ∈ v.waiting, ∃ r ∈ v.granted,
    w.locker = a ∧ r.locker = b ∧ r.locker ≠ w.locker ∧ m.conflicts r.mode w.mode = true

/-- The locker has a request on the object. -/
def ObjView.Party (v : ObjView) (l : ℕ) : Prop := ∃ r ∈ v.waiting ++ v.granted, r.locker = l

/-- The waits on the objects of the partitions before `i`. -/
def Manager.EdgeBelow (c : Config) (s : Manager) (i a b : ℕ) : Prop :=
  ∃ k, c.part k < i ∧ (s.view k).WaitEdge c.matrix a b

/-- The lockers with requests in the partitions before `i`. -/
def Manager.PartyBelow (c : Config) (s : Manager) (i l : ℕ) : Prop :=
  ∃ k, c.part k < i ∧ (s.view k).Party l

namespace Charts

variable {c : Config} {s : Manager} {g : DdState} {P : ℕ → Prop} {E : ℕ → ℕ → Prop} {k : Key}
  {A : Key → ObjView}

/-- The scan of one waiter. -/
theorem scanWaiter (h : Charts g P E) {w : Req} (hw : s.Stores k false w) {held : List Req}
    (hheld : ∀ r ∈ held, s.Stores k true r) (hPw : P w.locker) (hP : ∀ r ∈ held, P r.locker)
    (now : ℤ) : Charts (s.scanWaiter c now (addrs held) g w.addr) P fun a b => E a b ∨
      ∃ r ∈ held, a = w.locker ∧ b = r.locker ∧ r.locker ≠ w.locker ∧
        c.matrix.conflicts r.mode w.mode = true := by
  obtain ⟨hnode, hloc, -⟩ := h.nodeIdx hPw (s.lockerFind w.locker) now
  simp only [Manager.scanWaiter, hw.locker, hw.mode]
  generalize g.nodeIdx w.locker (s.lockerFind w.locker) now = src at hnode hloc
  obtain ⟨g₁, i⟩ := src
  clear h
  induction held generalizing g₁ E with
  | nil => exact hnode.congr (fun _ => id) (by simp)
  | cons r held ih =>
    have hst := hheld r mem_cons_self
    have hih {E' : ℕ → ℕ → Prop} {g' : DdState} (h' : Charts g' P E')
      (hloc' : g'.Located i w.locker) :=
      ih (fun r' hr' => hheld r' (mem_cons_of_mem r hr'))
        (fun r' hr' => hP r' (mem_cons_of_mem r hr')) g' h' hloc'
    rw [addrs, map_cons, foldl_cons, hst.locker, hst.mode]
    split
    · rename_i hskip
      refine (hih hnode hloc).congr (fun _ => id) fun a b => or_congr_right ?_
      rw [exists_mem_cons_iff]
      refine or_iff_right ?_
      rintro ⟨-, -, hne, hconf⟩
      rcases hskip with heq | hfree
      · exact hne heq
      · simp [hfree] at hconf
    · rename_i hedge
      rw [not_or, Bool.not_eq_false] at hedge
      obtain ⟨hnode', hloc', hkeep⟩ := hnode.nodeIdx (hP r mem_cons_self)
        (s.lockerFind r.locker) now
      obtain ⟨hadd, hkeep'⟩ := hnode'.addEdge hPw (hP r mem_cons_self) (hkeep _ _ hloc) hloc'
      refine (hih hadd (hkeep' _ _ (hkeep _ _ hloc))).congr (fun _ => id) fun a b => ?_
      rw [exists_mem_cons_iff, or_assoc]
      simp [hedge.1, hedge.2]

/-- The scan of one object. -/
theorem scanObj (hrep : Represents s A none) (h : Charts g P E)
    (hP : ∀ l, (A k).Party l → P l) (now : ℤ) :
    ∃ g', s.scanObj c now g k = some g' ∧
      Charts g' P fun a b => E a b ∨ (A k).WaitEdge c.matrix a b := by
  rw [Manager.scanObj, hrep.waitingList_eq, Option.bind_some, hrep.grantedList_eq, Option.map_some]
  refine ⟨_, rfl, ?_⟩
  have hgrant : ∀ r ∈ (A k).granted, P r.locker := fun r hr =>
    hP _ ⟨r, mem_append_right _ hr, rfl⟩
  have hfold (l : List Req) (hl : ∀ w ∈ l, s.Stores k false w ∧ P w.locker) :
      Charts ((addrs l).foldl (s.scanWaiter c now (addrs (A k).granted)) g) P fun a b => E a b ∨
        ∃ w ∈ l, ∃ r ∈ (A k).granted, a = w.locker ∧ b = r.locker ∧ r.locker ≠ w.locker ∧
          c.matrix.conflicts r.mode w.mode = true := by
    induction l generalizing g E with
    | nil => exact h.congr (fun _ => id) (by simp)
    | cons w l ih =>
      obtain ⟨hst, hPw⟩ := hl w mem_cons_self
      have hone := h.scanWaiter (c := c) hst (hrep.stores_granted k) hPw hgrant now
      refine (ih hone fun w' hw' => hl w' (mem_cons_of_mem w hw')).congr (fun _ => id) ?_
      intro a b
      rw [exists_mem_cons_iff, or_assoc]
  refine (hfold (A k).waiting fun w hw => ⟨hrep.stores_waiting k w hw, ?_⟩).congr
    (fun _ => id) fun a b => or_congr_right ?_
  · exact hP _ ⟨w, mem_append_left _ hw, rfl⟩
  · refine exists_congr fun w => and_congr_right fun _ => exists_congr fun r => ?_
    rw [eq_comm, eq_comm (a := b)]

/-- The scan of the objects of a table. -/
theorem scanTable (hrep : Represents s A none) {keys : List Key}
    (h : Charts g P E) (hP : ∀ k ∈ keys, ∀ l, (A k).Party l → P l) (now : ℤ) :
    ∃ g', s.scanTable c now g keys = some g' ∧
      Charts g' P fun a b => E a b ∨ ∃ k ∈ keys, (A k).WaitEdge c.matrix a b := by
  induction keys generalizing g E with
  | nil => exact ⟨g, rfl, h.congr (fun _ => id) (by simp)⟩
  | cons k keys ih =>
    obtain ⟨g₁, hg₁, hone⟩ := h.scanObj hrep (hP k mem_cons_self) now
    obtain ⟨g₂, hg₂, hrest⟩ := ih hone fun k' hk' => hP k' (mem_cons_of_mem k hk')
    refine ⟨g₂, by rw [Manager.scanTable, hg₁, Option.bind_some, hg₂], ?_⟩
    refine hrest.congr (fun _ => id) fun a b => ?_
    rw [exists_mem_cons_iff, or_assoc]

end Charts

/-! ## Along a run -/

variable {c : Config} {s s' : Manager} {a : Act}

/-- A section works only on objects of partitions that the detector has not locked, unless it is
the detector's own. -/
theorem Performs.unlocked {k : Key} {op : ObjOp} (hperf : Performs c s s.view a k op)
    (ht : s.step c a = some s') : ¬s.locked (c.part k) ∨ a.isDetect = true := by
  cases hperf with
  | getRaise | getGrant | getWait | upgradeRaise | upgradeWait | upgradeDrop =>
    exact .inl (Option.ite_none_right_eq_some.mp ht).1.2.1
  | put | downgrade => exact .inl (Option.ite_none_left_eq_some.mp ht).1
  | @part locker i k hk =>
    have hpart : c.part k = i := by simpa using (mem_filter.mp hk).2
    rw [hpart]
    exact .inl (Option.ite_none_right_eq_some.mp ht).1.2
  | leave hw | killed hw | drop hw =>
    exact .inl fun hlocked => (Option.ite_none_left_eq_some.mp ht).1 ⟨_, hw, hlocked⟩
  | victim => exact .inr rfl

/-- The graph of the detector charts the partitions it has scanned. -/
def Manager.Charting (c : Config) (s : Manager) (d : Detection) : Prop :=
  Charts d.graph (s.PartyBelow c d.scanned) (s.EdgeBelow c d.scanned)

/-- The steps of other threads leave the scanned partitions alone. -/
theorem Manager.Charting.of_other {d : Detection} (h : s.Charting c d) (hd : s.detection = some d)
    (hreach : Reaches c s a s') (ht : s.step c a = some s') (ha : a.isDetect = false) :
    s'.Charting c d := by
  have hview (k : Key) (hk : c.part k < d.scanned) : s'.view k = s.view k := by
    rcases hreach.changes k with heq | ⟨op, hperf, -, -⟩
    · exact heq
    · exact absurd ⟨d, hd, hk⟩ ((hperf.unlocked ht).resolve_right (by simp [ha]))
  refine h.congr ?_ ?_
  · rintro l ⟨k, hk, hl⟩
    exact ⟨k, hk, by rwa [hview k hk]⟩
  · intro a b
    refine exists_congr fun k => and_congr_right fun hk => ?_
    rw [hview k hk]

/-- The scan of the next partition. -/
theorem Manager.Charting.scan {d d' : Detection} (h : s.Charting c d)
    (hd : s.detection = some d) (hsound : Sound s) (ht : s.step c .detectScan = some s')
    (hd' : s'.detection = some d') : s'.Charting c d' := by
  simp only [Manager.step, hd, Option.bind_some] at ht
  obtain ⟨-, ht⟩ := Option.ite_none_right_eq_some.mp ht
  obtain ⟨g, hg, rfl⟩ := Option.map_eq_some_iff.mp ht
  cases hd'
  have hrep := hsound.represents
  have hpart {k : Key} (hk : k ∈ s.table c d.scanned) : c.part k = d.scanned := by
    simpa using (mem_filter.mp hk).2
  have hbefore : Charts d.graph (s.PartyBelow c (d.scanned + 1)) (s.EdgeBelow c d.scanned) :=
    h.congr (fun l ⟨k, hk, hl⟩ => ⟨k, by omega, hl⟩) fun _ _ => Iff.rfl
  have hparties : ∀ k ∈ s.table c d.scanned, ∀ l, (s.view k).Party l →
      s.PartyBelow c (d.scanned + 1) l := fun k hk l hl => ⟨k, by have := hpart hk; omega, hl⟩
  obtain ⟨g', hg', hcharts⟩ := hbefore.scanTable hrep hparties d.now
  obtain rfl := Option.some.inj (hg.symm.trans hg')
  refine hcharts.congr (fun _ => id) fun a b => ?_
  constructor
  · rintro ⟨k, hk, hedge⟩
    have hk' : c.part k < d.scanned + 1 := hk
    rcases Nat.lt_succ_iff_lt_or_eq.mp hk' with hlt | heq
    · exact .inl ⟨k, hlt, hedge⟩
    · obtain ⟨w, hw, -⟩ := id hedge
      obtain ⟨o, ho⟩ := hrep.objLookup_of_mem (g := false) (mem_addrs.mpr ⟨w, hw, rfl⟩)
      have hkey : o.key = k := by simpa using find?_some ho
      have hmem : k ∈ s.keys := hkey ▸ mem_map_of_mem (mem_of_find?_eq_some ho)
      exact .inr ⟨k, mem_filter.mpr ⟨hmem, by simpa using heq⟩, hedge⟩
  · rintro (⟨k, hk, hedge⟩ | ⟨k, hk, hedge⟩)
    · exact ⟨k, Nat.lt_succ_of_lt hk, hedge⟩
    · exact ⟨k, hpart hk ▸ Nat.lt_succ_self _, hedge⟩

/-- Every policy but `EXPIRE` has a victim for every cycle. -/
theorem chooseVictim_isSome (hc : c.victim ≠ .expire) {g : DdState} {u : ℕ}
    (hu : g.search.cycleIn = some u) (rand : ℕ → ℤ) (pick : Option (List ℕ → ℤ)) :
    ∃ v, Manager.chooseVictim c g rand pick = some v := by
  rw [Manager.chooseVictim, hu, Option.bind_some]
  exact SearchStack.pickVictim_isSome hc pick _ rand

end LibXtc.LockMgr

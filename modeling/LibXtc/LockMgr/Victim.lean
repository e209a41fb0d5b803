import LibXtc.LockMgr.Search
import LibXtc.LockMgr.System

/-!
# The choice of a deadlock victim

`__dd_pick_victim` walks the parent links of the search from the node where the cycle was seen to
the root of the search, and chooses among the nodes it meets. These are the nodes of the descent
from the least node that reaches a cycle, so a victim lies on a cycle, whatever the policy,
exactly if all nodes of the descent do.
-/

namespace LibXtc.LockMgr

open Foundations DdState List Option

variable {st g : DdState} {d : DfsState} {w u call v : ℕ} {p l : List ℕ} {policy : VictimPolicy}
  {rand : ℕ → ℤ} {best : ℕ × ℤ × Bool}

/-- The walk along the parent links meets the nodes of the stack below `u`. -/
theorem parentWalk_eq {parent : Heap (Option ℕ)} {fuel : ℕ} {q : List ℕ}
    (hchain : (u :: q).IsChain fun x y => parent.get x = some y)
    (hroot : ∀ x, (u :: q).getLast? = some x → parent.get x = none) (hw : w ∉ q)
    (hfuel : q.length ≤ fuel) :
    (parentWalk parent w fuel u).1 = u :: q ∧
      some (parentWalk parent w fuel u).2 = (u :: q).getLast? := by
  induction q generalizing u fuel with
  | nil =>
    have hnone := hroot u rfl
    cases fuel with
    | zero => exact ⟨rfl, rfl⟩
    | succ fuel => simp [parentWalk, hnone]
  | cons y q ih =>
    rw [isChain_cons_cons] at hchain
    rw [mem_cons, not_or] at hw
    cases fuel with
    | zero => simp at hfuel
    | succ fuel =>
      obtain ⟨hwalk, hlast⟩ := ih hchain.2 (by simpa using hroot) hw.2 (by simpa using hfuel)
      simp only [parentWalk, hchain.1, if_neg (Ne.symm hw.1)]
      exact ⟨by rw [hwalk], by rw [hlast, getLast?_cons_cons]⟩

/-- The scoring loop answers with a node it has met, or with the one it began with. -/
theorem scoreLoop_mem : (scoreLoop policy st rand l call best).1 = best.1 ∨
      (scoreLoop policy st rand l call best).1 ∈ l := by
  induction l generalizing call best with
  | nil => exact .inl rfl
  | cons u rest ih =>
    unfold scoreLoop
    cases hnode : st.nodes[u]? with
    | none => exact ih.imp_right (mem_cons_of_mem u)
    | some n =>
      have hnext (best' : ℕ × ℤ × Bool) (hbest : best'.1 = u ∨ best'.1 = best.1) :
          (scoreLoop policy st rand rest (call + 1) best').1 = best.1 ∨
            (scoreLoop policy st rand rest (call + 1) best').1 ∈ u :: rest := by
        rcases @ih (call + 1) best' with heq | hmem
        · rw [heq, mem_cons]
          exact hbest.elim (fun h => .inr (.inl h)) .inl
        · exact .inr (mem_cons_of_mem u hmem)
      refine hnext _ ?_
      split_ifs <;> simp

/-- Scoring two lists of nodes one after the other. -/
theorem scoreLoop_append {l' : List ℕ} : scoreLoop policy st rand (l ++ l') call best =
      scoreLoop policy st rand l' (call + l.length) (scoreLoop policy st rand l call best) := by
  induction l generalizing call best with
  | nil => rfl
  | cons u rest ih =>
    rw [cons_append, scoreLoop, scoreLoop, length_cons, ← Nat.add_assoc, Nat.add_right_comm]
    cases st.nodes[u]? with
    | none | some n => exact ih

/-- Random scores that are no better than the best one leave it in place. -/
theorem scoreLoop_random_le {score : ℤ} {seen : Bool}
    (h : ∀ i < l.length, rand (call + i) ≤ score) :
    scoreLoop .random st rand l call (v, score, seen) = (v, score, seen) := by
  induction l generalizing call with
  | nil => rfl
  | cons u rest ih =>
    have hfirst : ¬score < rand call := by
      have := h 0 (by simp)
      rw [Nat.add_zero] at this
      omega
    have hrest : ∀ i < rest.length, rand (call + 1 + i) ≤ score := fun i hi => by
      rw [Nat.add_right_comm]
      exact h (i + 1) (by simpa using hi)
    unfold scoreLoop
    cases st.nodes[u]? with
    | none => exact ih hrest
    | some n => simpa [ddScore, hfirst] using ih hrest

/-- The locker of a node, and if it is past its expiry. -/
def DdState.tag (st : DdState) (u : ℕ) : Option (ℕ × Bool) :=
  (st.nodes[u]?).map fun n => (n.id, n.expired)

/-- Under `EXPIRE` the scoring loop answers with an expired node once it has seen one. -/
theorem scoreLoop_expired (hbest : best.2.2 = true → ∃ id, st.tag best.1 = some (id, true))
    (hseen : (scoreLoop .expire st rand l call best).2.2 = true) :
    ∃ id, st.tag (scoreLoop .expire st rand l call best).1 = some (id, true) := by
  induction l generalizing call best with
  | nil => exact hbest hseen
  | cons u rest ih =>
    unfold scoreLoop at hseen ⊢
    cases hnode : st.nodes[u]? with
    | none =>
      simp only [hnode] at hseen ⊢
      exact ih hbest hseen
    | some n =>
      simp only [hnode, reduceIte] at hseen ⊢
      refine ih ?_ hseen
      split_ifs with hbetter
      · have hexp := (Bool.and_eq_true_iff.mp hbetter).1
        exact fun _ => ⟨n.id, by simp [tag, hnode, hexp]⟩
      · exact hbest

/-- The victim under `EXPIRE` is an expired node. -/
theorem pickVictim_expired {pick : Option (List ℕ → ℤ)} {parent : Heap (Option ℕ)}
    (hv : pickVictim .expire pick st parent w rand = some v) :
    ∃ id, st.tag v = some (id, true) := by
  unfold pickVictim pickByScore at hv
  dsimp only at hv
  split at hv
  · cases hv
  next hseen =>
    obtain rfl := some.inj hv
    exact scoreLoop_expired (fun h => by cases h) (by simpa using hseen)

namespace SearchStack

section

variable (h : SearchStack st d w p)
include h

/-- The nodes of the stack are as many as the graph has at most. -/
theorem length_le : p.length ≤ st.nodes.length :=
  (Nat.le_succ _).trans (length_le_of_nodup_lt h.nodup h.lt)

/-- The walk from the node where the cycle was seen meets the whole stack. -/
theorem parentWalk : (LockMgr.parentWalk d.parent w st.nodes.length w).1 = w :: p ∧
      some (LockMgr.parentWalk d.parent w st.nodes.length w).2 = (w :: p).getLast? :=
  parentWalk_eq h.parents h.root (nodup_cons.mp h.nodup).1 h.length_le

/-- The scoring begun at the end of the stack or at its root answers with a node of the stack. -/
theorem pickByScore_mem (hu : u = w ∨ (w :: p).getLast? = some u)
    (hv : pickByScore policy st d.parent w u rand = some v) : v ∈ w :: p := by
  have hwalk : ∀ x ∈ (LockMgr.parentWalk d.parent w st.nodes.length u).1, x ∈ w :: p := by
    rcases hu with rfl | hu
    · rw [h.parentWalk.1]
      exact fun _ => id
    · have hroot : (LockMgr.parentWalk d.parent w st.nodes.length u).1 = [u] :=
        (parentWalk_eq (isChain_singleton u) (by simpa using h.root u hu) not_mem_nil
          (Nat.zero_le _)).1
      rw [hroot]
      intro x hx
      exact mem_singleton.mp hx ▸ mem_of_getLast? hu
  unfold pickByScore at hv
  dsimp only at hv
  split at hv
  · cases hv
  · obtain rfl := some.inj hv
    rcases scoreLoop_mem with heq | hmem
    · rw [heq]
      exact mem_cons_self
    · exact hwalk _ hmem

/-- Every policy chooses a node of the stack. -/
theorem pickVictim_mem {pick : Option (List ℕ → ℤ)}
    (hv : pickVictim policy pick st d.parent w rand = some v) : v ∈ w :: p := by
  unfold pickVictim at hv
  split at hv
  · dsimp only at hv
    split at hv
    · have hmem := mem_of_mem_take (mem_of_getElem? hv)
      rwa [h.parentWalk.1] at hmem
    · exact h.pickByScore_mem (.inr h.parentWalk.2.symm) hv
  · exact h.pickByScore_mem (.inl rfl) hv

end

/-- Every policy but `EXPIRE` chooses some node. -/
theorem pickVictim_isSome (hpol : policy ≠ .expire) (pick : Option (List ℕ → ℤ))
    (parent : Heap (Option ℕ)) (rand : ℕ → ℤ) :
    ∃ v, pickVictim policy pick st parent w rand = some v := by
  have hscore (u : ℕ) : ∃ v, pickByScore policy st parent w u rand = some v :=
    ⟨_, if_neg fun h => hpol h.1⟩
  unfold pickVictim
  split
  · dsimp only
    split
    · exact ⟨_, getElem?_eq_getElem (by omega)⟩
    · exact hscore _
  · exact hscore _

/-- The policy `RANDOM` may choose any node of the stack. -/
theorem exists_pick (h : SearchStack st d w p) (hv : v ∈ w :: p) :
    ∃ rand, pickVictim .random none st d.parent w rand = some v := by
  obtain ⟨before, after, hsplit⟩ := append_of_mem hv
  let rand (i : ℕ) : ℤ := if i = before.length + 1 then 1 else 0
  obtain ⟨n, hn⟩ : ∃ n, st.nodes[v]? = some n := ⟨_, getElem?_eq_getElem (h.lt v hv)⟩
  have hfirst : ((st.nodes[w]?).map fun n => ddScore .random n (rand 0)).getD 0 = 0 := by
    cases st.nodes[w]? with
    | none => rfl
    | some n => simp [ddScore, rand]
  have hbefore : scoreLoop .random st rand before 1 (w, 0, false) = (w, 0, false) :=
    scoreLoop_random_le fun i hi => by simp only [rand]; rw [if_neg (by omega)]
  have hv : scoreLoop .random st rand (v :: after) (1 + before.length) (w, 0, false) =
      scoreLoop .random st rand after (1 + before.length + 1) (v, 1, false) := by
    have hseen : (VictimPolicy.random == VictimPolicy.expire) = false := rfl
    simp [scoreLoop, hn, ddScore, rand, Nat.add_comm, hseen]
  have hafter : scoreLoop .random st rand after (1 + before.length + 1) (v, 1, false) =
      (v, 1, false) :=
    scoreLoop_random_le fun i hi => by simp only [rand]; rw [if_neg (by omega)]; decide
  refine ⟨rand, ?_⟩
  rw [pickVictim, pickByScore, if_neg (by simp), h.parentWalk.1, hsplit, hfirst, scoreLoop_append,
    hbefore, hv, hafter]
  simp

end SearchStack

/-! ## Victims and cycles -/

namespace DdState

theorem lt_of_mem_out (h : v ∈ g.out u) : u < g.nodes.length := by
  by_contra hle
  rw [out_eq_nil (by omega)] at h
  cases h

/-- What the scan of the tables builds: edges between nodes of the graph, one node for each
locker. -/
structure WellFormed (g : DdState) : Prop where
  range : g.InRange
  ids : (g.nodes.map (·.id)).Nodup

/-- The locker lies on a cycle of the wait-for graph. -/
def LockerOnCycle (g : DdState) (id : ℕ) : Prop :=
  ∃ v node, g.nodes[v]? = some node ∧ node.id = id ∧ OnCycle g.rel v

theorem OnDescent.reachesCycle (h : g.OnDescent u) : ReachesCycle g.rel u := by
  obtain ⟨root, hroot, hdesc⟩ := h
  cases hdesc with
  | start => exact hroot.1
  | next _ _ hu => exact hu

/-- A locker has one node. -/
theorem WellFormed.node_unique (hg : g.WellFormed) {n n' : DdNode}
    (hu : g.nodes[u]? = some n) (hv : g.nodes[v]? = some n') (hid : n.id = n'.id) : u = v := by
  refine index_unique hg.ids (a := n.id) ?_ ?_
  · rw [getElem?_map, hu]
    rfl
  · rw [getElem?_map, hv, hid]
    rfl

end DdState

/-- Whatever the policy, the clock and the callback, the next victim of the detector lies on a
cycle of its graph, exactly if every node lies on a cycle that is met on the way from the first
node from which a cycle can be reached, along the first listed edges towards a cycle. -/
theorem victim_onCycle_iff {g : DdState} (hg : g.WellFormed) :
    (∀ (c : Config) (s : Manager) (d : Detection) (rand : ℕ → ℤ) (pick : Option (List ℕ → ℤ))
      (id : ℕ), s.detection = some d → d.graph = g → s.victimId c rand pick = some id →
      g.LockerOnCycle id) ↔
      ∀ u, g.OnDescent u → OnCycle g.rel u := by
  constructor
  · intro h u hu
    rcases g.search_spec hg.range with ⟨-, hno⟩ | ⟨w, p, hstack⟩
    · exact absurd hu.reachesCycle (hno u)
    · have hmem := (hstack.mem u).mpr hu
      obtain ⟨node, hnode⟩ : ∃ node, g.nodes[u]? = some node :=
        ⟨_, getElem?_eq_getElem (hstack.lt u hmem)⟩
      obtain ⟨rand, hpick⟩ := hstack.exists_pick hmem
      obtain ⟨v, node', hv, hid, hcycle⟩ := h { Config.default with victim := .random }
        { Manager.create with detection := some ⟨0, 0, g, 0⟩ } ⟨0, 0, g, 0⟩ rand none node.id
        rfl rfl (by simp [Manager.victimId, Manager.chooseVictim, hstack.cycleIn, hpick, hnode])
      rwa [hg.node_unique hnode hv hid.symm]
  · intro h c s d rand pick id hd hgraph hvictim
    rw [Manager.victimId, hd, bind_some, hgraph] at hvictim
    obtain ⟨v, hchoose, hnode⟩ := bind_eq_some_iff.mp hvictim
    obtain ⟨node, hnode, hid⟩ := map_eq_some_iff.mp hnode
    obtain ⟨u, hcycleIn, hpick⟩ := bind_eq_some_iff.mp hchoose
    rcases g.search_spec hg.range with ⟨hnone, -⟩ | ⟨w, p, hstack⟩
    · rw [hnone] at hcycleIn
      cases hcycleIn
    · obtain rfl := some.inj (hstack.cycleIn.symm.trans hcycleIn)
      exact ⟨v, node, hnode, hid, h v ((hstack.mem v).mp (hstack.pickVictim_mem hpick))⟩

/-- Two lockers that wait for each other. -/
def twoLockers : DdState :=
  ⟨[⟨1, 1, 1, 1, false, [1]⟩, ⟨2, 2, 1, 1, false, [0]⟩], 2⟩

/-- A victim among two lockers that wait for each other lies on their cycle. -/
theorem victim_onCycle_twoLockers : twoLockers.WellFormed ∧
    ∀ (c : Config) (s : Manager) (d : Detection) (rand : ℕ → ℤ) (pick : Option (List ℕ → ℤ))
      (id : ℕ), s.detection = some d → d.graph = twoLockers → s.victimId c rand pick = some id →
      twoLockers.LockerOnCycle id := by
  have hrange : ∀ u < 2, ∀ v ∈ twoLockers.out u, v < 2 := by decide
  have hwf : twoLockers.WellFormed :=
    ⟨fun u v hv => hrange u (lt_of_mem_out hv) v hv, by decide⟩
  refine ⟨hwf, (victim_onCycle_iff hwf).mpr fun u hu => ?_⟩
  have hlt := lt_of_reachesCycle hu.reachesCycle
  have h01 : twoLockers.rel 0 1 := by simp [rel, edgeRel, out, twoLockers]
  have h10 : twoLockers.rel 1 0 := by simp [rel, edgeRel, out, twoLockers]
  rcases Nat.lt_succ_iff_lt_or_eq.mp hlt with hlt | rfl
  · rw [Nat.lt_one_iff.mp hlt]
    exact .tail (.single h01) h10
  · exact .tail (.single h10) h01

/-- A manager that aborts the youngest locker. -/
def youngestVictim : Config := { Config.default with victim := .youngest }

/-- Lockers 1 and 2 wait for each other; locker 3, the youngest, waits for locker 1. The detector
has scanned the tables and is about to choose a victim. -/
def waitsForDeadlock : List Act :=
  [.newLocker 1, .newLocker 2, .newLocker 3, .get 0 1 [2] Mode.x (-1) false true (some 0),
    .get 0 2 [1] Mode.x (-1) false true (some 1), .get 0 1 [3] Mode.x (-1) false true (some 2),
    .get 0 3 [2] Mode.x (-1) false true (some 3), .get 1 1 [1] Mode.x (-1) false true (some 4),
    .get 2 2 [3] Mode.x (-1) false true (some 5), .detectBegin 10] ++ replicate 64 .detectScan

/-- The graph of that scan. -/
def waitsForDeadlockGraph : DdState :=
  ⟨[⟨3, 3, 0, 0, false, [1]⟩, ⟨1, 1, 2, 2, false, [2]⟩, ⟨2, 2, 1, 1, false, [1]⟩], 3⟩

/-- The detector chooses locker 3, which lies on no cycle. -/
theorem waitsForDeadlock_victim : ∃ s ∈ (lockSystem youngestVictim).run .create waitsForDeadlock,
      ∃ d ∈ s.detection, s.victimId youngestVictim (fun _ => 0) none = some 3 ∧
        ¬d.graph.LockerOnCycle 3 := by
  have hrun : ∃ s ∈ (lockSystem youngestVictim).run .create waitsForDeadlock,
      ∃ d ∈ s.detection, s.victimId youngestVictim (fun _ => 0) none = some 3 ∧
        d.graph = waitsForDeadlockGraph := by decide
  obtain ⟨s, hrun, d, hd, hvictim, hgraph⟩ := hrun
  refine ⟨s, hrun, d, hd, hvictim, ?_⟩
  rw [hgraph]
  rintro ⟨v, node, hnode, hid, hcycle⟩
  obtain rfl : v = 0 := by
    match v, hnode with
    | 0, _ => rfl
    | 1, h | 2, h =>
      obtain rfl := some.inj h
      cases hid
    | v + 3, h => simp [waitsForDeadlockGraph] at h
  -- no edge leads to the node of locker 3
  have hnone : ∀ u < 3, 0 ∉ waitsForDeadlockGraph.out u := by decide
  obtain ⟨u, -, hedge⟩ := Relation.TransGen.tail'_iff.mp hcycle
  exact hnone u (lt_of_mem_out hedge) hedge

/-! ## What a victim callback is told

For `XTC_LOCK_VICTIM_CUSTOM` the detector hands an array to the user's callback and takes the answer
as a position in it. The array holds node numbers of the detector, not lockers, the nodes on the way
to the cycle among them, and 64 at most. So the callback is told the lockers of the cycle, and
aborts the one it means, only if the numbers happen to agree. -/

namespace DdState

/-- The nodes that `__dd_pick_victim` walks over for a cycle seen at node `w`. -/
def walk (g : DdState) (w : ℕ) : List ℕ := (parentWalk g.search.parent w g.nodes.length w).1

/-- The array that `__dd_pick_victim` hands to the callback. -/
def candidates (g : DdState) (w : ℕ) : List ℕ := (g.walk w).take 64

/-- The cycle seen at node `w`: the path of the search from the first neighbour of `w` on it. -/
def seenCycle (g : DdState) (w : ℕ) : List ℕ :=
  (g.walk w).take ((g.walk w).idxOf (((g.out w).find? (· ∈ g.walk w)).getD w) + 1)

/-- The locker of a node. -/
def lockerAt (g : DdState) (u : ℕ) : Option ℕ := g.nodes[u]?.map (·.id)

/-- The callback is told the lockers of the cycle, each once, and the locker at the position with
which it answers is the next victim. -/
def TellsLockers (g : DdState) (w : ℕ) : Prop :=
  ((g.candidates w).map some).Perm ((g.seenCycle w).map g.lockerAt) ∧
  ∀ (c : Config) (s : Manager) (d : Detection) (rand : ℕ → ℤ) (f : List ℕ → ℤ) (k id : ℕ),
    c.victim = .custom → s.detection = some d → d.graph = g → f (g.candidates w) = k →
    (g.candidates w)[k]? = some id → s.victimId c rand (some f) = some id

/-- The nodes wait in a circle: each for the one listed before it, and the first for the last. -/
structure Circle (g : DdState) (l : List ℕ) : Prop where
  nodup : l.Nodup
  chain : l.IsChain fun x y => g.rel y x
  closes : ∃ u v, l.head? = some u ∧ l.getLast? = some v ∧ g.rel u v

theorem circle_seenCycle (hg : g.WellFormed) (hw : g.search.cycleIn = some w) :
    g.Circle (g.seenCycle w) := by
  rcases g.search_closed hg.range with ⟨hnone, -⟩ | ⟨w', p, hstack, hedges, x, hx, hwx⟩
  · cases hnone.symm.trans hw
  · obtain rfl := some.inj (hstack.cycleIn.symm.trans hw)
    have hwalk : g.walk w' = w' :: p := hstack.parentWalk.1
    rw [seenCycle, hwalk]
    cases hfind : (g.out w').find? (· ∈ w' :: p) with
    | none => exact absurd hx (by simpa using find?_eq_none.mp hfind x hwx)
    | some v =>
      have hv : v ∈ w' :: p := by simpa using find?_some hfind
      refine ⟨hstack.nodup.sublist (take_sublist ..), hedges.take _, w', v, rfl, ?_,
        mem_of_find?_eq_some hfind⟩
      rw [getD_some, getLast?_take, if_neg (Nat.succ_ne_zero _), Nat.add_sub_cancel,
        getElem?_idxOf hv, some_or]

/-- An answer within the array chooses the node at its position. -/
theorem victimId_custom {c : Config} {s : Manager} {d : Detection} {f : List ℕ → ℤ} {k u : ℕ}
    (hc : c.victim = .custom) (hd : s.detection = some d) (hw : d.graph.search.cycleIn = some w)
    (hf : f (d.graph.candidates w) = k) (hk : (d.graph.candidates w)[k]? = some u)
    (rand : ℕ → ℤ) : s.victimId c rand (some f) = d.graph.lockerAt u := by
  have hlt : k < (d.graph.candidates w).length := (List.getElem?_eq_some_iff.mp hk).1
  have hpick : pickVictim .custom (some f) d.graph d.graph.search.parent w rand = some u := by
    change (if 0 ≤ f (d.graph.candidates w) ∧ f (d.graph.candidates w) < _ then
      (d.graph.candidates w)[(f (d.graph.candidates w)).toNat]? else _) = some u
    rw [hf, if_pos ⟨Int.natCast_nonneg k, Int.ofNat_lt.mpr hlt⟩, Int.toNat_natCast, hk]
  simp [Manager.victimId, hd, Manager.chooseVictim, hw, hc, hpick, lockerAt]

end DdState

/-- Lockers 1 and 2 wait for each other, and locker 3, which the detector met first, for none. -/
def numberedLockers : DdState :=
  ⟨[⟨3, 3, 1, 1, false, []⟩, ⟨1, 1, 1, 1, false, [2]⟩, ⟨2, 2, 1, 1, false, [1]⟩], 2⟩

/-- A manager with a victim callback. -/
def customVictim : Config := { Config.default with victim := .custom }

end LibXtc.LockMgr

import Mathlib.SetTheory.Cardinal.NatCard

/-!
# Cycles of a directed graph

Nodes on a cycle, nodes that reach one, and the descent towards a cycle in a graph whose out-edges
are listed in an order: from each node to the first listed neighbour that reaches a cycle. A
depth-first search that stops at the first cycle follows exactly this descent.
-/

namespace LibXtc.Foundations

open Relation List

variable {α : Type*} {r : α → α → Prop} {u v w : α}

/-- The node lies on a cycle. -/
def OnCycle (r : α → α → Prop) (u : α) : Prop := TransGen r u u

/-- A cycle can be reached from the node. -/
def ReachesCycle (r : α → α → Prop) (u : α) : Prop := ∃ v, ReflTransGen r u v ∧ OnCycle r v

theorem OnCycle.mono {r' : α → α → Prop} (h : OnCycle r u) (hr : ∀ x y, r x y → r' x y) :
    OnCycle r' u := TransGen.mono hr u u h

/-- The nodes of a cycle: each has a neighbour among them. -/
theorem OnCycle.exists_closed (h : OnCycle r u) : ∃ E : Set α, u ∈ E ∧ ∀ x ∈ E, ∃ y ∈ E, r x y := by
  refine ⟨{x | TransGen r u x ∧ TransGen r x u}, ⟨h, h⟩, fun x ⟨hux, hxu⟩ => ?_⟩
  obtain ⟨y, hxy, hyu⟩ := TransGen.head'_iff.mp hxu
  refine ⟨y, ⟨hux.tail hxy, ?_⟩, hxy⟩
  rcases ReflTransGen.cases_head hyu with rfl | ⟨z, hyz, hzu⟩
  · exact h
  · exact TransGen.head' hyz hzu

/-- A cycle through `u` has an edge from nodes on a cycle with `u` only. -/
theorem OnCycle.within (h : OnCycle r u) :
    OnCycle (fun x y => TransGen r u x ∧ TransGen r x u ∧ r x y) u := by
  have hpath {v : α} (hv : TransGen r u v) (hback : ReflTransGen r v u) :
      TransGen (fun x y => TransGen r u x ∧ TransGen r x u ∧ r x y) u v := by
    induction hv with
    | single huv => exact .single ⟨h, h, huv⟩
    | tail hux hxy ih =>
      have hxu := TransGen.head' hxy hback
      exact .tail (ih hxu.to_reflTransGen) ⟨hux, hxu, hxy⟩
  exact hpath h .refl

theorem OnCycle.reachesCycle (h : OnCycle r u) : ReachesCycle r u := ⟨u, .refl, h⟩

theorem ReachesCycle.of_reflTransGen (h : ReachesCycle r v) (huv : ReflTransGen r u v) :
    ReachesCycle r u := by
  obtain ⟨x, hvx, hx⟩ := h
  exact ⟨x, huv.trans hvx, hx⟩

/-- A node reaches a cycle exactly if one of its neighbours does. -/
theorem reachesCycle_iff : ReachesCycle r u ↔ ∃ v, r u v ∧ ReachesCycle r v := by
  constructor
  · rintro ⟨x, hux, hx⟩
    rcases ReflTransGen.cases_head hux with rfl | ⟨v, huv, hvx⟩
    · obtain ⟨v, huv, hvu⟩ := TransGen.head'_iff.mp hx
      exact ⟨v, huv, u, hvu, hx⟩
    · exact ⟨v, huv, x, hvx, hx⟩
  · rintro ⟨v, huv, hv⟩
    exact hv.of_reflTransGen (.single huv)

/-- A finite set that every member can leave only within the set has a cycle inside it. -/
theorem exists_onCycle_of_finite {E : Set α} (hfin : E.Finite) (hne : E.Nonempty)
    (hsucc : ∀ u ∈ E, ∃ v ∈ E, r u v) :
    ∃ u ∈ E, OnCycle (fun x y => x ∈ E ∧ y ∈ E ∧ r x y) u := by
  by_contra hno
  push Not at hno
  let R : E → E → Prop := fun x y => TransGen (fun a b => a ∈ E ∧ b ∈ E ∧ r a b) y.1 x.1
  have : Finite E := hfin
  have : Std.Irrefl R := ⟨fun x hx => hno x.1 x.2 hx⟩
  have hwf : WellFounded R := Finite.wellFounded_of_trans_of_irrefl R
  obtain ⟨e, he⟩ := hne
  obtain ⟨m, -, hmin⟩ := hwf.has_min Set.univ ⟨⟨e, he⟩, trivial⟩
  obtain ⟨v, hv, hmv⟩ := hsucc m.1 m.2
  exact hmin ⟨v, hv⟩ trivial (.single ⟨m.2, hv, hmv⟩)

/-! ## Paths written from their end -/

/-- In a path written from its end, every node reaches the end. -/
theorem reflTransGen_of_isChain {p : List α} (h : (w :: p).IsChain fun x y => r y x) :
    ∀ u ∈ w :: p, ReflTransGen r u w := by
  induction p generalizing w with
  | nil =>
    intro u hu
    rw [mem_singleton.mp hu]
  | cons y p ih =>
    rw [isChain_cons_cons] at h
    intro u hu
    rcases mem_cons.mp hu with rfl | hu
    · exact .refl
    · exact (ih h.2 u hu).tail h.1

/-- A path that closes on itself: all its nodes reach a cycle. -/
theorem reachesCycle_of_closed {p : List α} (h : (w :: p).IsChain fun x y => r y x)
    (hv : v ∈ w :: p) (hwv : r w v) : ∀ u ∈ w :: p, ReachesCycle r u := by
  have hw : OnCycle r w := TransGen.head' hwv (reflTransGen_of_isChain h v hv)
  exact fun u hu => hw.reachesCycle.of_reflTransGen (reflTransGen_of_isChain h u hu)

/-! ## Descent towards a cycle -/

/-- The edges of a graph given by lists of out-neighbours. -/
def edgeRel (out : α → List α) (u v : α) : Prop := v ∈ out u

/-- Every neighbour listed before `v` reaches no cycle. -/
def Toward (out : α → List α) (u v : α) : Prop :=
  ∃ before after, out u = before ++ v :: after ∧ ∀ x ∈ before, ¬ReachesCycle (edgeRel out) x

/-- The nodes met on the way from `start`, taking at each node the first listed edge towards a
cycle. -/
inductive Descent (out : α → List α) (start : α) : α → Prop
  | start : Descent out start start
  | next {u v : α} : Descent out start u → Toward out u v → ReachesCycle (edgeRel out) v →
      Descent out start v

variable {out : α → List α}

theorem Toward.edge (h : Toward out u v) : edgeRel out u v := by
  obtain ⟨before, after, hout, -⟩ := h
  rw [edgeRel, hout]
  simp

/-- The first listed neighbour that reaches a cycle is unique. -/
theorem Toward.unique (hv : Toward out u v) (hw : Toward out u w)
    (hcv : ReachesCycle (edgeRel out) v) (hcw : ReachesCycle (edgeRel out) w) : v = w := by
  obtain ⟨b, a, hout, hb⟩ := hv
  obtain ⟨b', a', hout', hb'⟩ := hw
  have heq : b ++ v :: a = b' ++ w :: a' := hout.symm.trans hout'
  rcases append_eq_append_iff.mp heq with ⟨c, hc, hrest⟩ | ⟨c, hc, hrest⟩
  · cases c with
    | nil => exact (cons.inj hrest).1
    | cons x c =>
      obtain rfl : v = x := (cons.inj hrest).1
      exact absurd hcv (hb' v (by simp [hc]))
  · cases c with
    | nil => exact (cons.inj hrest).1.symm
    | cons x c =>
      obtain rfl : w = x := (cons.inj hrest).1
      exact absurd hcw (hb w (by simp [hc]))

/-- A path of first edges that closes on itself holds exactly the nodes of the descent. -/
theorem descent_iff_mem {p : List α} {start : α}
    (hchain : (w :: p).IsChain fun x y => Toward out y x)
    (hstart : (w :: p).getLast? = some start) (hv : v ∈ w :: p) (hwv : Toward out w v) :
    Descent out start u ↔ u ∈ w :: p := by
  have hedges : (w :: p).IsChain fun x y => edgeRel out y x := hchain.imp fun _ _ h => h.edge
  have hcyc := reachesCycle_of_closed hedges hv hwv.edge
  constructor
  · intro h
    induction h with
    | start => exact mem_of_getLast? hstart
    | @next u x _ hux hx ih =>
      -- the node after `u` on the path, or `v` if `u` is its end
      obtain ⟨before, after, hsplit⟩ := append_of_mem ih
      rcases eq_nil_or_concat before with rfl | ⟨before, y, rfl⟩
      · obtain rfl : w = u := (cons.inj hsplit).1
        exact hux.unique hwv hx (hcyc v hv) ▸ hv
      · have hyu : Toward out u y := by
          rw [hsplit, concat_eq_append, append_assoc] at hchain
          exact (isChain_cons_cons.mp (isChain_append.mp hchain).2.1).1
        have hy : y ∈ w :: p := by simp [hsplit]
        exact hux.unique hyu hx (hcyc y hy) ▸ hy
  · clear hv hwv
    induction p generalizing w u with
    | nil =>
      intro hu
      obtain rfl : w = start := by simpa using hstart
      exact mem_singleton.mp hu ▸ .start
    | cons y p ih =>
      rw [isChain_cons_cons] at hchain hedges
      have hrest {x : α} (hx : x ∈ y :: p) : Descent out start x :=
        ih hchain.2 (by rwa [getLast?_cons_cons] at hstart) hedges.2
          (fun z hz => hcyc z (mem_cons_of_mem w hz)) hx
      intro hu
      rcases mem_cons.mp hu with rfl | hu
      · exact .next (hrest mem_cons_self) hchain.1 (hcyc u mem_cons_self)
      · exact hrest hu

end LibXtc.Foundations

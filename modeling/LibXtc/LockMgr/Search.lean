import LibXtc.Foundations.Digraph
import LibXtc.LockMgr.WaitGraph

/-!
# The search for a cycle

What `__dd_dfs` and the loop around it compute: if no node reaches a cycle the search finds none;
otherwise it stops with its stack holding exactly the nodes of the descent from the least node that
reaches a cycle, and the parent links lead from the end of the stack to its root.
-/

namespace LibXtc.LockMgr

open Foundations DfsState List

namespace DdState

/-- The edges of the graph. -/
def rel (st : DdState) : ℕ → ℕ → Prop := edgeRel st.out

/-- The edges lead to nodes of the graph. -/
def InRange (st : DdState) : Prop := ∀ u, ∀ v ∈ st.out u, v < st.nodes.length

/-- The first node from which a cycle can be reached. -/
def IsStart (st : DdState) (root : ℕ) : Prop :=
  ReachesCycle st.rel root ∧ ∀ j < root, ¬ReachesCycle st.rel j

/-- The node is met on the descent from the first node from which a cycle can be reached. -/
def OnDescent (st : DdState) (u : ℕ) : Prop := ∃ root, st.IsStart root ∧ Descent st.out root u

variable {u : ℕ} {st : DdState}

theorem out_eq_nil (h : st.nodes.length ≤ u) : st.out u = [] := by
  rw [out, getElem?_eq_none h]
  rfl

theorem lt_of_reachesCycle (h : ReachesCycle st.rel u) : u < st.nodes.length := by
  by_contra hle
  obtain ⟨v, huv, -⟩ := reachesCycle_iff.mp h
  rw [rel, edgeRel, out_eq_nil (by omega)] at huv
  cases huv

end DdState

/-! ## The state of the search -/

/-- The number of nodes below `n` that are still white. -/
def DfsState.whites (n : ℕ) (d : DfsState) : ℕ :=
  ((Finset.range n).filter fun v => d.colour.get v = .white).card

/-- The search is under way with the grey nodes on `stack`, newest first. -/
structure Exploring (out : ℕ → List ℕ) (stack : List ℕ) (d : DfsState) : Prop where
  grey : ∀ v, d.colour.get v = .grey ↔ v ∈ stack
  black : ∀ v, d.colour.get v = .black → ¬ReachesCycle (edgeRel out) v
  white : ∀ v, d.colour.get v = .white → d.parent.get v = none
  nodup : stack.Nodup
  chain : stack.IsChain fun x y => Toward out y x ∧ d.parent.get x = some y
  root : ∀ x, stack.getLast? = some x → d.parent.get x = none
  searching : d.cycleIn = none

/-- The search has ended with a cycle that its stack, an extension of `stack`, closes. -/
def Found (out : ℕ → List ℕ) (stack : List ℕ) (d : DfsState) : Prop :=
  ∃ w p, stack <:+ w :: p ∧ d.cycleIn = some w ∧ (w :: p).Nodup ∧
    ((w :: p).IsChain fun x y => Toward out y x ∧ d.parent.get x = some y) ∧
    (∀ x, (w :: p).getLast? = some x → d.parent.get x = none) ∧ ∃ v ∈ w :: p, Toward out w v

namespace DfsState

variable {n u v : ℕ} {d d' : DfsState} {c : Colour}

@[simp] theorem colour_paint : (d.paint u c).colour.get v = if v = u then c else d.colour.get v :=
  Heap.get_set ..

@[simp] theorem parent_paint : (d.paint u c).parent = d.parent := rfl

@[simp] theorem parent_setParent {x : ℕ} :
    (d.setParent v u).parent.get x = if x = v then some u else d.parent.get x := Heap.get_set ..

theorem whites_le (h : ∀ v, d'.colour.get v = .white → d.colour.get v = .white) :
    d'.whites n ≤ d.whites n :=
  Finset.card_le_card (Finset.monotone_filter_right _ fun v _ hv => h v hv)

/-- Painting a white node leaves one white node less. -/
theorem whites_paint_lt (hu : u < n) (hwhite : d.colour.get u = .white) (hc : c ≠ .white) :
    (d.paint u c).whites n < d.whites n := by
  refine Finset.card_lt_card (Finset.ssubset_iff_of_subset ?_ |>.mpr ⟨u, ?_, ?_⟩)
  · refine Finset.monotone_filter_right _ fun v _ hv => ?_
    rw [colour_paint] at hv
    split at hv
    · exact absurd hv hc
    · exact hv
  · simpa using ⟨hu, hwhite⟩
  · simp [hc]

end DfsState

namespace Exploring

variable {out : ℕ → List ℕ} {stack : List ℕ} {d : DfsState} {u v : ℕ}

/-- The search begins at a white node. -/
theorem begin (h : Exploring out [] d) (hu : d.colour.get u = .white) :
    Exploring out [u] (d.paint u .grey) := by
  constructor
  · intro x
    by_cases hx : x = u
    · simp [hx]
    · have hgrey := h.grey x
      simp_all
  · intro x hx
    rw [colour_paint] at hx
    split at hx
    · cases hx
    · exact h.black x hx
  · intro x hx
    rw [colour_paint] at hx
    split at hx
    · cases hx
    · exact h.white x hx
  · exact nodup_singleton u
  · exact isChain_singleton u
  · intro x hx
    obtain rfl : u = x := by simpa using hx
    exact h.white u hu
  · exact h.searching

section

variable (h : Exploring out (u :: stack) d)
include h

/-- The search meets a grey node. -/
theorem found (hv : v ∈ u :: stack) (huv : Toward out u v) :
    Found out (u :: stack) { d with cycleIn := some u } :=
  ⟨u, stack, suffix_refl _, rfl, h.nodup, h.chain, h.root, v, hv, huv⟩

/-- The search enters a white node. -/
theorem enter (hv : d.colour.get v = .white) (huv : Toward out u v) :
    Exploring out (v :: u :: stack) ((d.setParent v u).paint v .grey) := by
  have hnot : v ∉ u :: stack := fun hmem => by simp [(h.grey v).mpr hmem] at hv
  have hne {x : ℕ} (hx : x ∈ u :: stack) : x ≠ v := fun heq => hnot (heq ▸ hx)
  constructor
  · intro x
    rw [colour_paint, mem_cons]
    by_cases hx : x = v
    · simp [hx]
    · simp only [hx, false_or]
      exact h.grey x
  · intro x hx
    rw [colour_paint] at hx
    split at hx
    · cases hx
    · exact h.black x hx
  · intro x hx
    rw [colour_paint] at hx
    split at hx
    · cases hx
    · rename_i hxv
      rw [parent_paint, parent_setParent, if_neg hxv]
      exact h.white x hx
  · exact nodup_cons.mpr ⟨hnot, h.nodup⟩
  · rw [isChain_cons_cons]
    refine ⟨⟨huv, by simp⟩, List.IsChain.imp_of_mem_imp (fun x y hx _ hxy => ?_) h.chain⟩
    rw [parent_paint, parent_setParent, if_neg (hne hx)]
    exact hxy
  · intro x hx
    rw [parent_paint, parent_setParent, if_neg (hne (mem_of_getLast? hx))]
    exact h.root x hx
  · exact h.searching

/-- The search leaves a node none of whose neighbours reaches a cycle. -/
theorem leave (hout : ∀ v ∈ out u, ¬ReachesCycle (edgeRel out) v) :
    Exploring out stack (d.paint u .black) ∧ ¬ReachesCycle (edgeRel out) u := by
  have hu : ¬ReachesCycle (edgeRel out) u := by
    rw [reachesCycle_iff]
    rintro ⟨v, huv, hv⟩
    exact hout v huv hv
  refine ⟨?_, hu⟩
  obtain ⟨hnot, hnodup⟩ := nodup_cons.mp h.nodup
  constructor
  · intro x
    rw [colour_paint]
    by_cases hx : x = u
    · subst hx
      simp [hnot]
    · rw [if_neg hx, h.grey, mem_cons]
      simp [hx]
  · intro x hx
    rw [colour_paint] at hx
    split at hx
    · rename_i hxu
      exact hxu ▸ hu
    · exact h.black x hx
  · intro x hx
    rw [colour_paint] at hx
    split at hx
    · cases hx
    · exact h.white x hx
  · exact hnodup
  · exact h.chain.tail
  · intro x hx
    cases stack with
    | nil => simp at hx
    | cons y rest => exact h.root x (by rwa [getLast?_cons_cons])
  · exact h.searching

end

end Exploring

variable {d : DfsState} {stack : List ℕ}

theorem Found.of_suffix {out : ℕ → List ℕ} {stack' : List ℕ}
    (h : Found out stack d) (hsuf : stack' <:+ stack) : Found out stack' d := by
  obtain ⟨w, p, hstack, hrest⟩ := h
  exact ⟨w, p, hsuf.trans hstack, hrest⟩

/-! ## The recursion -/

/-- What a part of the search may end with: a cycle, or `kept` on the stack and nothing found. -/
def Outcome (st : DdState) (stack kept : List ℕ) (d : DfsState) (r : DfsState × Bool)
    (done : Prop) : Prop :=
  (r.2 = true ∧ Found st.out stack r.1) ∨ (r.2 = false ∧ Exploring st.out kept r.1 ∧ done ∧
      r.1.whites st.nodes.length ≤ d.whites st.nodes.length)

variable {st : DdState} {fuel : ℕ}

/-- The loop over the out-edges of the node on top of the stack, if the recursive calls behave. -/
theorem scanEdges_spec (hrange : st.InRange)
    (hvisit : ∀ v d, Exploring st.out (v :: u :: stack) (d.paint v .grey) →
      (d.paint v .grey).whites st.nodes.length < fuel →
      Outcome st (v :: u :: stack) (u :: stack) (d.paint v .grey) (dfs st fuel v d)
        (¬ReachesCycle st.rel v))
    {seen todo : List ℕ} (hout : st.out u = seen ++ todo)
    (hseen : ∀ v ∈ seen, ¬ReachesCycle st.rel v)
    (h : Exploring st.out (u :: stack) d) (hfuel : d.whites st.nodes.length ≤ fuel) :
    Outcome st (u :: stack) (u :: stack) d (scanEdges (dfs st fuel) u todo d)
      (∀ v ∈ st.out u, ¬ReachesCycle st.rel v) := by
  induction todo generalizing seen d with
  | nil =>
    rw [append_nil] at hout
    exact .inr ⟨rfl, h, hout ▸ hseen, le_refl _⟩
  | cons v rest ih =>
    have huv : Toward st.out u v := ⟨seen, rest, hout, hseen⟩
    have hsplit : st.out u = (seen ++ [v]) ++ rest := by rw [hout, append_assoc]; rfl
    have hnext (hv : ¬ReachesCycle st.rel v) : ∀ x ∈ seen ++ [v], ¬ReachesCycle st.rel x := by
      intro x hx
      rcases mem_append.mp hx with hx | hx
      · exact hseen x hx
      · exact mem_singleton.mp hx ▸ hv
    unfold scanEdges
    cases hcolour : d.colour.get v with
    | grey => exact .inl ⟨rfl, h.found ((h.grey v).mp hcolour) huv⟩
    | black => exact ih hsplit (hnext (h.black v hcolour)) h hfuel
    | white =>
      have hlt : ((d.setParent v u).paint v .grey).whites st.nodes.length <
          d.whites st.nodes.length :=
        whites_paint_lt (hrange u v (by rw [hout]; simp)) hcolour (by simp)
      rcases hvisit v (d.setParent v u) (h.enter hcolour huv) (by omega) with
        ⟨hres, hfound⟩ | ⟨hres, hexp, hv, hle⟩
      · simp only [hres]
        exact .inl ⟨hres, hfound.of_suffix (suffix_cons ..)⟩
      · simp only [hres, Bool.false_eq_true, if_false]
        rcases ih hsplit (hnext hv) hexp (by omega) with hfound | ⟨hres', hexp', hdone, hle'⟩
        · exact .inl hfound
        · exact .inr ⟨hres', hexp', hdone, by omega⟩

/-- `__dd_dfs`, with fuel for the nodes that are still white. -/
theorem dfs_spec (hrange : st.InRange) (h : Exploring st.out (u :: stack) (d.paint u .grey))
    (hfuel : (d.paint u .grey).whites st.nodes.length < fuel) :
    Outcome st (u :: stack) stack (d.paint u .grey) (dfs st fuel u d) (¬ReachesCycle st.rel u) := by
  induction fuel generalizing u stack d with
  | zero => omega
  | succ fuel ih =>
    have hscan : Outcome st (u :: stack) (u :: stack) (d.paint u .grey)
        (scanEdges (dfs st fuel) u (st.out u) (d.paint u .grey)) _ :=
      scanEdges_spec hrange (fun v d => ih) (nil_append _).symm (by simp) h (by omega)
    rw [dfs]
    rcases hscan with ⟨hres, hfound⟩ | ⟨hres, hexp, hdone, hle⟩
    · simp only [hres]
      exact .inl ⟨hres, hfound⟩
    · simp only [hres, Bool.false_eq_true, if_false]
      obtain ⟨hexp', hu⟩ := hexp.leave hdone
      refine .inr ⟨rfl, hexp', hu, le_trans (whites_le fun v hv => ?_) hle⟩
      rw [colour_paint] at hv
      split at hv
      · cases hv
      · exact hv

/-- The loop over the start nodes, from node `i` on. -/
theorem searchFrom_spec (hrange : st.InRange) {i m : ℕ} (him : i + m = st.nodes.length)
    (h : Exploring st.out [] d) (hbefore : ∀ j < i, ¬ReachesCycle st.rel j) :
    ((searchFrom st (List.range' i m) d).cycleIn = none ∧
        ∀ j < st.nodes.length, ¬ReachesCycle st.rel j) ∨
      ∃ root < st.nodes.length, (∀ j < root, ¬ReachesCycle st.rel j) ∧
        Found st.out [root] (searchFrom st (List.range' i m) d) := by
  induction m generalizing i d with
  | zero =>
    exact .inl ⟨h.searching, by rwa [← him]⟩
  | succ m ih =>
    have hnext (hi : ¬ReachesCycle st.rel i) : ∀ j < i + 1, ¬ReachesCycle st.rel j := by
      intro j hj
      rcases Nat.lt_succ_iff_lt_or_eq.mp hj with hj | rfl
      · exact hbefore j hj
      · exact hi
    rw [range'_succ, searchFrom]
    split
    · rename_i hwhite
      have hlt := whites_paint_lt (n := st.nodes.length) (c := .grey) (by omega) hwhite (by simp)
      have hle : d.whites st.nodes.length ≤ st.nodes.length :=
        (Finset.card_filter_le _ _).trans (by simp)
      have hdfs : Outcome st [i] [] (d.paint i .grey) (dfs st st.nodes.length i d) _ :=
        dfs_spec hrange (h.begin hwhite) (by omega)
      rcases hdfs with ⟨hres, hfound⟩ | ⟨hres, hexp', hi, -⟩
      · simp only [hres]
        exact .inr ⟨i, by omega, hbefore, hfound⟩
      · simp only [hres, Bool.false_eq_true]
        exact ih (by omega) hexp' (hnext hi)
    · rename_i hnot
      refine ih (by omega) h (hnext ?_)
      cases hcolour : d.colour.get i with
      | white => exact absurd hcolour hnot
      | grey => simpa using (h.grey i).mp hcolour
      | black => exact h.black i hcolour

/-- The stack with which a successful search ends. -/
structure SearchStack (st : DdState) (d : DfsState) (w : ℕ) (p : List ℕ) : Prop where
  cycleIn : d.cycleIn = some w
  nodup : (w :: p).Nodup
  parents : (w :: p).IsChain fun x y => d.parent.get x = some y
  root : ∀ x, (w :: p).getLast? = some x → d.parent.get x = none
  lt : ∀ u ∈ w :: p, u < st.nodes.length
  mem : ∀ u, u ∈ w :: p ↔ st.OnDescent u

/-- One search of the whole graph: either no node reaches a cycle, or the stack holds the nodes of
the descent, and the last edge leads from its end to one of its nodes. -/
theorem DdState.search_closed (hrange : st.InRange) :
    (st.search.cycleIn = none ∧ ∀ u, ¬ReachesCycle st.rel u) ∨
      ∃ w p, SearchStack st st.search w p ∧ ((w :: p).IsChain fun x y => st.rel y x) ∧
        ∃ v ∈ w :: p, st.rel w v := by
  have hwhite (v : ℕ) : start.colour.get v = .white := Heap.get_empty v
  have hstart : Exploring st.out [] .start :=
    ⟨fun v => by simp [hwhite], fun v hv => by simp [hwhite] at hv, fun v _ => Heap.get_empty v,
      nodup_nil, isChain_nil, by simp, rfl⟩
  have hspec := searchFrom_spec hrange (Nat.zero_add _) hstart (by simp)
  rw [← range_eq_range'] at hspec
  rcases hspec with ⟨hnone, hno⟩ | ⟨root, -, hbefore, w, p, hsuf, hcycle, hnodup, hchain, hlast,
    v, hv, hwv⟩
  · exact .inl ⟨hnone, fun u hu => hno u (lt_of_reachesCycle hu) hu⟩
  · have htoward : (w :: p).IsChain fun x y => Toward st.out y x := hchain.imp fun _ _ h => h.1
    have hlastroot : (w :: p).getLast? = some root := by
      obtain ⟨ext, hext⟩ := hsuf
      rw [← hext]
      simp
    have hedges : (w :: p).IsChain fun x y => st.rel y x := htoward.imp fun _ _ h => h.edge
    have hcyc := reachesCycle_of_closed hedges hv hwv.edge
    have hrootstart : st.IsStart root := ⟨hcyc root (mem_of_getLast? hlastroot), hbefore⟩
    refine .inr ⟨w, p, ⟨hcycle, hnodup, hchain.imp fun _ _ h => h.2, hlast,
      fun u hu => lt_of_reachesCycle (hcyc u hu), fun u => ?_⟩, hedges, v, hv, hwv.edge⟩
    rw [← descent_iff_mem htoward hlastroot hv hwv]
    constructor
    · exact fun h => ⟨root, hrootstart, h⟩
    · rintro ⟨root', hroot', h⟩
      obtain rfl : root' = root := by
        rcases Nat.lt_trichotomy root' root with hlt | heq | hlt
        · exact absurd hroot'.1 (hbefore root' hlt)
        · exact heq
        · exact absurd hrootstart.1 (hroot'.2 root hlt)
      exact h

theorem DdState.search_spec (hrange : st.InRange) :
    (st.search.cycleIn = none ∧ ∀ u, ¬ReachesCycle st.rel u) ∨
      ∃ w p, SearchStack st st.search w p :=
  (st.search_closed hrange).imp_right fun ⟨w, p, h, _⟩ => ⟨w, p, h⟩

end LibXtc.LockMgr

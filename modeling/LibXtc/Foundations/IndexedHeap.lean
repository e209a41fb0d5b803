import Mathlib.Algebra.Order.Ring.Int

/-!
# Binary heaps that know where their items are

An array of keyed items, ordered so that no parent has a larger key than its children, together
with the position of each item. The sifts move a hole: they shift items into it until the item to
place fits. A heap can also be compacted in place and ordered again from scratch.
-/

namespace LibXtc.Foundations

/-- The slots `0` to `size - 1` are the heap; `index` is where an item is. -/
structure IndexedHeap (κ τ : Type*) where
  slots : ℕ → κ × τ
  size : ℕ
  index : τ → Option ℕ

namespace IndexedHeap

variable {κ τ : Type*}

/-- The key of an item of the heap. -/
def find (h : IndexedHeap κ τ) (t : τ) : Option κ := (h.index t).map fun j => (h.slots j).1

/-- The positions are those of the slots. -/
structure Indexed (h : IndexedHeap κ τ) : Prop where
  index_item : ∀ j, j < h.size → h.index (h.slots j).2 = some j
  item_index : ∀ t j, h.index t = some j → j < h.size ∧ (h.slots j).2 = t

/-- The slots below `n` and from `i` on are in use. -/
structure Compacting (h : IndexedHeap κ τ) (i n : ℕ) : Prop where
  le : n ≤ i
  le_size : i ≤ h.size
  index_item : ∀ j, j < h.size → (j < n ∨ i ≤ j) → h.index (h.slots j).2 = some j
  item_index : ∀ t j, h.index t = some j → j < h.size ∧ (j < n ∨ i ≤ j) ∧ (h.slots j).2 = t

variable {h : IndexedHeap κ τ} {i j n lo : ℕ} {x y : κ × τ} {t : τ}

/-- Items at different positions differ. -/
theorem item_ne (hi : h.index (h.slots i).2 = some i) (hj : h.index (h.slots j).2 = some j)
    (hne : i ≠ j) : (h.slots i).2 ≠ (h.slots j).2 := by
  intro heq
  rw [heq, hj] at hi
  exact hne (Option.some.inj hi).symm

theorem Indexed.item_ne (hidx : h.Indexed) (hi : i < h.size) (hj : j < h.size) (hne : i ≠ j) :
    (h.slots i).2 ≠ (h.slots j).2 :=
  IndexedHeap.item_ne (hidx.index_item i hi) (hidx.index_item j hj) hne

theorem Indexed.compacting (hidx : h.Indexed) (hi : i ≤ h.size) : h.Compacting i i where
  le := Nat.le_refl _
  le_size := hi
  index_item j hj _ := hidx.index_item j hj
  item_index t j hj :=
    ⟨(hidx.item_index t j hj).1, Nat.lt_or_ge j i, (hidx.item_index t j hj).2⟩

theorem Compacting.item_ne (hc : h.Compacting i n) (hi : i < h.size) (hj : j < h.size)
    (huse : j < n ∨ i ≤ j) (hne : j ≠ i) : (h.slots j).2 ≠ (h.slots i).2 :=
  IndexedHeap.item_ne (hc.index_item j hj huse) (hc.index_item i hi (.inr (Nat.le_refl _))) hne

theorem Compacting.finish (hc : h.Compacting h.size n) :
    ({ h with size := n } : IndexedHeap κ τ).Indexed where
  index_item j hj := hc.index_item j (Nat.lt_of_lt_of_le hj hc.le) (.inl hj)
  item_index t j hj := by
    obtain ⟨hlt, huse, hitem⟩ := hc.item_index t j hj
    exact ⟨huse.resolve_right (by omega), hitem⟩

variable [DecidableEq τ]

/-- Store `x` at `i`, and its position. -/
@[simp] def place (h : IndexedHeap κ τ) (i : ℕ) (x : κ × τ) : IndexedHeap κ τ :=
  { h with slots := Function.update h.slots i x, index := Function.update h.index x.2 (some i) }

/-- An item is no longer in the heap. -/
@[simp] def forget (h : IndexedHeap κ τ) (t : τ) : IndexedHeap κ τ :=
  { h with index := Function.update h.index t none }

/-- Keep the item at `i`, as the `n`th one kept. -/
@[simp] def keep (h : IndexedHeap κ τ) (i n : ℕ) : IndexedHeap κ τ := h.place n (h.slots i)

theorem slots_place_of_ne (hj : j ≠ i) :
    (h.place i y).slots j = h.slots j := Function.update_of_ne hj _ _

theorem slots_place_self : (h.place i y).slots i = y := Function.update_self _ _ _

/-! ## Moving a hole -/

/-- The slot `i` is free, and the positions are right but for `x`, which is nowhere else. -/
structure Hole (h : IndexedHeap κ τ) (i : ℕ) (x : κ × τ) : Prop where
  lt : i < h.size
  index_item : ∀ j, j < h.size → j ≠ i → h.index (h.slots j).2 = some j ∧ (h.slots j).2 ≠ x.2
  item_index : ∀ t j, t ≠ x.2 → h.index t = some j → j < h.size ∧ j ≠ i ∧ (h.slots j).2 = t

/-- The keys of a heap in which `x` is about to be placed. -/
def findWith (h : IndexedHeap κ τ) (x : κ × τ) (t : τ) : Option κ :=
  if t = x.2 then some x.1 else h.find t

theorem findWith_self (hi : h.index (h.slots i).2 = some i) :
    h.findWith (h.slots i) t = h.find t := by
  unfold findWith
  split
  · rename_i ht
    simp [find, ht, hi]
  · rfl

/-- An item is found where it was placed. -/
theorem find_place (hi : t ≠ y.2 → h.index t ≠ some i) : (h.place i y).find t = h.findWith y t := by
  unfold findWith
  split
  · rename_i ht
    simp [find, ht]
  · rename_i ht
    cases hj : h.index t with
    | none => simp [find, ht, hj]
    | some j =>
      have hji : j ≠ i := fun heq => hi ht (heq ▸ hj)
      simp [find, ht, hj, hji]

/-- An item moves into the hole, and leaves the hole where it was. -/
theorem Hole.move (hole : h.Hole i x) (hj : j < h.size) (hne : j ≠ i) :
    (h.place i (h.slots j)).Hole j x ∧
      ∀ t, (h.place i (h.slots j)).findWith x t = h.findWith x t := by
  obtain ⟨hindex, hitem⟩ := hole.index_item j hj hne
  refine ⟨⟨hj, ?_, ?_⟩, ?_⟩
  · intro m hm hmj
    by_cases hmi : m = i
    · subst hmi
      simp [hitem]
    · obtain ⟨hindexm, hitemm⟩ := hole.index_item m hm hmi
      have hdiff := item_ne hindexm hindex hmj
      simp [hmi, hdiff, hindexm, hitemm]
  · intro t m ht hm
    by_cases htj : t = (h.slots j).2
    · subst htj
      have hm : i = m := by simpa using hm
      subst hm
      exact ⟨hole.lt, Ne.symm hne, by simp⟩
    · have hm : h.index t = some m := by simpa [htj] using hm
      obtain ⟨hlt, hmi, hslot⟩ := hole.item_index t m ht hm
      refine ⟨hlt, ?_, by simp [hmi, hslot]⟩
      rintro rfl
      exact htj hslot.symm
  · intro t
    unfold findWith
    split
    · rfl
    · rename_i ht
      rw [find_place fun _ hm => (hole.item_index t i ht hm).2.1 rfl]
      exact findWith_self hindex

theorem Hole.fill (hole : h.Hole i x) :
    (h.place i x).Indexed ∧ ∀ t, (h.place i x).find t = h.findWith x t := by
  refine ⟨⟨?_, ?_⟩, ?_⟩
  · intro j hj
    by_cases hji : j = i
    · subst hji
      simp
    · obtain ⟨hindex, hitem⟩ := hole.index_item j hj hji
      simp [hji, hitem, hindex]
  · intro t j hj
    by_cases ht : t = x.2
    · subst ht
      have hj : i = j := by simpa using hj
      subst hj
      exact ⟨hole.lt, by simp⟩
    · have hj : h.index t = some j := by simpa [ht] using hj
      obtain ⟨hlt, hji, hslot⟩ := hole.item_index t j ht hj
      exact ⟨hlt, by simp [hji, hslot]⟩
  · exact fun t => find_place fun ht hi => (hole.item_index t i ht hi).2.1 rfl

/-! ## Removing and compacting -/

/-- The keys of a heap without one of its items. -/
def findWithout (h : IndexedHeap κ τ) (t₀ t : τ) : Option κ := if t = t₀ then none else h.find t

theorem find_of_findWithout {t₀ t : τ} {k : κ} (hk : h.findWithout t₀ t = some k) :
    h.find t = some k := by
  unfold findWithout at hk
  split at hk
  · cases hk
  · exact hk

theorem find_forget (t₀ : τ) (m : ℕ) (t : τ) :
    ({ h.forget t₀ with size := m } : IndexedHeap κ τ).find t = h.findWithout t₀ t := by
  unfold findWithout
  split
  · rename_i ht
    subst ht
    simp [find]
  · rename_i ht
    simp [find, ht]

theorem index_of_forget {t₀ t : τ} (hj : (h.forget t₀).index t = some j) :
    t ≠ t₀ ∧ h.index t = some j := by
  have hdiff : t ≠ t₀ := by
    rintro rfl
    simp at hj
  exact ⟨hdiff, by simpa [hdiff] using hj⟩

/-- The last item is to take the place of the one at `i`. -/
theorem Indexed.hole_last (hidx : h.Indexed) (hi : i < h.size - 1) :
    let h' := { h.forget (h.slots i).2 with size := h.size - 1 }
    h'.Hole i (h.slots (h.size - 1)) ∧
      ∀ t, h'.findWith (h.slots (h.size - 1)) t = h.findWithout (h.slots i).2 t := by
  refine ⟨⟨hi, ?_, ?_⟩, ?_⟩
  · intro j hj hne
    have hj : j < h.size - 1 := hj
    refine ⟨?_, hidx.item_ne (by omega) (by omega) (by omega)⟩
    have hdiff := hidx.item_ne (by omega : j < h.size) (by omega : i < h.size) hne
    simp [hdiff, hidx.index_item j (by omega)]
  · intro t j ht hj
    obtain ⟨hdiff, hj⟩ := index_of_forget hj
    obtain ⟨hlt, hitem⟩ := hidx.item_index t j hj
    refine ⟨?_, ?_, hitem⟩
    · have hlast : j ≠ h.size - 1 := by
        rintro rfl
        exact ht hitem.symm
      show j < h.size - 1
      omega
    · rintro rfl
      exact hdiff hitem.symm
  · intro t
    unfold findWith
    split
    · rename_i ht
      subst ht
      have hdiff := hidx.item_ne (by omega : h.size - 1 < h.size) (by omega : i < h.size) (by omega)
      rw [findWithout, if_neg hdiff]
      simp [find, hidx.index_item (h.size - 1) (by omega)]
    · exact find_forget _ _ t

/-- Keeping the next item moves it to the end of those kept. -/
theorem Compacting.keep (hc : h.Compacting i n) (hi : i < h.size) :
    (h.keep i n).Compacting (i + 1) (n + 1) ∧ ∀ t, (h.keep i n).find t = h.find t := by
  have hle := hc.le
  refine ⟨⟨by omega, hi, ?_, ?_⟩, ?_⟩
  · intro j hj huse
    by_cases hjn : j = n
    · subst hjn
      simp
    · have huse' : j < n ∨ i ≤ j := by omega
      have hdiff := hc.item_ne hi hj huse' (by omega)
      simp [hjn, hdiff, hc.index_item j hj huse']
  · intro t j hj
    by_cases ht : t = (h.slots i).2
    · subst ht
      have hj : n = j := by simpa using hj
      subst hj
      refine ⟨?_, by omega, by simp⟩
      show n < h.size
      omega
    · have hj : h.index t = some j := by simpa [ht] using hj
      obtain ⟨hlt, huse, hitem⟩ := hc.item_index t j hj
      have hji : j ≠ i := by
        rintro rfl
        exact ht hitem.symm
      have hjn : j ≠ n := by omega
      exact ⟨hlt, by omega, by simp [hjn, hitem]⟩
  · intro t
    rw [IndexedHeap.keep, find_place]
    · exact findWith_self (hc.index_item i hi (.inr (Nat.le_refl _)))
    · intro ht hn
      obtain ⟨-, huse, hitem⟩ := hc.item_index t n hn
      obtain rfl : n = i := by omega
      exact ht hitem.symm

theorem Compacting.drop (hc : h.Compacting i n) (hi : i < h.size) :
    (h.forget (h.slots i).2).Compacting (i + 1) n ∧
      ∀ t, (h.forget (h.slots i).2).find t = h.findWithout (h.slots i).2 t := by
  have hle := hc.le
  refine ⟨⟨by omega, hi, ?_, ?_⟩, find_forget _ h.size⟩
  · intro j hj huse
    have huse' : j < n ∨ i ≤ j := by omega
    have hdiff := hc.item_ne hi hj huse' (by omega)
    simp [hdiff, hc.index_item j hj huse']
  · intro t j hj
    obtain ⟨hdiff, hj⟩ := index_of_forget hj
    obtain ⟨hlt, huse, hitem⟩ := hc.item_index t j hj
    have hji : j ≠ i := by
      rintro rfl
      exact hdiff hitem.symm
    exact ⟨hlt, by omega, hitem⟩

/-! ## The operations -/

variable [LinearOrder κ]

def parent (i : ℕ) : ℕ := (i - 1) / 2

/-- Place `x` by moving the hole at `i` up. -/
def siftUp (h : IndexedHeap κ τ) (i : ℕ) (x : κ × τ) : IndexedHeap κ τ :=
  if _hi : 0 < i then
    if (h.slots (parent i)).1 ≤ x.1 then h.place i x
    else siftUp (h.place i (h.slots (parent i))) (parent i) x
  else h.place i x
termination_by i
decreasing_by unfold parent; omega

/-- The child with the smaller key among the first `n` slots, the left one on a tie. -/
def smallerChild (h : IndexedHeap κ τ) (n i : ℕ) : ℕ :=
  if 2 * i + 2 < n ∧ (h.slots (2 * i + 2)).1 < (h.slots (2 * i + 1)).1 then 2 * i + 2
  else 2 * i + 1

/-- Place `x` by moving the hole at `i` down, among the first `n` slots. -/
def siftDown (h : IndexedHeap κ τ) (n i : ℕ) (x : κ × τ) : IndexedHeap κ τ :=
  if _hn : n ≤ 2 * i + 1 then h.place i x
  else if x.1 ≤ (h.slots (h.smallerChild n i)).1 then h.place i x
  else siftDown (h.place i (h.slots (h.smallerChild n i))) n (h.smallerChild n i) x
termination_by n - i
decreasing_by unfold smallerChild; split <;> omega

/-- Add an item. -/
def push (h : IndexedHeap κ τ) (x : κ × τ) : IndexedHeap κ τ :=
  siftUp { h with size := h.size + 1 } h.size x

/-- Remove the item at `i`: the last one takes its place and is sifted. -/
def removeAt (h : IndexedHeap κ τ) (i : ℕ) : IndexedHeap κ τ :=
  let last := h.size - 1
  let h := { h.forget (h.slots i).2 with size := last }
  if i = last then h
  else if 0 < i ∧ (h.slots last).1 < (h.slots (parent i)).1 then h.siftUp i (h.slots last)
  else h.siftDown last i (h.slots last)

/-- Remove the root. -/
def popRoot (h : IndexedHeap κ τ) : IndexedHeap κ τ :=
  let last := h.size - 1
  let h := { h.forget (h.slots 0).2 with size := last }
  if 0 < last then h.siftDown last 0 (h.slots last) else h

/-- Sift down the slots `i - 1` to `0`. -/
def heapify (h : IndexedHeap κ τ) : ℕ → IndexedHeap κ τ
  | 0 => h
  | i + 1 => (h.siftDown h.size i (h.slots i)).heapify i

/-- No parent from `lo` on has a larger key than its children. -/
def OrderedFrom (h : IndexedHeap κ τ) (lo : ℕ) : Prop :=
  ∀ j, 0 < j → j < h.size → lo ≤ parent j → (h.slots (parent j)).1 ≤ (h.slots j).1

structure Valid (h : IndexedHeap κ τ) : Prop extends Indexed h where
  ordered : h.OrderedFrom 0

/-! ## Sifting up -/

theorem parent_lt (hi : 0 < i) : parent i < i := by
  unfold parent
  omega

/-- An item in the right order with what is around the hole fills it. -/
theorem orderedFrom_place (hexcept : ∀ j, 0 < j → j < h.size → j ≠ i → parent j ≠ i →
      lo ≤ parent j → (h.slots (parent j)).1 ≤ (h.slots j).1)
    (habove : 0 < i → lo ≤ parent i → (h.slots (parent i)).1 ≤ x.1)
    (hbelow : ∀ c, 0 < c → c < h.size → parent c = i → x.1 ≤ (h.slots c).1) :
    (h.place i x).OrderedFrom lo := by
  intro j hj hsize hlo
  by_cases hji : j = i
  · subst hji
    have hpar := parent_lt hj
    rw [slots_place_self, slots_place_of_ne (by omega)]
    exact habove hj hlo
  · rw [slots_place_of_ne hji]
    by_cases hpj : parent j = i
    · rw [hpj, slots_place_self]
      exact hbelow j hj hsize hpj
    · rw [slots_place_of_ne hpj]
      exact hexcept j hj hsize hji hpj hlo

/-- The order that a sift up needs: the pairs away from the hole are in order, and what is below
the hole belongs below its parent and below `x`. -/
structure UpOrder (h : IndexedHeap κ τ) (i : ℕ) (x : κ × τ) : Prop where
  except : ∀ j, 0 < j → j < h.size → j ≠ i → parent j ≠ i →
    (h.slots (parent j)).1 ≤ (h.slots j).1
  grand : ∀ c, 0 < c → c < h.size → parent c = i → 0 < i → (h.slots (parent i)).1 ≤ (h.slots c).1
  below : ∀ c, 0 < c → c < h.size → parent c = i → x.1 ≤ (h.slots c).1

theorem UpOrder.move (order : h.UpOrder i x) (hi : 0 < i) (hlt : i < h.size)
    (hx : ¬ (h.slots (parent i)).1 ≤ x.1) :
    (h.place i (h.slots (parent i))).UpOrder (parent i) x := by
  have hpar := parent_lt hi
  have hord : (h.place i (h.slots (parent i))).OrderedFrom 0 :=
    orderedFrom_place (fun j hj hsize hji hpj _ => order.except j hj hsize hji hpj)
      (fun _ _ => le_refl _) fun c hc hsize hpc => order.grand c hc hsize hpc hi
  refine ⟨fun j hj hsize _ _ => hord j hj hsize (Nat.zero_le _), ?_, ?_⟩
  · intro c hc hsize hpc hpos
    have hchild := hord c hc hsize (Nat.zero_le _)
    rw [hpc] at hchild
    exact le_trans (hord (parent i) hpos (Nat.lt_trans hpar hlt) (Nat.zero_le _)) hchild
  · intro c hc hsize hpc
    have hchild := hord c hc hsize (Nat.zero_le _)
    rw [hpc, slots_place_of_ne (by omega)] at hchild
    exact le_trans (le_of_not_ge hx) hchild

theorem UpOrder.fill (order : h.UpOrder i x) (hx : 0 < i → (h.slots (parent i)).1 ≤ x.1) :
    (h.place i x).OrderedFrom 0 :=
  orderedFrom_place (fun j hj hsize hji hpj _ => order.except j hj hsize hji hpj)
    (fun hi _ => hx hi) order.below

theorem siftUp_spec (hole : h.Hole i x) (order : h.UpOrder i x) :
    (h.siftUp i x).Valid ∧ (h.siftUp i x).size = h.size ∧
      ∀ t, (h.siftUp i x).find t = h.findWith x t := by
  induction h, i using siftUp.induct (x := x) with
  | case1 h i hi hle =>
    rw [siftUp, dif_pos hi, if_pos hle]
    exact ⟨⟨hole.fill.1, order.fill fun _ => hle⟩, rfl, hole.fill.2⟩
  | case2 h i hi hle ih =>
    rw [siftUp, dif_pos hi, if_neg hle]
    have hpar := parent_lt hi
    have hlt := hole.lt
    obtain ⟨hmoved, hfind⟩ := hole.move (by omega : parent i < h.size) (by omega)
    obtain ⟨hvalid, hsize, hfound⟩ := ih hmoved (order.move hi hlt hle)
    exact ⟨hvalid, hsize, fun t => (hfound t).trans (hfind t)⟩
  | case3 h i hi =>
    rw [siftUp, dif_neg hi]
    exact ⟨⟨hole.fill.1, order.fill fun hpos => absurd hpos hi⟩, rfl, hole.fill.2⟩

/-! ## Sifting down -/

/-- The order that a sift down from `lo` on needs: the pairs away from the hole are in order, and
what is below the hole, and `x`, belong below its parent. -/
structure DownOrder (h : IndexedHeap κ τ) (lo i : ℕ) (x : κ × τ) : Prop where
  le : lo ≤ i
  except : ∀ j, 0 < j → j < h.size → j ≠ i → parent j ≠ i → lo ≤ parent j →
    (h.slots (parent j)).1 ≤ (h.slots j).1
  grand : ∀ c, 0 < c → c < h.size → parent c = i → 0 < i → lo ≤ parent i →
    (h.slots (parent i)).1 ≤ (h.slots c).1
  above : 0 < i → lo ≤ parent i → (h.slots (parent i)).1 ≤ x.1

omit [DecidableEq τ] in
theorem smallerChild_spec (hn : 2 * i + 1 < h.size) :
    0 < h.smallerChild h.size i ∧ h.smallerChild h.size i < h.size ∧
      parent (h.smallerChild h.size i) = i ∧ i < h.smallerChild h.size i ∧
      ∀ c, 0 < c → c < h.size → parent c = i →
        (h.slots (h.smallerChild h.size i)).1 ≤ (h.slots c).1 := by
  have hchild {c : ℕ} (hc : 0 < c) (hpar : parent c = i) : c = 2 * i + 1 ∨ c = 2 * i + 2 := by
    unfold parent at hpar
    omega
  unfold smallerChild
  split
  · rename_i hright
    refine ⟨by omega, hright.1, by unfold parent; omega, by omega, fun c hc _ hpar => ?_⟩
    rcases hchild hc hpar with rfl | rfl
    · exact le_of_lt hright.2
    · exact le_refl _
  · rename_i hleft
    refine ⟨by omega, hn, by unfold parent; omega, by omega, fun c hc hsize hpar => ?_⟩
    rcases hchild hc hpar with rfl | rfl
    · exact le_refl _
    · exact le_of_not_gt fun hlt => hleft ⟨hsize, hlt⟩

theorem DownOrder.move (order : h.DownOrder lo i x) (hn : 2 * i + 1 < h.size)
    (hx : ¬ x.1 ≤ (h.slots (h.smallerChild h.size i)).1) :
    (h.place i (h.slots (h.smallerChild h.size i))).DownOrder lo (h.smallerChild h.size i) x := by
  obtain ⟨hpos, hlt, hpar, hgt, hmin⟩ := smallerChild_spec hn
  generalize h.smallerChild h.size i = m at *
  have hle := order.le
  have hord : (h.place i (h.slots m)).OrderedFrom lo :=
    orderedFrom_place order.except (order.grand m hpos hlt hpar) hmin
  refine ⟨by omega, fun j hj hsize _ _ => hord j hj hsize, ?_, ?_⟩
  · intro c hc hsize hpc _ hlo
    have hchild := hord c hc hsize (by omega)
    rw [hpc] at hchild
    exact le_trans (hord m hpos hlt hlo) hchild
  · intro _ _
    rw [hpar, slots_place_self]
    exact le_of_not_ge hx

theorem DownOrder.fill (order : h.DownOrder lo i x)
    (hx : ∀ c, 0 < c → c < h.size → parent c = i → x.1 ≤ (h.slots c).1) :
    (h.place i x).OrderedFrom lo :=
  orderedFrom_place order.except order.above hx

theorem siftDown_spec (hole : h.Hole i x) (order : h.DownOrder lo i x) :
    (h.siftDown h.size i x).Indexed ∧ (h.siftDown h.size i x).OrderedFrom lo ∧
      (h.siftDown h.size i x).size = h.size ∧
      ∀ t, (h.siftDown h.size i x).find t = h.findWith x t := by
  generalize hsize : h.size = n
  induction h, i using siftDown.induct (n := n) (x := x) with
  | case1 h i hn =>
    subst hsize
    rw [siftDown, dif_pos hn]
    refine ⟨hole.fill.1, order.fill fun c hc hlt hpar => ?_, rfl, hole.fill.2⟩
    unfold parent at hpar
    omega
  | case2 h i hn hle =>
    subst hsize
    rw [siftDown, dif_neg hn, if_pos hle]
    have hmin := (smallerChild_spec (by omega : 2 * i + 1 < h.size)).2.2.2.2
    exact ⟨hole.fill.1, order.fill fun c hc hlt hpar => le_trans hle (hmin c hc hlt hpar),
      rfl,
      hole.fill.2⟩
  | case3 h i hn hle ih =>
    subst hsize
    rw [siftDown, dif_neg hn, if_neg hle]
    have hn : 2 * i + 1 < h.size := by omega
    obtain ⟨-, hlt, -, hgt, -⟩ := smallerChild_spec hn
    obtain ⟨hmoved, hfind⟩ := hole.move hlt (by omega)
    obtain ⟨hidx, hord, hsize, hfound⟩ := ih hmoved (order.move hn hle) rfl
    exact ⟨hidx, hord, hsize, fun t => (hfound t).trans (hfind t)⟩

/-! ## Adding and removing -/

theorem push_spec (hvalid : h.Valid) (hx : h.index x.2 = none) :
    (h.push x).Valid ∧ (h.push x).size = h.size + 1 ∧ ∀ t, (h.push x).find t = h.findWith x t := by
  refine siftUp_spec ⟨Nat.lt_succ_self _, ?_, ?_⟩ ⟨?_, ?_, ?_⟩
  · intro j hj hne
    have hj : j < h.size + 1 := hj
    have hindex := hvalid.index_item j (by omega)
    refine ⟨hindex, fun heq => ?_⟩
    rw [heq, hx] at hindex
    cases hindex
  · intro t j _ hj
    obtain ⟨hlt, hitem⟩ := hvalid.item_index t j hj
    exact ⟨Nat.lt_succ_of_lt hlt, Nat.ne_of_lt hlt, hitem⟩
  · intro j hj hsize hne _
    have hsize : j < h.size + 1 := hsize
    exact hvalid.ordered j hj (by omega) (Nat.zero_le _)
  · intro c hc hsize hpar _
    have hsize : c < h.size + 1 := hsize
    have hlt := parent_lt hc
    omega
  · intro c hc hsize hpar
    have hsize : c < h.size + 1 := hsize
    have hlt := parent_lt hc
    omega

theorem removeAt_spec (hvalid : h.Valid) (hi : i < h.size) :
    (h.removeAt i).Valid ∧ (h.removeAt i).size = h.size - 1 ∧
      ∀ t, (h.removeAt i).find t = h.findWithout (h.slots i).2 t := by
  unfold removeAt
  dsimp only
  have hpair : ∀ j, 0 < j → j < h.size → (h.slots (parent j)).1 ≤ (h.slots j).1 :=
    fun j hj hlt => hvalid.ordered j hj hlt (Nat.zero_le _)
  split
  · rename_i hlast
    obtain ⟨hdropped, -⟩ := (hvalid.compacting (Nat.le_of_lt hi)).drop hi
    have hend : i + 1 = h.size := by omega
    rw [hend] at hdropped
    have hidx := hdropped.finish
    rw [← hlast]
    exact ⟨⟨hidx, fun j hj hsize _ => hpair j hj (Nat.lt_trans hsize hi)⟩, rfl, find_forget _ _⟩
  · obtain ⟨hole, hfind⟩ := hvalid.hole_last (by omega : i < h.size - 1)
    have hgrand : ∀ c, 0 < c → c < h.size - 1 → parent c = i → 0 < i →
        (h.slots (parent i)).1 ≤ (h.slots c).1 := by
      intro c hc hsize hpar hpos
      have hchild := hpair c hc (by omega)
      rw [hpar] at hchild
      exact le_trans (hpair i hpos hi) hchild
    split
    · rename_i hup
      have order : ({ h.forget (h.slots i).2 with size := h.size - 1 } : IndexedHeap κ τ).UpOrder i
          (h.slots (h.size - 1)) :=
        ⟨fun j hj hsize _ _ => hpair j hj (Nat.lt_of_lt_of_le hsize (Nat.sub_le _ _)), hgrand,
          fun c hc hsize hpar => le_trans (le_of_lt hup.2) (hgrand c hc hsize hpar hup.1)⟩
      obtain ⟨hresult, hsize, hfound⟩ := siftUp_spec hole order
      exact ⟨hresult, hsize, fun t => (hfound t).trans (hfind t)⟩
    · rename_i hdown
      have order : ({ h.forget (h.slots i).2 with size := h.size - 1 } : IndexedHeap κ τ).DownOrder
          0 i (h.slots (h.size - 1)) := by
        refine ⟨Nat.zero_le _, fun j hj hsize _ _ _ =>
          hpair j hj (Nat.lt_of_lt_of_le hsize (Nat.sub_le _ _)),
          fun c hc hsize hpar hpos _ => hgrand c hc hsize hpar hpos, fun hpos _ => ?_⟩
        exact le_of_not_gt fun hlt => hdown ⟨hpos, hlt⟩
      obtain ⟨hidx, hord, hsize, hfound⟩ := siftDown_spec hole order
      exact ⟨⟨hidx, hord⟩, hsize, fun t => (hfound t).trans (hfind t)⟩

theorem popRoot_eq : h.popRoot = h.removeAt 0 := by
  unfold popRoot removeAt
  by_cases hlast : 0 < h.size - 1
  · rw [if_pos hlast, if_neg (by omega), if_neg (by omega)]
  · rw [if_neg hlast, if_pos (by omega)]

omit [DecidableEq τ] in
/-- No key is smaller than the root's. -/
theorem Valid.root_le (hvalid : h.Valid) (hi : i < h.size) : (h.slots 0).1 ≤ (h.slots i).1 := by
  induction i using Nat.strongRecOn with
  | ind i ih =>
    rcases Nat.eq_zero_or_pos i with rfl | hpos
    · exact le_refl _
    · have hlt := parent_lt hpos
      exact le_trans (ih (parent i) hlt (by omega)) (hvalid.ordered i hpos hi (Nat.zero_le _))

/-! ## Ordering again -/

theorem heapify_spec (hidx : h.Indexed) (hi : i ≤ h.size) (hord : h.OrderedFrom i) :
    (h.heapify i).Valid ∧ ∀ t, (h.heapify i).find t = h.find t := by
  induction i generalizing h with
  | zero => exact ⟨⟨hidx, hord⟩, fun t => rfl⟩
  | succ i ih =>
    have hole : h.Hole i (h.slots i) := by
      refine ⟨hi, fun j hj hne => ⟨hidx.index_item j hj, hidx.item_ne hj hi hne⟩, ?_⟩
      intro t j ht hj
      obtain ⟨hlt, hitem⟩ := hidx.item_index t j hj
      refine ⟨hlt, ?_, hitem⟩
      rintro rfl
      exact ht hitem.symm
    have order : h.DownOrder i i (h.slots i) := by
      refine ⟨Nat.le_refl _, fun j hj hsize _ hpar hlo => hord j hj hsize (by omega),
        fun c _ _ _ hpos hlo => ?_, fun hpos hlo => ?_⟩
      · have hlt := parent_lt hpos
        omega
      · have hlt := parent_lt hpos
        omega
    obtain ⟨hindexed', hordered', hsize, hfound⟩ := siftDown_spec hole order
    obtain ⟨hvalid, hfound'⟩ := ih hindexed' (by omega) hordered'
    refine ⟨hvalid, fun t => ?_⟩
    exact (hfound' t).trans ((hfound t).trans (findWith_self (hidx.index_item i hi)))

omit [DecidableEq τ] in
/-- From the last parent on there is nothing to order. -/
theorem orderedFrom_half : h.OrderedFrom (h.size / 2) := by
  intro j hj hsize hlo
  unfold parent at hlo
  omega

end IndexedHeap

end LibXtc.Foundations

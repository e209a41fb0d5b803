import Mathlib.Algebra.Order.Ring.Int
import Mathlib.Data.List.Nodup
import Mathlib.Data.List.Perm.Basic

/-!
# Changing a list at one place

A list of threads changes at one index in each step, or at its end. The first lemmas say how
membership, weights and counts follow such a change. Where a list names places that hold lists, the
last one says how their contents follow a change at one of the places.
-/

namespace LibXtc.Foundations

open List

variable {α : Type*} {p : α → Bool} {l : List α} {i j : ℕ} {old b a : α} {f : α → ℕ} {P : α → Prop}

/-- A property of every element survives the replacement of one element by a good one. -/
theorem forall_mem_set (hl : ∀ a ∈ l, P a) (hnew : P b) : ∀ a ∈ l.set i b, P a := by
  intro a ha
  rcases mem_or_eq_of_mem_set ha with h | rfl
  · exact hl a h
  · exact hnew

/-- An element of the old list is the replaced one or is still present. -/
theorem mem_set_of_mem (hold : l[i]? = some old) (ha : a ∈ l) : a = old ∨ a ∈ l.set i b := by
  obtain ⟨j, hj⟩ := mem_iff_getElem?.mp ha
  by_cases hij : i = j
  · subst hij
    rw [hold] at hj
    exact .inl (Option.some.inj hj).symm
  · refine .inr (mem_iff_getElem?.mpr ⟨j, ?_⟩)
    rw [getElem?_set_ne hij, hj]

/-- A place that holds an element holds the one it is replaced by. -/
theorem getElem?_set_new (hold : l[i]? = some old) : (l.set i b)[i]? = some b :=
  List.getElem?_set_self (List.getElem?_eq_some_iff.mp hold).1

/-- What is at a place after a replacement is the new element or was there before. -/
theorem getElem?_set_cases (h : (l.set i b)[j]? = some a) :
    i = j ∧ a = b ∨ i ≠ j ∧ l[j]? = some a := by
  by_cases hij : i = j
  · subst hij
    rw [getElem?_set_self'] at h
    obtain ⟨-, -, rfl⟩ := Option.map_eq_some_iff.mp h
    exact .inl ⟨rfl, rfl⟩
  · rw [getElem?_set_ne hij] at h
    exact .inr ⟨hij, h⟩

/-- What is at a place after an element was added is that element or was there before. -/
theorem getElem?_concat_cases (h : (l ++ [b])[i]? = some a) :
    l[i]? = some a ∨ i = l.length ∧ a = b := by
  rw [getElem?_append] at h
  split at h
  · exact .inl h
  · rw [getElem?_singleton] at h
    split at h
    · exact .inr ⟨by omega, (Option.some.inj h).symm⟩
    · cases h

theorem mem_drop_of_getElem? {n : ℕ} (h : l[i]? = some a) (hle : n ≤ i) : a ∈ l.drop n := by
  refine mem_iff_getElem?.mpr ⟨i - n, ?_⟩
  rw [getElem?_drop, Nat.add_sub_cancel' hle]
  exact h

/-- The elements stay in their places when one is added. -/
theorem getElem?_concat_of_some (h : l[i]? = some a) : (l ++ [b])[i]? = some a :=
  (List.getElem?_append_left (List.getElem?_eq_some_iff.mp h).1).trans h

/-- A property of every element, after a good one was added. -/
theorem forall_mem_concat (hl : ∀ a ∈ l, P a) (hb : P b) : ∀ a ∈ l ++ [b], P a :=
  forall_mem_append.mpr ⟨hl, forall_mem_singleton.mpr hb⟩

/-- An element and the others. -/
theorem perm_cons_eraseIdx (ha : l[i]? = some a) : l.Perm (a :: l.eraseIdx i) := by
  obtain ⟨hi, rfl⟩ := List.getElem?_eq_some_iff.mp ha
  exact (getElem_cons_eraseIdx_perm hi).symm

/-- The new element is present after a replacement inside the list. -/
theorem mem_set_new (hold : l[i]? = some old) : b ∈ l.set i b :=
  mem_set (List.getElem?_eq_some_iff.mp hold).1 b

/-- If there is an element with `P` there is one with `Q`, and this stays so where an element is
replaced by one that has `P` only if, and `Q` if, the old one did. -/
theorem exists_mem_set {Q : α → Prop} (hold : l[i]? = some old)
    (h : ∀ x ∈ l, P x → ∃ y ∈ l, Q y) (hP : P b → P old) (hQ : Q old → Q b) :
    ∀ x ∈ l.set i b, P x → ∃ y ∈ l.set i b, Q y := by
  intro x hx hPx
  have hex : ∃ y ∈ l, Q y := by
    rcases mem_or_eq_of_mem_set hx with hx | rfl
    · exact h x hx hPx
    · exact h old (mem_of_getElem? hold) (hP hPx)
  obtain ⟨y, hy, hQy⟩ := hex
  rcases mem_set_of_mem hold hy with rfl | hy'
  · exact ⟨b, mem_set_new hold, hQ hQy⟩
  · exact ⟨y, hy', hQy⟩

/-- Replacing an element by itself. -/
theorem set_eq_self_of_getElem? (ha : l[i]? = some a) : l.set i a = l := by
  obtain ⟨hi, rfl⟩ := List.getElem?_eq_some_iff.mp ha
  exact set_getElem_self hi

/-- Replacing an element trades its weight for that of the new element. -/
theorem sum_map_set_add (hold : l[i]? = some old) :
    ((l.set i b).map f).sum + f old = (l.map f).sum + f b := by
  have hset := set_perm_cons_eraseIdx (List.getElem?_eq_some_iff.mp hold).1 b
  have hsum := (hset.map f).sum_nat
  have hsum' := ((perm_cons_eraseIdx hold).map f).sum_nat
  rw [map_cons, sum_cons] at hsum hsum'
  omega

/-- An element weighs no more than all of them. -/
theorem le_sum_map (ha : a ∈ l) : f a ≤ (l.map f).sum := by
  obtain ⟨i, hi⟩ := mem_iff_getElem?.mp ha
  rw [((perm_cons_eraseIdx hi).map f).sum_nat, map_cons, sum_cons]
  exact Nat.le_add_right _ _

/-- If all of them weigh something, one of them does. -/
theorem exists_pos_of_sum_map_pos (h : 0 < (l.map f).sum) : ∃ a ∈ l, 0 < f a := by
  simpa using List.sum_pos_iff_exists_pos_nat.mp h

/-- Two elements weigh no more than all of them. -/
theorem add_le_sum_map (ha : l[i]? = some a) (hb : l[j]? = some b)
    (hij : i ≠ j) : f a + f b ≤ (l.map f).sum := by
  rw [((perm_cons_eraseIdx ha).map f).sum_nat, map_cons, sum_cons]
  exact Nat.add_le_add_left (le_sum_map (mem_eraseIdx_iff_getElem?.mpr ⟨j, hij.symm, hb⟩)) _

/-- A count is a weight. -/
theorem countP_eq_sum_map : l.countP p = (l.map fun a => (p a).toNat).sum := by
  induction l with
  | nil => rfl
  | cons x l ih =>
    rw [countP_cons, map_cons, sum_cons, ih, Nat.add_comm]
    cases p x <;> rfl

/-- Replacing an element trades its contribution to a count for that of the new element. -/
theorem countP_set_add (hold : l[i]? = some old) :
    (l.set i b).countP p + (p old).toNat = l.countP p + (p b).toNat := by
  rw [countP_eq_sum_map, countP_eq_sum_map]
  exact sum_map_set_add hold

/-- If one element makes up a whole count, no other element is counted. -/
theorem eq_false_of_countP_le (hcnt : l.countP p ≤ (p a).toNat) (ha : l[i]? = some a)
    (hb : l[j]? = some b) (hij : i ≠ j) : p b = false := by
  rw [countP_eq_sum_map] at hcnt
  have hle := add_le_sum_map (f := fun a => (p a).toNat) ha hb hij
  have hzero : (p b).toNat = 0 := by omega
  simpa using hzero

/-- Changing a present element is replacing it. -/
theorem modify_eq_set_of_getElem? {f : α → α} (ha : l[i]? = some a) :
    l.modify i f = l.set i (f a) := by
  rw [modify_eq_set_getElem?, ha]
  rfl

/-- Only erasing the head changes the head. -/
theorem head?_erase_of_ne [DecidableEq α] (h : l.head? ≠ some a) : (l.erase a).head? = l.head? := by
  cases l with
  | nil => rfl
  | cons x l =>
    have hx : x ≠ a := fun hxa => h (by rw [hxa]; rfl)
    rw [erase_cons_tail (by simpa using hx)]
    rfl

/-- Removing an element of a list without repetitions joins what stood around it. -/
theorem filter_ne_append [DecidableEq α] {l' : List α} (h : (l ++ a :: l').Nodup) :
    (l ++ a :: l').filter (· ≠ a) = l ++ l' := by
  rw [nodup_middle, nodup_cons] at h
  rw [filter_append, filter_cons_of_neg (by simp), ← filter_append, filter_eq_self]
  intro x hx
  have hne : x ≠ a := fun heq => h.1 (heq ▸ hx)
  simpa using hne

/-- The contents of the places in `l` change at one place, which gains `e`. -/
theorem flatMap_perm_of_gain {β : Type*} [DecidableEq α] {g g' : α → List β} {e : List β}
    (hl : l.Nodup) (ha : a ∈ l) (hother : ∀ b, b ≠ a → g' b = g b) (hself : g' a = e ++ g a) :
    (l.flatMap g').Perm (e ++ l.flatMap g) := by
  have herase := perm_cons_erase ha
  have hrest : (l.erase a).flatMap g' = (l.erase a).flatMap g := by
    refine flatMap_congr fun b hb => hother b ?_
    rintro rfl
    exact hl.not_mem_erase hb
  have hnew := herase.flatMap_right g'
  have hold := herase.flatMap_right g
  rw [flatMap_cons] at hnew hold
  rw [hself, hrest, append_assoc] at hnew
  exact hnew.trans (hold.symm.append_left e)

end LibXtc.Foundations

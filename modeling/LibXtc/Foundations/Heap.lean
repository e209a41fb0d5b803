import Mathlib.Data.List.Basic

/-!
# Memory cells

A heap is a finite array of cells that grows on demand: reading an address that was never written
gives the default value, and writing any address succeeds. Two heaps can be compared, so a state
built from heaps can be evaluated and tested.
-/

namespace LibXtc.Foundations

open List

/-- Cells by address. -/
structure Heap (α : Type*) where
  cells : List α
  deriving DecidableEq

namespace Heap

variable {α : Type*} [Inhabited α] {a : ℕ}

/-- The heap in which nothing was written. -/
def empty : Heap α := ⟨[]⟩

/-- The number of cells that may differ from the default. -/
def size (m : Heap α) : ℕ := m.cells.length

/-- Read the cell at `a`. -/
def get (m : Heap α) (a : ℕ) : α := m.cells.getD a default

/-- Write `v` at `a`, after as many default cells as are needed to reach it. -/
def set (m : Heap α) (a : ℕ) (v : α) : Heap α :=
  ⟨(m.cells ++ replicate (a + 1 - m.cells.length) default).set a v⟩

/-- Apply `f` to the cell at `a`. -/
def modify (m : Heap α) (a : ℕ) (f : α → α) : Heap α := m.set a (f (m.get a))

@[simp] theorem get_empty (a : ℕ) : (empty : Heap α).get a = default := by
  simp [empty, get]

/-- A write is seen at its address and nowhere else. -/
theorem get_set (m : Heap α) (a b : ℕ) (v : α) :
    (m.set a v).get b = if b = a then v else m.get b := by
  simp only [get, set, getD_eq_getElem?_getD, getElem?_set, length_append]
  by_cases hb : b = a
  · subst hb
    have hlt : b < m.cells.length + (b + 1 - m.cells.length) := by omega
    simp [hlt]
  · rw [if_neg (Ne.symm hb), if_neg hb, getElem?_append, getElem?_replicate]
    by_cases hlt : b < m.cells.length
    · simp [hlt]
    · rw [if_neg hlt, getElem?_eq_none (Nat.le_of_not_lt hlt)]
      split <;> rfl

@[simp] theorem get_set_self (m : Heap α) (a : ℕ) (v : α) : (m.set a v).get a = v := by
  simp [get_set]

theorem get_set_of_ne (m : Heap α) {b : ℕ} (h : b ≠ a) (v : α) : (m.set a v).get b = m.get b := by
  simp [get_set, h]

theorem get_modify (m : Heap α) (a b : ℕ) (f : α → α) :
    (m.modify a f).get b = if b = a then f (m.get a) else m.get b :=
  get_set m a b _

/-- A cell that differs from the default lies inside the heap. -/
theorem lt_size_of_get_ne {m : Heap α} (h : m.get a ≠ default) : a < m.size := by
  by_contra hle
  apply h
  rw [get, getD_eq_getElem?_getD, getElem?_eq_none (Nat.le_of_not_lt hle)]
  rfl

end Heap

end LibXtc.Foundations

import Mathlib.Data.List.Basic
import Mathlib.Data.Nat.ModEq

/-!
# Ring buffers

A ring of `cap` cells is addressed by indices that only grow and are reduced modulo `cap` at each
access. `Holds` says that the cells from index `t` on hold a sequence. The lemmas say how the
sequence changes when either end moves, and that a write just behind the last cell disturbs
nothing while the ring has room.
-/

namespace LibXtc.Foundations.Ring

open List

variable {α : Type*} {cap t : ℕ} {buf : ℕ → Option α} {l : List α} {v : α}

/-- The cells of the indices `t`, `t + 1`, … hold the elements of `l`. -/
def Holds (cap : ℕ) (buf : ℕ → Option α) (t : ℕ) (l : List α) : Prop :=
  ∀ j < l.length, buf ((t + j) % cap) = l[j]?

/-- Two indices less than one revolution apart have different cells. -/
theorem mod_ne_mod {i j : ℕ} (hij : i < j) (hj : j < i + cap) : i % cap ≠ j % cap := by
  intro heq
  have hdvd : cap ∣ j - i := (Nat.modEq_iff_dvd' (Nat.le_of_lt hij)).mp heq
  have hle := Nat.le_of_dvd (by omega) hdvd
  omega

theorem Holds.nil : Holds cap buf t ([] : List α) := by
  intro j hj
  exact absurd hj (Nat.not_lt_zero j)

theorem Holds.head (h : Holds cap buf t (v :: l)) : buf (t % cap) = some v :=
  h 0 (Nat.zero_lt_succ _)

theorem Holds.tail (h : Holds cap buf t (v :: l)) : Holds cap buf (t + 1) l := by
  intro j hj
  have hcell := h (j + 1) (by rw [length_cons]; omega)
  rwa [getElem?_cons_succ, ← Nat.add_assoc, Nat.add_right_comm] at hcell

theorem Holds.init (h : Holds cap buf t (l ++ [v])) : Holds cap buf t l := by
  intro j hj
  have hcell := h j (by rw [length_append]; omega)
  rwa [getElem?_append_left hj] at hcell

theorem Holds.last (h : Holds cap buf t (l ++ [v])) : buf ((t + l.length) % cap) = some v := by
  have hcell := h l.length (by simp)
  rwa [getElem?_concat_length] at hcell

theorem Holds.concat (h : Holds cap buf t l) (hv : buf ((t + l.length) % cap) = some v) :
    Holds cap buf t (l ++ [v]) := by
  intro j hj
  rw [length_append, length_singleton] at hj
  rcases Nat.lt_succ_iff_lt_or_eq.mp hj with hlt | rfl
  · rw [getElem?_append_left hlt]
    exact h j hlt
  · rw [getElem?_concat_length]
    exact hv

/-- Writing the cell behind the last element keeps the sequence while there is room. -/
theorem Holds.update (h : Holds cap buf t l) (hroom : l.length < cap) (x : Option α) :
    Holds cap (Function.update buf ((t + l.length) % cap) x) t l := by
  intro j hj
  have hne : (t + j) % cap ≠ (t + l.length) % cap := mod_ne_mod (by omega) (by omega)
  rw [Function.update_of_ne hne]
  exact h j hj

/-- Reading the cells one after the other gives the sequence back. -/
theorem Holds.filterMap_range (h : Holds cap buf t l) :
    (List.range l.length).filterMap (fun j => buf ((t + j) % cap)) = l := by
  induction l generalizing t with
  | nil => rfl
  | cons v l ih =>
    have htail := ih h.tail
    have hshift : (fun j => buf ((t + 1 + j) % cap)) = fun j => buf ((t + (j + 1)) % cap) := by
      funext j
      rw [Nat.add_right_comm, Nat.add_assoc]
    rw [length_cons, range_succ_eq_map, filterMap_cons, Nat.add_zero, h.head, filterMap_map]
    rw [hshift] at htail
    exact congrArg (v :: ·) htail

end LibXtc.Foundations.Ring

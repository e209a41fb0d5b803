import Mathlib.Algebra.Order.BigOperators.Group.Finset

/-!
# Catching up

A set of places, each with a virtual time. The place with the smallest virtual time is served, which
moves its time on by at least `q`. While a place `y` waits, every other place can be served only as
often as it takes to catch up with `y`. Its credit counts how often that can have been, if it was at
most `K` behind.
-/

namespace LibXtc.Foundations

variable {ι : Type*} [DecidableEq ι] {P Q : Finset ι} {K q : ℕ} {v w : ι → ℕ} {y z : ι}

/-- How often `z` can have been served while `y` waited. -/
def credit (K q : ℕ) (v : ι → ℕ) (y z : ι) : ℕ := (v z + K - v y) / q

/-- How often others can have been served while `y` waited. -/
def credits (P : Finset ι) (K q : ℕ) (v : ι → ℕ) (y : ι) : ℕ :=
  ∑ z ∈ P.erase y, credit K q v y z

theorem credits_le (h : ∀ z ∈ P, v z ≤ v y + K) :
    credits P K q v y ≤ (P.erase y).card * (2 * K / q) := by
  refine Finset.sum_le_card_nsmul _ _ _ fun z hz => ?_
  have hle := h z (Finset.mem_of_mem_erase hz)
  exact Nat.div_le_div_right (by omega)

/-- Another place is served. -/
theorem credits_serve (hq : 0 < q) (hz : z ∈ P) (hzy : z ≠ y) (hK : v y ≤ v z + K)
    (hserved : v z + q ≤ w z) (hother : ∀ l, l ≠ z → w l = v l) :
    credits P K q v y + 1 ≤ credits P K q w y := by
  refine Nat.succ_le_of_lt (Finset.sum_lt_sum (fun l hl => ?_) ⟨z, ?_, ?_⟩)
  · unfold credit
    rw [hother y hzy.symm]
    by_cases hlz : l = z
    · subst hlz
      exact Nat.div_le_div_right (by omega)
    · rw [hother l hlz]
  · exact Finset.mem_erase.mpr ⟨hzy, hz⟩
  · unfold credit
    rw [hother y hzy.symm]
    calc (v z + K - v y) / q < (v z + K - v y) / q + 1 := Nat.lt_succ_self _
      _ = (v z + K - v y + q) / q := (Nat.add_div_right _ hq).symm
      _ ≤ (w z + K - v y) / q := Nat.div_le_div_right (by omega)

/-- There are more places. -/
theorem credits_extend (hsub : P ⊆ Q) (hy : y ∈ P) (hsame : ∀ z ∈ P, w z = v z) :
    credits P K q v y ≤ credits Q K q w y := by
  have hold : credits P K q v y = credits P K q w y := by
    refine Finset.sum_congr rfl fun z hz => ?_
    unfold credit
    rw [hsame z (Finset.mem_of_mem_erase hz), hsame y hy]
  rw [hold]
  exact Finset.sum_le_sum_of_subset (Finset.erase_subset_erase y hsub)

end LibXtc.Foundations

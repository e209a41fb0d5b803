import Mathlib.Algebra.Order.BigOperators.Group.Finset
import Mathlib.Algebra.Order.Ring.Nat

/-!
# Loops over a table

A `while` loop repeats a partial step until it is not defined. It takes fuel; a bound on the number
of steps that are still possible shows that the fuel is enough, and then the loop ends where no
step is defined. The last lemmas are about sums over a table that changes at one place.
-/

namespace LibXtc.Foundations

variable {σ : Type*}

/-- `while (step is possible) step`. -/
def loopWhile (step : σ → Option σ) : ℕ → σ → σ
  | 0, s => s
  | fuel + 1, s =>
    match step s with
    | none => s
    | some s' => loopWhile step fuel s'

section LoopWhile

variable {step : σ → Option σ} {I : σ → Prop}

/-- What every step keeps holds after the loop. -/
theorem loopWhile_invariant (ht : ∀ s s', I s → step s = some s' → I s') (fuel : ℕ) {s : σ}
    (hs : I s) : I (loopWhile step fuel s) := by
  induction fuel generalizing s with
  | zero => exact hs
  | succ fuel ih =>
    rw [loopWhile]
    split
    · exact hs
    · rename_i s' hs'
      exact ih (ht s s' hs hs')

/-- If the fuel bounds the number of steps, the loop ends where no step is possible. -/
theorem loopWhile_done (bound : σ → ℕ) (ht : ∀ s s', I s → step s = some s' → I s')
    (hdecr : ∀ s s', I s → step s = some s' → bound s' < bound s) {fuel : ℕ} {s : σ} (hs : I s)
    (hfuel : bound s ≤ fuel) : step (loopWhile step fuel s) = none := by
  induction fuel generalizing s with
  | zero =>
    rw [loopWhile]
    cases hs' : step s with
    | none => rfl
    | some s' =>
      have := hdecr s s' hs hs'
      omega
  | succ fuel ih =>
    rw [loopWhile]
    split
    · assumption
    · rename_i s' hs'
      have := hdecr s s' hs hs'
      exact ih (ht s s' hs hs') (by omega)

end LoopWhile

section Sums

variable {n i : ℕ} {f g : ℕ → ℕ}

/-- A change of one entry trades its old weight for the new one. -/
theorem sum_range_change (hi : i < n) (hother : ∀ j, j ≠ i → g j = f j) :
    ∑ j ∈ Finset.range n, g j + f i = ∑ j ∈ Finset.range n, f j + g i := by
  have hmem : i ∈ Finset.range n := Finset.mem_range.mpr hi
  have hrest : ∑ j ∈ (Finset.range n).erase i, g j = ∑ j ∈ (Finset.range n).erase i, f j :=
    Finset.sum_congr rfl fun j hj => hother j (Finset.ne_of_mem_erase hj)
  rw [← Finset.add_sum_erase _ g hmem, ← Finset.add_sum_erase _ f hmem, hrest]
  omega

/-- An entry weighs no more than the table. -/
theorem le_sum_range (hi : i < n) : f i ≤ ∑ j ∈ Finset.range n, f j :=
  Finset.single_le_sum (fun _ _ => Nat.zero_le _) (Finset.mem_range.mpr hi)

end Sums

end LibXtc.Foundations

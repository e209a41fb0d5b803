import Mathlib.Data.Finset.Card

/-!
# Counters that age together

A set of places is served one at a time. Serving a place resets its counter, and every other
counter grows by at most one. When some counter has reached a limit, a place with the largest
counter is served. Several counters may be beyond the limit at once; how far they can get depends
only on the number of places.
-/

namespace LibXtc.Foundations

variable {ι : Type*} {limit : ℕ} {places : Finset ι} {age age' : ι → ℕ} {i : ι}

/-- The places whose counter is at least `n`. -/
def agedAt (places : Finset ι) (age : ι → ℕ) (n : ℕ) : Finset ι :=
  places.filter fun i => n ≤ age i

theorem mem_agedAt {n : ℕ} : i ∈ agedAt places age n ↔ i ∈ places ∧ n ≤ age i :=
  Finset.mem_filter

/-- The further a counter is beyond the limit, the fewer counters are that far. -/
def Staggered (limit : ℕ) (places : Finset ι) (age : ι → ℕ) : Prop :=
  ∀ t, (agedAt places age (limit + t)).Nonempty →
    (agedAt places age (limit + t)).card + t < places.card

theorem staggered_of_lt (h : ∀ i ∈ places, age i < limit) : Staggered limit places age := by
  rintro t ⟨i, hi⟩
  obtain ⟨hmem, hle⟩ := mem_agedAt.mp hi
  have hlt := h i hmem
  omega

section

variable (h : Staggered limit places age)
include h

/-- New places, with counters below the limit. -/
theorem Staggered.extend {places' : Finset ι}
    (hsub : places ⊆ places') (hnew : ∀ i ∈ places', i ∉ places → age i < limit) :
    Staggered limit places' age := by
  intro t ht
  have hsame : agedAt places' age (limit + t) = agedAt places age (limit + t) := by
    ext i
    rw [mem_agedAt, mem_agedAt]
    refine ⟨fun hi => ⟨?_, hi.2⟩, fun hi => ⟨hsub hi.1, hi.2⟩⟩
    by_contra hout
    have hlt := hnew i hi.1 hout
    omega
  rw [hsame] at ht ⊢
  have hold := h t ht
  have hcard := Finset.card_le_card hsub
  omega

/-- A place is served. -/
theorem Staggered.serve [DecidableEq ι] {j : ι} (hj : j ∈ places)
    (hlimit : 0 < limit) (hserved : age' j = 0)
    (hother : ∀ i ∈ places, i ≠ j → age' i ≤ age i + 1)
    (holdest : ∀ i ∈ places, limit ≤ age i → age i ≤ age j) : Staggered limit places age' := by
  intro t ht
  have hne : ∀ i ∈ agedAt places age' (limit + t), i ≠ j := by
    rintro i hi rfl
    have hage := (mem_agedAt.mp hi).2
    omega
  cases t with
  | zero =>
    -- the place that is served is not among them
    have hsub : agedAt places age' (limit + 0) ⊆ places.erase j := fun i hi =>
      Finset.mem_erase.mpr ⟨hne i hi, (mem_agedAt.mp hi).1⟩
    have hcard := Finset.card_le_card hsub
    have hless := Finset.card_erase_lt_of_mem hj
    omega
  | succ t =>
    -- those that get this far were one behind, with the place that is served
    have hbefore : ∀ i ∈ agedAt places age' (limit + (t + 1)),
        i ∈ agedAt places age (limit + t) := by
      intro i hi
      obtain ⟨hmem, hage⟩ := mem_agedAt.mp hi
      have hle := hother i hmem (hne i hi)
      exact mem_agedAt.mpr ⟨hmem, by omega⟩
    obtain ⟨i, hi⟩ := ht
    obtain ⟨hmem, hage⟩ := mem_agedAt.mp (hbefore i hi)
    have hmax := holdest i hmem (by omega)
    have hjaged : j ∈ agedAt places age (limit + t) := mem_agedAt.mpr ⟨hj, by omega⟩
    have hsub : agedAt places age' (limit + (t + 1)) ⊆ (agedAt places age (limit + t)).erase j :=
      fun k hk => Finset.mem_erase.mpr ⟨hne k hk, hbefore k hk⟩
    have hcard := Finset.card_le_card hsub
    have hless := Finset.card_erase_lt_of_mem hjaged
    have hold := h t ⟨j, hjaged⟩
    omega

/-- No counter gets further than one for each other place. -/
theorem Staggered.age_lt (hi : i ∈ places) : age i < limit + places.card := by
  by_contra hfar
  have hmem : i ∈ agedAt places age (limit + (age i - limit)) := mem_agedAt.mpr ⟨hi, by omega⟩
  have hcard := h (age i - limit) ⟨i, hmem⟩
  omega

end

end LibXtc.Foundations

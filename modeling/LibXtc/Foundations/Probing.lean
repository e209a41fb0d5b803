import Mathlib.Data.List.Induction
import Mathlib.Data.List.Nodup
import Mathlib.Data.List.Perm.Subperm
import Mathlib.Data.Nat.Find
import Mathlib.Data.Nat.ModEq

/-!
# Linear probing

An open-addressed table of `cap` places holds key-value pairs. A pair is put in the first empty
place at or after the home of its key, and a search walks the same places up to the first empty
one. Nothing is removed: a table that loses a key is filled anew. `Filled` says which pairs such a
table holds, and a search of a filled table is a search of the list of its pairs.
-/

namespace LibXtc.Foundations

open Option

open List

open Function

variable {κ β : Type*}

/-- The pairs by place. -/
abbrev Places (κ β : Type*) := ℕ → Option (κ × β)

namespace Places

/-- Walk at most the given number of places from `h` and fill the first empty one. -/
def putFrom (cap : ℕ) (tab : Places κ β) (e : κ × β) : ℕ → ℕ → Places κ β
  | 0, _ => tab
  | n + 1, h =>
    if (tab h).isNone then update tab h (some e)
    else putFrom cap tab e n ((h + 1) % cap)

/-- Put a pair whose key has the home `home e.1`. -/
def put (cap : ℕ) (home : κ → ℕ) (tab : Places κ β) (e : κ × β) : Places κ β :=
  tab.putFrom cap e cap (home e.1 % cap)

/-- Walk at most the given number of places from `h`, up to the first empty one. -/
def findFrom [DecidableEq κ] (cap : ℕ) (tab : Places κ β) (k : κ) : ℕ → ℕ → Option β
  | 0, _ => none
  | n + 1, h =>
    match tab h with
    | none => none
    | some e => if e.1 = k then some e.2 else findFrom cap tab k n ((h + 1) % cap)

/-- Search for the value of a key. -/
def find [DecidableEq κ] (cap : ℕ) (home : κ → ℕ) (tab : Places κ β) (k : κ) : Option β :=
  tab.findFrom cap k cap (home k % cap)

/-- The table filled with the pairs of a list, in order. -/
def fill (cap : ℕ) (home : κ → ℕ) (l : List (κ × β)) : Places κ β :=
  l.foldl (put cap home) fun _ => none

/-- The table holds exactly the pairs of `l`, each in one place, and the places between the home of
a key and its pair are taken. -/
structure Filled (cap : ℕ) (home : κ → ℕ) (tab : Places κ β) (l : List (κ × β)) : Prop where
  mem : ∀ h e, tab h = some e → e ∈ l
  inj : ∀ h h' e, tab h = some e → tab h' = some e → h = h'
  placed : ∀ e ∈ l, ∃ j < cap, tab ((home e.1 + j) % cap) = some e ∧
    ∀ i < j, tab ((home e.1 + i) % cap) ≠ none

variable {cap h n j : ℕ} {home : κ → ℕ} {tab : Places κ β} {l : List (κ × β)} {e : κ × β} {k : κ}
  {v : β}

theorem filled_empty : Filled cap home (fun _ => none : Places κ β) [] :=
  ⟨fun _ _ h => by simp at h, fun _ _ _ h => by simp at h, fun _ h => by simp at h⟩

/-- The first empty place is the one filled. -/
theorem putFrom_eq (hjn : j < n) (hempty : tab ((h + j) % cap) = none)
    (htaken : ∀ i < j, tab ((h + i) % cap) ≠ none) :
    tab.putFrom cap e n (h % cap) = update tab ((h + j) % cap) (some e) := by
  induction n generalizing h j with
  | zero => omega
  | succ n ih =>
    rw [putFrom]
    cases j with
    | zero => rw [if_pos (by simpa using hempty)]; rfl
    | succ j =>
      have hfirst : tab (h % cap) ≠ none := htaken 0 (Nat.succ_pos j)
      rw [if_neg (by simpa using hfirst), Nat.mod_add_mod]
      have hshift : ∀ i, h + 1 + i = h + (i + 1) := fun i => by omega
      rw [ih (j := j) (by omega) (by rw [hshift]; exact hempty) fun i hi => by
        rw [hshift]
        exact htaken (i + 1) (by omega), hshift]

/-- A walk that meets only taken places finds the first pair with the key. -/
theorem findFrom_eq [DecidableEq κ] (hjn : j < n)
    (hhit : tab ((h + j) % cap) = some (k, v)) (htaken : ∀ i < j, tab ((h + i) % cap) ≠ none)
    (honly : ∀ h w, tab h = some (k, w) → w = v) : tab.findFrom cap k n (h % cap) = some v := by
  induction n generalizing h j with
  | zero => omega
  | succ n ih =>
    rw [findFrom]
    cases j with
    | zero => simp [show tab (h % cap) = some (k, v) from hhit]
    | succ j =>
      obtain ⟨⟨k', w⟩, hfirst⟩ := ne_none_iff_exists'.mp (htaken 0 (Nat.succ_pos j))
      rw [Nat.add_zero] at hfirst
      simp only [hfirst]
      by_cases hk : k' = k
      · subst hk
        rw [if_pos rfl, honly _ w hfirst]
      · rw [if_neg hk, Nat.mod_add_mod]
        have hshift : ∀ i, h + 1 + i = h + (i + 1) := fun i => by omega
        refine ih (j := j) (by omega) (by rw [hshift]; exact hhit) fun i hi => ?_
        rw [hshift]
        exact htaken (i + 1) (by omega)

/-- What a walk finds is in some place. -/
theorem exists_of_findFrom [DecidableEq κ]
    (hfind : tab.findFrom cap k n h = some v) : ∃ h', tab h' = some (k, v) := by
  induction n generalizing h with
  | zero => cases hfind
  | succ n ih =>
    rw [findFrom] at hfind
    split at hfind
    · cases hfind
    · rename_i e he
      by_cases hk : e.1 = k
      · rw [if_pos hk] at hfind
        obtain rfl : e.2 = v := by simpa using hfind
        exact ⟨h, by rw [he, ← hk]⟩
      · rw [if_neg hk] at hfind
        exact ih hfind

namespace Filled

/-- A table with fewer pairs than places has an empty place on every walk. -/
theorem exists_empty (hf : Filled cap home tab l) (hlt : l.length < cap) (h : ℕ) :
    ∃ j < cap, tab ((h + j) % cap) = none := by
  by_contra hfull
  simp only [not_exists, not_and] at hfull
  -- otherwise the places of the walk would hold `cap` different pairs
  have hnodup : ((range cap).map fun j => tab ((h + j) % cap)).Nodup := by
    refine List.Nodup.map_on (fun i hi j hj hij => ?_) nodup_range
    rw [mem_range] at hi hj
    obtain ⟨e, he⟩ := ne_none_iff_exists'.mp (hfull i hi)
    have hplace := hf.inj _ _ _ he (hij ▸ he)
    have hmod : i % cap = j % cap := Nat.ModEq.add_left_cancel' h hplace
    rwa [Nat.mod_eq_of_lt hi, Nat.mod_eq_of_lt hj] at hmod
  have hsub : ((range cap).map fun j => tab ((h + j) % cap)) ⊆ l.map some := by
    intro o ho
    obtain ⟨j, hj, rfl⟩ := mem_map.mp ho
    obtain ⟨e, he⟩ := ne_none_iff_exists'.mp (hfull j (mem_range.mp hj))
    rw [he]
    exact mem_map_of_mem (hf.mem _ _ he)
  have hle := (subperm_of_subset hnodup hsub).length_le
  simp only [length_map, length_range] at hle
  omega

/-- Putting a new pair in a table with an empty place. -/
theorem put (hf : Filled cap home tab l) (hlt : l.length < cap) (hnew : e ∉ l) :
    Filled cap home (tab.put cap home e) (l ++ [e]) := by
  obtain ⟨hj, hempty⟩ := Nat.find_spec (hf.exists_empty hlt (home e.1))
  set j := Nat.find (hf.exists_empty hlt (home e.1))
  have htaken : ∀ i < j, tab ((home e.1 + i) % cap) ≠ none := fun i hi hnone =>
    Nat.find_min (hf.exists_empty hlt (home e.1)) hi ⟨by omega, hnone⟩
  rw [Places.put, putFrom_eq hj hempty htaken]
  -- a place that was taken keeps its pair
  have hkeep : ∀ {h}, tab h ≠ none → update tab ((home e.1 + j) % cap) (some e) h = tab h := by
    intro h hx
    refine update_of_ne ?_ ..
    rintro rfl
    exact hx hempty
  have hback : ∀ {h x}, update tab ((home e.1 + j) % cap) (some e) h = some x →
      h = (home e.1 + j) % cap ∧ x = e ∨ tab h = some x := by
    intro h x hx
    by_cases hh : h = (home e.1 + j) % cap
    · subst hh
      rw [update_self] at hx
      exact .inl ⟨rfl, (some.inj hx).symm⟩
    · rw [update_of_ne hh] at hx
      exact .inr hx
  refine ⟨?_, ?_, ?_⟩
  · intro h x hx
    rcases hback hx with ⟨-, rfl⟩ | hx
    · simp
    · exact mem_append_left _ (hf.mem h x hx)
  · intro h h' x hx hx'
    rcases hback hx with ⟨rfl, rfl⟩ | hx <;> rcases hback hx' with ⟨rfl, heq⟩ | hx'
    · rfl
    · exact absurd (hf.mem _ _ hx') hnew
    · exact absurd (hf.mem _ _ (heq ▸ hx)) hnew
    · exact hf.inj _ _ _ hx hx'
  · intro x hx
    rcases mem_append.mp hx with hx | hx
    · obtain ⟨i, hi, hplace, hbefore⟩ := hf.placed x hx
      refine ⟨i, hi, (hkeep (hplace ▸ some_ne_none x)).trans hplace, fun m hm => ?_⟩
      rw [hkeep (hbefore m hm)]
      exact hbefore m hm
    · obtain rfl := mem_singleton.mp hx
      refine ⟨j, hj, update_self .., fun m hm => ?_⟩
      rw [hkeep (htaken m hm)]
      exact htaken m hm

/-- A search finds exactly the pairs of the table when their keys differ. -/
theorem find_eq_some_iff [DecidableEq κ] (hf : Filled cap home tab l)
    (hkeys : (l.map Prod.fst).Nodup) :
    tab.find cap home k = some v ↔ (k, v) ∈ l := by
  constructor
  · intro hfind
    obtain ⟨h, hh⟩ := exists_of_findFrom hfind
    exact hf.mem _ _ hh
  · intro hmem
    obtain ⟨j, hj, hplace, hbefore⟩ := hf.placed _ hmem
    refine findFrom_eq hj hplace hbefore fun h w hw => ?_
    have heq := inj_on_of_nodup_map hkeys (hf.mem _ _ hw) hmem rfl
    exact congrArg Prod.snd heq

end Filled

/-- A table filled anew holds the pairs it was filled with. -/
theorem filled_fill (hl : l.Nodup) (hlen : l.length ≤ cap) :
    Filled cap home (fill cap home l) l := by
  induction l using reverseRecOn with
  | nil => exact filled_empty
  | append_singleton l e ih =>
    rw [length_append, length_singleton] at hlen
    have hsplit := nodup_append.mp hl
    rw [fill, foldl_append]
    exact (ih hsplit.1 (by omega)).put (by omega) fun hmem =>
      hsplit.2.2 e hmem e (mem_singleton.mpr rfl) rfl

end Places

end LibXtc.Foundations

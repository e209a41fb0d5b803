import Mathlib.Data.List.Induction
import Mathlib.Order.Lattice

/-!
# Scans for a best element

A loop over a list keeps the best element so far among those that qualify. An element takes the
place of the one kept only if it beats it, so that of two equals the earlier one stays.
-/

namespace LibXtc.Foundations

open List

variable {α : Type*}

/-- One turn of the loop. -/
def keepBest (qualifies : α → Bool) (beats : α → α → Bool) (best : Option α) (x : α) : Option α :=
  if qualifies x then
    match best with
    | none => some x
    | some b => if beats x b then some x else some b
  else best

/-- The loop. -/
def scan (qualifies : α → Bool) (beats : α → α → Bool) (l : List α) : Option α :=
  l.foldl (keepBest qualifies beats) none

variable {qualifies : α → Bool} {beats : α → α → Bool} {l : List α} {b x : α}

theorem scan_concat :
    scan qualifies beats (l ++ [x]) = keepBest qualifies beats (scan qualifies beats l) x := by
  unfold scan
  rw [foldl_append]
  rfl

/-- If nothing is found, nothing qualifies. -/
theorem scan_eq_none (h : scan qualifies beats l = none) (hx : x ∈ l) : qualifies x = false := by
  induction l using List.reverseRecOn with
  | nil => cases hx
  | append_singleton l y ih =>
    rw [scan_concat, keepBest.eq_def] at h
    split at h
    · split at h
      · cases h
      · split at h <;> cases h
    · rename_i hy
      rcases mem_append.mp hx with hx | hx
      · exact ih h hx
      · rw [mem_singleton.mp hx]
        exact Bool.eq_false_iff.mpr hy

/-- What is found qualifies, and nothing that qualifies has a smaller value of the function that
`beats` compares. -/
theorem scan_eq_some {β : Type*} [LinearOrder β] {f : α → β}
    (hbeats : ∀ x b, beats x b = decide (f x < f b)) (h : scan qualifies beats l = some b) :
    qualifies b = true ∧ ∀ x ∈ l, qualifies x = true → f b ≤ f x := by
  induction l using List.reverseRecOn generalizing b with
  | nil => cases h
  | append_singleton l y ih =>
    rw [forall_mem_append, forall_mem_singleton]
    rw [scan_concat, keepBest.eq_def] at h
    split at h
    · rename_i hy
      split at h
      · rename_i hnone
        cases h
        refine ⟨hy, fun x hx hq => ?_, fun _ => le_rfl⟩
        rw [scan_eq_none hnone hx] at hq
        cases hq
      · rename_i b' hb'
        obtain ⟨hq, hle⟩ := ih hb'
        rw [hbeats] at h
        split at h
        · rename_i hwin
          cases h
          have hyb := le_of_lt (of_decide_eq_true hwin)
          exact ⟨hy, fun x hx hq => le_trans hyb (hle x hx hq), fun _ => le_rfl⟩
        · rename_i hlose
          cases h
          exact ⟨hq, hle, fun _ => by simpa using hlose⟩
    · rename_i hy
      obtain ⟨hq, hle⟩ := ih h
      exact ⟨hq, hle, fun hy' => absurd hy' hy⟩

end LibXtc.Foundations

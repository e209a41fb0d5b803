import LibXtc.Res.AccountantSafety

/-!
# Calls that nothing interrupts

What one call of `xtc_res_acquire` or `xtc_res_release` does to the counters when no other thread
takes a step meanwhile. The code that charges its objects is modelled over these functions; the
results below say that they are the decisions of the accountant's machine.
-/

namespace LibXtc.Res

open Foundations

/-- `xtc_res_acquire`; `none` is `XTC_E_RESOURCE`. -/
def Config.acquire (c : Config) (used : Kind → ℤ) (k : Kind) (n : ℤ) : Option (Kind → ℤ) :=
  if 0 < used k ∧ int64Max - used k < n then none
  else if 0 < (c.caps.capFor k).1 ∧ (c.caps.capFor k).1 < used k + n then none
  else some (Function.update used k (used k + n))

/-- `xtc_res_release`. -/
def release (used : Kind → ℤ) (k : Kind) (n : ℤ) : Kind → ℤ :=
  if n ≤ 0 then used else Function.update used k (if n < used k then used k - n else 0)

variable {c : Config} {s : State} {i : ℕ} {k : Kind} {n : ℤ} {used : Kind → ℤ}

/-- The two tests are one test against the limit. -/
theorem acquire_eq (hn : 0 ≤ n ∧ n ≤ int64Max) (hused : 0 ≤ used k ∧ used k ≤ c.limit k) :
    c.acquire used k n =
      if c.limit k < used k + n then none else some (Function.update used k (used k + n)) := by
  have hlimit : c.limit k ≤ int64Max := limit_le
  unfold Config.acquire
  by_cases hover : int64Max < used k + n
  · have hroom : 0 < used k ∧ int64Max - used k < n := by omega
    rw [if_pos hroom, if_pos (by omega)]
  · rw [if_neg (by omega)]
    congr 1
    unfold Config.limit
    split
    · rename_i hcap
      simp [hcap]
    · rename_i hcap
      simp [hcap, hover]

/-- The machine refuses a charge, or sets out to swap in the new count, as `Config.acquire`
says. -/
theorem tryFit_eq_acquire (hn : 0 ≤ n ∧ n ≤ int64Max)
    (hused : 0 ≤ s.used k ∧ s.used k ≤ c.limit k) :
    s.tryFit c i k n (s.used k) = match c.acquire s.used k n with
      | none => s.refuse i k n
      | some used => s.put i (.acquireCas k n (s.used k) (used k)) := by
  rw [tryFit_eq hn hused, acquire_eq hn hused]
  split
  · rfl
  · simp

/-- The machine swaps in the count that `release` says. -/
theorem lower_eq_release (hn : 0 < n ∧ n ≤ int64Max) (hused : 0 ≤ s.used k ∧ s.used k ≤ int64Max) :
    s.lower n (s.used k) = (s, release s.used k n k) := by
  rw [lower_eq hn hused, release, if_neg (by omega : ¬ n ≤ 0)]
  simp

end LibXtc.Res

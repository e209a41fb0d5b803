import LibXtc.Sup.Supervisor
import Mathlib.Data.List.Induction

/-!
# Restart intensity

The supervisor keeps the times of its last `max_restarts + 4` restarts. Times do not decrease, so
those inside the window are the last ones. As long as the array has them all the count is exact,
and once it has dropped one of them it is full of others.

`max_restarts` is an `int` that nobody checks: from `-4` down the array has no place, and a restart
moves memory that is not its own.
-/

namespace LibXtc.Sup

open Foundations List

variable {max period now : ℤ} {times : List ℤ}

/-- `__record_restart`, for any `max_restarts`. -/
def recordRestart (max : ℤ) (recent : List ℤ) (now : ℤ) : Option (List ℤ) :=
  if recent.length < max + 4 then some (recent ++ [now])
  -- the size of the `memmove` is negative
  else if max + 4 ≤ 0 then none
  else some (recent.tail ++ [now])

/-- `__intensity_exceeded`. -/
def intensityExceeded (max period : ℤ) (recent : List ℤ) (now : ℤ) : Bool :=
  max < recent.countP fun t => wrapInt64 (now - period) < t

/-- The array after restarts at the given times. -/
def recentRestarts (max : ℤ) (times : List ℤ) : Option (List ℤ) :=
  times.foldlM (recordRestart max) []

/-- They are those of a supervisor whose limit is not negative. -/
theorem recordRestart_state (s : State) : recordRestart s.opts.maxRestarts s.recentRestarts now =
      some (s.recordRestart now).recentRestarts ∧
    intensityExceeded s.opts.maxRestarts s.opts.periodNs s.recentRestarts now =
      s.intensityExceeded now := by
  refine ⟨?_, by simp [intensityExceeded, State.intensityExceeded]⟩
  simp only [recordRestart, State.recordRestart]
  split
  · rw [if_pos (by omega)]
  · rw [if_neg (by omega), if_neg (by omega)]

/-- The array has the last times. -/
theorem recentRestarts_eq (hmax : -4 < max) (times : List ℤ) :
    recentRestarts max times = some (times.drop (times.length - (max + 4).toNat)) := by
  induction times using List.reverseRecOn with
  | nil => simp [recentRestarts]
  | append_singleton times now ih =>
    have hdrop : (times ++ [now]).drop ((times ++ [now]).length - (max + 4).toNat) =
        times.drop (times.length + 1 - (max + 4).toNat) ++ [now] := by
      rw [length_append, length_singleton, drop_append_of_le_length (by omega)]
    rw [recentRestarts, foldlM_append, ← recentRestarts, ih, hdrop]
    simp only [Option.bind_eq_bind, Option.bind_some, foldlM_cons, foldlM_nil, bind_pure]
    rw [recordRestart, length_drop]
    split
    · rw [show times.length - (max + 4).toNat = times.length + 1 - (max + 4).toNat by omega]
    · rw [if_neg (by omega), tail_drop,
        show times.length - (max + 4).toNat + 1 = times.length + 1 - (max + 4).toNat by omega]

/-- If a time that was dropped is in the window, all of the array is. -/
theorem countP_drop_lt_iff (hmax : -4 < max) (htimes : times.Pairwise (· ≤ ·)) (cutoff : ℤ) :
    max < (times.drop (times.length - (max + 4).toNat)).countP (cutoff < ·) ↔
      max < times.countP (cutoff < ·) := by
  set n := times.length - (max + 4).toNat with hn
  have hsplit : times.countP (cutoff < ·) =
      (times.take n).countP (cutoff < ·) + (times.drop n).countP (cutoff < ·) := by
    rw [← countP_append, take_append_drop]
  by_cases hold : ∃ t ∈ times.take n, cutoff < t
  · obtain ⟨t, ht, hin⟩ := hold
    rw [← take_append_drop n times] at htimes
    have hle := (pairwise_append.mp htimes).2.2 t ht
    have hall : (times.drop n).countP (cutoff < ·) = (times.drop n).length :=
      countP_eq_length.mpr fun u hu => by simpa using Int.lt_of_lt_of_le hin (hle u hu)
    have hpos := length_pos_of_mem ht
    rw [length_take] at hpos
    rw [length_drop] at hall
    omega
  · have hzero : (times.take n).countP (cutoff < ·) = 0 :=
      countP_eq_zero.mpr fun t ht hin => hold ⟨t, ht, by simpa using hin⟩
    omega

end LibXtc.Sup

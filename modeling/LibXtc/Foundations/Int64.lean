import Mathlib.Algebra.Order.Ring.Int

/-!
# Signed 64-bit arithmetic on integers

A value of type `int64_t` is an integer between `-2 ^ 63` and `2 ^ 63 - 1`. A sum or difference
that leaves this range is reduced modulo `2 ^ 64` into it.
-/

namespace LibXtc.Foundations

/-- The largest `int64_t`. -/
def int64Max : ℤ := 9223372036854775807

/-- The integers that an `int64_t` can hold. -/
def FitsInt64 (x : ℤ) : Prop := -9223372036854775808 ≤ x ∧ x ≤ int64Max

instance (x : ℤ) : Decidable (FitsInt64 x) :=
  inferInstanceAs (Decidable (_ ∧ _))

/-- The values of type `int64_t`. -/
abbrev Signed64 := {x : ℤ // FitsInt64 x}

/-- Reduction modulo `2 ^ 64` into the range of `int64_t`. -/
def wrapInt64 (x : ℤ) : ℤ := (x + 9223372036854775808) % 18446744073709551616 - 9223372036854775808

theorem wrapInt64_of_fits {x : ℤ} (h : FitsInt64 x) : wrapInt64 x = x := by
  unfold FitsInt64 int64Max at h
  unfold wrapInt64
  omega

end LibXtc.Foundations

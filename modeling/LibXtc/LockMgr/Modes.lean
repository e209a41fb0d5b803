import Mathlib.Data.List.Basic

/-!
# Lock modes and the conflict matrix

The modes of `xtc_lock_mode_t`, the default nine-mode matrix of `src/ptc/lock_mgr.c`, and the two
relations the lock manager reads off a matrix: `__conflicts` and `__dominates`. A user may supply
a matrix of any size, so a mode is a number.
-/

namespace LibXtc.LockMgr

namespace Mode

/-- `XTC_LOCK_NL`: no lock. -/
def nl : ℕ := 0

/-- `XTC_LOCK_S`: shared. -/
def s : ℕ := 1

/-- `XTC_LOCK_X`: exclusive. -/
def x : ℕ := 2

/-- `XTC_LOCK_WAIT`: the placeholder that cannot be requested. -/
def wait : ℕ := 3

/-- `XTC_LOCK_IX`: intent exclusive. -/
def ix : ℕ := 4

/-- `XTC_LOCK_IS`: intent shared. -/
def is : ℕ := 5

/-- `XTC_LOCK_IWR`: intent read and write. -/
def iwr : ℕ := 6

/-- `XTC_LOCK_RU`: read uncommitted. -/
def ru : ℕ := 7

/-- `XTC_LOCK_WW`: was written. -/
def ww : ℕ := 8

/-- `__is_write_mode`. -/
def isWrite (mode : ℕ) : Bool :=
  mode == x || mode == ix || mode == iwr || mode == ww

end Mode

/-- A conflict matrix: `cells (held * nModes + requested)` is nonzero when the two conflict. -/
structure ConflictMatrix where
  nModes : ℕ
  cells : ℕ → UInt8

namespace ConflictMatrix

/-- `XTC_DEFAULT_CONFLICTS_9`, row by row. -/
def defaultCells : List UInt8 :=
  [0, 0, 0, 0, 0, 0, 0, 0, 0, 0, 0, 1, 0, 1, 0, 1, 0, 1, 0, 1, 1, 1, 1, 1, 1, 1, 1,
   0, 0, 0, 0, 0, 0, 0, 0, 0,
   0, 1, 1, 0, 0, 0, 0, 1, 1,
   0, 0, 1, 0, 0, 0, 0, 0, 1,
   0, 1, 1, 0, 0, 0, 0, 1, 1,
   0, 0, 1, 0, 1, 0, 1, 0, 0,
   0, 1, 1, 0, 1, 1, 1, 0, 1]

/-- The matrix of a manager created without one of its own. -/
def default9 : ConflictMatrix where
  nModes := 9
  cells i := defaultCells.getD i 0

variable (m : ConflictMatrix)

/-- The cell for a held and a requested mode. -/
def cell (held req : ℕ) : Bool := m.cells (held * m.nModes + req) != 0

/-- `__conflicts`: modes outside the matrix conflict with everything. -/
def conflicts (held req : ℕ) : Bool :=
  if m.nModes ≤ held ∨ m.nModes ≤ req then true else m.cell held req

/-- `__dominates`: holding `p` excludes, and is excluded by, at least what `q` is. -/
def dominates (p q : ℕ) : Bool :=
  if m.nModes ≤ p ∨ m.nModes ≤ q then false
  else (List.range m.nModes).all fun k =>
    !(m.cell q k && !m.cell p k) && !(m.cell k q && !m.cell k p)

/-- A symmetric matrix. -/
def Symmetric : Prop :=
  ∀ p q, p < m.nModes → q < m.nModes → m.cell p q = m.cell q p

instance : Decidable m.Symmetric :=
  decidable_of_iff (∀ p < m.nModes, ∀ q < m.nModes, m.cell p q = m.cell q p)
    ⟨fun h p q hp hq => h p hp q hq, fun h p hp q hq => h p q hp hq⟩

variable {m}

/-- What dominance says about the modes inside the matrix. -/
theorem dominates_iff {p q : ℕ} :
    m.dominates p q = true ↔ p < m.nModes ∧ q < m.nModes ∧ ∀ k < m.nModes,
      (m.cell q k = true → m.cell p k = true) ∧ (m.cell k q = true → m.cell k p = true) := by
  have hcell (a b : Bool) : (!(a && !b)) = true ↔ (a = true → b = true) := by
    cases a <;> cases b <;> simp
  rw [dominates]
  split
  · constructor
    · simp
    · rintro ⟨hp, hq, -⟩
      omega
  · rename_i h
    rw [not_or, Nat.not_le, Nat.not_le] at h
    simp only [List.all_eq_true, List.mem_range, Bool.and_eq_true, hcell, h.1, h.2, true_and]

/-- A mode that dominates another excludes all that the other excludes. -/
theorem conflicts_of_dominates {p q k : ℕ} (h : m.dominates p q = true)
    (hc : m.conflicts q k = true) : m.conflicts p k = true := by
  obtain ⟨hp, hq, hcell⟩ := dominates_iff.mp h
  rw [conflicts] at hc ⊢
  by_cases hk : k < m.nModes
  · rw [if_neg (by omega)] at hc ⊢
    exact (hcell k hk).1 hc
  · rw [if_pos (by omega)]

/-- A symmetric matrix gives a symmetric relation. -/
theorem Symmetric.conflicts_comm (h : m.Symmetric) (p q : ℕ) :
    m.conflicts p q = m.conflicts q p := by
  rw [conflicts, conflicts]
  by_cases hout : m.nModes ≤ p ∨ m.nModes ≤ q
  · rw [if_pos hout, if_pos hout.symm]
  · rw [if_neg hout, if_neg (mt Or.symm hout), h p q (by omega) (by omega)]

/-- The default matrix is not symmetric: a held `X` excludes `WAIT`, a held `WAIT` excludes
nothing. -/
example : default9.conflicts Mode.x Mode.wait = true ∧
    default9.conflicts Mode.wait Mode.x = false := by decide

end ConflictMatrix

end LibXtc.LockMgr

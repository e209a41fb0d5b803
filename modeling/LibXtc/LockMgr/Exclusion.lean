import LibXtc.LockMgr.Steps

/-!
# Mutual exclusion

Granted requests of different lockers on one object do not conflict. The proof is about the lists
of an object: every operation that adds a granted request or changes the mode of one keeps the
modes of different lockers compatible. A matrix need not be symmetric in all its modes; `Tame`
says what it must satisfy, on the modes that matter, for the argument to go through.
-/

namespace LibXtc.LockMgr

open Foundations ConflictMatrix

/-- What the argument needs of the matrix on the modes in `P`. -/
structure Tame (m : ConflictMatrix) (P : ℕ → Prop) : Prop where
  /-- Conflicts between modes in `P` are mutual. -/
  comm : ∀ p q, P p → P q → m.conflicts p q = m.conflicts q p
  /-- A mode that is not in `P` can only be lowered to modes that exclude nothing. -/
  lower : ∀ p q, ¬P p → P q → m.dominates p q = true → ∀ k < m.nModes, m.conflicts q k = false

/-- A symmetric matrix is tame on all modes. -/
theorem ConflictMatrix.Symmetric.tame {m : ConflictMatrix} (h : m.Symmetric) :
    Tame m fun _ => True :=
  ⟨fun p q _ _ => h.conflicts_comm p q, fun _ _ hp => absurd trivial hp⟩

/-- The default matrix is tame on all modes but `WAIT`. -/
theorem tame_default9 : Tame .default9 (· ≠ Mode.wait) := by
  have hcomm : ∀ p < 9, ∀ q < 9, p ≠ Mode.wait → q ≠ Mode.wait →
      default9.conflicts p q = default9.conflicts q p := by decide
  have hlower : ∀ q < 9, q ≠ Mode.wait → default9.dominates Mode.wait q = true →
      ∀ k < 9, default9.conflicts q k = false := by decide
  have hsize : default9.nModes = 9 := rfl
  constructor
  · intro p q hp hq
    by_cases hout : 9 ≤ p ∨ 9 ≤ q
    · rw [conflicts, conflicts, hsize, if_pos hout, if_pos hout.symm]
    · exact hcomm p (by omega) q (by omega) hp hq
  · intro p q hp hq hdom k hk
    obtain rfl : p = Mode.wait := by simpa using hp
    exact hlower q (dominates_iff.mp hdom).2.1 hq hdom k hk

/-- Two modes that different lockers may hold at once. -/
def Compatible (m : ConflictMatrix) (P : ℕ → Prop) (p q : ℕ) : Prop :=
  p < m.nModes ∧ q < m.nModes ∧ (P p → P q → m.conflicts p q = false)

/-- Different lockers hold compatible modes. -/
def Excludes (m : ConflictMatrix) (P : ℕ → Prop) (granted : List Req) : Prop :=
  ∀ r ∈ granted, ∀ r' ∈ granted, r.locker ≠ r'.locker → Compatible m P r.mode r'.mode

section Operations

variable {m : ConflictMatrix} {P : ℕ → Prop} {granted : List Req} {v : ObjView} {mode p q : ℕ}

/-- Modes that do not conflict are modes of the matrix. -/
theorem lt_of_conflicts_eq_false (h : m.conflicts p q = false) : p < m.nModes ∧ q < m.nModes := by
  rw [conflicts] at h
  split at h
  · cases h
  · omega

/-- An unblocked request is compatible with what other lockers hold, in both directions. -/
theorem Tame.compatible (hm : Tame m P) {locker : ℕ}
    (hfree : blocked m granted locker mode = false) {g : Req} (hg : g ∈ granted)
    (hne : g.locker ≠ locker) : Compatible m P g.mode mode ∧ Compatible m P mode g.mode := by
  have hconf : m.conflicts g.mode mode = false := by
    rw [← Bool.not_eq_true] at hfree ⊢
    exact fun hc => hfree (blocked_iff.mpr ⟨g, hg, hne, hc⟩)
  obtain ⟨hgm, hmode⟩ := lt_of_conflicts_eq_false hconf
  exact ⟨⟨hgm, hmode, fun _ _ => hconf⟩, hmode, hgm, fun hp hp' => hm.comm _ _ hp hp' ▸ hconf⟩

/-- A mode lowered under dominance stays compatible, in both directions. -/
theorem Tame.compatible_lower (hm : Tame m P) {k : ℕ} (hdom : m.dominates p q = true)
    (hpk : Compatible m P p k) : Compatible m P q k ∧ Compatible m P k q := by
  obtain ⟨-, hk, hpk⟩ := hpk
  have hq := (dominates_iff.mp hdom).2.1
  have hqk (hPq : P q) (hPk : P k) : m.conflicts q k = false := by
    by_cases hPp : P p
    · rw [← Bool.not_eq_true]
      intro hc
      simp [conflicts_of_dominates hdom hc] at hpk
      exact hpk hPp hPk
    · exact hm.lower p q hPp hPq hdom k hk
  exact ⟨⟨hq, hk, hqk⟩, hk, hq, fun hPk hPq => (hm.comm k q hPk hPq).trans (hqk hPq hPk)⟩

/-- A grant of an unblocked request. -/
theorem Excludes.cons (hm : Tame m P) (h : Excludes m P granted) {w : Req}
    (hfree : blocked m granted w.locker w.mode = false) : Excludes m P (w :: granted) := by
  intro r hr r' hr' hne
  rcases List.mem_cons.mp hr with rfl | hold <;> rcases List.mem_cons.mp hr' with rfl | hold'
  · exact absurd rfl hne
  · exact (hm.compatible hfree hold' hne.symm).2
  · exact (hm.compatible hfree hold hne).1
  · exact h r hold r' hold' hne

theorem Excludes.of_subset {granted' : List Req} (h : Excludes m P granted)
    (hsub : ∀ r ∈ granted', r ∈ granted) : Excludes m P granted' :=
  fun r hr r' hr' => h r (hsub r hr) r' (hsub r' hr')

/-- A change of one mode, to one that is compatible with what other lockers hold. -/
theorem Excludes.withMode (h : Excludes m P granted) (hnodup : (addrs granted).Nodup) {r : Req}
    (hr : r ∈ granted) (hmode : ∀ g ∈ granted, g.locker ≠ r.locker →
      Compatible m P g.mode mode ∧ Compatible m P mode g.mode) :
    Excludes m P (withMode r.addr mode granted) := by
  -- a request of the new list is an old one, or `r` with its new mode
  have hcases (g : Req) (hg : g ∈ LockMgr.withMode r.addr mode granted) :
      g ∈ granted ∨ g = { r with mode := mode } := by
    obtain ⟨g₀, hg₀, rfl⟩ := List.mem_map.mp hg
    by_cases heq : g₀.addr = r.addr
    · obtain rfl : g₀ = r := List.inj_on_of_nodup_map hnodup hg₀ hr heq
      exact .inr (if_pos rfl)
    · exact .inl (by rwa [if_neg heq])
  intro g hg g' hg' hne
  rcases hcases g hg with hg | rfl <;> rcases hcases g' hg' with hg' | rfl
  · exact h g hg g' hg' hne
  · exact (hmode g hg hne).1
  · exact (hmode g' hg' hne.symm).2
  · exact absurd rfl hne

theorem Excludes.promoteList (hm : Tame m P) (h : Excludes m P granted) (waiting : List Req) :
    Excludes m P (promoteList m granted waiting).granted :=
  promoteList_granted (fun _ _ hg hfree => hg.cons hm hfree) h

section

variable (hm : Tame m P) (h : Excludes m P v.granted)
include hm h

theorem Excludes.release (addr : ℕ) : Excludes m P (v.release m addr).granted :=
  Excludes.promoteList hm (h.of_subset fun _ hr => List.mem_of_mem_filter hr) v.waiting

theorem Excludes.releaseEach (as : List ℕ) : Excludes m P (v.releaseEach m as).granted := by
  induction as generalizing v with
  | nil => exact h
  | cons a as ih => exact ih (h.release hm a)

/-- Every operation keeps mutual exclusion. -/
theorem Excludes.apply (hnodup : (addrs v.granted).Nodup) {op : ObjOp} (hen : v.Enabled m op) :
    Excludes m P (v.apply m op).granted := by
  cases op with
  | raise addr mode =>
    obtain ⟨r, hr, rfl, -, hfree⟩ := hen
    exact h.withMode hnodup hr fun g hg hne => hm.compatible hfree hg hne
  | grant r => exact h.cons hm hen
  | waitHead | waitTail | leave => exact h
  | release addr => exact h.release hm addr
  | lower addr mode =>
    obtain ⟨r, hr, rfl, hdom⟩ := hen
    refine Excludes.promoteList hm (h.withMode hnodup hr fun g hg hne => ?_) v.waiting
    exact (hm.compatible_lower hdom (h r hr g hg hne.symm)).symm
  | drop locker => exact Excludes.releaseEach (v := v.flag locker) hm h _

end

end Operations

variable {c : Config} {s : Manager}

/-- Mutual exclusion on the lists of every object, along a run. -/
theorem excludes_of_reachable {P : ℕ → Prop} (hm : Tame c.matrix P)
    (hs : (lockSystem c).ReachableUnder (StepOk c) s) (k : Key) :
    Excludes c.matrix P (s.view k).granted := by
  induction hs generalizing k with
  | start h =>
    cases h
    simp [Excludes, ObjView.empty]
  | next hs hok ht ih =>
    have hsound := sound_of_reachable hs
    rcases (hsound.step hok ht).changes k with heq | ⟨op, -, hen, heq⟩
    · exact heq ▸ ih k
    · exact heq ▸ (ih k).apply hm (hsound.represents.nodup_granted k) hen

/-- With the default matrix, or any symmetric one, entries of different lockers that are granted
on one object at once do not conflict, `WAIT` aside. -/
theorem mutual_exclusion (hm : c.matrix = .default9 ∨ c.matrix.Symmetric)
    (hs : (lockSystem c).ReachableUnder (StepOk c) s) (k : Key) :
    ∃ granted, s.grantedList k = some granted ∧ ∀ a ∈ granted, ∀ b ∈ granted,
      (s.entry a).locker ≠ (s.entry b).locker → (s.entry a).mode ≠ Mode.wait →
      (s.entry b).mode ≠ Mode.wait →
      c.matrix.conflicts (s.entry a).mode (s.entry b).mode = false := by
  have hrep := (sound_of_reachable hs).represents
  refine ⟨_, hrep.grantedList_eq k, fun a ha b hb hne hwa hwb => ?_⟩
  obtain ⟨r, hr, rfl⟩ := mem_addrs.mp ha
  obtain ⟨r', hr', rfl⟩ := mem_addrs.mp hb
  have hst := hrep.stores_granted k r hr
  have hst' := hrep.stores_granted k r' hr'
  rw [hst.locker, hst'.locker] at hne
  rw [hst.mode] at hwa ⊢
  rw [hst'.mode] at hwb ⊢
  rcases hm with hm | hm
  · have hex := excludes_of_reachable (hm ▸ tame_default9) hs k
    exact (hex r hr r' hr' hne).2.2 hwa hwb
  · have hex := excludes_of_reachable hm.tame hs k
    exact (hex r hr r' hr' hne).2.2 trivial trivial

/-- Lockers 1 and 2 read an object, locker 3 waits to write below it, and locker 1 downgrades. -/
def readersThenWriter : List Act :=
  [.get 0 1 [1] Mode.s (-1) false true (some 0), .get 1 2 [1] Mode.is (-1) false true (some 1),
    .get 2 3 [1] Mode.ix (-1) false true (some 2), .downgrade 1 [1] Mode.is]

/-- The downgrade lets the writer in beside the two readers. -/
theorem mutual_exclusion_readersThenWriter :
    ∃ s ∈ (lockSystem .default).runUnder (StepOk .default) .create readersThenWriter,
      s.grantedList [1] = some [2, 1, 0] ∧
      ∃ granted, s.grantedList [1] = some granted ∧ ∀ a ∈ granted, ∀ b ∈ granted,
        (s.entry a).locker ≠ (s.entry b).locker → (s.entry a).mode ≠ Mode.wait →
        (s.entry b).mode ≠ Mode.wait →
        Config.default.matrix.conflicts (s.entry a).mode (s.entry b).mode = false := by
  exact System.exists_run rfl (by decide) fun s _ hs _ => mutual_exclusion (.inl rfl) hs [1]

/-- A released entry stays on the granted list of one object (its waiter was aborted, then
granted, and returned `XTC_E_DEADLK`) and is allocated again for another. A request of its new
locker on the first object raises the mode of the entry on the second. -/
def staleEntryRaised : List Act :=
  [.get 0 1 [1] Mode.x (-1) false true (some 0), .get 1 2 [1] Mode.x (-1) false true (some 1),
    .releasePart 2 (Config.default.part [1]), .put 1 [1], .resume 1 false false,
    .get 2 3 [2] Mode.is (-1) false true (some 1), .get 3 4 [2] Mode.ix (-1) false true (some 2),
    .get 2 3 [1] Mode.s (-1) false true none]

/-- Lockers 3 and 4 then hold `S` and `IX` on the second object. -/
theorem staleEntryRaised_conflict :
    ∃ s ∈ (lockSystem .default).run .create staleEntryRaised, s.grantedList [2] = some [2, 1] ∧
      (s.entry 2).locker = 4 ∧ (s.entry 2).mode = Mode.ix ∧ (s.entry 1).locker = 3 ∧
      (s.entry 1).mode = Mode.s ∧ Config.default.matrix.conflicts Mode.ix Mode.s = true := by
  decide

end LibXtc.LockMgr

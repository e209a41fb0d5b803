import LibXtc.LockMgr.Steps

/-!
# Entries, lists and waiters

Where the entries of the slab are, in every state of a run: each live entry is on one list of its
object, no list holds a released entry, a waiter waits on an entry of its own, and a request that
failed has left no entry behind. The manager keeps this as long as no step releases a granted
entry whose waiter has yet to run, and no waiter runs on an entry that was aborted and then
granted. Two runs show that it does not keep it otherwise.
-/

namespace LibXtc.LockMgr

open Foundations Option

variable {c : Config} {s s' : Manager} {slot : Option ℕ} {timeout : ℤ} {k : Key} {rc : Rc}

/-- The entries are where the flags and the waiters say. -/
structure Consistent (c : Config) (s : Manager) : Prop where
  /-- A list of an object holds the live entries of the object with its flag, each once. -/
  lists : ∀ k, ∃ granted waiting, s.grantedList k = some granted ∧
    s.waitingList k = some waiting ∧ (granted ++ waiting).Nodup ∧
    (∀ a, a ∈ granted ↔ (s.entry a).live = true ∧ (s.entry a).obj = k ∧
      (s.entry a).granted = true) ∧
    ∀ a, a ∈ waiting ↔ (s.entry a).live = true ∧ (s.entry a).obj = k ∧ (s.entry a).granted = false
  /-- A waiter that runs again finds the entry it queued. -/
  waiters : ∀ t w, s.waits.get t = some w →
    (s.entry w.entry).live = true ∧ (s.entry w.entry).serial = w.serial
  /-- A wait that failed has left no entry of its own on a list. -/
  returned : ∀ serial rc, (serial, rc) ∈ s.finished → rc = .deadlk ∨ rc = .again ∨ rc = .aborted →
    ∀ k granted waiting, s.grantedList k = some granted → s.waitingList k = some waiting →
      ∀ a ∈ granted ++ waiting, (s.entry a).serial ≠ serial
  /-- A request that fails at once changes no entry. -/
  rejected : ∀ t locker k mode timeout masked room slot rc s', s.slotFree slot → rc ≠ .ok →
    (s.lockGet c t locker k mode timeout masked room slot = some (s', some rc) ∨
      s.lockUpgrade c t locker k mode timeout masked slot = some (s', some rc)) →
    ∀ a, s'.entry a = s.entry a

namespace Sound

/-- The lists of an object are those of its view. -/
theorem lists (h : Sound s) (k : Key) :
    ∃ granted waiting, s.grantedList k = some granted ∧ s.waitingList k = some waiting ∧
      (granted ++ waiting).Nodup ∧
      (∀ a, a ∈ granted ↔ (s.entry a).live = true ∧ (s.entry a).obj = k ∧
        (s.entry a).granted = true) ∧
      ∀ a, a ∈ waiting ↔ (s.entry a).live = true ∧ (s.entry a).obj = k ∧
        (s.entry a).granted = false := by
  have hrep := h.represents
  have hiff (g : Bool) (a : ℕ) : a ∈ addrs ((s.view k).side g) ↔
      (s.entry a).live = true ∧ (s.entry a).obj = k ∧ (s.entry a).granted = g := by
    refine ⟨hrep.of_mem, fun ⟨hlive, hobj, hflag⟩ => ?_⟩
    obtain ⟨k', hk'⟩ := (hrep.live_iff a).mp hlive
    obtain ⟨g', hg'⟩ := exists_mem_side.mpr hk'
    obtain ⟨-, rfl, rfl⟩ := hrep.of_mem hg'
    rwa [← hobj, ← hflag]
  refine ⟨_, _, hrep.grantedList_eq k, hrep.waitingList_eq k, ?_, hiff true, hiff false⟩
  rw [List.nodup_append]
  refine ⟨hrep.nodup_granted k, hrep.nodup_waiting k, fun a ha b hb heq => ?_⟩
  subst heq
  exact hrep.not_waiting_of_granted ha hb

/-- A request that fails before it waits has allocated no entry. -/
theorem settle_rejected (h : Sound s) {o : LockObj} (ho : s.objLookup k = some o)
    (hslot : s.slotFree slot) {t locker mode : ℕ} {upgrade masked timed : Bool} (hrc : rc ≠ .ok)
    (hcall : (s.doAcquireLocked c k locker mode timeout slot).bind
      (Manager.settle c t k locker mode upgrade masked timed) = some (s', some rc)) : s' = s := by
  obtain ⟨u, r, heq, hspec⟩ :=
    h.represents.doAcquireLocked_spec ho hslot locker mode timeout
  rw [heq, bind_some] at hcall
  cases r with
  | waits a => simp [Manager.settle] at hcall
  | done rc' =>
    have hreturn : u = s' ∧ rc' = rc := by
      simp only [Manager.settle] at hcall
      split at hcall
      · rename_i hok
        obtain ⟨v, -, hv⟩ := map_eq_some_iff.mp hcall
        have hrc' : rc' = rc := some.inj (congrArg Prod.snd hv)
        rw [Bool.and_eq_true, decide_eq_true_iff] at hok
        exact absurd (hrc'.symm.trans hok.2) hrc
      · simpa using hcall
    obtain ⟨rfl, rfl⟩ := hreturn
    cases hspec with
    | same => rfl
    | raise | grant => exact absurd rfl hrc

theorem rejected (h : Sound s) {t locker mode : ℕ} {masked room : Bool}
      (hslot : s.slotFree slot) (hrc : rc ≠ .ok)
    (hcall : s.lockGet c t locker k mode timeout masked room slot = some (s', some rc) ∨
      s.lockUpgrade c t locker k mode timeout masked slot = some (s', some rc)) (a : ℕ) :
    s'.entry a = s.entry a := by
  rcases hcall with hcall | hcall
  · unfold Manager.lockGet at hcall
    split at hcall
    · obtain ⟨rfl, -⟩ : s = s' ∧ _ := by simpa using hcall
      rfl
    · cases hget : s.objGet k room with
      | none =>
        obtain ⟨rfl, -⟩ : s = s' ∧ _ := by simpa [hget] using hcall
        rfl
      | some s₁ =>
        obtain ⟨hsound, -, hentry, -, o, ho⟩ := h.objGet hget
        simp only [hget] at hcall
        have hslot₁ : s₁.slotFree slot := fun b hb => by rw [hentry]; exact hslot b hb
        rw [hsound.settle_rejected ho hslot₁ hrc hcall, hentry]
  · unfold Manager.lockUpgrade at hcall
    split at hcall
    · obtain ⟨rfl, -⟩ : s = s' ∧ _ := by simpa using hcall
      rfl
    · rw [h.represents.findGranted_eq, bind_some] at hcall
      cases hfind : (s.view k).granted.find? (·.locker = locker) with
      | none =>
        obtain ⟨rfl, -⟩ : s = s' ∧ _ := by simpa [hfind] using hcall
        rfl
      | some r =>
        simp only [hfind, map_some] at hcall
        split at hcall
        · obtain ⟨rfl, -⟩ : s = s' ∧ _ := by simpa using hcall
          rfl
        · rw [h.represents.hasConflictGranted_eq, bind_some] at hcall
          split at hcall
          · have hr : r ∈ (s.view k).granted := List.mem_of_find?_eq_some hfind
            obtain ⟨o, ho⟩ :=
              h.represents.objLookup_of_mem (g := true) (mem_addrs.mpr ⟨r, hr, rfl⟩)
            rw [h.settle_rejected ho hslot hrc hcall]
          · obtain ⟨-, rfl⟩ : _ ∧ Rc.ok = rc := by simpa using hcall
            exact absurd rfl hrc

end Sound

/-- In a run that releases no granted entry whose waiter has yet to run, and resumes no waiter on
an entry that was aborted and then granted, the entries stay consistent. -/
theorem consistent_of_stepOk (hs : (lockSystem c).ReachableUnder (StepOk c) s) :
    Consistent c s := by
  have h := sound_of_reachable hs
  refine ⟨h.lists, fun t w hw => ?_, fun serial rc hfin hrc k G W hG hW a ha => ?_,
    fun _ _ _ _ _ _ _ _ _ _ hslot hrc hcall => h.rejected hslot hrc hcall⟩
  · obtain ⟨hlive, hserial, -⟩ := h.threads.entry t w hw
    exact ⟨hlive, hserial⟩
  · obtain ⟨G', W', hG', hW', -, hmemG, hmemW⟩ := h.lists k
    obtain rfl := some.inj (hG.symm.trans hG')
    obtain rfl := some.inj (hW.symm.trans hW')
    have hlive : (s.entry a).live = true :=
      (List.mem_append.mp ha).elim (fun ha => ((hmemG a).mp ha).1) fun ha => ((hmemW a).mp ha).1
    refine h.threads.finished_gone _ hfin ?_ a hlive
    rintro rfl
    simp at hrc

/-- Locker 2 waits for locker 1, is failed by `xtc_lock_release_all`, and runs before locker 1
puts its lock. -/
def abortedWaiterRuns : List Act :=
  [.get 0 1 [1] Mode.x (-1) false true (some 0), .get 1 2 [1] Mode.x (-1) false true (some 1),
    .releasePart 2 (Config.default.part [1]), .resume 1 false false, .put 1 [1]]

/-- The aborted waiter returns `XTC_E_DEADLK` and leaves nothing behind. -/
theorem consistent_abortedWaiterRuns :
    ∃ s ∈ (lockSystem .default).runUnder (StepOk .default) .create abortedWaiterRuns,
      s.finished = [(1, .deadlk)] ∧ Consistent .default s := by
  exact System.exists_run rfl (by decide) fun s _ hs _ => consistent_of_stepOk hs

/-- The same, but locker 1 puts its lock before the aborted waiter runs: the put grants it. -/
def abortedThenGranted : List Act :=
  [.get 0 1 [1] Mode.x (-1) false true (some 0), .get 1 2 [1] Mode.x (-1) false true (some 1),
    .releasePart 2 (Config.default.part [1]), .put 1 [1], .resume 1 false false]

/-- Locker 2 is granted its request and then failed before it runs. -/
def releasedBeforeRun : List Act :=
  [.get 0 1 [1] Mode.x (-1) false true (some 0), .get 1 2 [1] Mode.x (-1) false true (some 1),
    .put 1 [1], .releasePart 2 (Config.default.part [1])]

/-- In the first run the waiter returns `XTC_E_DEADLK` and its released entry stays on the granted
list; in the second it waits on an entry that has been released. -/
theorem lateWaiter_not_consistent :
    (∃ s ∈ (lockSystem .default).run .create abortedThenGranted, ¬Consistent .default s) ∧
      ∃ s ∈ (lockSystem .default).run .create releasedBeforeRun, ¬Consistent .default s := by
  constructor
  · have hrun : ∃ s ∈ (lockSystem .default).run .create abortedThenGranted,
        s.grantedList [1] = some [1] ∧ (s.entry 1).live = false := by decide
    obtain ⟨s, hrun, hlist, hdead⟩ := hrun
    refine ⟨s, hrun, fun h => ?_⟩
    obtain ⟨G, W, hG, -, -, hmem, -⟩ := h.lists [1]
    obtain rfl := some.inj (hG.symm.trans hlist)
    have hlive := ((hmem 1).mp (List.mem_singleton.mpr rfl)).1
    simp [hdead] at hlive
  · have hrun : ∃ s ∈ (lockSystem .default).run .create releasedBeforeRun,
        ∃ w ∈ s.waits.get 1, (s.entry w.entry).live = false := by decide
    obtain ⟨s, hrun, w, hw, hdead⟩ := hrun
    refine ⟨s, hrun, fun h => ?_⟩
    simp [(h.waiters 1 w hw).1] at hdead

end LibXtc.LockMgr

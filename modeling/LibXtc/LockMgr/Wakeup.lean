import LibXtc.LockMgr.Steps

/-!
# Wakeup completeness

No request that could be granted is left asleep: on every object, the first waiter that is not
flagged aborted conflicts with a granted request of another locker. Promotion runs when a granted
request is released or lowered, and stops at the first blocked waiter, flagged or not; a waiter
that leaves, or is flagged, promotes nobody. `WakeOk` says, on the state before a step, when this
is enough. Three runs show what happens when it is not.
-/

namespace LibXtc.LockMgr

open Foundations List

/-- The first waiter that is not flagged aborted. -/
def firstLive (waiting : List Req) : Option Req := waiting.find? fun w => !w.aborted

/-- The first waiter that is not flagged conflicts with one of the requests `held`. -/
def HeadBlocked (m : ConflictMatrix) (held waiting : List Req) : Prop :=
  ∀ w ∈ firstLive waiting, blocked m held w.locker w.mode = true

instance (m : ConflictMatrix) (held waiting : List Req) : Decidable (HeadBlocked m held waiting) :=
  inferInstanceAs (Decidable (∀ w ∈ firstLive waiting, _))

/-- No waiter that is not flagged is queued behind one that is. -/
def Orderly (waiting : List Req) : Prop :=
  waiting.Pairwise fun w w' => w.aborted = true → w'.aborted = true

instance (waiting : List Req) : Decidable (Orderly waiting) :=
  inferInstanceAs (Decidable (List.Pairwise _ _))

/-- When an operation leaves no waiter asleep that could be granted. -/
def ObjView.WakeOk (m : ConflictMatrix) (v : ObjView) : ObjOp → Prop
  | .raise _ _ | .grant _ | .waitHead _ => True
  | .waitTail r =>
    blocked m v.granted r.locker r.mode = true ∨ (firstLive v.waiting).isSome = true
  | .leave addr => HeadBlocked m v.granted (without addr v.waiting)
  | .release addr => Orderly v.waiting ∨ HeadBlocked m (without addr v.granted) v.waiting
  | .lower addr mode => Orderly v.waiting ∨ HeadBlocked m (withMode addr mode v.granted) v.waiting
  | .drop locker =>
    v.heldBy locker ≠ [] ∧ Orderly (flagged locker v.waiting) ∨
      HeadBlocked m (v.granted.filter (·.locker ≠ locker)) (flagged locker v.waiting)

instance (m : ConflictMatrix) (v : ObjView) (op : ObjOp) : Decidable (v.WakeOk m op) := by
  cases op <;> unfold ObjView.WakeOk <;> infer_instance

section Operations

variable {m : ConflictMatrix} {held granted waiting : List Req} {v : ObjView} {as : List ℕ}

theorem HeadBlocked.mono {held' : List Req} (h : HeadBlocked m held waiting)
    (hsub : ∀ g ∈ held, g ∈ held') : HeadBlocked m held' waiting :=
  fun w hw => blocked_mono hsub (h w hw)

/-- Promotion does not pass a first live waiter that stays blocked. -/
theorem HeadBlocked.promoteList (h : HeadBlocked m held waiting) (hsub : ∀ g ∈ held, g ∈ granted) :
    HeadBlocked m held (promoteList m granted waiting).waiting := by
  induction waiting generalizing granted with
  | nil => exact h
  | cons w rest ih =>
    rw [LockMgr.promoteList]
    split
    · exact h
    · rename_i hfree
      refine ih ?_ fun g hg => mem_cons_of_mem w (hsub g hg)
      cases habort : w.aborted with
      | true =>
        rw [HeadBlocked, firstLive, find?_cons_of_neg (by simp [habort])] at h
        exact h
      | false =>
        have hw := h w (by simp [firstLive, habort])
        exact absurd (blocked_mono hsub hw) hfree

/-- In an orderly queue the first live waiter is its head. -/
theorem Orderly.firstLive_eq (h : Orderly waiting) {w : Req} (hw : w ∈ firstLive waiting) :
    waiting.head? = some w := by
  cases waiting with
  | nil => simp [firstLive] at hw
  | cons w₀ rest =>
    cases habort : w₀.aborted with
    | true =>
      have hmem := mem_of_find?_eq_some hw
      have hlive : w.aborted = false := by simpa using find?_some hw
      rcases mem_cons.mp hmem with rfl | hrest
      · simp [habort] at hlive
      · simp [(pairwise_cons.mp h).1 w hrest habort] at hlive
    | false =>
      have hfirst : firstLive (w₀ :: rest) = some w₀ := by simp [firstLive, habort]
      exact hfirst.symm.trans hw

/-- Promotion of an orderly queue ends with its first live waiter blocked. -/
theorem Orderly.promoteList (h : Orderly waiting) (granted : List Req) :
    Orderly (promoteList m granted waiting).waiting ∧
      HeadBlocked m (promoteList m granted waiting).granted
        (promoteList m granted waiting).waiting := by
  obtain ⟨taken, hsplit, -⟩ := promoteList_split granted waiting
  have hrest : Orderly (LockMgr.promoteList m granted waiting).waiting := by
    rw [hsplit] at h
    exact (pairwise_append.mp h).2.1
  refine ⟨hrest, fun w hw => promoteList_head_blocked granted waiting w ?_⟩
  exact hrest.firstLive_eq hw

/-- Promotion keeps the granted requests. -/
theorem mem_promoteList {g : Req} (hg : g ∈ granted) :
    g ∈ (promoteList m granted waiting).granted := by
  obtain ⟨taken, -, hgrant⟩ := promoteList_split granted waiting
  rw [hgrant]
  exact mem_append_right _ hg

/-- One turn of promotion, from either of the two conditions. -/
theorem headBlocked_promoteList (h : Orderly waiting ∨ HeadBlocked m granted waiting) :
    HeadBlocked m (promoteList m granted waiting).granted
      (promoteList m granted waiting).waiting := by
  rcases h with h | h
  · exact (h.promoteList granted).2
  · exact (h.promoteList fun _ => id).mono fun _ => mem_promoteList

/-- Releasing at least one request of an object with an orderly queue. -/
theorem Orderly.releaseEach (h : Orderly v.waiting) (has : as ≠ []) :
    HeadBlocked m (v.releaseEach m as).granted (v.releaseEach m as).waiting := by
  induction as generalizing v with
  | nil => exact absurd rfl has
  | cons a as ih =>
    have hone := h.promoteList (m := m) (without a v.granted)
    by_cases hnil : as = []
    · subst hnil
      exact hone.2
    · exact ih hone.1 hnil

/-- Releasing requests other than those that block the first live waiter. -/
theorem HeadBlocked.releaseEach (h : HeadBlocked m held v.waiting)
    (hsub : ∀ g ∈ held, g ∈ v.granted) (has : ∀ g ∈ held, g.addr ∉ as) :
    HeadBlocked m (v.releaseEach m as).granted (v.releaseEach m as).waiting := by
  induction as generalizing v with
  | nil => exact h.mono hsub
  | cons a as ih =>
    have hkeep : ∀ g ∈ held, g ∈ without a v.granted := fun g hg =>
      mem_filter.mpr ⟨hsub g hg, by simpa using ne_of_not_mem_cons (has g hg)⟩
    exact ih (h.promoteList hkeep) (fun g hg => mem_promoteList (hkeep g hg))
      fun g hg => not_mem_of_not_mem_cons (has g hg)

/-- A raised request blocks all that it blocked. -/
theorem blocked_withMode (hnodup : (addrs granted).Nodup) {r : Req} (hr : r ∈ granted) {mode : ℕ}
    (hdom : m.dominates mode r.mode = true) {locker req : ℕ}
    (h : blocked m granted locker req = true) :
    blocked m (withMode r.addr mode granted) locker req = true := by
  rw [blocked_iff] at h ⊢
  obtain ⟨g, hg, hne, hconf⟩ := h
  refine ⟨_, mem_map_of_mem hg, ?_⟩
  by_cases heq : g.addr = r.addr
  · obtain rfl : g = r := inj_on_of_nodup_map hnodup hg hr heq
    rw [if_pos rfl]
    exact ⟨hne, ConflictMatrix.conflicts_of_dominates hdom hconf⟩
  · rw [if_neg heq]
    exact ⟨hne, hconf⟩

/-- Every operation that meets its condition leaves the first live waiter blocked. -/
theorem HeadBlocked.apply (h : HeadBlocked m v.granted v.waiting)
    (hnodup : (addrs v.granted).Nodup) {op : ObjOp} (hen : v.Enabled m op) (hok : v.WakeOk m op) :
    HeadBlocked m (v.apply m op).granted (v.apply m op).waiting := by
  cases op with
  | raise addr mode =>
    obtain ⟨r, hr, rfl, hdom, -⟩ := hen
    exact fun w hw => blocked_withMode hnodup hr hdom (h w hw)
  | grant r => exact h.mono fun g hg => mem_cons_of_mem r hg
  | waitHead r =>
    intro w hw
    have hfirst : firstLive (r :: v.waiting) = some r := by simp [firstLive, hen.1]
    obtain rfl := Option.some.inj (hfirst.symm.trans hw)
    exact hen.2
  | waitTail r =>
    intro w hw
    have hfirst : firstLive (v.waiting ++ [r]) = (firstLive v.waiting).or (some r) := by
      simp [firstLive, hen.1]
    rw [ObjView.apply, hfirst] at hw
    cases hlive : firstLive v.waiting with
    | some w₀ =>
      rw [hlive] at hw
      exact h w (hlive.trans hw)
    | none =>
      rw [hlive] at hw
      obtain rfl : r = w := Option.some.inj hw
      exact hok.resolve_right (by simp [hlive])
  | leave addr => exact hok
  | release addr | lower addr mode => exact headBlocked_promoteList hok
  | drop locker =>
    rcases hok with ⟨hheld, horder⟩ | hblock
    · exact Orderly.releaseEach horder (by simpa using hheld)
    · refine HeadBlocked.releaseEach hblock (fun g hg => mem_of_mem_filter hg) fun g hg hmem => ?_
      -- the address of a request of another locker is not among those released
      obtain ⟨r, hr, haddr⟩ := mem_addrs.mp hmem
      obtain ⟨hrg, hlocker⟩ := mem_filter.mp hr
      obtain ⟨hgg, hother⟩ := mem_filter.mp hg
      obtain rfl := inj_on_of_nodup_map hnodup hrg hgg haddr
      simp_all

end Operations

/-- The step leaves no waiter asleep that could be granted. -/
def WakeOk (c : Config) (s : Manager) : Act → Prop
  | .get _ locker k mode timeout _ _ slot =>
    c.accepts k mode → timeout ≠ 0 → ∀ a ∈ slot, (s.view k).heldBy locker = [] →
      (s.view k).waiting ≠ [] → (s.view k).WakeOk c.matrix (.waitTail ⟨a, locker, mode, false⟩)
  | .put locker k =>
    ∀ r ∈ (s.view k).granted.find? (·.locker = locker), (s.view k).WakeOk c.matrix (.release r.addr)
  | .releasePart locker i => ∀ k ∈ s.table c i, (s.view k).WakeOk c.matrix (.drop locker)
  | .upgrade _ locker k mode _ _ _ =>
    ∀ newest ∈ ((s.view k).heldBy locker)[0]?, ∀ older ∈ ((s.view k).heldBy locker)[1]?,
      c.matrix.dominates newest.mode mode = true →
      (s.view k).WakeOk c.matrix (.release older.addr)
  | .downgrade locker k mode =>
    ∀ r ∈ (s.view k).granted.find? (·.locker = locker), c.matrix.dominates r.mode mode = true →
      (s.view k).WakeOk c.matrix (.lower r.addr mode)
  | .resume t killed timedOut =>
    ∀ w ∈ s.waits.get t, (s.waitOutcome w killed timedOut).isSome = true →
      if (s.entry w.entry).granted = false then
        (s.view w.key).WakeOk c.matrix (.leave w.entry)
      else if (w.masked && killed) = true then
        (s.view w.key).WakeOk c.matrix (.release w.entry)
      else
        w.upgrade = true → ∀ older ∈ ((s.view w.key).heldBy w.locker)[1]?,
          (s.view w.key).WakeOk c.matrix (.release older.addr)
  | .detectRound rand pick =>
    ∀ id ∈ s.victimId c rand pick, ∀ k ∈ s.keys, (s.view k).WakeOk c.matrix (.drop id)
  | _ => True

instance (c : Config) (s : Manager) (a : Act) : Decidable (WakeOk c s a) := by
  induction a using Act.casesOn <;> unfold WakeOk <;> infer_instance

variable {c : Config} {s : Manager}

/-- The condition on a step is the condition on each operation it performs. -/
theorem WakeOk.of_performs {a : Act} (hok : WakeOk c s a) {k : Key} {op : ObjOp}
    (hperf : Performs c s s.view a k op) (hen : (s.view k).Enabled c.matrix op) :
    (s.view k).WakeOk c.matrix op := by
  cases hperf with
  | getRaise | getGrant | upgradeRaise => trivial
  | getWait hacc htimeout hop =>
    rcases hop with rfl | ⟨rfl, hheld⟩
    · trivial
    · rcases hen.2 with hblock | hwait
      · exact .inl hblock
      · exact hok hacc htimeout _ rfl hheld hwait
  | upgradeWait hblock hop =>
    rcases hop with rfl | rfl
    · trivial
    · exact .inl hblock
  | put hfind => exact hok _ hfind
  | part hk => exact hok _ hk
  | upgradeDrop hnewest holder hdom => exact hok _ hnewest _ holder hdom
  | downgrade hfind hdom => exact hok _ hfind hdom
  | leave hw houtcome hgrant =>
    have ht := hok _ hw houtcome
    rwa [if_pos hgrant] at ht
  | killed hw hkill hgrant =>
    have ht := hok _ hw (by simp [Manager.waitOutcome, hkill])
    rwa [if_neg (by simp [hgrant]), if_pos hkill] at ht
  | drop hw houtcome hkill hgrant hup holder =>
    have ht := hok _ hw houtcome
    rw [if_neg (by simp [hgrant]), if_neg (by simp [hkill])] at ht
    exact ht hup _ holder
  | victim hid hk => exact hok _ hid _ hk

/-- The first live waiter of every object stays blocked, along a run. -/
theorem headBlocked_of_reachable
    (hs : (lockSystem c).ReachableUnder (fun s a => StepOk c s a ∧ WakeOk c s a) s) (k : Key) :
    HeadBlocked c.matrix (s.view k).granted (s.view k).waiting := by
  induction hs generalizing k with
  | start h =>
    cases h
    simp [HeadBlocked, ObjView.empty, firstLive]
  | next hs hok ht ih =>
    have hsound := sound_of_reachable (hs.mono fun _ _ hok => hok.1)
    rcases (hsound.step hok.1 ht).changes k with heq | ⟨op, hperf, hen, heq⟩
    · exact heq ▸ ih k
    · exact heq ▸ (ih k).apply (hsound.represents.nodup_granted k) hen (hok.2.of_performs hperf hen)

/-- Two lockers queue behind the first, which puts its lock. -/
def putPromotes : List Act :=
  [.get 0 1 [1] Mode.x (-1) false true (some 0), .get 1 2 [1] Mode.x (-1) false true (some 1),
    .get 2 3 [1] Mode.s (-1) false true (some 2), .put 1 [1]]

/-- The first waiter of the object that is not flagged could be granted. -/
def Manager.LeftAsleep (c : Config) (s : Manager) (k : Key) : Prop :=
  ∃ granted ∈ s.grantedList k, ∃ waiting ∈ s.waitingList k,
    ∃ w ∈ waiting.find? fun w => !(s.entry w).aborted, ∀ a ∈ granted,
      ¬((s.entry a).locker ≠ (s.entry w).locker ∧
        c.matrix.conflicts (s.entry a).mode (s.entry w).mode = true)

instance (c : Config) (s : Manager) (k : Key) : Decidable (s.LeftAsleep c k) :=
  inferInstanceAs (Decidable (∃ granted ∈ s.grantedList k, _))

/-- A reader queues behind a writer, and the writer's wait runs out of time. -/
def writerTimesOut : List Act :=
  [.get 0 1 [1] Mode.s (-1) false true (some 0), .get 1 2 [1] Mode.x 5 false true (some 1),
    .get 2 3 [1] Mode.s (-1) false true (some 2), .resume 1 false true]

/-- A reader waits for locker 1 behind a writer that is aborted, and locker 1 puts its lock:
promotion stops at the aborted writer, which waits for locker 2. -/
def abortedWriterAhead : List Act :=
  [.get 0 1 [1] Mode.ix (-1) false true (some 0), .get 1 2 [1] Mode.is (-1) false true (some 1),
    .get 2 3 [1] Mode.x (-1) false true (some 2), .get 3 4 [1] Mode.s (-1) false true (some 3),
    .releasePart 3 (Config.default.part [1]), .put 1 [1]]

/-- A reader asks for a lock while the only waiter is an aborted writer. -/
def queuedBehindAborted : List Act :=
  [.get 0 1 [1] Mode.s (-1) false true (some 0), .get 1 2 [1] Mode.x (-1) false true (some 1),
    .releasePart 2 (Config.default.part [1]), .get 2 3 [1] Mode.s (-1) false true (some 2)]

end LibXtc.LockMgr

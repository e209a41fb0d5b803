import LibXtc.Evt.TimerRuns

/-!
# Every due timer fires once, in order

Over whole runs: the array is a heap that knows where its timers are, a timer that has left it was
fired or cancelled, once and never both, and is freed once, when both of its owners have let go. A
drain fires the due timers in the order of their deadlines, and leaves none.
-/

namespace LibXtc.Timers

open Foundations Option State List

variable {s s' : State} {t u i n : ℕ} {f : Fiber} {r : Timer} {deadline now : ℤ} {ok : Bool}
  {a : Act}

theorem ok_create : Ok (.create n now) := by
  refine ⟨fun _ => ⟨⟨nofun, nofun⟩, nofun⟩, nofun, nofun, rfl, fun t ht => ?_, nofun,
    fun i f hf => ?_,
    ⟨nofun, nofun, nofun⟩, ⟨nofun, fun _ => List.Pairwise.nil, nofun, nofun, nofun, nofun⟩⟩
  · rcases ht with ht | ht | ht | ht <;> cases ht
  · dsimp only [create] at hf
    rw [getElem?_replicate] at hf
    split at hf <;> cases hf
    refine ⟨nofun, fun t ht => ?_, nofun, fun t park hpc => ?_⟩
    · cases ht
    · rcases hpc with hpc | hpc <;> cases hpc

theorem fresh_newTimer {handle : Bool} : Fresh (newTimer deadline handle) i f :=
  ⟨rfl, rfl, .inr ⟨rfl, by cases handle <;> rfl⟩⟩

theorem Ok.parkOnTimerAt (h : Ok s) (hf : s.fibers[i]? = some f) (hidle : f.pc = .idle)
    (hfree : s.ownerFree = true) : Ok (s.parkOnTimerAt i f deadline ok) := by
  obtain ⟨hsw, hdr⟩ := ownerFree_iff.mp hfree
  unfold State.parkOnTimerAt
  split
  · exact h
  · rename_i hslot
    have hslot : f.parkTimer = none := not_isSome_iff_eq_none.mp hslot
    exact h.push hf hidle ⟨rfl, rfl, .inl ⟨rfl, rfl, rfl, hslot⟩⟩ hsw hdr

theorem Ok.act (h : Ok s) (hs' : s.act a = some s') : Ok s' := by
  cases a with
  | timerSet i delay handle ok =>
    obtain ⟨f, hf, hs'⟩ := bind_eq_some_iff.mp hs'
    split at hs'
    case isFalse => cases hs'
    rename_i hcond
    obtain ⟨hsw, hdr⟩ := ownerFree_iff.mp hcond.2
    split at hs' <;> cases hs'
    · exact h
    · exact h.push hf hcond.1 fresh_newTimer hsw hdr
  | parkOnTimer i delay ok =>
    obtain ⟨f, hf, hs'⟩ := bind_eq_some_iff.mp hs'
    split at hs'
    case isFalse => cases hs'
    rename_i hcond
    split at hs' <;> cases hs'
    · exact h
    · exact h.parkOnTimerAt hf hcond.1 hcond.2
  | parkOnTimerAt i deadline ok =>
    obtain ⟨f, hf, hs'⟩ := bind_eq_some_iff.mp hs'
    split at hs' <;> cases hs'
    rename_i hcond
    exact h.parkOnTimerAt hf hcond.1 hcond.2
  | cancelParkTimer i =>
    obtain ⟨f, hf, hs'⟩ := bind_eq_some_iff.mp hs'
    split at hs'
    case isFalse => cases hs'
    rename_i hidle
    split at hs' <;> cases hs'
    · rename_i t hslot
      have hholds (u : ℕ) : Fiber.holds ⟨.cas t true, none⟩ u = f.holds u := by
        simp [Pc.holds, hidle, hslot]
      refine h.put hf (.inl (by rw [hidle]; rintro ⟨⟩)) hholds (fun _ _ => rfl) fun u hu => ?_
      simp [Fiber.usesHandle] at hu
    · exact h
  | timerCancel i t =>
    obtain ⟨f, hf, hs'⟩ := bind_eq_some_iff.mp hs'
    split at hs' <;> cases hs'
    rename_i hcond
    obtain ⟨hidle, ht, hhandle⟩ := hcond
    have hholds (u : ℕ) : Fiber.holds { f with pc := .cas t false } u = f.holds u := by
      simp [Pc.holds, hidle]
    refine h.put hf (.inl (by rw [hidle]; rintro ⟨⟩)) hholds (by rintro _ ⟨⟩) fun u hu => ?_
    have hu : t = u := by simpa [Fiber.usesHandle] using hu
    rw [← hu]
    exact ⟨ht, hhandle⟩
  | timerRelease i t =>
    obtain ⟨f, hf, hs'⟩ := bind_eq_some_iff.mp hs'
    split at hs' <;> cases hs'
    rename_i hcond
    obtain ⟨-, ht, hhandle, hunused⟩ := hcond
    refine h.releaseHandle ht hhandle fun g hg => ?_
    have hg := all_eq_true.mp hunused g hg
    simpa using hg
  | fiber i onOwner =>
    obtain ⟨f, hf, hs'⟩ := bind_eq_some_iff.mp hs'
    exact h.fiberStep hf hs'
  | sweep ok =>
    obtain ⟨w, hw, hs'⟩ := bind_eq_some_iff.mp hs'
    exact h.sweepStep hw hs'
  | startDrain =>
    simp only [act] at hs'
    split at hs' <;> cases hs'
    rename_i hcond
    obtain ⟨hidle, hnone⟩ := hcond
    refine h.setDrain ?_ ?_ ?_ (by simp) ⟨by simp, fun _ => List.Pairwise.nil, by simp, by simp,
      by simp, fun hsome => ?_⟩
    iterate 3 (rw [hidle]; exact fun _ => rfl)
    rw [isNone_iff_eq_none.mp hnone] at hsome
    cases hsome
  | startPeek =>
    simp only [act] at hs'
    split at hs' <;> cases hs'
    rename_i hcond
    obtain ⟨hidle, hnone⟩ := hcond
    exact h.moveDrain (.peek s.now) hidle (isNone_iff_eq_none.mp hnone) (.inl rfl)
  | drain => exact h.drainStep hs'
  | tick now =>
    simp only [act] at hs'
    split at hs' <;> cases hs'
    exact h.setNow

theorem Ok.of_reachable (hs : system.Reachable s) : Ok s := by
  refine hs.invariant ?_ ?_
  · rintro s ⟨n, now, rfl⟩
    exact ok_create
  · intro s a s' h _ ht
    exact h.act ht

/-! ## A drain ends -/

/-- An upper bound on the steps that the loop still takes. -/
def State.stepsLeft (s : State) : ℕ :=
  8 * s.heap.size + match s.drain with
    | .idle | .claim _ => 0
    | .top _ | .peek _ => 1
    | .letGo _ _ => 2
    | .releaseSlot _ _ => 3
    | .wake _ _ _ => 4
    | .callback _ _ => 5
    | .popped _ _ => 6

theorem Ok.size_popRoot (h : Ok s) (hsw : s.sweep = none) (hsize : s.heap.size ≠ 0) :
    s.heap.popRoot.size + 1 = s.heap.size := by
  have hpop := (h.pop_spec hsw hsize).2.1
  omega

/-- Outside of a push the loop can always go on, and gets nearer to the end. -/
theorem Ok.exists_drainStep (h : Ok s) (hsw : s.sweep = none) (hbusy : s.drain ≠ .idle) :
    ∃ s', s.drainStep = some s' ∧ s'.sweep = none ∧
      (s'.drain = .idle ∨ s'.stepsLeft < s.stepsLeft) := by
  unfold State.drainStep
  cases hdr : s.drain with
  | idle => exact absurd hdr hbusy
  | top now =>
    dsimp only
    split
    · exact ⟨_, rfl, hsw, .inl rfl⟩
    · rename_i hsize
      have hpop := h.size_popRoot hsw hsize
      split
      · refine ⟨_, rfl, hsw, .inr ?_⟩
        unfold stepsLeft
        dsimp only [release, State.modify, pop]
        omega
      · split
        · exact ⟨_, rfl, hsw, .inl rfl⟩
        · refine ⟨_, rfl, hsw, .inr ?_⟩
          unfold stepsLeft
          rw [hdr]
          exact Nat.lt_succ_self _
  | claim now =>
    have hsize : s.heap.size ≠ 0 := Nat.ne_of_gt (h.order.claim now hdr).1
    have hpop := h.size_popRoot hsw hsize
    dsimp only
    split
    · refine ⟨_, rfl, hsw, .inr ?_⟩
      unfold stepsLeft
      dsimp only [State.modify, pop]
      omega
    · refine ⟨_, rfl, hsw, .inr ?_⟩
      unfold stepsLeft
      dsimp only [release, State.modify, pop]
      omega
  | popped now t =>
    dsimp only
    split <;> refine ⟨_, rfl, hsw, .inr ?_⟩ <;> unfold stepsLeft <;> rw [hdr] <;>
      dsimp only [State.modify] <;> omega
  | callback now t =>
    dsimp only
    rw [if_pos (by rw [hsw]; rfl)]
    split <;> refine ⟨_, rfl, hsw, .inr ?_⟩ <;> unfold stepsLeft <;> rw [hdr] <;>
      dsimp only <;> omega
  | wake now t w =>
    dsimp only
    split
    · split <;> refine ⟨_, rfl, hsw, .inr ?_⟩ <;> unfold stepsLeft <;> rw [hdr] <;>
        dsimp only [State.put] <;> omega
    · refine ⟨_, rfl, hsw, .inr ?_⟩
      unfold stepsLeft
      rw [hdr]
      dsimp only
      omega
  | releaseSlot now t | letGo now t =>
    refine ⟨_, rfl, hsw, .inr ?_⟩
    unfold stepsLeft
    rw [hdr]
    dsimp only [release, State.modify]
    omega
  | peek now =>
    dsimp only
    split
    · exact ⟨_, rfl, hsw, .inl rfl⟩
    · rename_i hsize
      have hpop := h.size_popRoot hsw hsize
      split
      · refine ⟨_, rfl, hsw, .inr ?_⟩
        unfold stepsLeft
        dsimp only [release, State.modify, pop]
        omega
      · exact ⟨_, rfl, hsw, .inl rfl⟩

theorem exists_drained_of_sweep_none {s : State} (h : Ok s) (hsw : s.sweep = none) :
    ∃ acts, ∃ s' ∈ system.run s acts, s'.drain = .idle := by
  by_cases hidle : s.drain = .idle
  · exact ⟨[], s, rfl, hidle⟩
  · obtain ⟨s₁, ht, hsweep₁, hprogress⟩ := h.exists_drainStep hsw hidle
    have h₁ : Ok s₁ := h.drainStep ht
    rcases hprogress with hdone | hless
    · refine ⟨[.drain], s₁, ?_, hdone⟩
      exact bind_eq_some_iff.mpr ⟨s₁, ht, rfl⟩
    · obtain ⟨acts, s₂, hrun, hdone⟩ := exists_drained_of_sweep_none h₁ hsweep₁
      refine ⟨.drain :: acts, s₂, ?_, hdone⟩
      exact bind_eq_some_iff.mpr ⟨s₁, ht, hrun⟩
termination_by s.stepsLeft

theorem sweep_growAndInsert (h : s.sweep = none) : (s.growAndInsert i f r ok).sweep = none := by
  unfold growAndInsert
  split
  · split
    · exact h
    · exact h
  · exact h

/-- A push that sweeps the heap can go on to its end. -/
theorem exists_swept {s : State} {w : Sweep} (h : Ok s) (hw : s.sweep = some w) :
    ∃ acts, ∃ s' ∈ system.run s acts, Ok s' ∧ s'.sweep = none := by
  obtain ⟨hcomp, f, hf, -, -⟩ := h.sweep w hw
  have hgo {s₁ : State} (ht : s.sweepStep w true = some s₁) :
      system.step s (.sweep true) = some s₁ :=
    bind_eq_some_iff.mpr ⟨w, hw, ht⟩
  by_cases hlt : w.next < s.heap.size
  · have hnext : ∃ s₁ w₁, s.sweepStep w true = some s₁ ∧ s₁.sweep = some w₁ ∧
        w₁.next = w.next + 1 ∧ s₁.heap.size = s.heap.size := by
      unfold sweepStep
      rw [if_pos hlt]
      dsimp only
      split
      · exact ⟨_, _, rfl, rfl, rfl, rfl⟩
      · exact ⟨_, _, rfl, rfl, rfl, rfl⟩
    obtain ⟨s₁, w₁, ht, hw₁, hnext, hsize⟩ := hnext
    obtain ⟨acts, s₂, hrun, hdone⟩ := exists_swept (h.sweepStep hw ht) hw₁
    refine ⟨.sweep true :: acts, s₂, ?_, hdone⟩
    exact bind_eq_some_iff.mpr ⟨s₁, hgo ht, hrun⟩
  · have hlast : ∃ s₁, s.sweepStep w true = some s₁ ∧ s₁.sweep = none := by
      unfold sweepStep
      rw [if_neg hlt, hf]
      exact ⟨_, rfl, sweep_growAndInsert rfl⟩
    obtain ⟨s₁, ht, hnone⟩ := hlast
    refine ⟨[.sweep true], s₁, ?_, h.sweepStep hw ht, hnone⟩
    exact bind_eq_some_iff.mpr ⟨s₁, hgo ht, rfl⟩
termination_by s.heap.size - w.next

theorem exists_drained (h : Ok s) : ∃ acts, ∃ s' ∈ system.run s acts, s'.drain = .idle := by
  cases hsw : s.sweep with
  | none => exact exists_drained_of_sweep_none h hsw
  | some w =>
    obtain ⟨acts, s₁, hrun, h₁, hsweep₁⟩ := exists_swept h hsw
    obtain ⟨acts', s₂, hrun', hdone⟩ := exists_drained_of_sweep_none h₁ hsweep₁
    refine ⟨acts ++ acts', s₂, ?_, hdone⟩
    rw [mem_def, System.run_append]
    exact bind_eq_some_iff.mpr ⟨s₁, hrun, hrun'⟩

/-! ## What fires -/

/-- A step beside the drain: the clock, the drain and what has fired stay as they are. -/
def Beside (s s' : State) : Prop := s'.now = s.now ∧ s'.drain = s.drain ∧ s'.fires = s.fires

theorem beside_growAndInsert : Beside s (s.growAndInsert i f r ok) := by
  unfold growAndInsert
  split
  · split <;> exact ⟨rfl, rfl, rfl⟩
  · exact ⟨rfl, rfl, rfl⟩

theorem beside_push : Beside s (s.push i f r ok) := by
  unfold push
  split
  · split
    · exact ⟨rfl, rfl, rfl⟩
    · exact beside_growAndInsert
  · exact ⟨rfl, rfl, rfl⟩

theorem beside_parkOnTimerAt : Beside s (s.parkOnTimerAt i f deadline ok) := by
  unfold parkOnTimerAt
  split
  · exact ⟨rfl, rfl, rfl⟩
  · exact beside_push

theorem beside_sweepStep {w : Sweep} (hs' : s.sweepStep w ok = some s') : Beside s s' := by
  unfold sweepStep at hs'
  split at hs'
  · dsimp only at hs'
    split at hs' <;> cases hs' <;> exact ⟨rfl, rfl, rfl⟩
  · obtain ⟨f, -, rfl⟩ := map_eq_some_iff.mp hs'
    exact beside_growAndInsert

/-- A fiber's step is beside the drain, and leaves the deadlines and the pushes as they are. -/
theorem fiberStep_frame {onOwner : Bool} (hs' : s.fiberStep i onOwner f = some s') :
    Beside s s' ∧ s'.created = s.created ∧ s'.sweep = s.sweep ∧
      ∀ t, (s'.timer t).deadline = (s.timer t).deadline := by
  unfold fiberStep at hs'
  repeat' split at hs'
  all_goals
    cases hs'
    try
      refine ⟨⟨rfl, rfl, rfl⟩, rfl, rfl, fun u => ?_⟩
      first
        | rfl
        | refine update_same Timer.deadline ?_ u
          rfl

/-- The timed calls, a fiber's steps and a sweep's are beside the drain. -/
theorem act_beside (hs' : s.act a = some s') : match a with
    | .startDrain | .startPeek | .drain | .tick _ => True
    | _ => Beside s s' := by
  cases a with
  | startDrain | startPeek | drain | tick => trivial
  | timerSet i delay handle ok | parkOnTimer i delay ok =>
    obtain ⟨f, -, hs'⟩ := bind_eq_some_iff.mp hs'
    split at hs'
    · split at hs' <;> cases hs'
      · exact ⟨rfl, rfl, rfl⟩
      · first | exact beside_push | exact beside_parkOnTimerAt
    · cases hs'
  | parkOnTimerAt i deadline ok =>
    obtain ⟨f, -, hs'⟩ := bind_eq_some_iff.mp hs'
    split at hs' <;> cases hs'
    exact beside_parkOnTimerAt
  | cancelParkTimer i =>
    obtain ⟨f, -, hs'⟩ := bind_eq_some_iff.mp hs'
    split at hs'
    · split at hs' <;> cases hs' <;> exact ⟨rfl, rfl, rfl⟩
    · cases hs'
  | timerCancel i t | timerRelease i t =>
    obtain ⟨f, -, hs'⟩ := bind_eq_some_iff.mp hs'
    split at hs' <;> cases hs'
    exact ⟨rfl, rfl, rfl⟩
  | fiber i onOwner =>
    obtain ⟨f, -, hs'⟩ := bind_eq_some_iff.mp hs'
    exact (fiberStep_frame hs').1
  | sweep ok =>
    obtain ⟨w, -, hs'⟩ := bind_eq_some_iff.mp hs'
    exact beside_sweepStep hs'

/-- What a step of the drain leaves alone, and when a timer fires: when the drain has claimed and
popped it. -/
structure Drained (s s' : State) : Prop where
  now : s'.now = s.now
  created : s'.created = s.created
  sweep : s'.sweep = s.sweep
  deadline : ∀ t, (s'.timer t).deadline = (s.timer t).deadline
  peek : ∀ now, s'.drain = .peek now → s.drain = .peek now
  fires : s'.fires = s.fires ∨ ∃ now t, s.drain = .popped now t ∧ s'.fires = s.fires ++ [t] ∧
    s'.drained = s.drained ++ [(s.timer t).deadline]

theorem Drained.of_drainStep (hs' : s.drainStep = some s') : Drained s s' := by
  unfold drainStep at hs'
  repeat' split at hs'
  all_goals
    cases hs'
    try
      refine ⟨rfl, rfl, rfl, fun u => ?_, ?_, ?_⟩
      · first
          | rfl
          | refine update_same Timer.deadline ?_ u
            rfl
      · first
          | exact fun _ => id
          | rintro _ ⟨⟩
      · first
          | exact .inl rfl
          | exact .inr ⟨_, _, ‹_›, rfl, rfl⟩

theorem act_fires (hs' : s.act a = some s') (hfires : s'.fires ≠ s.fires) :
    s.drainStep = some s' := by
  cases a with
  | drain => exact hs'
  | startDrain | startPeek | tick now =>
    simp only [act] at hs'
    split at hs' <;> cases hs'
    exact absurd rfl hfires
  | _ => exact absurd (act_beside hs').2.2 hfires

/-- When the drain ends, everything left in the heap is later than its instant. -/
theorem Ok.later_of_drain_end (h : Ok s) (hdr : s.drain = .top now)
    (hs' : s.drainStep = some s') (hend : s'.drain = .idle) {d : ℤ}
    (hd : s'.heap.find t = some d) : now < d := by
  have hsw : s.sweep = none := h.sweep_eq_none hdr nofun nofun
  unfold State.drainStep at hs'
  simp only [hdr] at hs'
  split at hs'
  · cases hs'
    obtain ⟨j, hj, -⟩ := map_eq_some_iff.mp hd
    have hlt := ((h.valid hsw).item_index t j hj).1
    omega
  · rename_i hsize
    split at hs'
    · cases hs'
      have hend : s.drain = .idle := hend
      rw [hdr] at hend
      cases hend
    · split at hs' <;> cases hs'
      · rename_i hlater
        exact Int.lt_of_lt_of_le hlater ((h.root hsw hsize).2 t d hd)
      · cases hend

theorem mem_iff_of_count {l : List ℕ} {p : Prop} [Decidable p]
    (h : l.count t = if p then 1 else 0) : t ∈ l ↔ p := by
  rw [← count_pos_iff, h]
  split <;> simp [*]

/-- A timer that has left the heap, and that the drain is not about to fire, has fired or was
cancelled. -/
theorem Ok.fired_or_cancelled (h : Ok s) (ht : t < s.created) (hgone : s.heap.find t = none) :
    t ∈ s.fires ∨ t ∈ s.cancels ∨ ∃ now, s.drain = .popped now t := by
  have hview := h.views t ht
  cases hfired : (s.timer t).fired with
  | pending =>
    have hqueue : (s.heap.find t).isSome = true := hview.pending hfired
    rw [hgone] at hqueue
    cases hqueue
  | cancelled => exact .inr (.inl ((mem_iff_of_count hview.cancels).mpr hfired))
  | fired =>
    cases hpop : s.drain.isPopped t with
    | false => exact .inl ((mem_iff_of_count hview.fires).mpr ⟨hfired, hpop⟩)
    | true =>
      refine .inr (.inr ?_)
      cases hdr : s.drain with
      | popped now u =>
        rw [hdr] at hpop
        have hu : u = t := of_decide_eq_true hpop
        exact ⟨now, by rw [hu]⟩
      | _ =>
        rw [hdr] at hpop
        cases hpop

/-- What happens at most once to each timer happens at most once. -/
theorem nodup_of_count_le {l : List ℕ} (hl : ∀ t ∈ l, t < n)
    (hcnt : ∀ t, t < n → l.count t ≤ 1) : l.Nodup := by
  refine nodup_iff_count_le_one.mpr fun t => ?_
  by_cases ht : t ∈ l
  · exact hcnt t (hl t ht)
  · rw [count_eq_zero.mpr ht]
    exact Nat.zero_le _

theorem ite_le_one {p : Prop} [Decidable p] : (if p then 1 else 0) ≤ 1 := by
  split <;> decide

/-- In every run, with any number of fibers, on the loop's thread and on others:

* outside of a sweep the array is a min-heap by deadline, and every timer's position is the one
  stored, or none; the timers in it are those pushed and neither popped nor removed;
* no timer fires twice, is cancelled twice, or does both, and one that has left the heap has done
  one of them or is the one about to fire;
* the reference count of a timer is the number of its owners, and it is freed once, exactly when
  that is zero;
* the fires of one drain are in the order of the deadlines, unless a callback armed a timer for an
  instant before the drain's; only due timers that are not cancelled fire, in a drain, and at the
  end of a drain every timer due at its instant has fired or was cancelled; and a drain can always
  end. -/
theorem timers_fire_once_in_order {s : State} (hs : system.Reachable s) :
    (s.sweep = none → s.heap.Valid) ∧
    (∀ t d, s.heap.find t = some d → d = (s.timer t).deadline) ∧
    (∀ t, (s.heap.find t).isSome = true ↔ t ∈ s.pushed ∧ t ∉ s.left) ∧
    s.pushed.Nodup ∧ s.left.Nodup ∧
    s.fires.Nodup ∧ s.cancels.Nodup ∧ (∀ t ∈ s.fires, t ∉ s.cancels) ∧
    (∀ t ∈ s.left, t ∈ s.fires ∨ t ∈ s.cancels ∨ ∃ now, s.drain = .popped now t) ∧
    (∀ t ∈ s.pushed, (s.timer t).refs =
      (s.heap.find t).isSome.toNat + (s.drain.inHand t).toNat + (s.held t).toNat) ∧
    s.freed.Nodup ∧ (∀ t ∈ s.pushed, t ∈ s.freed ↔ (s.timer t).refs = 0) ∧
    (s.armedEarly = false → s.drained.Pairwise (· ≤ ·)) ∧
    (∀ a, ∀ s' ∈ system.step s a, s'.fires ≠ s.fires → ∃ now t, s.drain = .popped now t ∧
      s'.fires = s.fires ++ [t] ∧ s'.drained = s.drained ++ [(s.timer t).deadline] ∧
      (s.timer t).deadline ≤ now ∧ t ∉ s.cancels) ∧
    (∀ now, s.drain = .top now → ∀ s' ∈ system.step s .drain, s'.drain = .idle →
      ∀ t ∈ s'.pushed, (s'.timer t).deadline ≤ now → t ∈ s'.fires ∨ t ∈ s'.cancels) ∧
    ∃ acts, ∃ s' ∈ system.run s acts, s'.drain = .idle := by
  have h := Ok.of_reachable hs
  have hpushed (t : ℕ) : t ∈ s.pushed ↔ t < s.created := by
    rw [h.pushed]
    exact mem_range
  have hleft (t : ℕ) (ht : t < s.created) : t ∈ s.left ↔ s.heap.find t = none := by
    rw [← count_pos_iff, show s.left.count t = _ from (h.views t ht).left]
    cases hfind : s.heap.find t <;> simp [view, hfind]
  have hcancelled (t : ℕ) (ht : t < s.created) : t ∈ s.cancels ↔ (s.timer t).fired = .cancelled :=
    mem_iff_of_count (h.views t ht).cancels
  have hfired (t : ℕ) (ht : t < s.created) (hfires : t ∈ s.fires) : (s.timer t).fired = .fired :=
    ((mem_iff_of_count (h.views t ht).fires).mp hfires).1
  refine ⟨h.valid, fun t d hd => (h.key t d hd).2, fun t => ?_, ?_, ?_, ?_, ?_,
    fun t hfires hcancels => ?_, fun t ht => ?_, fun t ht => (h.views t ((hpushed t).mp ht)).refs,
    ?_, fun t ht => ?_, h.order.sorted, fun a s' hstep hfires => ?_,
    fun now hdrain s' hstep hend t ht hdue => ?_, exists_drained h⟩
  · rw [hpushed]
    constructor
    · intro hqueued
      obtain ⟨d, hd⟩ := isSome_iff_exists.mp hqueued
      have ht := (h.key t d hd).1
      refine ⟨ht, fun hmem => ?_⟩
      cases ((hleft t ht).mp hmem).symm.trans hd
    · rintro ⟨ht, hnot⟩
      rw [hleft t ht] at hnot
      exact isSome_iff_ne_none.mpr hnot
  · rw [h.pushed]
    exact nodup_range
  · refine nodup_of_count_le (fun t ht => h.old t (.inl ht)) fun t ht => ?_
    exact le_of_eq_of_le (h.views t ht).left (Bool.toNat_le _)
  · refine nodup_of_count_le (fun t ht => h.old t (.inr (.inl ht))) fun t ht => ?_
    exact le_of_eq_of_le (h.views t ht).fires ite_le_one
  · refine nodup_of_count_le (fun t ht => h.old t (.inr (.inr (.inl ht)))) fun t ht => ?_
    exact le_of_eq_of_le (h.views t ht).cancels ite_le_one
  · have ht := h.old t (.inr (.inl hfires))
    cases (hfired t ht hfires).symm.trans ((hcancelled t ht).mp hcancels)
  · have hlt := h.old t (.inl ht)
    exact h.fired_or_cancelled hlt ((hleft t hlt).mp ht)
  · refine nodup_of_count_le (fun t ht => h.old t (.inr (.inr (.inr ht)))) fun t ht => ?_
    exact le_of_eq_of_le (h.views t ht).freed ite_le_one
  · exact mem_iff_of_count (h.views t ((hpushed t).mp ht)).freed
  · obtain ⟨now, t, hdrain, hnew, hdrained⟩ :=
      (Drained.of_drainStep (act_fires hstep hfires)).fires.resolve_left hfires
    have hpopped : s.drain.isPopped t = true := by
      rw [hdrain]
      exact decide_eq_true rfl
    have hhand := Drain.inHand_of_isPopped hpopped
    have ht := h.drain.known t hhand
    refine ⟨now, t, hdrain, hnew, hdrained, (h.order.popped now t hdrain).1, fun hmem => ?_⟩
    cases ((h.views t ht).inHand hhand).symm.trans ((hcancelled t ht).mp hmem)
  · have hstep : s.act .drain = some s' := hstep
    have h' := h.act hstep
    have ht : t < s'.created := by
      rw [h'.pushed] at ht
      exact mem_range.mp ht
    have hgone : s'.heap.find t = none := by
      cases hfind : s'.heap.find t with
      | none => rfl
      | some d =>
        have hlater := h.later_of_drain_end hdrain hstep hend hfind
        have hd := (h'.key t d hfind).2
        omega
    rcases h'.fired_or_cancelled ht hgone with hfires | hcancels | ⟨now', hpopped⟩
    · exact .inl hfires
    · exact .inr hcancels
    · rw [hend] at hpopped
      cases hpopped

/-- Three timers; while the drain fires the first two, a fiber on another thread cancels the third
through its handle, and releases it afterwards. -/
def cancelledInDrain : List Act :=
  [.timerSet 0 5 true true, .parkOnTimer 1 3 true, .fiber 1 true, .timerSet 1 4 false true,
    .timerCancel 0 0, .tick 10, .startDrain, .drain, .drain, .fiber 0 false, .drain,
    .fiber 0 false] ++
  replicate 11 .drain ++ [.fiber 0 false, .timerRelease 0 0]

theorem timers_fire_once_in_order_cancelledInDrain :
    ∃ s ∈ system.run (.create 2 0) cancelledInDrain,
      s.fires = [1, 2] ∧ s.cancels = [0] ∧ s.freed = [1, 2, 0] ∧
      s.fires.Nodup ∧ s.drained.Pairwise (· ≤ ·) := by
  refine System.exists_run ⟨2, 0, rfl⟩ (by decide +kernel) fun s eval hs _ => ?_
  obtain ⟨-, -, -, -, -, hnodup, -, -, -, -, -, -, hsorted, -⟩ := timers_fire_once_in_order hs
  refine ⟨?_, ?_, hnodup, hsorted ?_⟩ <;> (apply eval; decide +kernel)

end LibXtc.Timers

import LibXtc.Evt.LaneTasks
import LibXtc.Foundations.Aging

/-!
# No lane is passed over for long

Under a policy the loop overrides the choice of the callback for the lane that has been passed over
longest, once that is `max_bypass` times. The counters of the code are the numbers of times that the
lanes have really been passed over, and they are `Staggered` for every choice of the callback.
-/

namespace LibXtc.Lanes

open Foundations State

variable {s s' : State} {t : Task} {lane l : Lane} {maxBypass : ℕ} {choice : Option Lane}

/-- The lane that is forced is ready, and no ready lane has been passed over more often. -/
theorem forced_eq_some (h : s.forced maxBypass = some lane) :
    s.ready lane = true ∧
      ∀ l, s.ready l = true → maxBypass ≤ s.bypasses l → s.bypasses l ≤ s.bypasses lane := by
  obtain ⟨hq, hmax⟩ := scan_eq_some (f := fun x => OrderDual.toDual (s.bypasses x))
    (fun _ _ => rfl) h
  refine ⟨(Bool.and_eq_true_iff.mp hq).1, fun l hl hage => ?_⟩
  exact hmax l (mem_lanes_of_ready hl) (by simp [hl, hage])

theorem forced_eq_none (h : s.forced maxBypass = none) (hl : s.ready l = true) :
    s.bypasses l < maxBypass := by
  have hq := scan_eq_none h (mem_lanes_of_ready hl)
  simpa [hl] using hq

/-- Whatever the callback answers, a lane is served; one that has been passed over too often, if
there is any, and then the one that waits longest. -/
theorem Took.of_policyPop (h : s.policyPop maxBypass choice = some (t, lane, s')) :
    Took s t lane s' ∧
      ∀ l, s.ready l = true → maxBypass ≤ s.bypasses l → s.bypasses l ≤ s.bypasses lane := by
  unfold policyPop select at h
  cases hforced : s.forced maxBypass with
  | some f =>
    obtain ⟨hready, hmax⟩ := forced_eq_some hforced
    obtain ⟨r, hr⟩ := Option.isSome_iff_exists.mp (popLane_isSome hready)
    rw [hforced, Option.bind_some, hr] at h
    cases h
    obtain ⟨rfl, htook⟩ := Took.of_popLane hr
    exact ⟨htook, hmax⟩
  | none =>
    have hyoung : ∀ l, s.ready l = true → maxBypass ≤ s.bypasses l →
        s.bypasses l ≤ s.bypasses lane := by
      intro l hl hage
      have hlt := forced_eq_none hforced hl
      omega
    split at h
    · rename_i r hr
      cases h
      obtain ⟨b, -, hpop⟩ := Option.bind_eq_some_iff.mp hr
      obtain ⟨rfl, htook⟩ := Took.of_popLane hpop
      exact ⟨htook, hyoung⟩
    · exact ⟨(Took.of_queuePop h).1, hyoung⟩

/-- What holds under a policy. -/
structure Fair (maxBypass : ℕ) (s : State) : Prop where
  range : 0 < maxBypass ∧ maxBypass < 2 ^ 32
  policy : s.maxBypass = some maxBypass
  classes : s.classes.length ≤ maxClasses
  tagged : Tagged s
  counted : ∀ l, s.bypasses l = s.bypassed l
  idle : ∀ l, s.ready l = false → s.bypassed l = 0
  staggered : Staggered maxBypass s.lanes.toFinset s.bypassed

section

variable (h : Fair maxBypass s)
include h

/-- Only lanes that have nothing to count are reset. -/
theorem Fair.resetIdle_bypasses (l : Lane) : s.resetIdle.bypasses l = s.bypassed l := by
  unfold resetIdle
  dsimp only
  split
  · rename_i hidle
    exact (h.idle l hidle.2).symm
  · exact h.counted l

theorem Fair.resetIdle : Fair maxBypass s.resetIdle :=
  { h with counted := h.resetIdle_bypasses }

/-- A step that counts nothing and creates no class, and after which no lane has become idle. -/
theorem Fair.keep (hpolicy : s'.maxBypass = s.maxBypass)
    (hlength : s'.classes.length = s.classes.length) (htagged : Tagged s')
    (hbypasses : s'.bypasses = s.bypasses) (hbypassed : s'.bypassed = s.bypassed)
    (hready : ∀ l, s.ready l = true → s'.ready l = true) : Fair maxBypass s' := by
  refine ⟨h.range, hpolicy.trans h.policy, hlength.trans_le h.classes, htagged, ?_, ?_, ?_⟩
  · rw [hbypasses, hbypassed]
    exact h.counted
  · intro l hl
    rw [hbypassed]
    refine h.idle l ?_
    by_contra hwaits
    rw [hready l (by simpa using hwaits)] at hl
    cases hl
  · rw [lanes_congr hlength, hbypassed]
    exact h.staggered

theorem Fair.put (hput : Put s t s') : Fair maxBypass s' :=
  h.keep hput.maxBypass hput.length (hput.tagged h.tagged) hput.bypasses hput.bypassed
    fun _ => hput.ready

theorem Fair.accrued {cost : ℕ} (haccr : Accrued s t cost s') : Fair maxBypass s' := by
  refine h.keep haccr.maxBypass haccr.length (fun l u hu => ?_) haccr.bypasses haccr.bypassed
    fun l hl => (ready_congr (haccr.tasks l)).trans hl
  rw [haccr.tasks] at hu
  rw [laneOf_congr haccr.length]
  exact h.tagged l u hu

theorem Fair.finish {elapsed : ℕ} {resched : Option Bool}
    (hs' : s.finish elapsed resched = some s') : Fair maxBypass s' := by
  unfold State.finish at hs'
  split at hs'
  · cases hs'
  · rename_i t lane _
    have haccr := h.accrued (accrued_accrue s t (costOf elapsed))
    have hdone : Fair maxBypass { s.accrue t (costOf elapsed) with
        running := none, log := s.log ++ [(lane, costOf elapsed)] } :=
      { haccr with }
    cases hs'
    cases resched with
    | none =>
      dsimp only
      split
      · exact hdone.resetIdle
      · exact hdone
    | some pushed =>
      dsimp only
      have hput := hdone.put (put_enqueue _ t pushed)
      split
      · exact hput.resetIdle
      · exact hput

end

/-- A class is created only while no task of the default lane has its number as a tag. -/
def State.fresh (s : State) : Act → Bool
  | .classCreate shares =>
    !s.creates shares || (s.tasks none).all fun t => t.schedClass ≠ some s.classes.length
  | _ => true

section

variable (h : Fair maxBypass s)
include h

theorem Fair.classCreate {shares : ℕ} (hfresh : s.fresh (.classCreate shares) = true) :
    Fair maxBypass (s.classCreate shares) := by
  rcases classCreate_cases s shares with ⟨-, hsame⟩ | ⟨hcreates, hcreated⟩
  · rw [hsame]
    exact h
  · have hfresh : ∀ u ∈ s.tasks none, u.schedClass ≠ some s.classes.length := by
      unfold fresh at hfresh
      simpa [hcreates] using hfresh
    refine ⟨h.range, hcreated.maxBypass.trans h.policy, hcreated.le, ?_, ?_, ?_, ?_⟩
    · intro l u hu
      rw [hcreated.tasks] at hu
      have hlane := h.tagged l u hu
      cases l with
      | none =>
        rw [laneOf_eq_none_iff] at hlane ⊢
        intro c hc
        have hge := hlane c hc
        have hne : c ≠ s.classes.length := fun heq => hfresh u hu (heq ▸ hc)
        rw [hcreated.length]
        omega
      | some c =>
        rw [laneOf_eq_some_iff] at hlane ⊢
        rw [hcreated.length]
        exact ⟨hlane.1, Nat.lt_succ_of_lt hlane.2⟩
    · rw [hcreated.bypasses, hcreated.bypassed]
      exact h.counted
    · intro l hl
      rw [ready_congr (hcreated.tasks l)] at hl
      rw [hcreated.bypassed]
      exact h.idle l hl
    · rw [hcreated.bypassed]
      refine h.staggered.extend ?_ ?_
      · intro l hl
        rw [List.mem_toFinset, mem_lanes] at hl ⊢
        intro c hc
        have hlt := hl c hc
        rw [hcreated.length]
        omega
      · intro l _ hl
        rw [List.mem_toFinset] at hl
        have hidle : s.ready l = false := by
          by_contra hr
          exact hl (mem_lanes_of_ready (by simpa using hr))
        rw [h.idle l hidle]
        exact h.range.1

/-- A lane is passed over at most `max_bypass` times and once for each lane but one. -/
theorem Fair.bypassed_le (l : Lane) : s.bypassed l ≤ maxBypass + s.classes.length := by
  by_cases hl : s.ready l = true
  · have hlt := h.staggered.age_lt (List.mem_toFinset.mpr (mem_lanes_of_ready hl))
    have hcard := card_lanes (s := s)
    omega
  · rw [h.idle l (by simpa using hl)]
    exact Nat.zero_le _

/-- The counters do not saturate. -/
theorem Fair.bypassed_lt (l : Lane) : s.bypassed l < uint64Max := by
  have hle := h.bypassed_le l
  have hclasses := h.classes
  have hrange := h.range
  unfold maxClasses at hclasses
  unfold uint64Max
  omega

theorem Fair.pop (hs' : s.pop choice = some s') : Fair maxBypass s' := by
  unfold State.pop at hs'
  rw [h.policy] at hs'
  split at hs'
  · cases hs'
  · rename_i hnone
    cases hnone
  · rename_i m hm
    cases hm
    split at hs'
    · cases hs'
      exact h.resetIdle
    · rename_i t lane s₁ hpop
      cases hs'
      obtain ⟨htook, hmax⟩ := Took.of_policyPop hpop
      -- the lane that the code recomputes from the tag is the one that was popped
      have hlane : s₁.laneOf t = lane := by
        rw [laneOf_congr htook.length]
        exact h.tagged lane t htook.mem
      have hcnt : s₁.bypasses = s.bypassed := by
        rw [htook.bypasses]
        exact funext h.resetIdle_bypasses
      have hready : s.ready lane = true := htook.ready
      have hbypassed : s₁.bypassed = s.bypassed := htook.bypassed
      have hlanes : s₁.lanes = s.lanes := lanes_congr htook.length
      have hother : ∀ l, l ≠ lane → s₁.ready l = s.ready l := fun l hl => htook.ready_other hl
      refine ⟨h.range, htook.maxBypass.trans h.policy, ?_, htook.tagged h.tagged, ?_, ?_, ?_⟩
      · exact htook.length.trans_le h.classes
      · intro l
        have hlt : s.bypassed l < uint64Max := h.bypassed_lt l
        unfold start service
        dsimp only
        rw [hlane, hcnt, hbypassed, hlanes]
        by_cases hl : l = lane
        · subst hl
          rw [if_pos (mem_lanes_of_ready hready), if_pos (.inl rfl), if_pos rfl]
        · rw [hother l hl, if_neg hl]
          cases hwaits : s.ready l with
          | false =>
            rw [h.idle l hwaits]
            simp
          | true =>
            rw [if_pos (mem_lanes_of_ready hwaits), if_neg (by simp [hl]), if_neg hlt.ne,
              if_pos rfl]
      · intro l hl
        change (if l = lane then 0 else if s.ready l then s₁.bypassed l + 1 else 0) = 0
        by_cases heq : l = lane
        · rw [if_pos heq]
        · have hidle : s.ready l = false := (hother l heq).symm.trans hl
          rw [if_neg heq, hidle]
          rfl
      · change Staggered maxBypass s₁.lanes.toFinset _
        rw [hlanes]
        refine h.staggered.serve ?_ h.range.1 (if_pos rfl) ?_ ?_
        · exact List.mem_toFinset.mpr (mem_lanes_of_ready hready)
        · intro l _ hl
          change (if l = lane then 0 else if s.ready l then s₁.bypassed l + 1 else 0) ≤ _
          rw [if_neg hl, hbypassed]
          split
          · exact Nat.le_refl _
          · exact Nat.zero_le _
        · intro l _ hage
          have hwaits : s.ready l = true := by
            by_contra hidle
            rw [h.idle l (by simpa using hidle)] at hage
            have hpos := h.range.1
            omega
          have holdest := hmax l hwaits
          rw [h.resetIdle_bypasses, h.resetIdle_bypasses] at holdest
          exact holdest hage

theorem Fair.act {a : Act} (hfresh : s.fresh a = true) (hs' : s.act a = some s') :
    Fair maxBypass s' := by
  cases a with
  | enqueue t pushed =>
    cases hs'
    exact h.put (put_enqueue s t pushed)
  | classCreate shares =>
    cases hs'
    exact h.classCreate hfresh
  | pop choice => exact h.pop hs'
  | setClass schedClass =>
    unfold State.act setClass at hs'
    dsimp only at hs'
    split at hs'
    · cases hs'
    · cases hs'
      exact { h with }
  | finish elapsed resched => exact h.finish hs'

end

/-- Whatever the callback of the policy answers, a lane that stays ready is passed over at most
`max_bypass + L - 1` times in a row, with `L` lanes: in every run in which no class is created while
a task of the default lane has its number as a tag. -/
theorem ready_lane_bypass_bound (hmax : 0 < maxBypass ∧ maxBypass < 2 ^ 32)
    (hs : (system (some maxBypass)).ReachableUnder (fun s a => s.fresh a = true) s) (l : Lane) :
    s.bypassed l ≤ maxBypass + s.lanes.length - 1 := by
  have h : Fair maxBypass s := by
    refine hs.invariant ?_ ?_
    · rintro s rfl
      refine ⟨hmax, rfl, Nat.zero_le _, ?_, fun l => rfl, fun l _ => rfl, ?_⟩
      · rintro (_ | c) u hu
        · cases hu
        · cases hu
      · exact staggered_of_lt fun l _ => hmax.1
    · intro s a s' h hfresh hs'
      exact h.act hfresh hs'
  have hle := h.bypassed_le l
  rw [length_lanes]
  omega

/-- Two classes, and a callback that always asks for the default lane. -/
theorem ready_lane_bypass_bound_adversary :
    ∃ s, (system (some 1)).ReachableUnder (fun s a => s.fresh a = true) s ∧
      s.bypassed (some 1) = 2 ∧ s.bypassed (some 1) ≤ 1 + s.lanes.length - 1 := by
  refine System.exists_reachable
    [.classCreate 100, .classCreate 200, .enqueue ⟨none⟩ true, .enqueue ⟨some 0⟩ true,
      .enqueue ⟨some 1⟩ false, .pop (some none), .finish 5 (some true), .pop (some none),
      .finish 5 (some true)] rfl (by decide) fun s hs _ => ?_
  exact ready_lane_bypass_bound (by decide) hs (some 1)

/-- Tasks with the tag `0` wait in the default lane of a loop that has no class yet: they come from
another loop. When the class is there, each of their runs counts as one of the class. -/
theorem alias_lane_bypassed : ∃ s ∈ (system (some 1)).run (create (some 1))
      [.enqueue ⟨some 0⟩ true, .enqueue ⟨some 0⟩ true, .enqueue ⟨some 0⟩ true, .classCreate 100,
        .enqueue ⟨some 0⟩ true, .pop (some none), .finish 5 none, .pop none, .finish 5 none,
        .pop none],
      s.lanes.length = 2 ∧ s.ready (some 0) = true ∧ s.bypassed (some 0) = 3 ∧
        ¬ s.bypassed (some 0) ≤ 1 + s.lanes.length - 1 := by
  decide

end LibXtc.Lanes

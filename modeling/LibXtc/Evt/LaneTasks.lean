import LibXtc.Evt.Lanes
import LibXtc.Foundations.Lists
import Mathlib.Data.Finset.Card

/-!
# What the operations on lanes change

Taking a task from a lane changes that lane and nothing else (`Took`). The lane that the code
recomputes from the tag of a task is the one from which it was taken as long as the tags fit the
queues (`Tagged`).
-/

namespace LibXtc.Lanes

open Foundations State List

variable {s s' : State} {t : Task} {lane l : Lane} {c cost : ℕ}

theorem mem_lanes : l ∈ s.lanes ↔ ∀ c, l = some c → c < s.classes.length := by
  unfold lanes
  cases l with
  | none | some c => simp

theorem length_lanes : s.lanes.length = s.classes.length + 1 := by
  simp [lanes]

theorem card_lanes : s.lanes.toFinset.card ≤ s.classes.length + 1 :=
  (toFinset_card_le _).trans_eq length_lanes

theorem ready_iff : s.ready l = true ↔ s.tasks l ≠ [] := by
  unfold ready
  simp

theorem mem_lanes_of_ready (h : s.ready l = true) : l ∈ s.lanes := by
  refine mem_lanes.mpr ?_
  rintro c rfl
  by_contra hc
  refine ready_iff.mp h ?_
  change (s.classes[c]?.map RunClass.queue).getD [] = []
  rw [getElem?_eq_none (Nat.le_of_not_lt hc)]
  rfl

/-- Where there are two lanes there is a class. -/
theorem classes_pos (hl : l ∈ s.lanes) (hlane : lane ∈ s.lanes) (hne : l ≠ lane) :
    0 < s.classes.length := by
  by_contra hzero
  have hdefault : ∀ l ∈ s.lanes, l = none := by
    rintro (_ | c) hc
    · rfl
    · exact absurd (mem_lanes.mp hc c rfl) (by omega)
  exact hne ((hdefault l hl).trans (hdefault lane hlane).symm)

theorem laneOf_eq_some_iff :
    s.laneOf t = some c ↔ t.schedClass = some c ∧ c < s.classes.length := by
  unfold laneOf
  rw [Option.filter_eq_some_iff, decide_eq_true_iff]

theorem laneOf_eq_none_iff :
    s.laneOf t = none ↔ ∀ c, t.schedClass = some c → s.classes.length ≤ c := by
  unfold laneOf
  simp

section

variable (h : s'.classes.length = s.classes.length)
include h

theorem lanes_congr : s'.lanes = s.lanes := by
  unfold lanes
  rw [h]

theorem laneOf_congr (u : Task) : s'.laneOf u = s.laneOf u := by
  unfold laneOf
  rw [h]

end

theorem ready_congr (h : s'.tasks l = s.tasks l) : s'.ready l = s.ready l := by
  unfold ready
  rw [h]

/-! ## One class changes -/

section

variable {rc rc' : RunClass}

section

variable (hrc : s.classes[c]? = some rc)
include hrc

theorem getElem?_set_class (j : ℕ) :
    (s.classes.set c rc')[j]? = if j = c then some rc' else s.classes[j]? := by
  by_cases hj : j = c
  · subst hj
    rw [if_pos rfl]
    exact getElem?_set_new hrc
  · rw [if_neg hj]
    exact getElem?_set_ne (Ne.symm hj)

theorem tasks_set_class (l : Lane) : tasks { s with classes := s.classes.set c rc' } l =
      if l = some c then rc'.queue else s.tasks l := by
  cases l with
  | none => rfl
  | some j =>
    unfold tasks
    dsimp only
    rw [getElem?_set_class hrc]
    by_cases hj : j = c <;> simp [hj]

theorem vruntime_set_class (l : Lane) : vruntime { s with classes := s.classes.set c rc' } l =
      if l = some c then rc'.vruntime else s.vruntime l := by
  cases l with
  | none => rfl
  | some j =>
    unfold vruntime
    dsimp only
    rw [getElem?_set_class hrc]
    by_cases hj : j = c <;> simp [hj]

theorem reciprocal_set_class (hsame : rc'.reciprocal = rc.reciprocal) (l : Lane) :
    reciprocal { s with classes := s.classes.set c rc' } l = s.reciprocal l := by
  cases l with
  | none => rfl
  | some j =>
    unfold reciprocal
    dsimp only
    rw [getElem?_set_class hrc]
    by_cases hj : j = c
    · subst hj
      simp [hrc, hsame]
    · simp [hj]

/-- A change that keeps the virtual time of the class keeps all. -/
theorem vruntime_set_queue (hsame : rc'.vruntime = rc.vruntime) (l : Lane) :
    vruntime { s with classes := s.classes.set c rc' } l = s.vruntime l := by
  rw [vruntime_set_class hrc]
  split
  · rename_i hl
    subst hl
    simp [vruntime, hrc, hsame]
  · rfl

end

end

/-- Every task waits in the lane that its tag gives. -/
def Tagged (s : State) : Prop := ∀ lane, ∀ t ∈ s.tasks lane, s.laneOf t = lane

/-- Task `t` has been taken from `lane`. -/
structure Took (s : State) (t : Task) (lane : Lane) (s' : State) : Prop where
  mem : t ∈ s.tasks lane
  length : s'.classes.length = s.classes.length
  others : ∀ l, l ≠ lane → s'.tasks l = s.tasks l
  subset : ∀ t' ∈ s'.tasks lane, t' ∈ s.tasks lane
  vruntime : ∀ l, s'.vruntime l = s.vruntime l
  reciprocal : ∀ l, s'.reciprocal l = s.reciprocal l
  maxBypass : s'.maxBypass = s.maxBypass
  bypasses : s'.bypasses = s.bypasses
  bypassed : s'.bypassed = s.bypassed
  log : s'.log = s.log

theorem Took.of_defaultPop (h : s.defaultPop = some (t, s')) : Took s t none s' := by
  have htook : ∀ fifo deque flip, t ∈ s.fifo ++ s.deque → fifo.Sublist s.fifo →
      deque.Sublist s.deque → Took s t none { s with
        fifo := fifo, deque := deque, popFlip := flip } := by
    intro fifo deque flip hmem hfifo hdeque
    refine ⟨hmem, rfl, ?_, fun t' ht' => (hfifo.append hdeque).subset ht', fun l => rfl,
      fun l => rfl, rfl, rfl, rfl, rfl⟩
    rintro (_ | c) hl
    · exact absurd rfl hl
    · rfl
  unfold defaultPop at h
  split at h
  · cases h
  · rename_i hfifo hdeque
    cases h
    refine htook s.fifo _ s.popFlip ?_ (.refl _) ?_
    · simp [hdeque]
    · simp [hdeque]
  · rename_i hfifo hdeque
    cases h
    refine htook _ s.deque s.popFlip ?_ ?_ (.refl _)
    · simp [hfifo]
    · simp [hfifo]
  · rename_i hfifo hdeque
    split at h
    · cases h
      refine htook s.fifo _ false ?_ (.refl _) ?_
      · simp [hdeque]
      · simp [hdeque]
    · cases h
      refine htook _ s.deque true ?_ ?_ (.refl _)
      · simp [hfifo]
      · simp [hfifo]

theorem Took.of_classPop (h : s.classPop c = some (t, s')) : Took s t (some c) s' := by
  unfold classPop at h
  split at h
  · cases h
  · rename_i rc hrc
    split at h
    · cases h
    · rename_i queue hqueue
      cases h
      refine ⟨?_, length_set, ?_, ?_, vruntime_set_queue hrc rfl,
        reciprocal_set_class hrc rfl, rfl, rfl, rfl, rfl⟩
      · simp [tasks, hrc, hqueue]
      · intro l hl
        rw [tasks_set_class hrc, if_neg hl]
      · intro u hu
        rw [tasks_set_class hrc, if_pos rfl] at hu
        simp [tasks, hrc, hqueue, hu]

theorem Took.of_popLane (h : s.popLane l = some (t, lane, s')) : lane = l ∧ Took s t lane s' := by
  cases l with
  | none =>
    obtain ⟨⟨t', s''⟩, hpop, heq⟩ := Option.map_eq_some_iff.mp h
    cases heq
    exact ⟨rfl, .of_defaultPop hpop⟩
  | some c =>
    obtain ⟨⟨t', s''⟩, hpop, heq⟩ := Option.map_eq_some_iff.mp h
    cases heq
    exact ⟨rfl, .of_classPop hpop⟩

/-- A lane that is ready has a task to take. -/
theorem popLane_isSome (h : s.ready l = true) : (s.popLane l).isSome := by
  cases l with
  | none =>
    have htasks : s.fifo ++ s.deque ≠ [] := ready_iff.mp h
    unfold popLane defaultPop
    rw [Option.isSome_map]
    split
    · simp_all
    · rfl
    · rfl
    · split <;> rfl
  | some c =>
    have htasks := ready_iff.mp h
    unfold popLane classPop
    rw [Option.isSome_map]
    cases hrc : s.classes[c]? with
    | none => simp [tasks, hrc] at htasks
    | some rc =>
      cases hqueue : rc.queue with
      | nil => simp [tasks, hrc, hqueue] at htasks
      | cons t queue => simp [hqueue]

section

variable (h : Took s t lane s')
include h

theorem Took.ready : s.ready lane = true :=
  ready_iff.mpr (ne_nil_of_mem h.mem)

theorem Took.ready_other (hl : l ≠ lane) : s'.ready l = s.ready l :=
  ready_congr (h.others l hl)

theorem Took.tagged (htagged : Tagged s) : Tagged s' := by
  intro l u hu
  rw [laneOf_congr h.length]
  by_cases hl : l = lane
  · subst hl
    exact htagged l u (h.subset u hu)
  · rw [h.others l hl] at hu
    exact htagged l u hu

end

/-! ## The pick by virtual time -/

/-- The lane that `__queue_pop` serves is ready, and no ready lane is behind it. -/
theorem Took.of_queuePop (h : s.queuePop = some (t, lane, s')) : Took s t lane s' ∧
      (0 < s.classes.length → ∀ l, s.ready l = true → s.vruntime lane ≤ s.vruntime l) := by
  unfold queuePop at h
  split at h
  · obtain ⟨b, hbest, hpop⟩ := Option.bind_eq_some_iff.mp h
    obtain ⟨rfl, htook⟩ := Took.of_popLane hpop
    refine ⟨htook, fun _ l hl => ?_⟩
    exact (scan_eq_some (fun _ _ => rfl) hbest).2 l (mem_lanes_of_ready hl) hl
  · rename_i hnone
    exact ⟨(Took.of_popLane h).2, fun hpos => absurd hpos hnone⟩

/-- A pick without a policy. -/
theorem pop_cases {choice : Option Lane} (hpol : s.maxBypass = none)
    (hs' : s.pop choice = some s') :
    s' = s ∨ ∃ t lane s₁, s.running = none ∧ Took s t lane s₁ ∧
      (0 < s.classes.length → ∀ l, s.ready l = true → s.vruntime lane ≤ s.vruntime l) ∧
      s' = s₁.start t lane s.ready := by
  unfold pop at hs'
  rw [hpol] at hs'
  split at hs'
  · cases hs'
  · rename_i hrun hnone
    split at hs'
    · cases hs'
      exact .inl rfl
    · rename_i t lane s₁ hpop
      cases hs'
      obtain ⟨htook, hleast⟩ := Took.of_queuePop hpop
      exact .inr ⟨t, lane, s₁, hrun, htook, hleast, rfl⟩
  · rename_i hpolicy'
    cases hpolicy'

/-! ## The other operations -/

/-- Task `t` has been put into its lane. -/
structure Put (s : State) (t : Task) (s' : State) : Prop where
  length : s'.classes.length = s.classes.length
  others : ∀ l, l ≠ s.laneOf t → s'.tasks l = s.tasks l
  mem : ∀ u, u ∈ s'.tasks (s.laneOf t) ↔ u ∈ s.tasks (s.laneOf t) ∨ u = t
  vruntime : ∀ l, s'.vruntime l = s.vruntime l
  reciprocal : ∀ l, s'.reciprocal l = s.reciprocal l
  maxBypass : s'.maxBypass = s.maxBypass
  bypasses : s'.bypasses = s.bypasses
  running : s'.running = s.running
  bypassed : s'.bypassed = s.bypassed
  log : s'.log = s.log

theorem put_enqueue (s : State) (t : Task) (pushed : Bool) : Put s t (s.enqueue t pushed) := by
  unfold enqueue
  split
  · rename_i c hc
    obtain ⟨rc, hrc⟩ : ∃ rc, s.classes[c]? = some rc :=
      ⟨_, getElem?_eq_getElem (laneOf_eq_some_iff.mp hc).2⟩
    rw [modify_eq_set_of_getElem? hrc]
    refine ⟨length_set, ?_, ?_, vruntime_set_queue hrc rfl, reciprocal_set_class hrc rfl, rfl,
      rfl, rfl, rfl, rfl⟩
    · intro l hl
      rw [hc] at hl
      rw [tasks_set_class hrc, if_neg hl]
    · rw [hc]
      intro u
      rw [tasks_set_class hrc, if_pos rfl]
      simp [tasks, hrc]
  · rename_i hnone
    split <;>
      refine ⟨rfl, ?_, ?_, fun l => rfl, fun l => rfl, rfl, rfl, rfl, rfl, rfl⟩ <;> rw [hnone]
    case isTrue.refine_1 | isFalse.refine_1 =>
      rintro (_ | j) hj
      · exact absurd rfl hj
      · rfl
    · intro u
      simp [tasks, or_assoc]
    · intro u
      simp only [tasks, mem_append, mem_singleton]
      rw [or_right_comm]

section

variable (h : Put s t s')
include h

theorem Put.ready (hl : s.ready l = true) : s'.ready l = true := by
  by_cases heq : l = s.laneOf t
  · subst heq
    exact ready_iff.mpr (ne_nil_of_mem ((h.mem t).mpr (.inr rfl)))
  · rw [ready_congr (h.others l heq)]
    exact hl

theorem Put.subset {u : Task} (hu : u ∈ s.tasks l) : u ∈ s'.tasks l := by
  by_cases hl : l = s.laneOf t
  · subst hl
    exact (h.mem u).mpr (.inl hu)
  · rw [h.others l hl]
    exact hu

theorem Put.tagged (htagged : Tagged s) : Tagged s' := by
  intro l u hu
  rw [laneOf_congr h.length]
  by_cases hl : l = s.laneOf t
  · subst hl
    rcases (h.mem u).mp hu with hu | rfl
    · exact htagged _ u hu
    · rfl
  · rw [h.others l hl] at hu
    exact htagged l u hu

end

/-- What the end of a run adds to the virtual time of the lane of the task. -/
structure Accrued (s : State) (t : Task) (cost : ℕ) (s' : State) : Prop where
  length : s'.classes.length = s.classes.length
  tasks : ∀ l, s'.tasks l = s.tasks l
  vruntime : ∀ l, s'.vruntime l = if 0 < s.classes.length ∧ l = s.laneOf t then
    (s.vruntime l + accrual cost (s.reciprocal l)) % 2 ^ 64 else s.vruntime l
  reciprocal : ∀ l, s'.reciprocal l = s.reciprocal l
  maxBypass : s'.maxBypass = s.maxBypass
  bypasses : s'.bypasses = s.bypasses
  running : s'.running = s.running
  bypassed : s'.bypassed = s.bypassed
  log : s'.log = s.log

theorem accrued_accrue (s : State) (t : Task) (cost : ℕ) : Accrued s t cost (s.accrue t cost) := by
  unfold accrue
  split
  · rename_i hpos
    split
    · rename_i c hc
      obtain ⟨rc, hrc⟩ : ∃ rc, s.classes[c]? = some rc :=
        ⟨_, getElem?_eq_getElem (laneOf_eq_some_iff.mp hc).2⟩
      rw [modify_eq_set_of_getElem? hrc]
      refine ⟨length_set, fun l => ?_, fun l => ?_, reciprocal_set_class hrc rfl, rfl, rfl,
        rfl, rfl, rfl⟩
      · rw [tasks_set_class hrc]
        split
        · rename_i hl
          subst hl
          simp [tasks, hrc]
        · rfl
      · rw [vruntime_set_class hrc, hc]
        by_cases hl : l = some c
        · subst hl
          rw [if_pos rfl, if_pos ⟨hpos, rfl⟩]
          simp [vruntime, reciprocal, hrc]
        · rw [if_neg hl, if_neg fun h => hl h.2]
    · rename_i hnone
      refine ⟨rfl, ?_, ?_, fun l => ?_, rfl, rfl, rfl, rfl, rfl⟩
      · rintro (_ | c) <;> rfl
      · rw [hnone]
        rintro (_ | c)
        · rw [if_pos ⟨hpos, rfl⟩]
          rfl
        · rw [if_neg fun h => by cases h.2]
          rfl
      · cases l <;> rfl
  · rename_i hzero
    refine ⟨rfl, fun l => rfl, fun l => ?_, fun l => rfl, rfl, rfl, rfl, rfl, rfl⟩
    rw [if_neg fun h => hzero h.1]

/-- The run of task `t`, taken from `lane`, has ended. -/
structure Finished (s : State) (t : Task) (lane : Lane) (cost : ℕ) (s' : State) : Prop where
  running : s.running = some (t, lane)
  idle : s'.running = none
  length : s'.classes.length = s.classes.length
  others : ∀ l, l ≠ s.laneOf t → s'.tasks l = s.tasks l
  subset : ∀ l, ∀ u ∈ s.tasks l, u ∈ s'.tasks l
  vruntime : ∀ l, s'.vruntime l = if 0 < s.classes.length ∧ l = s.laneOf t then
    (s.vruntime l + accrual cost (s.reciprocal l)) % 2 ^ 64 else s.vruntime l
  reciprocal : ∀ l, s'.reciprocal l = s.reciprocal l
  maxBypass : s'.maxBypass = s.maxBypass
  bypassed : s'.bypassed = s.bypassed
  log : s'.log = s.log ++ [(lane, cost)]

section

variable {s₁ : State} {cost : ℕ}

theorem Finished.of_accrued (hrun : s.running = some (t, lane)) (haccr : Accrued s t cost s₁) :
    Finished s t lane cost { s₁ with running := none, log := s.log ++ [(lane, cost)] } :=
  ⟨hrun, rfl, haccr.length, fun l _ => haccr.tasks l,
    fun l _ hu => (haccr.tasks l).symm ▸ hu, haccr.vruntime, haccr.reciprocal,
    haccr.maxBypass, haccr.bypassed, rfl⟩

theorem Finished.put (h : Finished s t lane cost s₁) (hput : Put s₁ t s') :
    Finished s t lane cost s' := by
  have hlane := laneOf_congr h.length t
  refine ⟨h.running, hput.running.trans h.idle, hput.length.trans h.length, fun l hl => ?_,
    fun l u hu => hput.subset (h.subset l u hu), fun l => (hput.vruntime l).trans (h.vruntime l),
    fun l => (hput.reciprocal l).trans (h.reciprocal l), hput.maxBypass.trans h.maxBypass,
    hput.bypassed.trans h.bypassed, hput.log.trans h.log⟩
  exact (hput.others l fun heq => hl (heq.trans hlane)).trans (h.others l hl)

theorem Finished.resetIdle (h : Finished s t lane cost s') : Finished s t lane cost s'.resetIdle :=
  { h with }

/-- When the task has the class of its lane and nothing wraps, that lane moves on and no other. -/
theorem Finished.vruntime_exact (h : Finished s t lane cost s') (htag : s.laneOf t = lane)
    (hfits : s.vruntime lane + accrual cost (s.reciprocal lane) < 2 ^ 64) (l : Lane) :
    s'.vruntime l = s.vruntime l +
      if 0 < s.classes.length ∧ l = lane then accrual cost (s.reciprocal lane) else 0 := by
  rw [h.vruntime, htag]
  split
  · rename_i hl
    rw [hl.2, Nat.mod_eq_of_lt hfits]
  · rfl

theorem Finished.of_finish {elapsed : ℕ} {resched : Option Bool}
    (h : s.finish elapsed resched = some s') :
    ∃ t lane, Finished s t lane (costOf elapsed) s' := by
  unfold finish at h
  split at h
  · cases h
  · rename_i t lane hrun
    refine ⟨t, lane, ?_⟩
    have hdone := Finished.of_accrued hrun (accrued_accrue s t (costOf elapsed))
    cases h
    cases resched with
    | none =>
      dsimp only
      split
      · exact hdone.resetIdle
      · exact hdone
    | some pushed =>
      dsimp only
      have hput := hdone.put (put_enqueue _ t pushed)
      split
      · exact hput.resetIdle
      · exact hput

end

/-- A class has been created. -/
structure Created (s s' : State) : Prop where
  length : s'.classes.length = s.classes.length + 1
  le : s'.classes.length ≤ maxClasses
  tasks : ∀ l, s'.tasks l = s.tasks l
  vruntime : ∀ l ∈ s.lanes, s'.vruntime l = s.vruntime l
  seed : s'.vruntime (some s.classes.length) = minVruntime s.classes
  reciprocal : ∀ l ∈ s.lanes, s'.reciprocal l = s.reciprocal l
  shares : ∃ shares, 1 ≤ shares ∧ shares ≤ 1000 ∧
    s'.reciprocal (some s.classes.length) = (1 <<< 22) / shares
  maxBypass : s'.maxBypass = s.maxBypass
  bypasses : s'.bypasses = s.bypasses
  running : s'.running = s.running
  bypassed : s'.bypassed = s.bypassed
  log : s'.log = s.log

/-- A create that is accepted. -/
def State.creates (s : State) (shares : ℕ) : Bool :=
  1 ≤ shares ∧ shares ≤ 1000 ∧ s.classes.length < maxClasses

theorem classCreate_cases (s : State) (shares : ℕ) :
    s.creates shares = false ∧ s.classCreate shares = s ∨
      s.creates shares = true ∧ Created s (s.classCreate shares) := by
  unfold creates classCreate
  by_cases hshares : shares < 1 ∨ 1000 < shares
  · rw [if_pos hshares]
    exact .inl ⟨decide_eq_false (by omega), rfl⟩
  · rw [if_neg hshares]
    by_cases hfull : maxClasses ≤ s.classes.length
    · rw [if_pos hfull]
      exact .inl ⟨decide_eq_false (by omega), rfl⟩
    · rw [if_neg hfull]
      refine .inr ⟨decide_eq_true (by omega), ?_⟩
      have hold : ∀ c, some c ∈ s.lanes → ∀ rc, (s.classes ++ [rc])[c]? = s.classes[c]? := by
        intro c hc rc
        exact getElem?_append_left (mem_lanes.mp hc c rfl)
      refine ⟨by simp, by simp; omega, ?_, ?_, by simp [vruntime], ?_,
        ⟨shares, by omega, by omega, by simp [reciprocal]⟩, rfl, rfl, rfl, rfl, rfl⟩
      · rintro (_ | c)
        · rfl
        · by_cases hc : some c ∈ s.lanes
          · simp [tasks, hold c hc]
          · have hge : s.classes.length ≤ c := by
              by_contra hlt
              refine hc (mem_lanes.mpr ?_)
              rintro c' heq
              cases heq
              omega
            simp only [tasks, getElem?_append_right hge, getElem?_eq_none hge]
            cases c - s.classes.length <;> rfl
      · rintro (_ | c) hc
        · rfl
        · simp [vruntime, hold c hc]
      · rintro (_ | c) hc
        · rfl
        · simp [reciprocal, hold c hc]

end LibXtc.Lanes

import LibXtc.Evt.InboxOrder

/-!
# No lost wakeup

The owner announces that it is about to block and then looks at both stacks; a producer puts its
task on a stack and then looks at the announcement. Whoever comes second sees the other. While the
owner is blocked behind an announcement that still stands, a task on a stack belongs to a producer
that has yet to look; once a producer has taken the announcement, the wakeup is its to write.
-/

namespace LibXtc.Inbox

open Foundations State List

variable {s s' : State} {i : ℕ} {p : Producer}

/-- The owner has announced that it is about to block. -/
def Owner.asleep : Owner → Bool
  | .sleepLoadPub | .sleepLoadWake | .polling => true
  | _ => false

/-- The owner has announced it and then found the stack empty. -/
def Owner.saw : Owner → Kind → Bool
  | .sleepLoadWake, .publish | .polling, _ => true
  | _, _ => false

/-- The producer has yet to look at the announcement or to take it. -/
def Producer.looks : Producer → Bool
  | .loadSleeping | .exchangeSleeping => true
  | _ => false

structure Alert (s : State) : Prop where
  /-- Who takes the announcement writes the wakeup. -/
  armed : s.owner.asleep = true →
    s.sleeping = true ∨ s.wakeupFd = true ∨ .wakeup ∈ s.producers
  /-- A task that the owner did not see has a producer that will see the announcement. -/
  seen : ∀ k, s.owner.saw k = true → s.head k ≠ none → s.sleeping = true →
    ∃ p ∈ s.producers, p.looks = true
  succeeds : ∀ p ∈ s.producers, p ≠ .storeSleeping

section

variable (h : Alert s)
include h

theorem Alert.of_awake (ho : s'.owner.asleep = false)
    (hprods : s'.producers = s.producers) : Alert s' := by
  have hsaw : ∀ k, s'.owner.saw k = false := by
    intro k
    cases hown : s'.owner <;> rw [hown] at ho <;> cases k <;> first | rfl | cases ho
  refine ⟨fun hasleep => ?_, fun k hk => ?_, hprods ▸ h.succeeds⟩
  · rw [ho] at hasleep
    cases hasleep
  · rw [hsaw k] at hk
    cases hk

theorem Alert.armed_set {q : Producer} (hp : s.producers[i]? = some p)
    (hwakeup : p ≠ .wakeup) (hasleep : s.owner.asleep = true) :
    s.sleeping = true ∨ s.wakeupFd = true ∨ .wakeup ∈ s.producers.set i q := by
  rcases h.armed hasleep with hsleep | hfd | hmem
  · exact .inl hsleep
  · exact .inr (.inl hfd)
  · exact .inr (.inr ((mem_set_of_mem hp hmem).resolve_left (Ne.symm hwakeup)))

/-- A producer that neither looks nor wakes moves on. -/
theorem Alert.set (q : Producer) (hp : s.producers[i]? = some p)
    (hwakeup : p ≠ .wakeup) (hlooks : p.looks = false) (hq : q ≠ .storeSleeping)
    {next : ℕ → Option ℕ} {slot : ℕ → Option ℕ} :
    Alert { s with next := next, slot := slot, producers := s.producers.set i q } := by
  refine ⟨h.armed_set hp hwakeup, fun k hk hhead hsleep => ?_, forall_mem_set h.succeeds hq⟩
  obtain ⟨r, hr, hrlooks⟩ := h.seen k hk hhead hsleep
  refine ⟨r, (mem_set_of_mem hp hr).resolve_left ?_, hrlooks⟩
  rintro rfl
  rw [hlooks] at hrlooks
  cases hrlooks

theorem Alert.producerStep {ok : Bool} (hok : s.producers[i]? = some .wakeup → ok = true)
    (hs' : s.producerStep i ok = some s') : Alert s' := by
  unfold State.producerStep at hs'
  split at hs'
  case h_1 | h_2 => cases hs'
  case h_3 k t old hp =>
    cases hs'
    exact h.set (.cas k t old) hp nofun rfl nofun
  case h_4 k t old hp =>
    split at hs' <;> cases hs'
    · -- The new task is on a stack, and its producer is about to look.
      have hset : Alert { s with producers := s.producers.set i .loadSleeping } :=
        h.set .loadSleeping hp nofun rfl nofun
      exact ⟨hset.armed, fun _ _ _ _ => ⟨_, mem_set_new hp, rfl⟩, hset.succeeds⟩
    · exact h.set (.link k t (s.head k)) hp nofun rfl nofun
  case h_5 hp =>
    cases hs'
    cases hsleep : s.sleeping with
    | true =>
      refine ⟨fun _ => .inl rfl, fun _ _ _ _ => ⟨_, mem_set_new hp, rfl⟩, ?_⟩
      exact forall_mem_set h.succeeds nofun
    | false =>
      have harmed := h.armed_set (q := .idle) hp nofun
      rw [hsleep] at harmed
      exact ⟨harmed, nofun, forall_mem_set h.succeeds nofun⟩
  case h_6 hp =>
    cases hs'
    cases hsleep : s.sleeping with
    | true =>
      refine ⟨fun _ => .inr (.inr (mem_set_new hp)), nofun, forall_mem_set h.succeeds nofun⟩
    | false =>
      have harmed := h.armed_set (q := .idle) hp nofun
      rw [hsleep] at harmed
      exact ⟨harmed, nofun, forall_mem_set h.succeeds nofun⟩
  case h_7 hp =>
    rw [hok hp, if_pos rfl] at hs'
    cases hs'
    refine ⟨fun _ => .inr (.inl rfl), fun k hk hhead hsleep => ?_, forall_mem_set h.succeeds nofun⟩
    obtain ⟨r, hr, hrlooks⟩ := h.seen k hk hhead hsleep
    refine ⟨r, (mem_set_of_mem hp hr).resolve_left ?_, hrlooks⟩
    rintro rfl
    cases hrlooks
  case h_8 hp => exact absurd rfl (h.succeeds _ (mem_of_getElem? hp))

theorem Alert.ownerStep (hs' : s.ownerStep = some s') : Alert s' := by
  unfold State.ownerStep at hs'
  split at hs'
  case h_1 => cases hs'
  case h_12 hown =>
    cases hs'
    split
    · rename_i hpub
      refine ⟨fun _ => h.armed (by rw [hown]; rfl), fun k hk hhead => ?_, h.succeeds⟩
      cases k with
      | publish => exact absurd hpub hhead
      | wake => cases hk
    · exact h.of_awake rfl rfl
  case h_13 hown =>
    cases hs'
    split
    · rename_i hwake
      refine ⟨fun _ => h.armed (by rw [hown]; rfl), fun k _ hhead => ?_, h.succeeds⟩
      cases k with
      | publish => exact h.seen .publish (by rw [hown]; rfl) hhead
      | wake => exact absurd hwake hhead
    · exact h.of_awake rfl rfl
  case h_2 =>
    cases hs'
    split <;> exact h.of_awake rfl rfl
  case h_15 =>
    split at hs' <;> cases hs'
    exact h.of_awake rfl rfl
  all_goals
    cases hs'
    exact h.of_awake rfl rfl

theorem Alert.act {a : Act} (hok : wakes s a) (hs' : s.act a = some s') :
    Alert s' := by
  cases a with
  | push i k t =>
    simp only [State.act, push] at hs'
    split at hs' <;> cases hs'
    rename_i hguard
    exact h.set (.link k t (s.head k)) hguard.1 (by rintro ⟨⟩) rfl (by rintro ⟨⟩)
  | producer i ok => exact h.producerStep hok hs'
  | owner => exact h.ownerStep hs'
  | drain =>
    simp only [State.act] at hs'
    split at hs' <;> cases hs'
    split <;> exact h.of_awake rfl rfl
  | sleep =>
    simp only [State.act] at hs'
    split at hs' <;> cases hs'
    exact ⟨fun _ => .inl rfl, by rintro _ ⟨⟩, h.succeeds⟩
  | event =>
    simp only [State.act] at hs'
    split at hs' <;> cases hs'
    exact h.of_awake rfl rfl
  | pollNow =>
    simp only [State.act] at hs'
    split at hs' <;> cases hs'
    rename_i hown
    refine h.of_awake ?_ rfl
    rw [hown]
    rfl
  | nudge =>
    cases hs'
    exact ⟨fun _ => .inr (.inl rfl), h.seen, h.succeeds⟩

end

theorem Alert.of_reachable (hs : system.ReachableUnder wakes s) : Alert s := by
  refine hs.invariant ?_ ?_
  · rintro s ⟨n, rfl⟩
    refine ⟨nofun, nofun, fun p hp => ?_⟩
    rw [eq_of_mem_replicate hp]
    nofun
  · intro s a s' h hok ht
    exact h.act hok ht

/-! ## The result -/

/-- A producer that has taken the announcement writes the wakeup in its next step. -/
theorem run_wakeup (hp : s.producers[i]? = some .wakeup) :
    ∃ s' ∈ system.run s [.producer i true], s'.wakeupFd = true := by
  refine ⟨{ s with wakeupFd := true, producers := s.producers.set i .idle }, ?_, rfl⟩
  simp [system, act, producerStep, hp, System.runUnder]

theorem run_exchangeSleeping (hp : s.producers[i]? = some .exchangeSleeping)
    (hsleep : s.sleeping = true) :
    ∃ s' ∈ system.run s (replicate 2 (.producer i true)), s'.wakeupFd = true := by
  obtain ⟨s', hrun, hfd⟩ := run_wakeup (s := { s with
    sleeping := false
    producers := s.producers.set i .wakeup }) (getElem?_set_new hp)
  refine ⟨s', ?_, hfd⟩
  refine Option.bind_eq_some_iff.mpr ⟨_, ?_, hrun⟩
  simp [system, act, producerStep, hp, hsleep]

theorem run_loadSleeping (hp : s.producers[i]? = some .loadSleeping) (hsleep : s.sleeping = true) :
    ∃ s' ∈ system.run s (replicate 3 (.producer i true)), s'.wakeupFd = true := by
  obtain ⟨s', hrun, hfd⟩ := run_exchangeSleeping (s := { s with
    producers := s.producers.set i .exchangeSleeping }) (getElem?_set_new hp) hsleep
  refine ⟨s', ?_, hfd⟩
  refine Option.bind_eq_some_iff.mpr ⟨_, ?_, hrun⟩
  simp [system, act, producerStep, hp, hsleep]

/-- While the owner is blocked and a task is on a stack, the wakeup was written or a producer in
the middle of its push is about to write it. -/
theorem Alert.exists_wakeup {k : Kind} (h : Alert s) (hown : s.owner = .polling)
    (hhead : s.head k ≠ none) : ∃ i n,
      ∃ s' ∈ system.run s (replicate n (.producer i true)), s'.wakeupFd = true := by
  have hasleep : s.owner.asleep = true := by rw [hown]; rfl
  rcases h.armed hasleep with hsleep | hfd | hmem
  · have hsaw : s.owner.saw k = true := by rw [hown]; rfl
    obtain ⟨p, hp, hlooks⟩ := h.seen k hsaw hhead hsleep
    obtain ⟨i, hi⟩ := mem_iff_getElem?.mp hp
    cases p with
    | loadSleeping => exact ⟨i, 3, run_loadSleeping hi hsleep⟩
    | exchangeSleeping => exact ⟨i, 2, run_exchangeSleeping hi hsleep⟩
    | _ => cases hlooks
  · exact ⟨0, 0, s, rfl, hfd⟩
  · obtain ⟨i, hi⟩ := mem_iff_getElem?.mp hmem
    exact ⟨i, 1, run_wakeup hi⟩

/-- In every run with any number of producers: what was handed to the run queue are the pushes of
each kind, each once and in the order in which they took effect, so also in the order of each
producer; a drain that runs on its own hands over everything pushed before. If wakeups succeed, a
task on a stack while the loop is blocked in its poll has a wakeup that was written or that a
producer in the middle of its push writes by its own steps. -/
theorem handed_once_and_woken : (∀ s, system.Reachable s →
      (∀ k, ofKind k s.handed <+: ofKind k s.pushed) ∧
      (∀ i k, byProducer i k s.handed <+: byProducer i k s.pushed) ∧
      (s.owner = .running →
        ∃ n, ∃ s' ∈ system.run s (.drain :: replicate n .owner), s'.owner = .running ∧
          s'.pushed = s.pushed ∧ ∀ k, ofKind k s'.handed = ofKind k s.pushed)) ∧
    ∀ s, system.ReachableUnder wakes s → s.owner = .polling → (∃ k, s.head k ≠ none) →
      ∃ i n, ∃ s' ∈ system.run s (replicate n (.producer i true)), s'.wakeupFd = true := by
  refine ⟨fun s hs => ?_, fun s hs howner hhead => ?_⟩
  · obtain ⟨stack, taken, h⟩ := exists_ok hs
    exact ⟨fun k => h.order k ▸ prefix_append _ _, fun i k => h.byProducer_prefix,
      exists_drained hs⟩
  · obtain ⟨k, hk⟩ := hhead
    exact (Alert.of_reachable hs).exists_wakeup howner hk

/-- Producer 0 pushes the wake of task 7 and then publishes task 8. -/
def wakeThenPublish : List Act :=
  [.push 0 .wake 7, .producer 0 true, .producer 0 true, .producer 0 true,
    .push 0 .publish 8, .producer 0 true, .producer 0 true, .producer 0 true]

/-- Producer 1 wakes task 9 and looks for the announcement. The loop announces that it blocks
before it does, sees the task, withdraws and drains. Then it blocks, and producer 0 pushes the
wake of task 7 behind its back. -/
def pushBehindBack : List Act :=
  [.push 1 .wake 9, .producer 1 true, .producer 1 true, .sleep, .owner, .owner, .owner,
    .producer 1 true, .drain] ++ replicate 8 .owner ++
  [.sleep, .owner, .owner, .push 0 .wake 7, .producer 0 true, .producer 0 true]

theorem handed_once_and_woken_pushBehindBack :
    ∃ s ∈ system.runUnder wakes (create 2) pushBehindBack, s.owner = .polling ∧
      s.head .wake = some 7 ∧ s.handed = [⟨some 1, .wake, 9⟩] ∧
      (∀ k, ofKind k s.handed <+: ofKind k s.pushed) ∧
      ∃ i n, ∃ s' ∈ system.run s (replicate n (.producer i true)), s'.wakeupFd = true := by
  refine System.exists_run ⟨2, rfl⟩ (by decide) fun s eval hs howner => ?_
  have hhead : s.head .wake = some 7 := by apply eval; decide
  have hfree : system.Reachable s := hs.mono fun _ _ _ => trivial
  refine ⟨hhead, by apply eval; decide, (handed_once_and_woken.1 s hfree).1,
    handed_once_and_woken.2 s hs howner ⟨.wake, ?_⟩⟩
  rw [hhead]
  nofun

/-- The two kinds overtake each other: the drain hands over all publishes it took first. -/
theorem wake_overtaken : ∃ s ∈ system.run (create 1)
    (wakeThenPublish ++ .drain :: replicate 8 .owner),
    s.pushed = [⟨some 0, .wake, 7⟩, ⟨some 0, .publish, 8⟩] ∧
    s.handed = [⟨some 0, .publish, 8⟩, ⟨some 0, .wake, 7⟩] := by
  decide

end LibXtc.Inbox

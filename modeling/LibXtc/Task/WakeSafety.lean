import LibXtc.Task.WakeClaim

/-!
# No wake is doubled, and when none is lost

Every transition to `SCHEDULED` is owed exactly one enqueue, so no wake is doubled. A wake that
finds the task running leaves its trace in `wake_pending`. The trace survives to the next verdict
unless an exchange that was entitled by an earlier `PARKED` runs late: it may then take the latch
of a wake begun in the present run. In every run without such an exchange no wake is lost.
-/

namespace LibXtc.Task

open Foundations TaskSys List Option

attribute [simp] schedule link spawned

/-! ## Ownership of the scheduled task -/

/-- The loop holds a task that is `SCHEDULED` and in no queue. -/
@[simp] def LoopPc.holds : LoopPc → Bool
  | .popped | .enqueue => true
  | _ => false

/-- The loop is between the store of `RUNNING` and the store that ends the run. -/
@[simp] def LoopPc.inRun : LoopPc → Bool
  | .running | .take | .storeScheduled | .storeParked | .storeDone => true
  | _ => false

/-- The number of holders a task in this status has. -/
@[simp] def TaskStatus.holders : TaskStatus → ℕ
  | .scheduled => 1
  | _ => 0

/-- The number of loops inside a run of a task in this status. -/
@[simp] def TaskStatus.runners : TaskStatus → ℕ
  | .running => 1
  | _ => 0

/-- The loop must still queue the task it made `SCHEDULED`. -/
@[simp] def LoopPc.owes : LoopPc → Bool
  | .enqueue => true
  | _ => false

/-- The wake call must still queue the task it made `SCHEDULED`. -/
@[simp] def WakePc.owes : WakePc → Bool
  | .enqueue => true
  | _ => false

/-- The enqueues that are owed: one for each thread that made the task `SCHEDULED` and has not
queued it yet. -/
def TaskSys.owing (s : TaskSys) : ℕ :=
  s.calls.countP (·.pc.owes) + s.loops.countP LoopPc.owes

/-- A `SCHEDULED` task has one holder: a queue link, a thread that owes the enqueue, or a loop
that popped it. A `RUNNING` task has one runner. Every transition was or will be enqueued. -/
structure Owned (s : TaskSys) : Prop where
  holder : s.queued + s.calls.countP (·.pc.owes) + s.loops.countP LoopPc.holds =
    s.status.holders
  runner : s.loops.countP LoopPc.inRun = s.status.runners
  owed : s.scheduledCount = s.enqueuedCount + s.owing

variable {s t s' : TaskSys} {l i : ℕ} {c : WakeCall} {pc : LoopPc} {a : TaskAct}

/-- A loop that holds the task sees it `SCHEDULED`. -/
theorem Owned.scheduled_of_holds (h : Owned s) (hmem : pc ∈ s.loops)
    (hpc : pc.holds = true) : s.status = .scheduled := by
  have hpos : 1 ≤ s.loops.countP LoopPc.holds := one_le_countP_iff.mpr ⟨pc, hmem, hpc⟩
  have hholder := h.holder
  cases hstatus : s.status <;> simp only [hstatus, TaskStatus.holders] at hholder ⊢ <;> omega

/-- A loop inside a run sees the task `RUNNING`. -/
theorem Owned.running_of_inRun (h : Owned s) (hmem : pc ∈ s.loops)
    (hpc : pc.inRun = true) : s.status = .running := by
  have hpos : 1 ≤ s.loops.countP LoopPc.inRun := one_le_countP_iff.mpr ⟨pc, hmem, hpc⟩
  have hrunner := h.runner
  cases hstatus : s.status <;> simp only [hstatus, TaskStatus.runners] at hrunner ⊢ <;> omega

/-- Two loops inside a run are at the same access: the run has one loop. -/
theorem Owned.inRun_unique (h : Owned s) {pc' : LoopPc} (hl : s.loops[l]? = some pc)
    (hpc : pc.inRun = true) (hmem : pc' ∈ s.loops) (hpc' : pc'.inRun = true) : pc' = pc := by
  rcases mem_set_of_mem hl hmem with heq | hother
  · exact heq
  · have hcnt := countP_set_add (p := LoopPc.inRun) (b := .idle) hl
    have hpos : 1 ≤ (s.loops.set l .idle).countP LoopPc.inRun :=
      one_le_countP_iff.mpr ⟨pc', hother, hpc'⟩
    have hrunner := h.runner
    rw [h.running_of_inRun (mem_of_getElem? hl) hpc, TaskStatus.runners] at hrunner
    rw [hpc] at hcnt
    simp only [Bool.toNat_true, LoopPc.inRun, Bool.toNat_false] at hcnt
    omega

/-- A loop that owes an enqueue holds the task. -/
theorem LoopPc.holds_of_owes (h : pc.owes = true) : pc.holds = true := by
  cases pc <;> first | rfl | cases h

/-- The task is in at most one queue, and in none while its enqueue is owed. -/
theorem Owned.queued_add_owing_le (h : Owned s) : s.queued + s.owing ≤ 1 := by
  have hmono : s.loops.countP LoopPc.owes ≤ s.loops.countP LoopPc.holds :=
    countP_mono_left fun _ _ => LoopPc.holds_of_owes
  have hle : s.status.holders ≤ 1 := by cases s.status <;> decide
  have hholder := h.holder
  rw [owing]
  omega

/-- The state after a spawn satisfies the ownership invariant. -/
theorem spawned_owned (n : ℕ) : Owned (spawned n) := by
  constructor
  · simp
  · simp
  · simp [owing]

section

variable (h : Owned s)
include h

/-- The bookkeeping of a step that moves one wake call, by what the step adds. -/
private theorem Owned.setCall (hc : s.calls[i]? = some c) {pc : WakePc}
    (hholder : t.queued + pc.owes.toNat + s.status.holders =
      s.queued + c.pc.owes.toNat + t.status.holders)
    (hrunner : t.status.runners = s.status.runners)
    (howed : t.scheduledCount + s.enqueuedCount + c.pc.owes.toNat =
      s.scheduledCount + t.enqueuedCount + pc.owes.toNat) (hcalls : t.calls = s.calls := by rfl)
    (hloops : t.loops = s.loops := by rfl) : Owned (t.setCall i c pc) := by
  have hcnt : (s.calls.set i { c with pc := pc }).countP (·.pc.owes) + c.pc.owes.toNat
      = s.calls.countP (·.pc.owes) + pc.owes.toNat :=
    countP_set_add hc
  obtain ⟨hs, hr, ho⟩ := h
  simp only [owing] at ho
  constructor <;> simp only [TaskSys.setCall, owing, hcalls, hloops] <;> omega

/-- The bookkeeping of a step that moves one loop, by what the step adds. -/
private theorem Owned.setLoop {new : LoopPc} (hl : s.loops[l]? = some pc)
    (hholder : t.queued + new.holds.toNat + s.status.holders =
      s.queued + pc.holds.toNat + t.status.holders)
    (hrunner : new.inRun.toNat + s.status.runners = pc.inRun.toNat + t.status.runners)
    (howed : t.scheduledCount + s.enqueuedCount + pc.owes.toNat =
      s.scheduledCount + t.enqueuedCount + new.owes.toNat) (hcalls : t.calls = s.calls := by rfl)
    (hloops : t.loops = s.loops := by rfl) : Owned (t.setLoop l new) := by
  have hholds := countP_set_add (p := LoopPc.holds) (b := new) hl
  have hinRun := countP_set_add (p := LoopPc.inRun) (b := new) hl
  have howing := countP_set_add (p := LoopPc.owes) (b := new) hl
  obtain ⟨hs, hr, ho⟩ := h
  simp only [owing] at ho
  constructor <;> simp only [TaskSys.setLoop, owing, hcalls, hloops] <;> omega

/-- A step of a wake call keeps the ownership of the task. -/
theorem Owned.wakeStep (hc : s.calls[i]? = some c) (ht : s.wakeStep i c = some s') :
    Owned s' := by
  obtain ⟨pc, b, n⟩ := c
  cases pc with
  | cas | recas =>
    simp only [TaskSys.wakeStep] at ht
    split at ht <;> cases ht
    · rename_i hpark
      exact h.setCall hc (by simp [hpark]) (by simp [hpark]) (by simp; omega)
    · exact h.setCall hc rfl rfl rfl
  | latch =>
    cases ht
    exact h.setCall hc rfl rfl rfl
  | reload | exchange =>
    simp only [TaskSys.wakeStep] at ht
    split at ht <;> cases ht <;> exact h.setCall hc rfl rfl rfl
  | enqueue =>
    cases ht
    exact h.setCall hc (by simp) rfl (by simp; omega)
  | returned b => cases ht

/-- A step of a loop keeps the ownership of the task. -/
theorem Owned.loopStep (hl : s.loops[l]? = some pc)
    (ht : s.loopStep l pc = some s') : Owned s' := by
  have hmem := mem_of_getElem? hl
  have hsched (hpc : pc.holds = true) := h.scheduled_of_holds hmem hpc
  have hrun (hpc : pc.inRun = true) := h.running_of_inRun hmem hpc
  cases pc with
  | idle =>
    simp only [loopStep] at ht
    split at ht <;> cases ht
    exact h.setLoop hl (by simp; omega) rfl rfl
  | popped =>
    cases ht
    exact h.setLoop hl (by simp [hsched rfl]) (by simp [hsched rfl]) rfl
  | running => cases ht
  | take | recheck =>
    simp only [loopStep] at ht
    split at ht <;> cases ht <;> exact h.setLoop hl rfl rfl rfl
  | storeScheduled =>
    cases ht
    exact h.setLoop hl (by simp [hrun rfl]) (by simp [hrun rfl]) (by simp; omega)
  | storeParked | storeDone =>
    cases ht
    exact h.setLoop hl (by simp [hrun rfl]) (by simp [hrun rfl]) rfl
  | recas =>
    simp only [loopStep] at ht
    split at ht <;> cases ht
    · rename_i hpark
      exact h.setLoop hl (by simp [hpark]) (by simp [hpark]) (by simp; omega)
    · exact h.setLoop hl rfl rfl rfl
  | enqueue =>
    cases ht
    exact h.setLoop hl (by simp) rfl (by simp; omega)

/-- Every step keeps the ownership of the task. -/
theorem Owned.step (ht : s.step a = some s') : Owned s' := by
  cases a with
  | wakeBegin =>
    cases ht
    obtain ⟨hs, hr, ho⟩ := h
    simp only [owing] at ho
    have hnew (b : Bool) (n : ℕ) : ([⟨.cas, b, n⟩] : List WakeCall).countP (·.pc.owes) = 0 := rfl
    constructor <;> simp only [owing, countP_append, hnew] <;> omega
  | wakeStep i =>
    obtain ⟨c, hc, ht⟩ := bind_eq_some_iff.mp ht
    exact h.wakeStep hc ht
  | loopStep l =>
    obtain ⟨pc, hl, ht⟩ := bind_eq_some_iff.mp ht
    exact h.loopStep hl ht
  | verdict l v =>
    simp only [step] at ht
    split at ht <;> cases ht
    rename_i hl
    cases v <;> exact h.setLoop hl rfl rfl rfl

end

/-! ## Wakes of the present run -/

/-- The call began while the task was `RUNNING`, and the task has not become `SCHEDULED` since. -/
def WakeCall.Fresh (s : TaskSys) (c : WakeCall) : Prop :=
  c.beganRunning = true ∧ c.beganAt = s.scheduledCount

/-- The call has stored the latch. -/
def WakePc.latched : WakePc → Bool
  | .reload | .exchange | .recas | .returned false => true
  | _ => false

/-- Some wake begun in the present run has stored the latch. -/
def TaskSys.FreshLatch (s : TaskSys) : Prop :=
  ∃ c ∈ s.calls, c.Fresh s ∧ c.pc.latched = true

/-- The call has won the claim. -/
@[simp] def WakePc.won : WakePc → Bool
  | .enqueue | .returned true => true
  | _ => false

/-- The call is over. -/
def WakePc.isReturned : WakePc → Bool
  | .returned _ => true
  | _ => false

/-- A wake call in flight still has the claim to make: it has taken the latch, or the latch is
set and the call is about to look at it. -/
def TaskSys.ClaimInFlight (s : TaskSys) : Prop :=
  ∃ d ∈ s.calls, d.pc = .recas ∨ (s.wakePending = true ∧ (d.pc = .reload ∨ d.pc = .exchange))

/-- The verdict in progress still has the claim to make. -/
def TaskSys.ClaimInVerdict (s : TaskSys) : Prop :=
  .recas ∈ s.loops ∨ (s.wakePending = true ∧ .recheck ∈ s.loops)

/-- **A lost wake.** A wake call that began in this run has returned, the verdict is over and left
the task `PARKED`, and no thread in flight will make it `SCHEDULED`. -/
def TaskSys.LostWake (s : TaskSys) : Prop :=
  s.status = .parked ∧ (∀ pc ∈ s.loops, pc = .idle) ∧
    (∃ c ∈ s.calls, c.pc.isReturned = true ∧ c.Fresh s) ∧ ¬s.ClaimInFlight

/-- The step is an exchange entitled by an earlier `PARKED`: the waker's own, or the second
exchange of the verdict. -/
def TaskSys.LateExchange (s : TaskSys) : TaskAct → Prop
  | .wakeStep i => (s.calls[i]?).map (·.pc) = some .exchange
  | .loopStep l => s.loops[l]? = some .recheck
  | _ => False

/-- The step is such an exchange, taken while the task is `RUNNING` again, and the latch it finds
set was set by a wake call begun in the present run. -/
def TaskSys.StealsLatch (s : TaskSys) (a : TaskAct) : Prop :=
  s.LateExchange a ∧ s.status = .running ∧ s.wakePending = true ∧ s.FreshLatch

instance (s : TaskSys) (c : WakeCall) : Decidable (c.Fresh s) :=
  inferInstanceAs (Decidable (_ ∧ _))

instance (s : TaskSys) : Decidable s.FreshLatch :=
  inferInstanceAs (Decidable (∃ c ∈ s.calls, _))

instance (s : TaskSys) : Decidable s.ClaimInFlight :=
  inferInstanceAs (Decidable (∃ d ∈ s.calls, _))

instance (s : TaskSys) (a : TaskAct) : Decidable (s.LateExchange a) :=
  match a with
  | .wakeStep _ => inferInstanceAs (Decidable (_ = _))
  | .loopStep _ => inferInstanceAs (Decidable (_ = _))
  | .wakeBegin | .verdict _ _ => inferInstanceAs (Decidable False)

instance (s : TaskSys) (a : TaskAct) : Decidable (s.StealsLatch a) :=
  inferInstanceAs (Decidable (_ ∧ _))

instance (s : TaskSys) : Decidable s.LostWake :=
  inferInstanceAs (Decidable (_ ∧ (∀ pc ∈ s.loops, _) ∧ (∃ c ∈ s.calls, _ ∧ _) ∧ _))

/-- Where the trace of a wake begun in the present run is. -/
structure Traced (s : TaskSys) : Prop where
  began_le : ∀ c ∈ s.calls, c.beganAt ≤ s.scheduledCount
  won_lt : ∀ c ∈ s.calls, c.pc.won = true → c.beganAt < s.scheduledCount
  scheduled : s.status = .scheduled → ∀ c ∈ s.calls, ¬c.Fresh s
  running : s.status = .running → s.FreshLatch → s.wakePending = true ∨ .storeScheduled ∈ s.loops
  parked : s.status = .parked → s.FreshLatch → s.ClaimInFlight ∨ s.ClaimInVerdict

/-- With the trace of every wake in place, no wake is lost. -/
theorem Traced.not_lostWake (h : Traced s) : ¬s.LostWake := by
  rintro ⟨hpark, hidle, ⟨c, hc, hdone, hfresh⟩, hnone⟩
  cases hret : c.pc <;> rw [hret] at hdone <;> try cases hdone
  rename_i claimed
  cases claimed with
  | true =>
    have hlt := h.won_lt c hc (by simp [hret])
    have heq := hfresh.2
    omega
  | false =>
    have hlatch : s.FreshLatch := ⟨c, hc, hfresh, by simp [hret, WakePc.latched]⟩
    rcases h.parked hpark hlatch with hflight | hloop
    · exact hnone hflight
    · rcases hloop with hmem | ⟨_, hmem⟩ <;> cases hidle _ hmem

/-- The state after a spawn has no wake to trace. -/
theorem spawned_traced (n : ℕ) : Traced (spawned n) where
  began_le := by simp
  won_lt := by simp
  scheduled := by simp
  running := by simp
  parked := by simp

/-- After a transition to `SCHEDULED` every call is an old one. -/
theorem Traced.of_scheduled (hstatus : s.status = .scheduled)
    (hlt : ∀ c ∈ s.calls, c.beganAt < s.scheduledCount) : Traced s where
  began_le c hc := Nat.le_of_lt (hlt c hc)
  won_lt c hc _ := hlt c hc
  scheduled _ c hc hfresh := Nat.ne_of_lt (hlt c hc) hfresh.2
  running := by simp [hstatus]
  parked := by simp [hstatus]

/-- The claims of other calls and of the verdict survive a step that moves one call and leaves
the latch set. -/
theorem ClaimInFlight.setCall (hc : s.calls[i]? = some c) (h : s.ClaimInFlight)
    (hcalls : t.calls = s.calls) (hpend : s.wakePending = true → t.wakePending = true)
    {pc : WakePc}
    (hmove : c.pc = .recas ∨ (s.wakePending = true ∧ (c.pc = .reload ∨ c.pc = .exchange)) →
      pc = .recas ∨ (t.wakePending = true ∧ (pc = .reload ∨ pc = .exchange))) :
    (t.setCall i c pc).ClaimInFlight := by
  obtain ⟨d, hd, hclaim⟩ := h
  rcases mem_set_of_mem hc hd with rfl | hmem
  · exact ⟨{ d with pc := pc }, by simpa [TaskSys.setCall, hcalls] using mem_set_new hc,
      hmove hclaim⟩
  · refine ⟨d, by simpa [TaskSys.setCall, hcalls] using hmem, ?_⟩
    exact hclaim.imp_right fun h => ⟨hpend h.1, h.2⟩

section

variable (h : Traced s)
include h

/-- A step that moves one call and keeps the state word. It suffices to account for the latch. -/
theorem Traced.setCall (hc : s.calls[i]? = some c) {pc : WakePc} {P : Prop}
    (hlatch : s.FreshLatch ∨ (c.Fresh s ∧ pc.latched = true) → P)
    (hwon : pc.won = true → c.pc.won = true)
    (hrun : s.status = .running → P → t.wakePending = true ∨ .storeScheduled ∈ s.loops)
    (hpark : s.status = .parked → P →
      (t.setCall i c pc).ClaimInFlight ∨ (t.setCall i c pc).ClaimInVerdict)
    (hcalls : t.calls = s.calls := by rfl) (hloops : t.loops = s.loops := by rfl)
    (hstatus : t.status = s.status := by rfl)
    (hcnt : t.scheduledCount = s.scheduledCount := by rfl) : Traced (t.setCall i c pc) := by
  have hmem := mem_of_getElem? hc
  have hfreshLatch (hf : (t.setCall i c pc).FreshLatch) : P := by
    obtain ⟨d, hd, hfresh, hlatched⟩ := hf
    simp only [TaskSys.setCall, hcalls] at hd
    simp only [TaskSys.setCall, hcnt] at hfresh
    rcases mem_or_eq_of_mem_set hd with hold | rfl
    · exact hlatch (.inl ⟨d, hold, hfresh, hlatched⟩)
    · exact hlatch (.inr ⟨hfresh, hlatched⟩)
  constructor
  · simp only [TaskSys.setCall, hcalls, hcnt]
    exact forall_mem_set h.began_le (h.began_le c hmem)
  · simp only [TaskSys.setCall, hcalls, hcnt]
    exact forall_mem_set h.won_lt fun hw => h.won_lt c hmem (hwon hw)
  · simp only [TaskSys.setCall, hcalls, hcnt, hstatus]
    exact fun hs => forall_mem_set (h.scheduled hs) (h.scheduled hs c hmem)
  · intro hs hf
    simp only [TaskSys.setCall, hloops]
    exact hrun (hstatus ▸ hs) (hfreshLatch hf)
  · intro hs hf
    exact hpark (hstatus ▸ hs) (hfreshLatch hf)

/-- A claim that succeeds makes every call an old one. -/
theorem Traced.schedule_setCall (hc : s.calls[i]? = some c) (pc : WakePc) :
    Traced (s.schedule.setCall i c pc) := by
  refine Traced.of_scheduled rfl ?_
  have hold : ∀ d ∈ s.calls, d.beganAt < s.scheduledCount + 1 :=
    fun d hd => Nat.lt_succ_of_le (h.began_le d hd)
  exact forall_mem_set hold (hold c (mem_of_getElem? hc))

/-- A step of a wake call keeps the trace, unless it steals the latch. -/
theorem Traced.wakeStep (hc : s.calls[i]? = some c) (hok : ¬s.StealsLatch (.wakeStep i))
    (ht : s.wakeStep i c = some s') : Traced s' := by
  have hself {pc : WakePc} (hlatch : pc.latched = true → c.pc.latched = true)
      (hf : s.FreshLatch ∨ (c.Fresh s ∧ pc.latched = true)) : s.FreshLatch :=
    hf.elim id fun hf => ⟨c, mem_of_getElem? hc, hf.1, hlatch hf.2⟩
  obtain ⟨pc, b, n⟩ := c
  cases pc with
  | cas =>
    simp only [TaskSys.wakeStep] at ht
    split at ht <;> cases ht
    · exact h.schedule_setCall hc _
    · rename_i hpark
      exact h.setCall hc (hself (by simp [WakePc.latched])) (by simp) h.running
        fun hs => absurd hs hpark
  | latch =>
    cases ht
    refine h.setCall hc (fun _ => trivial) (by simp) (fun _ _ => .inl rfl) fun _ _ => ?_
    exact .inl ⟨_, mem_set_new hc, .inr ⟨rfl, .inl rfl⟩⟩
  | reload =>
    simp only [TaskSys.wakeStep] at ht
    split at ht <;> cases ht
    · rename_i hs
      refine h.setCall hc (hself fun _ => rfl) (by simp) (by simp [hs]) fun _ hf => ?_
      refine (h.parked hs hf).imp_left fun hclaim => ?_
      exact ClaimInFlight.setCall hc hclaim rfl id (by simp)
    · rename_i hpark
      exact h.setCall hc (hself fun _ => rfl) (by simp) h.running fun hs => absurd hs hpark
  | exchange =>
    simp only [TaskSys.wakeStep] at ht
    split at ht <;> cases ht
    · rename_i hpend
      refine h.setCall hc (hself fun _ => rfl) (by simp) ?_ ?_
      · intro hs hf
        have hlate : s.LateExchange (.wakeStep i) := by simp [TaskSys.LateExchange, hc]
        exact absurd ⟨hlate, hs, hpend, hf⟩ hok
      · exact fun _ _ => .inl ⟨_, mem_set_new hc, .inl rfl⟩
    · rename_i hpend
      refine h.setCall hc (hself fun _ => rfl) (by simp) h.running fun hs hf => ?_
      refine (h.parked hs hf).imp_left fun hclaim => ?_
      exact ClaimInFlight.setCall hc hclaim rfl id (by simp [hpend])
  | recas =>
    simp only [TaskSys.wakeStep] at ht
    split at ht <;> cases ht
    · exact h.schedule_setCall hc _
    · rename_i hpark
      exact h.setCall hc (hself fun _ => rfl) (by simp) h.running fun hs => absurd hs hpark
  | enqueue =>
    cases ht
    refine h.setCall hc (hself (by simp [WakePc.latched])) (by simp) h.running fun hs hf => ?_
    refine (h.parked hs hf).imp_left fun hclaim => ?_
    exact ClaimInFlight.setCall hc hclaim rfl id (by simp)
  | returned b => cases ht

/-- A step that moves one loop and makes no transition to `SCHEDULED`. -/
theorem Traced.setLoop (hsched : t.status = .scheduled → s.status = .scheduled)
    (hrun : t.status = .running → s.FreshLatch →
      t.wakePending = true ∨ .storeScheduled ∈ t.loops.set l pc)
    (hpark : t.status = .parked → s.FreshLatch → t.ClaimInFlight ∨ (t.setLoop l pc).ClaimInVerdict)
    (hcalls : t.calls = s.calls := by rfl)
    (hcnt : t.scheduledCount = s.scheduledCount := by rfl) : Traced (t.setLoop l pc) := by
  have hfresh (c : WakeCall) : c.Fresh (t.setLoop l pc) ↔ c.Fresh s := by
    simp only [WakeCall.Fresh, TaskSys.setLoop, hcnt]
  have hlatch (hf : (t.setLoop l pc).FreshLatch) : s.FreshLatch := by
    obtain ⟨c, hc, hcfresh, hlatched⟩ := hf
    exact ⟨c, hcalls ▸ hc, (hfresh c).mp hcfresh, hlatched⟩
  refine ⟨?_, ?_, ?_, fun hs hf => hrun hs (hlatch hf), fun hs hf => hpark hs (hlatch hf)⟩
  · simpa only [TaskSys.setLoop, hcalls, hcnt] using h.began_le
  · simpa only [TaskSys.setLoop, hcalls, hcnt] using h.won_lt
  · intro hs c hc
    rw [hfresh]
    exact h.scheduled (hsched hs) c (hcalls ▸ hc)

/-- A move of a loop whose program point carries no trace. -/
theorem Traced.moveLoop {old : LoopPc} (hl : s.loops[l]? = some old)
    (hold : old ≠ .storeScheduled) (hclaim : s.status = .parked →
      old ≠ .recas ∧ (s.wakePending = true → old ≠ .recheck))
    (hcalls : t.calls = s.calls := by rfl) (hloops : t.loops = s.loops := by rfl)
    (hcnt : t.scheduledCount = s.scheduledCount := by rfl)
    (hstatus : t.status = s.status := by rfl)
    (hpend : t.wakePending = s.wakePending := by rfl) : Traced (t.setLoop l pc) := by
  have hkeep {other : LoopPc} (hmem : other ∈ s.loops) (hne : old ≠ other) :
      other ∈ t.loops.set l pc := by
    rw [hloops]
    exact (mem_set_of_mem hl hmem).resolve_left hne.symm
  refine h.setLoop (hstatus ▸ id) ?_ ?_ hcalls hcnt
  · intro hs hf
    exact (h.running (hstatus ▸ hs) hf).imp (hpend ▸ id) fun hmem => hkeep hmem hold
  · intro hs hf
    refine (h.parked (hstatus ▸ hs) hf).imp ?_ ?_
    · simp only [TaskSys.ClaimInFlight, hcalls, hpend]
      exact id
    · obtain ⟨hrecas, hrecheck⟩ := hclaim (hstatus ▸ hs)
      exact Or.imp (hkeep · hrecas) fun hre => ⟨hpend ▸ hre.1, hkeep hre.2 (hrecheck hre.1)⟩

/-- A transition to `SCHEDULED` by a loop makes every call an old one. -/
theorem Traced.schedule_setLoop (l : ℕ) (pc : LoopPc) : Traced (s.schedule.setLoop l pc) :=
  Traced.of_scheduled rfl fun c hc => Nat.lt_succ_of_le (h.began_le c hc)

/-- A step of a loop keeps the trace, unless it steals the latch. -/
theorem Traced.loopStep (howned : Owned s) (hl : s.loops[l]? = some pc)
    (hok : ¬s.StealsLatch (.loopStep l)) (ht : s.loopStep l pc = some s') : Traced s' := by
  have hmem := mem_of_getElem? hl
  cases pc with
  | idle =>
    simp only [loopStep] at ht
    split at ht <;> cases ht
    exact h.moveLoop hl (by simp) (by simp)
  | popped =>
    cases ht
    have hs := howned.scheduled_of_holds hmem rfl
    refine h.setLoop (by simp) ?_ (by simp)
    rintro - ⟨c, hc, hfresh, -⟩
    exact absurd hfresh (h.scheduled hs c hc)
  | running => cases ht
  | take =>
    have hs := howned.running_of_inRun hmem rfl
    simp only [loopStep] at ht
    split at ht <;> cases ht
    · exact h.setLoop (by simp) (fun _ _ => .inr (mem_set_new hl)) (by simp [hs])
    · exact h.moveLoop hl (by simp) (by simp)
  | storeScheduled =>
    cases ht
    exact h.schedule_setLoop l _
  | storeParked =>
    cases ht
    have hs := howned.running_of_inRun hmem rfl
    refine h.setLoop (by simp) (by simp) fun _ hf => .inr ?_
    rcases h.running hs hf with hpend | hother
    · exact .inr ⟨hpend, mem_set_new hl⟩
    · cases howned.inRun_unique hl rfl hother rfl
  | recheck =>
    simp only [loopStep] at ht
    split at ht <;> cases ht
    · rename_i hpend
      refine h.setLoop id ?_ fun _ _ => .inr (.inl (mem_set_new hl))
      exact fun hs hf => absurd ⟨hl, hs, hpend, hf⟩ hok
    · rename_i hpend
      exact h.moveLoop hl (by simp) (by simp [hpend])
  | recas =>
    simp only [loopStep] at ht
    split at ht <;> cases ht
    · exact h.schedule_setLoop l _
    · rename_i hpark
      exact h.moveLoop hl (by simp) fun hs => absurd hs hpark
  | enqueue =>
    cases ht
    exact h.moveLoop hl (by simp) (by simp)
  | storeDone =>
    cases ht
    exact h.setLoop (by simp) (by simp) (by simp)

/-- A new wake call carries no trace yet. -/
theorem Traced.wakeBegin (ht : s.step .wakeBegin = some s') : Traced s' := by
  cases ht
  have hold {P : WakeCall → Prop} (hP : ∀ c ∈ s.calls, P c) {d : WakeCall} (hd : P d) :
      ∀ c ∈ s.calls ++ [d], P c := by
    simpa [or_imp, forall_and] using ⟨hP, hd⟩
  have hlatch {t : TaskSys} (hf : t.FreshLatch) {d : WakeCall} (hcalls : t.calls = s.calls ++ [d])
      (hcnt : t.scheduledCount = s.scheduledCount) (hd : d.pc = .cas) : s.FreshLatch := by
    obtain ⟨c, hc, hfresh, hlatched⟩ := hf
    rw [hcalls, mem_append, mem_singleton] at hc
    rw [WakeCall.Fresh, hcnt] at hfresh
    rcases hc with hc | rfl
    · exact ⟨c, hc, hfresh, hlatched⟩
    · rw [hd] at hlatched
      cases hlatched
  constructor
  · exact hold h.began_le (Nat.le_refl _)
  · exact hold h.won_lt (by simp)
  · intro hs
    exact hold (h.scheduled hs) (by simp_all [WakeCall.Fresh])
  · exact fun hs hf => h.running hs (hlatch hf rfl rfl rfl)
  · intro hs hf
    refine (h.parked hs (hlatch hf rfl rfl rfl)).imp_left ?_
    rintro ⟨d, hd, hclaim⟩
    exact ⟨d, mem_append_left _ hd, hclaim⟩

/-- Every step that does not steal the latch keeps the trace. -/
theorem Traced.step (howned : Owned s) (hok : ¬s.StealsLatch a)
    (ht : s.step a = some s') : Traced s' := by
  cases a with
  | wakeBegin => exact h.wakeBegin ht
  | wakeStep i =>
    obtain ⟨c, hc, ht⟩ := bind_eq_some_iff.mp ht
    exact h.wakeStep hc hok ht
  | loopStep l =>
    obtain ⟨pc, hl, ht⟩ := bind_eq_some_iff.mp ht
    exact h.loopStep howned hl hok ht
  | verdict l v =>
    simp only [step] at ht
    split at ht <;> cases ht
    rename_i hl
    exact h.moveLoop hl (by simp) (by simp)

end

/-- **No wake is lost, none is doubled.** In a run whose late exchanges never take the latch of a
wake begun in the present run, no wake is lost; and in every state each transition to `SCHEDULED`
has been enqueued once, or the one thread that made the last of them still owes its enqueue. -/
theorem wake_once_of_no_steal {s : TaskSys}
    (hs : taskSystem.ReachableUnder (fun s a => ¬s.StealsLatch a) s) :
    ¬s.LostWake ∧ s.scheduledCount = s.enqueuedCount + s.owing ∧ s.queued + s.owing ≤ 1 := by
  have hboth : Owned s ∧ Traced s := by
    refine hs.invariant (I := fun s => Owned s ∧ Traced s) ?_ fun _ _ _ h hok hstep =>
      ⟨h.1.step hstep, h.2.step h.1 hok hstep⟩
    rintro _ ⟨n, rfl⟩
    exact ⟨spawned_owned n, spawned_traced n⟩
  exact ⟨hboth.2.not_lostWake, hboth.1.owed, hboth.1.queued_add_owing_le⟩

/-- A wake that races the park of the task it wakes: the waker fails its first exchange, the
verdict stores `PARKED`, and the waker's second look finds it and takes the latch back. -/
def parkRace : List TaskAct :=
  [.loopStep 0, .loopStep 0, .wakeBegin, .wakeStep 0, .verdict 0 .pending, .loopStep 0,
    .loopStep 0, .wakeStep 0, .wakeStep 0, .wakeStep 0, .loopStep 0, .wakeStep 0, .wakeStep 0]

/-- The race of one waker with one park schedules the task and queues it once. -/
theorem wake_once_parkRace :
    ∃ s ∈ taskSystem.runUnder (fun s a => ¬s.StealsLatch a) (.spawned 1) parkRace,
      (s.status = .scheduled ∧ s.queued = 1) ∧
      ¬s.LostWake ∧ s.scheduledCount = s.enqueuedCount + s.owing ∧ s.queued + s.owing ≤ 1 := by
  exact System.exists_run ⟨1, rfl⟩ (by decide) fun s _ hs _ => wake_once_of_no_steal hs

/-- A waker that loaded `PARKED` is delayed before its exchange. The task is woken by the verdict,
runs again, and a second waker latches its wake and returns; the delayed exchange takes that
latch, its claim fails because the task is `RUNNING`, and the run parks. -/
def delayedWaker : List TaskAct :=
  [.loopStep 0, .loopStep 0, .verdict 0 .pending, .wakeBegin, .wakeStep 0, .loopStep 0,
    .wakeStep 0, .loopStep 0, .wakeStep 0, .loopStep 0, .loopStep 0, .loopStep 0,
    .loopStep 0, .loopStep 0, .wakeBegin, .wakeStep 1, .wakeStep 1, .wakeStep 1,
    .wakeStep 0, .wakeStep 0, .verdict 0 .pending, .loopStep 0, .loopStep 0, .loopStep 0]

/-- The wake of the second waker is lost. -/
theorem delayedWaker_lostWake : ∃ s ∈ taskSystem.run (.spawned 1) delayedWaker, s.LostWake := by
  decide

/-- While a loop is inside a run of the task, also where wakes get lost, it is the only one, the
task is in no queue, no loop has popped it and nobody owes its enqueue. -/
theorem runs_alone {s : TaskSys} (hs : taskSystem.Reachable s) {pc : LoopPc} (hmem : pc ∈ s.loops)
    (hpc : pc.inRun = true) : s.status = .running ∧ s.loops.countP LoopPc.inRun = 1 ∧
      s.queued + s.calls.countP (·.pc.owes) + s.loops.countP LoopPc.holds = 0 := by
  have h : Owned s := by
    refine hs.invariant ?_ fun _ _ _ h _ hstep => h.step hstep
    rintro _ ⟨n, rfl⟩
    exact spawned_owned n
  have hrunning := h.running_of_inRun hmem hpc
  have hholder := h.holder
  have hrunner := h.runner
  rw [hrunning] at hholder hrunner
  exact ⟨hrunning, hrunner, hholder⟩

theorem runs_alone_second : ∃ s ∈ taskSystem.run (.spawned 2) [.loopStep 1, .loopStep 1],
    LoopPc.running ∈ s.loops ∧ s.loops.countP LoopPc.inRun = 1 :=
  System.exists_run ⟨2, rfl⟩ (by decide) fun _ _ hs hmem => (runs_alone hs hmem rfl).2.1

end LibXtc.Task

import LibXtc.Foundations.Runs
import LibXtc.Foundations.Lists

/-!
# The wake and park protocol of one task

`__task_wake_claim` (`src/evt/task.c`) and the verdict of `__xtc_loop_step` (`src/evt/loop.c`)
share two atomic words of a task, `state` and `wake_pending`. The model gives each atomic access
its own step, so that any number of wake calls and loops may be interleaved between them under
sequential consistency. A task may be popped by any loop that is not already handling it.
-/

namespace LibXtc.Task

open Foundations

/-- The values `XTC_TS_*` of the task's state word. -/
inductive TaskStatus
  | scheduled | running | parked | done
  deriving DecidableEq

/-- The next atomic access of a call to `__task_wake_claim`, in program order. -/
inductive WakePc
  /-- The first exchange `PARKED → SCHEDULED`. -/
  | cas
  /-- The store of `wake_pending`. -/
  | latch
  /-- The second look at the state word. -/
  | reload
  /-- The exchange that takes the latch back. -/
  | exchange
  /-- The second exchange `PARKED → SCHEDULED`. -/
  | recas
  /-- The claim succeeded and the caller must queue the task. -/
  | enqueue
  /-- The call is over; `claimed` is its result. -/
  | returned (claimed : Bool)
  deriving DecidableEq

/-- The next atomic access of a loop to the task it handles. -/
inductive LoopPc
  /-- The loop does not handle the task. -/
  | idle
  /-- `__queue_pop` returned the task. -/
  | popped
  /-- The task's function runs. -/
  | running
  /-- `XTC_TASK_PENDING`: the first exchange of `wake_pending`. -/
  | take
  /-- The store of `SCHEDULED`, after a taken latch or for `XTC_TASK_RESCHED`. -/
  | storeScheduled
  /-- The store of `PARKED`. -/
  | storeParked
  /-- The second exchange of `wake_pending`. -/
  | recheck
  /-- The verdict's exchange `PARKED → SCHEDULED`. -/
  | recas
  /-- The task is `SCHEDULED` and the loop must queue it. -/
  | enqueue
  /-- `XTC_TASK_DONE`: the store of `DONE`. -/
  | storeDone
  deriving DecidableEq

/-- What the task's function returned. -/
inductive Verdict
  | done | resched | pending
  deriving DecidableEq

/-- One call to `__task_wake_claim`, with a record of the moment at which it began. -/
structure WakeCall where
  pc : WakePc
  /-- The task was `RUNNING` when the call began. -/
  beganRunning : Bool
  /-- The number of transitions to `SCHEDULED` made before the call began. -/
  beganAt : ℕ
  deriving DecidableEq

/-- A task, its wake calls and the loops that may run it. The two counters record history and
are never read by a step. -/
structure TaskSys where
  /-- `t->state`. -/
  status : TaskStatus
  /-- `t->wake_pending`. -/
  wakePending : Bool
  /-- The number of run-queue and inbox links that name the task. -/
  queued : ℕ
  loops : List LoopPc
  calls : List WakeCall
  /-- Transitions to `SCHEDULED` made so far. -/
  scheduledCount : ℕ
  /-- Calls to `__xtc_loop_enqueue` or `__xtc_inbox_push` made so far. -/
  enqueuedCount : ℕ
  deriving DecidableEq

/-- The scheduler's choice of the next atomic step. -/
inductive TaskAct
  | wakeBegin
  | wakeStep (call : ℕ)
  | loopStep (loop : ℕ)
  | verdict (loop : ℕ) (v : Verdict)
  deriving DecidableEq

namespace TaskSys

/-- A freshly spawned task: `SCHEDULED` and in one queue, with `n` loops that may run it. -/
def spawned (n : ℕ) : TaskSys where
  status := .scheduled
  wakePending := false
  queued := 1
  loops := List.replicate n .idle
  calls := []
  scheduledCount := 1
  enqueuedCount := 1

section

variable (s : TaskSys)

/-- Move call `i`, which is `c`, to `pc`. -/
def setCall (i : ℕ) (c : WakeCall) (pc : WakePc) : TaskSys :=
  { s with calls := s.calls.set i { c with pc := pc } }

/-- Move loop `l` to `pc`. -/
def setLoop (l : ℕ) (pc : LoopPc) : TaskSys :=
  { s with loops := s.loops.set l pc }

/-- The state word becomes `SCHEDULED`. -/
def schedule : TaskSys :=
  { s with status := .scheduled, scheduledCount := s.scheduledCount + 1 }

/-- The task is linked into a queue. -/
def link : TaskSys :=
  { s with queued := s.queued + 1, enqueuedCount := s.enqueuedCount + 1 }

/-- One atomic access of `__task_wake_claim`, or the enqueue its caller owes. -/
def wakeStep (i : ℕ) (c : WakeCall) : Option TaskSys :=
  match c.pc with
  | .cas =>
    if s.status = .parked then some (s.schedule.setCall i c .enqueue)
    else some (s.setCall i c .latch)
  | .latch => some ({ s with wakePending := true }.setCall i c .reload)
  | .reload =>
    if s.status = .parked then some (s.setCall i c .exchange)
    else some (s.setCall i c (.returned false))
  | .exchange =>
    if s.wakePending then some ({ s with wakePending := false }.setCall i c .recas)
    else some (s.setCall i c (.returned false))
  | .recas =>
    if s.status = .parked then some (s.schedule.setCall i c .enqueue)
    else some (s.setCall i c (.returned false))
  | .enqueue => some (s.link.setCall i c (.returned true))
  | .returned _ => none

/-- One atomic access of a loop: the pop, the store of `RUNNING`, or a part of the verdict. -/
def loopStep (l : ℕ) (pc : LoopPc) : Option TaskSys :=
  match pc with
  | .idle =>
    if 0 < s.queued then some ({ s with queued := s.queued - 1 }.setLoop l .popped) else none
  | .popped => some ({ s with status := .running }.setLoop l .running)
  | .running => none
  | .take =>
    if s.wakePending then some ({ s with wakePending := false }.setLoop l .storeScheduled)
    else some (s.setLoop l .storeParked)
  | .storeScheduled => some (s.schedule.setLoop l .enqueue)
  | .storeParked => some ({ s with status := .parked }.setLoop l .recheck)
  | .recheck =>
    if s.wakePending then some ({ s with wakePending := false }.setLoop l .recas)
    else some (s.setLoop l .idle)
  | .recas =>
    if s.status = .parked then some (s.schedule.setLoop l .enqueue)
    else some (s.setLoop l .idle)
  | .enqueue => some (s.link.setLoop l .idle)
  | .storeDone => some ({ s with status := .done }.setLoop l .idle)

end

/-- Where the verdict begins, by what the task's function returned. -/
def verdictPc : Verdict → LoopPc
  | .done => .storeDone
  | .resched => .storeScheduled
  | .pending => .take

/-- One step of the whole system. -/
def step (s : TaskSys) : TaskAct → Option TaskSys
  | .wakeBegin =>
    some { s with
      calls := s.calls ++ [⟨.cas, decide (s.status = .running), s.scheduledCount⟩] }
  | .wakeStep i => s.calls[i]?.bind (s.wakeStep i)
  | .loopStep l => s.loops[l]?.bind (s.loopStep l)
  | .verdict l v => if s.loops[l]? = some .running then some (s.setLoop l (verdictPc v)) else none

end TaskSys

/-- The protocol as a transition system, started by a spawn. -/
def taskSystem : System TaskSys TaskAct where
  init s := ∃ n, s = TaskSys.spawned n
  step := TaskSys.step

end LibXtc.Task

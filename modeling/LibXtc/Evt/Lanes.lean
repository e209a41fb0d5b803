import LibXtc.Foundations.Runs
import LibXtc.Foundations.Scan

/-!
# The lanes of a loop

A loop holds its ready tasks in lanes: one queue for each scheduling class and a default lane for
all other tasks. Without a policy the lane with the smallest virtual time is served; a policy
chooses the lane itself, within a limit on how often a ready lane may be passed over. This is
`__xtc_loop_enqueue`, `__queue_pop`, `__policy_pop`, `__xtc_loop_class_create` and the part of
`__xtc_loop_step` around the run of a task (`src/evt/loop.c`), with `src/evt/sched.c`.

No other loop steals from the default lane. A lane is `none` for the default lane (`-1` in the
code) and `some c` for class `c`.
-/

namespace LibXtc.Lanes

open Foundations

abbrev Lane := Option ℕ

instance : LawfulBEq Lane := inferInstance

/-- A task, with its `sched_class`; `none` is `-1`. Tags come from the home loop of a task, so they
may be no class of this loop. -/
structure Task where
  schedClass : Option ℕ
  deriving DecidableEq

/-- `struct xtc_run_class`. -/
structure RunClass where
  shares : ℕ
  reciprocal : ℕ
  vruntime : ℕ
  queue : List Task
  deriving DecidableEq

/-- The part of `xtc_loop_t` that the lanes use, with the task that is running. `fifo` is
`q_head`, `deque` has its oldest task first, and `maxBypass` is `none` when there is no policy.

The rest is history: the lane from which the running task was taken, how often each lane has been
passed over since it was served or empty, and the lane and the cost of each run. -/
structure State where
  classes : List RunClass
  fifo : List Task
  deque : List Task
  popFlip : Bool
  defaultVruntime : ℕ
  maxBypass : Option ℕ
  bypasses : Lane → ℕ
  running : Option (Task × Lane)
  bypassed : Lane → ℕ
  log : List (Lane × ℕ)

/-- A new loop. -/
def State.create (maxBypass : Option ℕ) : State :=
  { classes := [], fifo := [], deque := [], popFlip := false, defaultVruntime := 0,
    maxBypass := maxBypass, bypasses := fun _ => 0, running := none, bypassed := fun _ => 0,
    log := [] }

/-- `XTC_LOOP_MAX_CLASSES`. -/
def maxClasses : ℕ := 16

/-- `XTC_DEFAULT_CLASS_RECIP`. -/
def defaultRecip : ℕ := (1 <<< 22) / 100

/-- `XTC_VRUNTIME_MIN_QUANTUM_NS`. -/
def minQuantum : ℕ := 1000

/-- `UINT64_MAX`. -/
def uint64Max : ℕ := 2 ^ 64 - 1

namespace State

section

variable (s : State)

/-- The lanes in the order of the scans. -/
def lanes : List Lane := none :: (List.range s.classes.length).map some

/-- The tasks of a lane. -/
def tasks : Lane → List Task
  | none => s.fifo ++ s.deque
  | some c => (s.classes[c]?.map RunClass.queue).getD []

/-- `__sched_ready`. -/
def ready (lane : Lane) : Bool := !(s.tasks lane).isEmpty

/-- The virtual time of a lane. -/
def vruntime : Lane → ℕ
  | none => s.defaultVruntime
  | some c => (s.classes[c]?.map RunClass.vruntime).getD 0

/-- The factor by which the cost of a run counts for a lane. -/
def reciprocal : Lane → ℕ
  | none => defaultRecip
  | some c => (s.classes[c]?.map RunClass.reciprocal).getD 0

/-- The lane of a task: its class if this loop has it, else the default lane. The code makes this
test where it enqueues a task, before it runs it and after. -/
def laneOf (t : Task) : Lane := t.schedClass.filter (· < s.classes.length)

/-- `__xtc_loop_enqueue`. `pushed` says that a task for the default lane goes to the deque: the loop
belongs to an executor, the task is not pinned and the deque has room. -/
def enqueue (t : Task) (pushed : Bool) : State :=
  match s.laneOf t with
  | some c =>
    { s with classes := s.classes.modify c fun rc => { rc with queue := rc.queue ++ [t] } }
  | none =>
    if pushed then { s with deque := s.deque ++ [t] } else { s with fifo := s.fifo ++ [t] }

/-- `__default_pop`. -/
def defaultPop : Option (Task × State) :=
  match s.fifo, s.deque with
  | [], [] => none
  | [], t :: deque => some (t, { s with deque := deque })
  | t :: fifo, [] => some (t, { s with fifo := fifo })
  | t :: fifo, u :: deque =>
    if s.popFlip then some (u, { s with deque := deque, popFlip := false })
    else some (t, { s with fifo := fifo, popFlip := true })

/-- The head of the queue of a class. -/
def classPop (c : ℕ) : Option (Task × State) :=
  match s.classes[c]? with
  | none => none
  | some rc =>
    match rc.queue with
    | [] => none
    | t :: queue => some (t, { s with classes := s.classes.set c { rc with queue := queue } })

/-- Pop from a lane, with the lane. -/
def popLane (lane : Lane) : Option (Task × Lane × State) :=
  match lane with
  | none => s.defaultPop.map fun r => (r.1, none, r.2)
  | some c => (s.classPop c).map fun r => (r.1, some c, r.2)

/-- The scan of `__queue_pop`: the ready lane with the smallest virtual time. -/
def best : Option Lane :=
  scan s.ready (fun lane b => s.vruntime lane < s.vruntime b) s.lanes

/-- `__queue_pop`. -/
def queuePop : Option (Task × Lane × State) :=
  if 0 < s.classes.length then s.best.bind s.popLane
  else s.popLane none

/-- A scan that resets what is counted for the lanes that are not ready. -/
def resetIdle : State :=
  { s with bypasses := fun l => if l ∈ s.lanes ∧ s.ready l = false then 0 else s.bypasses l }

/-- The scan of `__xtc_sched_select`: among the ready lanes that have been passed over too often,
the one that waits longest. -/
def forced (maxBypass : ℕ) : Option Lane :=
  scan (fun lane => s.ready lane && decide (maxBypass ≤ s.bypasses lane))
    (fun lane f => s.bypasses f < s.bypasses lane) s.lanes

/-- `__xtc_sched_select` after the lanes that are not ready have been reset: `choice` is what the
callback of the policy returns, `none` if that is not the number of a lane. The result `none` is
`XTC_SCHED_DEFAULT`. -/
def select (maxBypass : ℕ) (choice : Option Lane) : Option Lane :=
  match s.forced maxBypass with
  | some lane => some lane
  | none => choice.filter fun l => l ∈ s.lanes ∧ s.ready l

/-- `__policy_pop` with a policy, after the reset. The second ordinary pick of the code is for a
thief between the two, so it is not here. -/
def policyPop (maxBypass : ℕ) (choice : Option Lane) : Option (Task × Lane × State) :=
  match (s.select maxBypass choice).bind s.popLane with
  | some r => some r
  | none => s.queuePop

/-- `__xtc_sched_service`. -/
def service (lane : Lane) : State :=
  { s with bypasses := fun l =>
      if l ∈ s.lanes then
        if l = lane ∨ s.ready l = false then 0
        else if s.bypasses l = uint64Max then uint64Max else s.bypasses l + 1
      else s.bypasses l }

/-- The run of a task begins; the history counts the lanes that were passed over. -/
def start (t : Task) (lane : Lane) (ready : Lane → Bool) : State :=
  { s with
    running := some (t, lane),
    bypassed := fun l => if l = lane then 0 else if ready l then s.bypassed l + 1 else 0 }

/-- `__xtc_loop_step` up to the run of the task that it takes, if there is one. -/
def pop (choice : Option Lane) : Option State :=
  match s.running, s.maxBypass with
  | some _, _ => none
  | none, none =>
    match s.queuePop with
    | none => some s
    | some (t, lane, s') => some (s'.start t lane s.ready)
  | none, some maxBypass =>
    match s.resetIdle.policyPop maxBypass choice with
    | none => some s.resetIdle
    | some (t, lane, s') => some ((s'.service (s'.laneOf t)).start t lane s.ready)

/-- The running task changes its class: `xtc_proc_set_class`, or the class it was spawned with. -/
def setClass (schedClass : Option ℕ) : Option State :=
  match s.running with
  | none => none
  | some (_, lane) => some { s with running := some (⟨schedClass⟩, lane) }

end

/-- What a run of this cost adds to a virtual time. -/
def accrual (cost reciprocal : ℕ) : ℕ := ((cost * reciprocal) % 2 ^ 64) >>> 12

/-- The accrual at the end of a run, to the class that the task has then. -/
def accrue (s : State) (t : Task) (cost : ℕ) : State :=
  if 0 < s.classes.length then
    match s.laneOf t with
    | some c =>
      { s with classes := s.classes.modify c fun rc =>
          { rc with vruntime := (rc.vruntime + accrual cost rc.reciprocal) % 2 ^ 64 } }
    | none =>
      { s with defaultVruntime := (s.defaultVruntime + accrual cost defaultRecip) % 2 ^ 64 }
  else s

/-- The cost of a run. -/
def costOf (elapsed : ℕ) : ℕ := if elapsed < minQuantum then minQuantum else elapsed

/-- The task returns after `elapsed` nanoseconds. It is enqueued again, if it asks for it or was
woken meanwhile; `resched` then says where, as for `enqueue`. -/
def finish (s : State) (elapsed : ℕ) (resched : Option Bool) : Option State :=
  match s.running with
  | none => none
  | some (t, lane) =>
    let s := { s.accrue t (costOf elapsed) with
      running := none, log := s.log ++ [(lane, costOf elapsed)] }
    let s := match resched with
      | some pushed => s.enqueue t pushed
      | none => s
    -- `__xtc_sched_ran`
    some (if s.maxBypass.isSome then s.resetIdle else s)

/-- The smallest virtual time of the classes; `0` if there is none. -/
def minVruntime : List RunClass → ℕ
  | [] => 0
  | rc :: rest =>
    rest.foldl (fun minvr rc => if rc.vruntime < minvr then rc.vruntime else minvr) rc.vruntime

/-- `__xtc_loop_class_create`. -/
def classCreate (s : State) (shares : ℕ) : State :=
  if shares < 1 ∨ 1000 < shares then s
  else if maxClasses ≤ s.classes.length then s
  else
    { s with classes := s.classes ++
        [⟨shares, (1 <<< 22) / shares, minVruntime s.classes, []⟩] }

end State

/-- What can happen on the thread of a loop. -/
inductive Act
  /-- A task becomes ready: it is new, it was woken or it comes from another loop. -/
  | enqueue (t : Task) (pushed : Bool)
  | classCreate (shares : ℕ)
  | pop (choice : Option Lane)
  | setClass (schedClass : Option ℕ)
  | finish (elapsed : ℕ) (resched : Option Bool)

/-- One step. -/
def State.act (s : State) : Act → Option State
  | .enqueue t pushed => some (s.enqueue t pushed)
  | .classCreate shares => some (s.classCreate shares)
  | .pop choice => s.pop choice
  | .setClass schedClass => s.setClass schedClass
  | .finish elapsed resched => s.finish elapsed resched

/-- A loop from its creation, with or without a policy. -/
def system (maxBypass : Option ℕ) : System State Act where
  init s := s = State.create maxBypass
  step := State.act

end LibXtc.Lanes

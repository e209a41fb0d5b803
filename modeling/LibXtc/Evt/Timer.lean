import LibXtc.Foundations.IndexedHeap
import LibXtc.Foundations.Int64
import LibXtc.Foundations.Runs

/-!
# The timers of a loop

The loop's thread keeps a heap of timers. Fibers arm timers with `xtc_timer_set` and
`xtc_task_park_on_timer`, on the loop's thread; they cancel them there or, after a migration, on
another thread, where a cancel can only mark the timer. The loop drains the due timers and, before
it sleeps, drops cancelled ones from the root. A step is one access to what other threads also
use (`fired`, `cancelled`, `refs`, a task's `park_timer`), with the private work around it.

The heap and what surrounds it belong to the loop's thread: while a push sweeps the heap, or the
loop is in its drain, no fiber touches them; a timer's callback runs inside the drain and may arm
and cancel, and its calls are those of some fiber here.
-/

namespace LibXtc.Timers

open Foundations

/-- The arbiter between a fire and a cancel (`fired`). -/
inductive Fired
  | pending
  | fired
  | cancelled
  deriving DecidableEq

/-- A timer (`struct xtc_timer`). A park timer has the task that it wakes as `waiter`; a timer of
`xtc_timer_set` may have a `handle` that the caller has not released. Its `heap_idx` is kept in
the heap. -/
structure Timer where
  deadline : ℤ
  waiter : Option ℕ
  cancelled : Bool
  fired : Fired
  refs : ℕ
  handle : Bool
  deriving DecidableEq

/-- Where a fiber is in the timer calls. `park` says that a cancel is that of
`__xtc_task_cancel_park_timer`, which has taken the timer out of the fiber's slot. -/
inductive Pc
  | idle
  /-- Its push is sweeping the heap. -/
  | arming
  /-- At the store of `park_timer`. -/
  | store (t : ℕ)
  /-- At the compare-and-swap of `fired`. -/
  | cas (t : ℕ) (park : Bool)
  /-- At the store of `cancelled`. -/
  | mark (t : ℕ) (park : Bool)
  /-- At the removal from the heap. -/
  | remove (t : ℕ) (park : Bool)
  /-- At the release of the reference that the slot had. -/
  | release (t : ℕ)
  deriving DecidableEq

/-- A fiber and its slot `park_timer`. -/
structure Fiber where
  pc : Pc
  parkTimer : Option ℕ
  deriving DecidableEq

/-- Where the loop is. -/
inductive Drain
  | idle
  /-- In `__xtc_timer_heap_pop_due`, about to look at the root. -/
  | top (now : ℤ)
  /-- The root is due; at the compare-and-swap of its `fired`. -/
  | claim (now : ℤ)
  /-- The timer was claimed and popped; at the test of `cancelled`. -/
  | popped (now : ℤ) (t : ℕ)
  /-- In the timer's callback. -/
  | callback (now : ℤ) (t : ℕ)
  /-- At the compare-and-swap of the waiter's `park_timer`. -/
  | wake (now : ℤ) (t waiter : ℕ)
  /-- At the release of the reference that the slot had. -/
  | releaseSlot (now : ℤ) (t : ℕ)
  /-- At the release of the heap's reference. -/
  | letGo (now : ℤ) (t : ℕ)
  /-- The clock was read for the poll timeout; in `__xtc_timer_heap_next_deadline`, about to look
  at the root. -/
  | peek (now : ℤ)
  deriving DecidableEq

/-- A push in the middle of `__sweep_cancelled`: the fiber, its timer, the slot to look at and the
number of slots kept. -/
structure Sweep where
  fiber : ℕ
  timer : Timer
  next : ℕ
  kept : ℕ

/-- The loop, its timers and its fibers, with the history: the timers pushed, those popped or
removed, those that fired, were cancelled and were freed, the deadlines of the fires of the
current or last drain, and whether a timer was armed in it for an instant before its own. -/
structure State where
  now : ℤ
  heap : IndexedHeap ℤ ℕ
  capTimers : ℕ
  timer : ℕ → Timer
  created : ℕ
  fibers : List Fiber
  drain : Drain
  sweep : Option Sweep
  /-- The last timeout computed for the poll. -/
  timeout : Option ℤ
  pushed : List ℕ
  left : List ℕ
  fires : List ℕ
  cancels : List ℕ
  freed : List ℕ
  drained : List ℤ
  armedEarly : Bool

/-- A loop without timers and with `n` fibers, at time `now`. -/
def State.create (n : ℕ) (now : ℤ) : State :=
  { now := now, heap := ⟨fun _ => (0, 0), 0, fun _ => none⟩, capTimers := 0,
    timer := fun _ => ⟨0, none, false, .pending, 0, false⟩, created := 0,
    fibers := List.replicate n ⟨.idle, none⟩, drain := .idle, sweep := none, timeout := none,
    pushed := [], left := [], fires := [], cancels := [], freed := [], drained := [],
    armedEarly := false }

section

variable (s : State)

def State.put (i : ℕ) (f : Fiber) : State := { s with fibers := s.fibers.set i f }

def State.modify (t : ℕ) (f : Timer → Timer) : State :=
  { s with timer := Function.update s.timer t (f (s.timer t)) }

/-- Drop one reference; the last one frees the timer (`__xtc_timer_park_release`). -/
def State.release (t : ℕ) : State :=
  { s.modify t fun r => { r with refs := r.refs - 1 } with
    freed := if (s.timer t).refs = 1 then s.freed ++ [t] else s.freed }

/-- The timer at the root. -/
def State.root : ℕ := (s.heap.slots 0).2

/-- Pop the root (`__heap_pop_unsafe`). -/
def State.pop : State :=
  { s with heap := s.heap.popRoot, left := s.left ++ [s.root] }

/-- Remove the timer at position `j` (`__heap_remove_at`) and drop the heap's reference. -/
def State.remove (t j : ℕ) : State :=
  { s with heap := s.heap.removeAt j, left := s.left ++ [t] }.release t

/-- No fiber is inside a push, and the loop is not in its drain or in a callback of it. -/
def State.ownerFree : Bool :=
  s.sweep.isNone && match s.drain with
    | .idle | .callback _ _ => true
    | _ => false

end

/-- The instant of the drain that a callback runs in. -/
def Drain.callbackTime : Drain → Option ℤ
  | .callback now _ => some now
  | _ => none

/-- What a fiber does after its timer was pushed: a park stores it in the slot. -/
def afterPush (f : Fiber) (r : Timer) (t : ℕ) : Fiber :=
  { f with pc := if r.waiter.isSome then .store t else .idle }

section

variable (s : State) (i : ℕ) (f : Fiber) (r : Timer)

/-- The end of `__heap_push`: the new timer gets a slot. -/
def State.insert : State :=
  { s.put i (afterPush f r s.created) with
    heap := s.heap.push (r.deadline, s.created)
    timer := Function.update s.timer s.created r
    created := s.created + 1
    pushed := s.pushed ++ [s.created]
    armedEarly := s.armedEarly || s.drain.callbackTime.any fun now => r.deadline < now }

/-- `__grow`, if the heap is still more than half full; without memory the push fails. -/
def State.growAndInsert (ok : Bool) : State :=
  if s.capTimers = 0 ∨ s.capTimers / 2 < s.heap.size then
    if ok then
      { s with capTimers := if s.capTimers = 0 then 8 else s.capTimers * 2 }.insert i f r
    else s.put i { f with pc := .idle }
  else s.insert i f r

/-- `__heap_push`: a full heap is swept first. -/
def State.push (ok : Bool) : State :=
  if s.capTimers ≤ s.heap.size then
    if 0 < s.heap.size then { s.put i { f with pc := .arming } with sweep := some ⟨i, r, 0, 0⟩ }
    else s.growAndInsert i f r ok
  else s.insert i f r

end

/-- `__sweep_cancelled`: one slot, or the end of it and of the push. -/
def State.sweepStep (s : State) (w : Sweep) (ok : Bool) : Option State :=
  if w.next < s.heap.size then
    let t := (s.heap.slots w.next).2
    if (s.timer t).fired = .cancelled then
      some ({ s with
        heap := s.heap.forget t, left := s.left ++ [t],
        sweep := some { w with next := w.next + 1 } }.release t)
    else
      some { s with
        heap := s.heap.keep w.next w.kept,
        sweep := some { w with next := w.next + 1, kept := w.kept + 1 } }
  else
    s.fibers[w.fiber]?.map fun f =>
      { s with
        heap := { s.heap with size := w.kept }.heapify (w.kept / 2)
        sweep := none }.growAndInsert w.fiber f w.timer ok

/-- The new timer of `xtc_timer_set`, with or without a handle. -/
def newTimer (deadline : ℤ) (handle : Bool) : Timer :=
  ⟨deadline, none, false, .pending, if handle then 2 else 1, handle⟩

/-- The new timer of `__xtc_task_park_on_timer_at`. -/
def newParkTimer (deadline : ℤ) (i : ℕ) : Timer := ⟨deadline, some i, false, .pending, 2, false⟩

/-- `now + delay`, as all callers compute a deadline. -/
def deadlineAfter (now delay : ℤ) : ℤ := wrapInt64 (now + delay)

/-- `__xtc_task_park_on_timer_at`: a fiber with a timer in its slot is refused. -/
def State.parkOnTimerAt (s : State) (i : ℕ) (f : Fiber) (deadline : ℤ) (ok : Bool) : State :=
  if f.parkTimer.isSome then s else s.push i f (newParkTimer deadline i) ok

/-- After a cancel, `__xtc_task_cancel_park_timer` drops the slot's reference. -/
def afterCancel (f : Fiber) (t : ℕ) (park : Bool) : Fiber :=
  { f with pc := if park then .release t else .idle }

/-- A fiber's next step. `onOwner` is whether it runs on the loop's thread. -/
def State.fiberStep (s : State) (i : ℕ) (onOwner : Bool) (f : Fiber) : Option State :=
  match f.pc with
  | .idle | .arming => none
  | .store t => some (s.put i ⟨.idle, some t⟩)
  | .cas t park =>
    if (s.timer t).fired = .pending then
      some { (s.modify t fun r => { r with fired := .cancelled }).put i
        { f with pc := .mark t park }
        with cancels := s.cancels ++ [t] }
    else some (s.put i (afterCancel f t park))
  | .mark t park =>
    some ((s.modify t fun r => { r with cancelled := true }).put i { f with pc := .remove t park })
  | .remove t park =>
    if onOwner then
      if s.ownerFree then
        match s.heap.index t with
        | some j => some ((s.remove t j).put i (afterCancel f t park))
        | none => some (s.put i (afterCancel f t park))
      else none
    else some (s.put i (afterCancel f t park))
  | .release t => some ((s.release t).put i { f with pc := .idle })

/-- The poll timeout that `__xtc_loop_step` computes from the next deadline. -/
def pollTimeout (nextDeadline now : ℤ) : ℤ :=
  if 0 ≤ nextDeadline then
    let timeout := wrapInt64 (nextDeadline - now)
    if timeout < 0 then 0 else timeout
  else -1

/-- The loop's next step, in `__xtc_drain_due_timers` or in `__xtc_timer_heap_next_deadline`. -/
def State.drainStep (s : State) : Option State :=
  match s.drain with
  | .idle => none
  | .top now =>
    if s.heap.size = 0 then some { s with drain := .idle }
    else if (s.timer s.root).fired = .cancelled then some (s.pop.release s.root)
    else if now < (s.heap.slots 0).1 then some { s with drain := .idle }
    else some { s with drain := .claim now }
  | .claim now =>
    if (s.timer s.root).fired = .pending then
      some { (s.modify s.root fun r => { r with fired := .fired }).pop with
        drain := .popped now s.root }
    else some { s.pop.release s.root with drain := .top now }
  | .popped now t =>
    if (s.timer t).cancelled then some { s with drain := .letGo now t }
    else
      some { s.modify t fun r => { r with fired := .fired } with
        drain := .callback now t
        fires := s.fires ++ [t]
        drained := s.drained ++ [(s.timer t).deadline] }
  | .callback now t =>
    if s.sweep.isNone then
      match (s.timer t).waiter with
      | some w => some { s with drain := .wake now t w }
      | none => some { s with drain := .letGo now t }
    else none
  | .wake now t w =>
    match s.fibers[w]? with
    | some f =>
      if f.parkTimer = some t then
        some { s.put w { f with parkTimer := none } with drain := .releaseSlot now t }
      else some { s with drain := .letGo now t }
    | none => some { s with drain := .letGo now t }
  | .releaseSlot now t => some { s.release t with drain := .letGo now t }
  | .letGo now t => some { s.release t with drain := .top now }
  | .peek now =>
    if s.heap.size = 0 then some { s with drain := .idle, timeout := some (pollTimeout (-1) now) }
    else if (s.timer s.root).fired = .cancelled then some (s.pop.release s.root)
    else some { s with drain := .idle, timeout := some (pollTimeout (s.heap.slots 0).1 now) }

/-- A fiber is in the middle of a cancel of `t` through the handle. -/
def Fiber.usesHandle (f : Fiber) (t : ℕ) : Bool :=
  f.pc = .cas t false || f.pc = .mark t false || f.pc = .remove t false

/-- What can happen. A fiber calls one of the functions, or takes its next step; the loop starts a
drain or a peek, or takes its next step; a push goes on sweeping; the clock advances. `ok` is
whether a reallocation succeeds. -/
inductive Act
  | timerSet (i : ℕ) (delay : ℤ) (handle ok : Bool)
  | parkOnTimer (i : ℕ) (delay : ℤ) (ok : Bool)
  | parkOnTimerAt (i : ℕ) (deadline : ℤ) (ok : Bool)
  | cancelParkTimer (i : ℕ)
  | timerCancel (i t : ℕ)
  | timerRelease (i t : ℕ)
  | fiber (i : ℕ) (onOwner : Bool)
  | sweep (ok : Bool)
  | startDrain
  | startPeek
  | drain
  | tick (now : ℤ)

/-- One step. A timer is armed only on the loop's thread. A handle is used only until it is
released, which is not while a cancel through it is under way. -/
def State.act (s : State) : Act → Option State
  | .timerSet i delay handle ok =>
    (s.fibers[i]?).bind fun f =>
      if f.pc = .idle ∧ s.ownerFree then
        if delay < 0 then some s
        else some (s.push i f (newTimer (deadlineAfter s.now delay) handle) ok)
      else none
  | .parkOnTimer i delay ok =>
    (s.fibers[i]?).bind fun f =>
      if f.pc = .idle ∧ s.ownerFree then
        if delay < 0 then some s
        else some (s.parkOnTimerAt i f (deadlineAfter s.now delay) ok)
      else none
  | .parkOnTimerAt i deadline ok =>
    (s.fibers[i]?).bind fun f =>
      if f.pc = .idle ∧ s.ownerFree then some (s.parkOnTimerAt i f deadline ok) else none
  | .cancelParkTimer i =>
    (s.fibers[i]?).bind fun f =>
      if f.pc = .idle then
        match f.parkTimer with
        | some t => some (s.put i ⟨.cas t true, none⟩)
        | none => some s
      else none
  | .timerCancel i t =>
    (s.fibers[i]?).bind fun f =>
      if f.pc = .idle ∧ t < s.created ∧ (s.timer t).handle then
        some (s.put i { f with pc := .cas t false })
      else none
  | .timerRelease i t =>
    (s.fibers[i]?).bind fun f =>
      if f.pc = .idle ∧ t < s.created ∧ (s.timer t).handle ∧
          s.fibers.all (fun g => !g.usesHandle t) then
        some ((s.modify t fun r => { r with handle := false }).release t)
      else none
  | .fiber i onOwner => (s.fibers[i]?).bind fun f => s.fiberStep i onOwner f
  | .sweep ok => s.sweep.bind fun w => s.sweepStep w ok
  | .startDrain =>
    if s.drain = .idle ∧ s.sweep.isNone then
      some { s with drain := .top s.now, drained := [], armedEarly := false }
    else none
  | .startPeek => if s.drain = .idle ∧ s.sweep.isNone then some { s with drain := .peek s.now }
    else none
  | .drain => s.drainStep
  | .tick now => if s.now ≤ now then some { s with now := now } else none

/-- The runs of one loop with any number of fibers. -/
def system : System State Act where
  init s := ∃ n now, s = .create n now
  step := State.act

end LibXtc.Timers

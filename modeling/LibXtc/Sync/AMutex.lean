import LibXtc.Foundations.Runs
import LibXtc.Sync.Waiters

/-!
# The parking mutex

`xtc_amutex` of `src/ptc/sync.c`. A step is a critical section under `m->lock`; leaving the spin is
a step of its own, since it changes `spinners` without the lock. Contexts are named by their place
in the list of callers, which also stands for `struct amutex_owner`: a recycled task is a new
context.
-/

namespace LibXtc.AMutex

open Foundations Sync

/-- A caller, with the locks it took and did not unlock. -/
abbrev Ctx := Sync.Ctx Unit ℕ

/-- `SYNC_AM_SKIP_MAX` -/
def skipMax : ℕ := 8

/-- `AM_HANDOFF_LOSSES` -/
def handoffLosses : ℕ := 4

/-- `struct xtc_amutex`, and its callers. -/
structure State where
  held : Bool
  recursive : Bool
  cvWaiters : ℕ
  wq : List ℕ
  spinners : ℕ
  count : ℕ
  wakeSkips : ℕ
  handoff : Bool
  owner : Option ℕ
  ctxs : List Ctx
  deriving DecidableEq

namespace State

variable (s : State)

/-- Caller `i` becomes `c`. -/
def put (i : ℕ) (c : Ctx) : State := { s with ctxs := s.ctxs.set i c }

/-- `amutex_wake_thread_locked`; thread `p` is the one the condition variable picks. -/
def wakeThread (p : ℕ) : Option State :=
  if s.cvWaiters = 0 then some s
  else if 0 < s.spinners ∧ s.wakeSkips < skipMax then some { s with wakeSkips := s.wakeSkips + 1 }
  else (condSignal (fun _ => true) s.ctxs p).map fun cs => { s with wakeSkips := 0, ctxs := cs }

/-- `amutex_wake_next_locked` -/
def wakeNext (p : ℕ) : Option State :=
  match s.wq with
  | j :: _ => some { s with ctxs := s.ctxs.modify j Ctx.wake }
  | [] => s.wakeThread p

/-- The owner forgotten by a release. -/
def disown : State := if s.recursive then { s with count := 0, owner := none } else s

/-- `amutex_release_locked` -/
def release (p : ℕ) : Option State :=
  match s.wq, s.handoff with
  | j :: rest, true =>
    let s' := s.disown
    some { s' with handoff := false, wq := rest, ctxs := s'.ctxs.modify j Ctx.grant }
  | _, _ => { s.disown with held := false }.wakeNext p

/-- The call of `i` returns with the mutex held for it. -/
def acquired (i : ℕ) (c : Ctx) : State :=
  let s' := s.put i { c with phase := .idle, holds := c.holds + 1 }
  if s.recursive then { s' with owner := some i, count := 1 } else s'

/-- Caller `i` takes the free mutex. -/
def take (i : ℕ) (c : Ctx) : State := { s with held := true }.acquired i c

/-- The fiber of `i` leaves the queue; a hand-off it was the head for is moot. -/
def leaveQueue (i : ℕ) : State :=
  { s with handoff := s.handoff && s.wq.head? != some i, wq := s.wq.erase i }

/-- The fiber of `i` finds the mutex held. It joins the queue, or has lost `lost` races by now. -/
def contend (i lost : ℕ) : State :=
  if i ∈ s.wq then
    { s with handoff := s.handoff || (s.wq.head? == some i && handoffLosses ≤ lost) }
  else { s with wq := s.wq ++ [i] }

/-- One pass of the fiber loop of `xtc_amutex_lock`, up to its park or its return, or up to
`fw_kill_deliver`. -/
def pass (i : ℕ) (c : Ctx) (w : Waiter) (checks timed expired : Bool) (p : ℕ) : Option State :=
  if checks && c.kill then
    let c' := { c with phase := .delivering () w.lost timed }
    if w.granted then ({ s with wq := s.wq.erase i }.put i c').release p
    else if s.wq.head? = some i ∧ s.held = false then ((s.leaveQueue i).put i c').wakeNext p
    else some ((s.leaveQueue i).put i c')
  else if w.granted then some (s.acquired i c)
  else if s.held = false then some ((s.leaveQueue i).take i c)
  else
    -- Only a waiter that was the head has lost a race.
    let lost := if s.wq.head? = some i then w.lost + 1 else w.lost
    let s' := s.contend i lost
    if timed && expired then some ((s'.leaveQueue i).put i { c with phase := .idle })
    else some (s'.put i { c with phase := .parked () (.ungranted lost) checks timed })

/-- The loop head of `__amutex_lock_thread`, up to its next wait or its return. `cap` is the limit
of `sync_spin_enter`. -/
def lockThread (cap i : ℕ) (c : Ctx) (timed spun : Bool) : State :=
  if s.held = false then s.take i c
  else if spun = false ∧ s.spinners < cap then
    { s with spinners := s.spinners + 1 }.put i { c with phase := .spinning () timed }
  else { s with cvWaiters := s.cvWaiters + 1 }.put i { c with phase := .asleep () timed false }

/-- `xtc_amutex_lock` up to its first wait. A call with `wait = .poll` is also
`xtc_amutex_try_lock`. -/
def lock (cap i : ℕ) (c : Ctx) (wait : Wait) (expired : Bool) (p : ℕ) : Option State :=
  if s.held ∧ s.recursive ∧ s.owner = some i then
    some { s.put i { c with holds := c.holds + 1 } with count := s.count + 1 }
  else if s.held = false then some (s.take i c)
  else if wait = .poll then some s
  else if c.onLoop then s.pass i c (.ungranted 0) c.inProc (wait == .timed) expired p
  else some (s.lockThread cap i c (wait == .timed) false)

/-- `xtc_amutex_unlock` -/
def unlock (i : ℕ) (c : Ctx) (p : ℕ) : Option State :=
  let s' := s.put i { c with holds := c.holds - 1 }
  if s.recursive ∧ 1 < s.count then some { s' with count := s.count - 1 } else s'.release p

end State

/-- What a caller does, or what happens to it. `expired` says that its deadline has passed, and `p`
is the thread that the condition variable would pick. -/
inductive Act
  | lock (wait : Wait) (expired : Bool) (p : ℕ)
  | unlock (p : ℕ)
  /-- The parked fiber runs again. -/
  | resume (expired : Bool) (p : ℕ)
  /-- `fw_kill_deliver` ends the fiber, or returns since the kill is masked. -/
  | deliver (dies expired : Bool) (p : ℕ)
  /-- A poll finds the mutex free and gets `m->lock`. -/
  | spinTake
  | spinLeave
  /-- The thread has `m->lock` again after its spin. -/
  | retest
  /-- The thread leaves the condition variable: signalled, expired or spuriously. -/
  | wakeUp (expired : Bool)
  /-- A kill is latched for the fiber. -/
  | kill
  /-- The caller ends outside of the primitive, perhaps with the mutex. -/
  | die
  deriving DecidableEq

/-- The step of caller `i`, which is `c`. -/
def State.act (cap : ℕ) (s : State) (i : ℕ) (c : Ctx) (a : Act) : Option State :=
  match a, c.phase with
  | .lock wait expired p, .idle => s.lock cap i c wait expired p
  | .unlock p, .idle => if 0 < c.holds then s.unlock i c p else none
  | .resume expired p, .parked _ w checks timed => s.pass i c w checks timed expired p
  | .deliver dies expired p, .delivering _ lost timed =>
    if dies then some (s.put i { c with phase := .dead })
    else s.pass i c (.ungranted lost) false timed expired p
  | .spinTake, .spinning _ _ =>
    if s.held then none else some ({ s with spinners := s.spinners - 1 }.take i c)
  | .spinLeave, .spinning _ timed =>
    some ({ s with spinners := s.spinners - 1 }.put i { c with phase := .spun () timed })
  | .retest, .spun _ timed => some (s.lockThread cap i c timed true)
  | .wakeUp expired, .asleep _ timed _ =>
    let s' := { s with cvWaiters := s.cvWaiters - 1 }
    if timed && expired && s.held then some (s'.put i { c with phase := .idle })
    else some (s'.lockThread cap i c timed false)
  | .kill, _ => if c.inProc then some (s.put i { c with kill := true }) else none
  | .die, .idle => some (s.put i { c with phase := .dead })
  | _, _ => none

/-- A caller that has not called yet. -/
def Ctx.fresh (onLoop inProc : Bool) : Ctx := ⟨onLoop, inProc, false, .idle, 0⟩

/-- `xtc_amutex_create_ex`, with callers of the given kinds. -/
def create (recursive : Bool) (kinds : List (Bool × Bool)) : State :=
  ⟨false, recursive, 0, [], 0, 0, 0, false, none, kinds.map fun k => Ctx.fresh k.1 k.2⟩

/-- The mutex with its callers, in any number, when at most `cap` threads may spin. -/
def system (cap : ℕ) : System State (ℕ × Act) where
  init s := ∃ recursive kinds, s = create recursive kinds
  step s a := s.ctxs[a.1]?.bind fun c => s.act cap a.1 c a.2

end LibXtc.AMutex

import LibXtc.Foundations.Runs
import LibXtc.Sync.Waiters

/-!
# The parking reader/writer latch

`xtc_arwlock` of `src/ptc/sync.c`. As for the mutex, a step is a critical section under `r->lock`,
and a caller is named by its place in the list of callers.
-/

namespace LibXtc.ARwLock

open Foundations Sync

/-- `ARW_SHARED` and `ARW_EXCL` -/
inductive Mode
  | shared | excl
  deriving DecidableEq

/-- The holds of a caller. -/
structure Holds where
  shared : ℕ
  excl : ℕ
  deriving DecidableEq

/-- A caller. -/
abbrev Ctx := Sync.Ctx Mode Holds

/-- One more hold. -/
def Holds.take (h : Holds) : Mode → Holds
  | .shared => { h with shared := h.shared + 1 }
  | .excl => { h with excl := h.excl + 1 }

/-- A caller gives up a hold that it has. -/
def Holds.drop (h : Holds) : Holds :=
  if 0 < h.excl then { h with excl := h.excl - 1 } else { h with shared := h.shared - 1 }

/-- `struct xtc_arwlock`, and its callers. -/
structure State where
  readers : ℕ
  writer : Bool
  rdWaiters : ℕ
  wrWaiters : ℕ
  wq : List ℕ
  lastExcl : Bool
  spinners : ℕ
  ctxs : List Ctx
  deriving DecidableEq

namespace State

variable (s : State)

/-- Caller `i` becomes `c`. -/
def put (i : ℕ) (c : Ctx) : State := { s with ctxs := s.ctxs.set i c }

/-- `__arw_take` -/
def take : Mode → State
  | .excl => { s with writer := true }
  | .shared => { s with readers := s.readers + 1 }

/-- `__arw_compatible` -/
def compatible : Mode → Bool
  | .excl => !s.writer && s.readers == 0
  | .shared => !s.writer

/-- `__arw_wake_threads_locked`; thread `p` is the one the condition variable picks. -/
def wakeThreads (p : ℕ) : Option State :=
  if s.rdWaiters = 0 ∧ s.wrWaiters = 0 ∨ s.wq ≠ [] ∨ s.writer then some s
  else if 0 < s.readers then
    if s.wrWaiters = 0 ∧ 0 < s.rdWaiters then
      some { s with ctxs := condBroadcast (· == .shared) s.ctxs }
    else some s
  else if 0 < s.wrWaiters ∧ (s.rdWaiters = 0 ∨ s.lastExcl = false) then
    (condSignal (· == .excl) s.ctxs p).map fun cs => { s with ctxs := cs }
  else if 0 < s.rdWaiters then some { s with ctxs := condBroadcast (· == .shared) s.ctxs }
  else some s

/-- The head `j` of the queue is granted mode `m`, and `rest` is left. -/
def grantHead (j : ℕ) (rest : List ℕ) (m : Mode) : State :=
  { s.take m with wq := rest, ctxs := s.ctxs.modify j Ctx.grant }

/-- The loop of `__arw_grant_locked` over the queue. -/
def grantQueue (s : State) : List ℕ → State
  | [] => s
  | j :: rest =>
    match s.ctxs[j]?.bind Ctx.waiting with
    | some m =>
      if s.compatible m then
        if m = .excl then s.grantHead j rest m else (s.grantHead j rest m).grantQueue rest
      else s
    | none => s

/-- `__arw_grant_locked` -/
def grant (p : ℕ) : Option State := (s.grantQueue s.wq).wakeThreads p

/-- `__arw_release_locked`: the writer leaves, or else one reader. -/
def release : State :=
  { s with
    lastExcl := if s.rdWaiters = 0 ∧ s.wrWaiters = 0 then s.lastExcl else s.writer
    writer := false
    readers := if s.writer then s.readers else s.readers - 1 }

/-- `ARW_THREAD_OK`, which is also the test of the fast path. -/
def threadOk (m : Mode) : Bool := s.wq.isEmpty && s.compatible m

/-- `fw_enqueue`, unless the waiter of `i` is `queued`. -/
def enqueue (i : ℕ) : State := { s with wq := if i ∈ s.wq then s.wq else s.wq ++ [i] }

/-- `fw_remove` -/
def leaveQueue (i : ℕ) : State := { s with wq := s.wq.erase i }

/-- The call of `i` returns with a hold in mode `m`. -/
def acquired (i : ℕ) (c : Ctx) (m : Mode) : State :=
  s.put i { c with phase := .idle, holds := c.holds.take m }

/-- One pass of the fiber loop of `__arwlock_lock`, up to its park or its return, or up to
`fw_kill_deliver`. -/
def pass (i : ℕ) (c : Ctx) (m : Mode) (w : Waiter) (checks timed expired : Bool) (p : ℕ) :
    Option State :=
  if checks && c.kill then
    let s' := (s.leaveQueue i).put i { c with phase := .delivering m w.lost timed }
    if w.granted then s'.release.grant p else s'.grant p
  else if w.granted then some (s.acquired i c m)
  else if i ∉ s.wq ∧ s.threadOk m then some ((s.take m).acquired i c m)
  else if timed && expired then
    (((s.enqueue i).leaveQueue i).put i { c with phase := .idle }).grant p
  else some ((s.enqueue i).put i { c with phase := .parked m (.ungranted w.lost) checks timed })

/-- The tail of `__arw_lock_thread`: the thread takes the latch. -/
def takeThread (i : ℕ) (c : Ctx) (m : Mode) (p : ℕ) : Option State :=
  let s' := (s.take m).acquired i c m
  if m = .shared then s'.wakeThreads p else some s'

/-- The loop head of `__arw_lock_thread`, up to its next wait or its return. `cap` is the limit of
`sync_spin_enter`. -/
def lockThread (cap i : ℕ) (c : Ctx) (m : Mode) (timed spun : Bool) (p : ℕ) : Option State :=
  if s.threadOk m then s.takeThread i c m p
  else if spun = false ∧ s.wq = [] ∧ s.spinners < cap then
    some ({ s with spinners := s.spinners + 1 }.put i { c with phase := .spinning m timed })
  else
    let c' := { c with phase := .asleep m timed false }
    match m with
    | .excl => some ({ s with wrWaiters := s.wrWaiters + 1 }.put i c')
    | .shared => some ({ s with rdWaiters := s.rdWaiters + 1 }.put i c')

/-- `__arwlock_lock` up to its first wait, for `xtc_arwlock_rdlock` and `xtc_arwlock_wrlock`. -/
def lock (cap i : ℕ) (c : Ctx) (m : Mode) (wait : Wait) (expired : Bool) (p : ℕ) : Option State :=
  if s.threadOk m then some ((s.take m).acquired i c m)
  else if wait = .poll then some s
  else if c.onLoop then s.pass i c m (.ungranted 0) c.inProc (wait == .timed) expired p
  else s.lockThread cap i c m (wait == .timed) false p

/-- A thread leaves the condition variable of its mode and is no longer counted there. -/
def uncount (i : ℕ) (c : Ctx) (timed : Bool) : Mode → State
  | .excl => { s with wrWaiters := s.wrWaiters - 1 }.put i { c with phase := .spun .excl timed }
  | .shared => { s with rdWaiters := s.rdWaiters - 1 }.put i { c with phase := .spun .shared timed }

end State

/-- What a caller does, or what happens to it. `expired` says that its deadline has passed, and `p`
is the thread that a condition variable would pick. -/
inductive Act
  | lock (m : Mode) (wait : Wait) (expired : Bool) (p : ℕ)
  | unlock (p : ℕ)
  /-- The parked fiber runs again. -/
  | resume (expired : Bool) (p : ℕ)
  /-- `fw_kill_deliver` ends the fiber, or returns since the kill is masked. -/
  | deliver (dies expired : Bool) (p : ℕ)
  /-- A poll finds the latch open and gets `r->lock`. -/
  | spinTake (p : ℕ)
  | spinLeave
  /-- The thread has `r->lock` again after its spin. -/
  | retest (p : ℕ)
  /-- The thread leaves the condition variable: signalled, expired or spuriously. -/
  | wakeUp (expired : Bool) (p : ℕ)
  /-- A kill is latched for the fiber. -/
  | kill
  /-- The caller ends outside of the primitive, perhaps with holds. -/
  | die
  deriving DecidableEq

/-- The step of caller `i`, which is `c`. -/
def State.act (cap : ℕ) (s : State) (i : ℕ) (c : Ctx) (a : Act) : Option State :=
  match a, c.phase with
  | .lock m wait expired p, .idle => s.lock cap i c m wait expired p
  | .unlock p, .idle =>
    if 0 < c.holds.shared + c.holds.excl then
      (s.put i { c with holds := c.holds.drop }).release.grant p
    else none
  | .resume expired p, .parked m w checks timed => s.pass i c m w checks timed expired p
  | .deliver dies expired p, .delivering m lost timed =>
    if dies then some (s.put i { c with phase := .dead })
    else s.pass i c m (.ungranted lost) false timed expired p
  | .spinTake p, .spinning m _ =>
    if s.threadOk m then { s with spinners := s.spinners - 1 }.takeThread i c m p else none
  | .spinLeave, .spinning m timed =>
    some ({ s with spinners := s.spinners - 1 }.put i { c with phase := .spun m timed })
  | .retest p, .spun m timed => s.lockThread cap i c m timed true p
  | .wakeUp expired p, .asleep m timed _ =>
    let s' := s.uncount i c timed m
    if timed && expired && !s.threadOk m then some (s'.put i { c with phase := .idle })
    else s'.lockThread cap i c m timed false p
  | .kill, _ => if c.inProc then some (s.put i { c with kill := true }) else none
  | .die, .idle => some (s.put i { c with phase := .dead })
  | _, _ => none

/-- A caller that has not called yet. -/
def Ctx.fresh (onLoop inProc : Bool) : Ctx := ⟨onLoop, inProc, false, .idle, ⟨0, 0⟩⟩

/-- `xtc_arwlock_create`, with callers of the given kinds. -/
def create (kinds : List (Bool × Bool)) : State :=
  ⟨0, false, 0, 0, [], false, 0, kinds.map fun k => Ctx.fresh k.1 k.2⟩

/-- The latch with its callers, in any number, when at most `cap` threads may spin. -/
def system (cap : ℕ) : System State (ℕ × Act) where
  init s := ∃ kinds, s = create kinds
  step s a := s.ctxs[a.1]?.bind fun c => s.act cap a.1 c a.2

end LibXtc.ARwLock

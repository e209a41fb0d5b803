import LibXtc.Foundations.Runs
import LibXtc.Sync.Waiters

/-!
# The counting semaphore

`xtc_sem` of `src/ptc/sync.c`. A step is a critical section under `s->lock`, and a caller is named
by its place in the list of callers. A caller keeps book of the units it has posted and of those it
took in acquires that returned `XTC_OK`.
-/

namespace LibXtc.Semaphore

open Foundations Sync

/-- The units a caller has posted and taken. -/
structure Units where
  posted : ℕ
  taken : ℕ
  deriving DecidableEq

/-- A caller; a waiter wants its `need`. -/
abbrev Ctx := Sync.Ctx ℕ Units

/-- `struct xtc_sem`, its initial count and its callers. -/
structure State where
  count : ℕ
  wq : List ℕ
  initial : ℕ
  ctxs : List Ctx
  deriving DecidableEq

/-- The loop of `sem_wake_locked` over the queue. -/
def wakeScan (budget : ℕ) : List ℕ → List Ctx → List Ctx
  | [], cs => cs
  | j :: rest, cs =>
    if budget = 0 then cs
    else
      match cs[j]?.bind Ctx.waiting with
      | some need =>
        if need ≤ budget then wakeScan (budget - need) rest (cs.modify j Ctx.wake)
        else wakeScan budget rest cs
      | none => wakeScan budget rest cs

namespace State

variable (s : State)

/-- Caller `i` becomes `c`. -/
def put (i : ℕ) (c : Ctx) : State := { s with ctxs := s.ctxs.set i c }

/-- `sem_wake_locked` -/
def wake : State := { s with ctxs := wakeScan s.count s.wq s.ctxs }

/-- `fw_enqueue` -/
def enqueue (i : ℕ) : State := { s with wq := if i ∈ s.wq then s.wq else s.wq ++ [i] }

/-- `fw_remove` -/
def leaveQueue (i : ℕ) : State := { s with wq := s.wq.erase i }

/-- The call of `i` for `n` units returns with them. -/
def take (i : ℕ) (c : Ctx) (n : ℕ) : State :=
  { s with count := s.count - n }.put i
    { c with phase := .idle, holds := ⟨c.holds.posted, c.holds.taken + n⟩ }

/-- `xtc_sem_post`; `count` is an `unsigned`. -/
def post (i : ℕ) (c : Ctx) (n : ℕ) : State :=
  let s' := s.put i { c with holds := ⟨c.holds.posted + n, c.holds.taken⟩ }
  { s' with
    count := (s.count + n) % 2 ^ 32
    ctxs := condBroadcast (fun _ => true) s'.ctxs }.wake

/-- One pass of the fiber loop of `xtc_sem_acquire`, up to its park or its return, or up to
`fw_kill_deliver`. -/
def pass (i : ℕ) (c : Ctx) (n : ℕ) (w : Waiter) (checks timed expired : Bool) : State :=
  if checks && c.kill then
    ((s.leaveQueue i).put i { c with phase := .delivering n w.lost timed }).wake
  else if n ≤ s.count then ((s.leaveQueue i).take i c n).wake
  else if timed && expired then ((s.leaveQueue i).put i { c with phase := .idle }).wake
  else (s.wake.enqueue i).put i { c with phase := .parked n (.ungranted w.lost) checks timed }

/-- `xtc_sem_acquire` up to its first wait. A call with `wait = .poll` is also
`xtc_sem_try_acquire`. -/
def acquire (i : ℕ) (c : Ctx) (n : ℕ) (wait : Wait) (expired : Bool) : State :=
  if n ≤ s.count then s.take i c n
  else if wait = .poll then s
  else if c.onLoop then s.pass i c n (.ungranted 0) c.inProc (wait == .timed) expired
  else s.put i { c with phase := .asleep n (wait == .timed) false }

/-- A thread leaves the condition variable and tests the count. -/
def wakeUp (i : ℕ) (c : Ctx) (n : ℕ) (timed expired : Bool) : State :=
  -- `cv_wait_until` reports an expired wait even if the units are there by now.
  if timed && expired then s.put i { c with phase := .idle }
  else if n ≤ s.count then s.take i c n
  else s.put i { c with phase := .asleep n timed false }

end State

/-- What a caller does, or what happens to it. `expired` says that its deadline has passed. -/
inductive Act
  | post (n : ℕ)
  | acquire (n : ℕ) (wait : Wait) (expired : Bool)
  /-- The parked fiber runs again. -/
  | resume (expired : Bool)
  /-- `fw_kill_deliver` ends the fiber, or returns since the kill is masked. -/
  | deliver (dies expired : Bool)
  /-- The thread leaves the condition variable: signalled, expired or spuriously. -/
  | wakeUp (expired : Bool)
  /-- A kill is latched for the fiber. -/
  | kill
  /-- The caller ends outside of the primitive. -/
  | die
  deriving DecidableEq

/-- The step of caller `i`, which is `c`. -/
def State.act (s : State) (i : ℕ) (c : Ctx) (a : Act) : Option State :=
  match a, c.phase with
  | .post n, .idle => some (s.post i c n)
  | .acquire n wait expired, .idle => some (s.acquire i c n wait expired)
  | .resume expired, .parked n w checks timed => some (s.pass i c n w checks timed expired)
  | .deliver dies expired, .delivering n lost timed =>
    if dies then some (s.put i { c with phase := .dead })
    else some (s.pass i c n (.ungranted lost) false timed expired)
  | .wakeUp expired, .asleep n timed _ => some (s.wakeUp i c n timed expired)
  | .kill, _ => if c.inProc then some (s.put i { c with kill := true }) else none
  | .die, .idle => some (s.put i { c with phase := .dead })
  | _, _ => none

/-- A caller that has not called yet. -/
def Ctx.fresh (onLoop inProc : Bool) : Ctx := ⟨onLoop, inProc, false, .idle, ⟨0, 0⟩⟩

/-- `xtc_sem_create`, with callers of the given kinds. -/
def create (initial : ℕ) (kinds : List (Bool × Bool)) : State :=
  ⟨initial, [], initial, kinds.map fun k => Ctx.fresh k.1 k.2⟩

/-- The semaphore with its callers, in any number. -/
def system : System State (ℕ × Act) where
  init s := ∃ initial kinds, initial < 2 ^ 32 ∧ s = create initial kinds
  step s a := s.ctxs[a.1]?.bind fun c => s.act a.1 c a.2

/-- The units that an action posts. -/
def Act.posts : Act → ℕ
  | .post n => n
  | _ => 0

/-- The count stays below `2 ^ 32`. -/
def fits (s : State) (a : ℕ × Act) : Prop := s.count + a.2.posts < 2 ^ 32

instance (s : State) (a : ℕ × Act) : Decidable (fits s a) :=
  inferInstanceAs (Decidable (s.count + a.2.posts < 2 ^ 32))

end LibXtc.Semaphore

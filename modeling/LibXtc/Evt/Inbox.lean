import LibXtc.Foundations.Runs

/-!
# The cross-loop inbox

`__xtc_inbox_push`, `__xtc_inbox_drain`, `__xtc_inbox_sleep_begin` and `__xtc_inbox_sleep_end` of
`loop.c`, and the poll they guard, under sequentially consistent interleaving. The two stacks run
through the tasks' `inbox_next`, so tasks are addresses and the links are part of the state. Every
atomic access is one step, and so is every turn of the owner's loops over a chain it has taken.

A task has a single inbox slot. A producer may push a task only if it owns the slot, and the owner
of the loop gives the slot back when it puts the task on the run queue.
-/

namespace LibXtc.Inbox

open Foundations Function

/-- `enum xtc_inbox_kind`. -/
inductive Kind
  | wake
  | publish
  deriving DecidableEq

/-- Where a producer is in `__xtc_inbox_push`. -/
inductive Producer
  | idle
  /-- The head was loaded. -/
  | link (k : Kind) (t : ℕ) (old : Option ℕ)
  /-- `inbox_next` was stored. -/
  | cas (k : Kind) (t : ℕ) (old : Option ℕ)
  /-- The task is on the stack. -/
  | loadSleeping
  | exchangeSleeping
  | wakeup
  /-- The wakeup failed. -/
  | storeSleeping
  deriving DecidableEq

/-- Where the owner of the loop is. -/
inductive Owner
  | running
  -- `__xtc_inbox_drain`
  | drainLoadWake
  | drainTake
  | reversePub (t r : Option ℕ)
  | reverseWake (pub t r : Option ℕ)
  | enqueuePub (t wake : Option ℕ) (n : ℕ)
  | enqueueWake (t : Option ℕ) (n : ℕ)
  -- `__xtc_inbox_sleep_begin`
  | sleepLoadPub
  | sleepLoadWake
  | withdraw
  /-- Blocked in `xtc_io_poll`. -/
  | polling
  -- `__xtc_inbox_sleep_end`
  | sleepEnd
  deriving DecidableEq

/-- A push of a task by a producer, or its hand-over to the run queue, which is attributed to the
producer that owns the task's slot. -/
structure Entry where
  producer : Option ℕ
  kind : Kind
  task : ℕ
  deriving DecidableEq

/-- The last three fields are histories that no code reads: who owns the slot of each task, and
the tasks pushed and put on the run queue so far. -/
structure State where
  /-- `pub_head` and `wake_head`. -/
  head : Kind → Option ℕ
  /-- `inbox_next`. -/
  next : ℕ → Option ℕ
  sleeping : Bool
  /-- A wakeup was written and not read. -/
  wakeupFd : Bool
  producers : List Producer
  owner : Owner
  /-- `all_tasks`. -/
  allTasks : List ℕ
  /-- Units of `XTC_RES_INBOX_MSGS` released. -/
  released : ℕ
  slot : ℕ → Option ℕ
  pushed : List Entry
  handed : List Entry

/-- Producer `i` calls `__xtc_inbox_push` and loads the head. -/
def State.push (s : State) (i : ℕ) (k : Kind) (t : ℕ) : Option State :=
  if s.producers[i]? = some .idle ∧ s.slot t = none then
    some { s with
      producers := s.producers.set i (.link k t (s.head k))
      slot := update s.slot t (some i) }
  else none

/-- A producer's next step. `ok` is whether a weak compare-and-swap does not fail spuriously, and
whether `xtc_io_wakeup` succeeds. -/
def State.producerStep (s : State) (i : ℕ) (ok : Bool) : Option State :=
  match s.producers[i]? with
  | none | some .idle => none
  | some (.link k t old) =>
    some { s with
      next := update s.next t old
      producers := s.producers.set i (.cas k t old) }
  | some (.cas k t old) =>
    if s.head k = old ∧ ok then
      some { s with
        head := update s.head k (some t)
        producers := s.producers.set i .loadSleeping
        pushed := s.pushed ++ [⟨some i, k, t⟩] }
    else some { s with producers := s.producers.set i (.link k t (s.head k)) }
  | some .loadSleeping =>
    some { s with
      producers := s.producers.set i (if s.sleeping then .exchangeSleeping else .idle) }
  | some .exchangeSleeping =>
    some { s with
      sleeping := false
      producers := s.producers.set i (if s.sleeping then .wakeup else .idle) }
  | some .wakeup =>
    if ok then some { s with wakeupFd := true, producers := s.producers.set i .idle }
    else some { s with producers := s.producers.set i .storeSleeping }
  | some .storeSleeping =>
    some { s with sleeping := true, producers := s.producers.set i .idle }

/-- `__xtc_loop_enqueue` of a task that the drain has taken. -/
def State.enqueue (s : State) (k : Kind) (t : ℕ) : State :=
  { s with slot := update s.slot t none, handed := s.handed ++ [⟨s.slot t, k, t⟩] }

/-- The owner's next step inside a drain or around a poll. -/
def State.ownerStep (s : State) : Option State :=
  match s.owner with
  | .running => none
  | .drainLoadWake =>
    some { s with owner := if s.head .wake = none then .running else .drainTake }
  | .drainTake =>
    some { s with
      head := update s.head .publish none
      owner := .reversePub (s.head .publish) none }
  | .reversePub (some x) r =>
    some { s with next := update s.next x r, owner := .reversePub (s.next x) (some x) }
  | .reversePub none pub =>
    some { s with
      head := update s.head .wake none
      owner := .reverseWake pub (s.head .wake) none }
  | .reverseWake pub (some x) r =>
    some { s with
      next := update s.next x r
      owner := .reverseWake pub (s.next x) (some x) }
  | .reverseWake pub none wake => some { s with owner := .enqueuePub pub wake 0 }
  | .enqueuePub (some x) wake n =>
    some { s.enqueue .publish x with
      allTasks := x :: s.allTasks
      owner := .enqueuePub (s.next x) wake (n + 1) }
  | .enqueuePub none wake n => some { s with owner := .enqueueWake wake n }
  | .enqueueWake (some x) n =>
    some { s.enqueue .wake x with owner := .enqueueWake (s.next x) n }
  | .enqueueWake none n => some { s with released := s.released + n, owner := .running }
  | .sleepLoadPub =>
    some { s with owner := if s.head .publish = none then .sleepLoadWake else .withdraw }
  | .sleepLoadWake =>
    some { s with owner := if s.head .wake = none then .polling else .withdraw }
  | .withdraw => some { s with sleeping := false, owner := .running }
  -- The wakeup makes the poll return.
  | .polling =>
    if s.wakeupFd then some { s with wakeupFd := false, owner := .sleepEnd } else none
  | .sleepEnd => some { s with sleeping := false, owner := .running }

inductive Act
  | push (i : ℕ) (k : Kind) (t : ℕ)
  | producer (i : ℕ) (ok : Bool)
  /-- `__xtc_inbox_drain` loads `pub_head`. -/
  | drain
  /-- `__xtc_inbox_sleep_begin` stores the flag. -/
  | sleep
  | owner
  /-- The poll returns for an event or a timeout. -/
  | event
  /-- A poll that does not block reads the wakeup. -/
  | pollNow
  /-- `xtc_loop_wake` and `xtc_loop_stop`. -/
  | nudge
  deriving DecidableEq

def State.act (s : State) : Act → Option State
  | .push i k t => s.push i k t
  | .producer i ok => s.producerStep i ok
  | .drain =>
    if s.owner = .running then
      some { s with owner := if s.head .publish = none then .drainLoadWake else .drainTake }
    else none
  | .sleep =>
    if s.owner = .running then some { s with sleeping := true, owner := .sleepLoadPub } else none
  | .owner => s.ownerStep
  | .event => if s.owner = .polling then some { s with owner := .sleepEnd } else none
  | .pollNow => if s.owner = .running then some { s with wakeupFd := false } else none
  | .nudge => some { s with wakeupFd := true }

/-- `__xtc_inbox_init`, with `n` producers. -/
def create (n : ℕ) : State where
  head := fun _ => none
  next := fun _ => none
  sleeping := false
  wakeupFd := false
  producers := List.replicate n .idle
  owner := .running
  allTasks := []
  released := 0
  slot := fun _ => none
  pushed := []
  handed := []

def system : System State Act where
  init s := ∃ n, s = create n
  step := State.act

/-- The step is not a wakeup that fails. -/
def wakes (s : State) : Act → Prop
  | .producer i ok => s.producers[i]? = some .wakeup → ok = true
  | _ => True

instance (s : State) (a : Act) : Decidable (wakes s a) :=
  match a with
  | .producer i ok => inferInstanceAs (Decidable (s.producers[i]? = some .wakeup → ok = true))
  | .push _ _ _ | .drain | .sleep | .owner | .event | .pollNow | .nudge =>
    inferInstanceAs (Decidable True)

end LibXtc.Inbox

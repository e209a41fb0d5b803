import LibXtc.LockMgr.State

/-!
# The critical sections of the lock manager

Each function below is one critical section under a partition lock, or the part of a call between
two such sections. `none` means that a loop over a damaged list does not end. A request that must
wait ends its section with its entry queued; the wait itself is `resume`, taken each time the
waiter runs again. The allocation points take what the allocator answers as an argument.
-/

namespace LibXtc.LockMgr

open Foundations

namespace Manager

variable (c : Config) (s : Manager)

/-! ## Promotion and release -/

/-- Move a waiter to the head of the granted list. -/
def moveToGranted (k : Key) (w : ℕ) : Manager :=
  ((s.unlinkWaiting k w).modEntry w fun e =>
    { e with prev := none, granted := true }).pushGranted k w

/-- The body of the promotion loop: stop at the first waiter that conflicts with a holder, else
grant it and wake it. -/
def promoteOne (k : Key) (w : ℕ) (s : Manager) : Option (Manager × Bool) :=
  (s.hasConflictGranted c k (s.entry w).locker (s.entry w).mode).map fun conflict =>
    if conflict then (s, false) else (s.moveToGranted k w, true)

/-- The promotion loop of `__release_entry_locked` and `xtc_lock_downgrade`. -/
def promote (k : Key) : Option Manager :=
  loopFrom (fun s a => (s.entry a).next) (promoteOne c k) s.fuel (s.waitingHead k) s

/-- The first half of `__release_entry_locked`: the counters, and the unlink from the list that
the granted flag names. -/
def releaseUnlink (k : Key) (a : ℕ) : Manager :=
  let e := s.entry a
  if e.granted then
    ((s.modStats fun t => { t with nHeld := t.nHeld - 1, nReleases := t.nReleases + 1 }).countLocker
      e.locker e.mode (-1)).unlinkGranted k a
  else (s.modStats fun t => { t with nWaiting := t.nWaiting - 1 }).unlinkWaiting k a

/-- `__release_entry_locked`. -/
def releaseEntryLocked (k : Key) (a : ℕ) : Option Manager :=
  (((s.releaseUnlink k a).entryRelease a).promote c k).map fun s' => s'.objMaybeFree k

section

variable (locker : ℕ) (k : Key)

/-- `xtc_lock_put`. -/
def lockPut : Option (Manager × Rc) :=
  (s.findGranted k locker).bind fun found =>
    match found with
    | none => some (s, .inval)
    | some a => (s.releaseEntryLocked c k a).map fun s' => (s', .ok)

/-- Flag the waiters of a locker on one object aborted. -/
def flagWaiters : Option Manager :=
  loopFrom (fun s a => (s.entry a).next) (fun a s => some
      (if (s.entry a).locker = locker then s.modEntry a fun e => { e with aborted := true } else s,
        true))
    s.fuel (s.waitingHead k) s

/-- Release the granted entries of a locker on one object. -/
def releaseGranted : Option Manager :=
  loopFrom (fun s a => (s.entry a).next) (fun a s =>
      if (s.entry a).locker = locker then
        (s.releaseEntryLocked c k a).map fun s' => (s', true)
      else some (s, true))
    s.fuel (s.grantedHead k) s

/-- What `xtc_lock_release_all` and the abort of a deadlock victim do to one object. -/
def dropLocker : Option Manager :=
  (s.flagWaiters locker k).bind fun s' => s'.releaseGranted c locker k

end

/-- What they do to the objects of a table, in its order. -/
def dropLockerOn (locker : ℕ) (s : Manager) : List Key → Option Manager
  | [] => some s
  | k :: rest => (s.dropLocker c locker k).bind fun s' => dropLockerOn locker s' rest

/-! ## Requests -/

/-- What `__do_acquire_locked` did before it returned or began to wait. -/
inductive Acquired
  | done (rc : Rc)
  | waits (entry : ℕ)
  deriving DecidableEq

/-- A fresh grant: a new entry at the head of the granted list. -/
def grantNew (k : Key) (locker mode a : ℕ) : Manager :=
  (((s.entryAlloc a k locker mode true).pushGranted k a).modStats fun t =>
    { t with nHeld := t.nHeld + 1, nAcquires := t.nAcquires + 1 }).countLocker locker mode 1

/-- A new waiter: at the head of the queue if its locker already holds a lock on the object. -/
def enqueueNew (k : Key) (locker mode a : ℕ) (conversion : Bool) : Manager :=
  let s₁ := s.entryAlloc a k locker mode false
  (if conversion then s₁.pushWaitingHead k a else s₁.pushWaitingTail k a).modStats fun t =>
    { t with nWaiting := t.nWaiting + 1 }

/-- `__do_acquire_locked` up to its wait. `slot` is the address `__entry_alloc` returns. -/
def doAcquireLocked (k : Key) (locker mode : ℕ) (timeout : ℤ) (slot : Option ℕ) :
    Option (Manager × Acquired) :=
  (s.findGranted k locker).bind fun prior =>
    let held := prior.map fun p => (s.entry p).mode
    let compatible := held.any fun h => !c.matrix.conflicts h mode
    if compatible && held.any (c.matrix.dominates · mode) then some (s, .done .ok)
    else
      (s.hasConflictGranted c k locker mode).bind fun conflict =>
        if compatible && held.any (c.matrix.dominates mode ·) && !conflict then
          some (prior.elim s fun p =>
            (s.shiftWrite locker (s.entry p).mode mode).modEntry p fun e =>
              { e with mode := mode }, .done .ok)
        else if !conflict && (prior.isSome || (s.waitingHead k).isNone) then
          match slot with
          | none => some (s, .done .nomem)
          | some a => some (s.grantNew k locker mode a, .done .ok)
        else if timeout = 0 then some (s, .done .again)
        else
          match slot with
          | none => some (s, .done .nomem)
          | some a => some (s.enqueueNew k locker mode a prior.isSome, .waits a)

/-- The newest but one granted entry of a locker. -/
def findOlder (k : Key) (locker : ℕ) : Option (Option ℕ) :=
  (s.findGranted k locker).bind fun newest =>
    findFrom (fun a => (s.entry a).next) (fun a => (s.entry a).locker = locker) s.fuel
      (newest.bind fun a => (s.entry a).next)

/-- The drop of the upgraded entry after a waited upgrade. -/
def dropOlder (k : Key) (locker : ℕ) : Option Manager :=
  (s.findOlder k locker).bind fun older =>
    match older with
    | none => some s
    | some a => s.releaseEntryLocked c k a

/-- Begin the wait of thread `t`, or finish the call. -/
def settle (t : ℕ) (k : Key) (locker mode : ℕ) (upgrade masked timed : Bool) :
    Manager × Acquired → Option (Manager × Option Rc)
  | (s, .waits a) =>
    some ({ s with
      waits := s.waits.set t
        (some ⟨a, (s.entry a).serial, k, locker, mode, upgrade, masked, timed⟩) }, none)
  | (s, .done rc) =>
    if upgrade && rc = .ok then (s.dropOlder c k locker).map fun s' => (s', some rc)
    else some (s, some rc)

/-- `xtc_lock_get` of thread `t`. `room` answers the allocation of the object, `slot` that of the
entry; `masked` says that the caller is a fiber whose kill can end the wait. -/
def lockGet (t locker : ℕ) (k : Key) (mode : ℕ) (timeout : ℤ) (masked room : Bool)
    (slot : Option ℕ) : Option (Manager × Option Rc) :=
  if ¬c.accepts k mode then some (s, some .inval)
  else
    match s.objGet k room with
    | none => some (s, some .nomem)
    | some s₁ =>
      (s₁.doAcquireLocked c k locker mode timeout slot).bind
        (settle c t k locker mode false masked (decide (0 ≤ timeout)))

/-- The time a waited upgrade may take: until the deadline of its locker, if it has one. -/
def upgradeBound (locker : ℕ) (now : ℤ) : ℤ :=
  match s.lockerFind locker with
  | some r =>
    if 0 ≤ r.deadlineNs then
      if now < r.deadlineNs then r.deadlineNs - now else 0
    else -1
  | none => -1

/-- `xtc_lock_upgrade` of thread `t`. -/
def lockUpgrade (t locker : ℕ) (k : Key) (mode : ℕ) (now : ℤ) (masked : Bool)
    (slot : Option ℕ) : Option (Manager × Option Rc) :=
  if k = [] ∨ mode = Mode.nl ∨ c.matrix.nModes ≤ mode then some (s, some .inval)
  else
    (s.findGranted k locker).bind fun found =>
      match found with
      | none => some (s, some .inval)
      | some cur =>
        if mode = (s.entry cur).mode ∨ c.matrix.dominates mode (s.entry cur).mode = false then
          some (s, some .inval)
        else
          (s.hasConflictGranted c k locker mode).bind fun conflict =>
            if conflict then
              let bound := s.upgradeBound locker now
              (s.doAcquireLocked c k locker mode bound slot).bind
                (settle c t k locker mode true masked (decide (0 ≤ bound)))
            else
              some ((s.shiftWrite locker (s.entry cur).mode mode).modEntry cur fun e =>
                { e with mode := mode }, some .ok)

/-- `xtc_lock_downgrade`. -/
def lockDowngrade (locker : ℕ) (k : Key) (mode : ℕ) : Option (Manager × Rc) :=
  if k = [] ∨ c.matrix.nModes ≤ mode then some (s, .inval)
  else
    (s.findGranted k locker).bind fun found =>
      match found with
      | none => some (s, .inval)
      | some cur =>
        let held := (s.entry cur).mode
        if c.matrix.dominates held mode = false then some (s, .inval)
        else
          let s₁ :=
            if Mode.isWrite held && !Mode.isWrite mode then s.shiftWrite locker held mode else s
          ((s₁.modEntry cur fun e => { e with mode := mode }).promote c k).map fun s' => (s', .ok)

/-! ## The wait -/

/-- How a waiter that runs again ends its wait, by its entry, a pending kill and the clock. -/
def waitOutcome (w : Wait) (killed timedOut : Bool) : Option Rc :=
  if w.masked && killed then some .aborted
  else if (s.entry w.entry).aborted then some .deadlk
  else if (s.entry w.entry).granted then some .ok
  else if w.timed && timedOut then some .again
  else none

/-- The waiter leaves without a lock: it unlinks its entry from the wait queue. -/
def leaveQueue (w : Wait) : Manager :=
  (((s.unlinkWaiting w.key w.entry).modStats fun t =>
    { t with nWaiting := t.nWaiting - 1 }).entryRelease w.entry).objMaybeFree w.key

/-- The waiter accounts its grant. -/
def takeGrant (w : Wait) : Manager :=
  (s.modStats fun t =>
    { t with nWaiting := t.nWaiting - 1, nHeld := t.nHeld + 1
             nAcquires := t.nAcquires + 1 }).countLocker w.locker w.mode 1

/-- The exit of `__do_acquire_locked` after its wait, and the rest of `xtc_lock_upgrade`. -/
def finishWait (w : Wait) (rc : Rc) : Option (Manager × Rc) :=
  let granted := (s.entry w.entry).granted
  if rc = .aborted ∧ granted = true then
    ((s.takeGrant w).releaseEntryLocked c w.key w.entry).map fun s' => (s', .aborted)
  else if rc ≠ .ok ∨ granted = false then some (s.leaveQueue w, rc)
  else if w.upgrade then ((s.takeGrant w).dropOlder c w.key w.locker).map fun s' => (s', .ok)
  else some (s.takeGrant w, .ok)

/-- The count of a wait that ran out of time. -/
def countTimeout (rc : Rc) : Manager :=
  if rc = .again then s.modStats fun t => { t with nTimeouts := t.nTimeouts + 1 } else s

/-- Thread `t` runs again inside its wait. -/
def resume (t : ℕ) (killed timedOut : Bool) : Option Manager :=
  (s.waits.get t).bind fun w =>
    match s.waitOutcome w killed timedOut with
    | none => some s
    | some rc =>
      ((s.countTimeout rc).finishWait c w rc).map fun r =>
        { r.1 with
          waits := r.1.waits.set t none
          finished := (w.serial, r.2) :: r.1.finished }

end Manager

end LibXtc.LockMgr

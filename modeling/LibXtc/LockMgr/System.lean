import LibXtc.Foundations.Runs
import LibXtc.LockMgr.Sections

/-!
# The lock manager as a transition system

A step is one critical section: of a call, of a waiter that runs again, of one partition of
`xtc_lock_release_all`, or of the deadlock detector. `xtc_lockmgr_failchk` is `markFailed` followed
by `releasePart` on every partition, `xtc_lockmgr_id_free` the same followed by `dropRecord`, and
`xtc_lock_vec` the sequence of its requests. The scheduler chooses the next step, the allocator
its addresses and the clock its values, all of them in the action.
-/

namespace LibXtc.LockMgr

open Foundations

/-- The next critical section, with the answers of its environment. -/
inductive Act
  /-- `xtc_lockmgr_id`. -/
  | newLocker (now : ℤ)
  /-- `xtc_lockmgr_id_set_timeout`. -/
  | setTimeout (id : ℕ) (timeout : ℤ)
  /-- The end of `xtc_lockmgr_id_free`. -/
  | dropRecord (id : ℕ)
  /-- The start of `xtc_lockmgr_failchk`. -/
  | markFailed (id : ℕ)
  /-- `xtc_lock_get` of thread `t`, up to its wait. -/
  | get (t locker : ℕ) (k : Key) (mode : ℕ) (timeout : ℤ) (masked room : Bool) (slot : Option ℕ)
  /-- `xtc_lock_put`. -/
  | put (locker : ℕ) (k : Key)
  /-- `xtc_lock_release_all` on partition `i`. -/
  | releasePart (locker i : ℕ)
  /-- `xtc_lock_upgrade` of thread `t`, up to its wait. -/
  | upgrade (t locker : ℕ) (k : Key) (mode : ℕ) (now : ℤ) (masked : Bool) (slot : Option ℕ)
  /-- `xtc_lock_downgrade`. -/
  | downgrade (locker : ℕ) (k : Key) (mode : ℕ)
  /-- Thread `t` runs again inside its wait. -/
  | resume (t : ℕ) (killed timedOut : Bool)
  /-- `xtc_lockmgr_check_deadlocks` begins. -/
  | detectBegin (now : ℤ)
  /-- It locks the next partition and scans it. -/
  | detectScan
  /-- It searches the graph: it aborts a victim, cuts a cycle, or unlocks every partition. -/
  | detectRound (rand : ℕ → ℤ) (pick : Option (List ℕ → ℤ))

/-- The steps of the detector. -/
def Act.isDetect : Act → Bool
  | .detectBegin _ | .detectScan | .detectRound _ _ => true
  | _ => false

namespace Manager

variable (c : Config) (s : Manager)

/-! ## Lockers -/

/-- `xtc_lockmgr_id`. -/
def lockerNew (now : ℤ) : Manager :=
  { s with
    lockers := ⟨s.nextLocker + 1, now, -1, -1, 0, 0, false⟩ :: s.lockers
    nextLocker := s.nextLocker + 1
    stats := { s.stats with nLockers := s.stats.nLockers + 1 } }

/-- `xtc_lockmgr_id_set_timeout`. -/
def lockerSetTimeout (id : ℕ) (timeout : ℤ) : Manager :=
  s.modLocker id fun r =>
    { r with
      timeoutNs := timeout
      deadlineNs := if timeout < 0 then -1 else r.ctimeNs + timeout }

/-- The removal of a locker's record. -/
def lockerDrop (id : ℕ) : Manager :=
  if (s.lockerFind id).isSome then
    { s with
      lockers := s.lockers.filter (·.id ≠ id)
      stats := { s.stats with nLockers := s.stats.nLockers - 1 } }
  else s

/-! ## The detector -/

/-- The detector holds the lock of partition `i`. -/
def locked (i : ℕ) : Prop := ∃ d ∈ s.detection, i < d.scanned

instance (i : ℕ) : Decidable (s.locked i) := inferInstanceAs (Decidable (∃ d ∈ s.detection, _))

/-- The edges of one waiter: to each other locker that holds a conflicting mode. -/
def scanWaiter (now : ℤ) (granted : List ℕ) (g : DdState) (w : ℕ) : DdState :=
  let waiter := s.entry w
  let src := g.nodeIdx waiter.locker (s.lockerFind waiter.locker) now
  granted.foldl (fun g a =>
    let holder := s.entry a
    if holder.locker = waiter.locker ∨ c.matrix.conflicts holder.mode waiter.mode = false then g
    else
      let dst := g.nodeIdx holder.locker (s.lockerFind holder.locker) now
      dst.1.addEdge src.2 dst.2) src.1

/-- The edges of the waiters of one object. -/
def scanObj (now : ℤ) (g : DdState) (k : Key) : Option DdState :=
  (s.waitingList k).bind fun waiting =>
    (s.grantedList k).map fun granted => waiting.foldl (s.scanWaiter c now granted) g

/-- The edges of the objects of a table. -/
def scanTable (now : ℤ) : DdState → List Key → Option DdState
  | g, [] => some g
  | g, k :: rest => (s.scanObj c now g k).bind fun g' => scanTable now g' rest

/-- The abort of a deadlock victim: its waiters are flagged and its locks released, in every
partition. -/
def abortVictim (id : ℕ) : Option Manager :=
  dropLockerOn c id s ((List.range c.nParts).flatMap (s.table c))

/-- The node that the next iteration of the detector's loop chooses, if it finds a cycle and the
policy has a victim for it. -/
def chooseVictim (g : DdState) (rand : ℕ → ℤ) (pick : Option (List ℕ → ℤ)) : Option ℕ :=
  g.search.cycleIn.bind fun u => pickVictim c.victim pick g g.search.parent u rand

/-- One iteration of the detector's loop. -/
def round (d : Detection) (rand : ℕ → ℤ) (pick : Option (List ℕ → ℤ)) : Option Manager :=
  match d.graph.search.cycleIn with
  | none => some { s with detection := none }
  | some u =>
    match chooseVictim c d.graph rand pick with
    | none => some { s with detection := some { d with graph := d.graph.cut u } }
    | some v =>
      (d.graph.nodes[v]?).bind fun node =>
        (s.abortVictim c node.id).map fun s' =>
          { s'.modStats fun t => { t with nDeadlocksFound := t.nDeadlocksFound + 1 } with
            detection := some { d with graph := d.graph.cut v, killed := d.killed + 1 } }

/-- The locker that the next iteration of the detector's loop aborts. -/
def victimId (rand : ℕ → ℤ) (pick : Option (List ℕ → ℤ)) : Option ℕ :=
  s.detection.bind fun d =>
    (chooseVictim c d.graph rand pick).bind fun v => (d.graph.nodes[v]?).map (·.id)

/-! ## Steps -/

/-- The slab answers with an address that is not in use. -/
def slotFree (slot : Option ℕ) : Prop := ∀ a ∈ slot, (s.entry a).live = false

instance (slot : Option ℕ) : Decidable (s.slotFree slot) :=
  inferInstanceAs (Decidable (∀ a ∈ slot, _))

/-- One step of the manager. -/
def step (s : Manager) : Act → Option Manager
  | .newLocker now => some (s.lockerNew now)
  | .setTimeout id timeout => some (s.lockerSetTimeout id timeout)
  | .dropRecord id => some (s.lockerDrop id)
  | .markFailed id => some (s.modLocker id fun r => { r with failed := true })
  | .get t locker k mode timeout masked room slot =>
    if s.waits.get t = none ∧ ¬s.locked (c.part k) ∧ s.slotFree slot then
      (s.lockGet c t locker k mode timeout masked room slot).map (·.1)
    else none
  | .put locker k =>
    if s.locked (c.part k) then none else (s.lockPut c locker k).map (·.1)
  | .releasePart locker i =>
    if i < c.nParts ∧ ¬s.locked i then dropLockerOn c locker s (s.table c i) else none
  | .upgrade t locker k mode now masked slot =>
    if s.waits.get t = none ∧ ¬s.locked (c.part k) ∧ s.slotFree slot then
      (s.lockUpgrade c t locker k mode now masked slot).map (·.1)
    else none
  | .downgrade locker k mode =>
    if s.locked (c.part k) then none else (s.lockDowngrade c locker k mode).map (·.1)
  | .resume t killed timedOut =>
    if ∃ w ∈ s.waits.get t, s.locked (c.part w.key) then none else s.resume c t killed timedOut
  | .detectBegin now =>
    if s.detection = none then some { s with detection := some ⟨now, 0, .empty, 0⟩ } else none
  | .detectScan =>
    s.detection.bind fun d =>
      if d.scanned < c.nParts then
        (s.scanTable c d.now d.graph (s.table c d.scanned)).map fun g =>
          { s with detection := some { d with scanned := d.scanned + 1, graph := g } }
      else none
  | .detectRound rand pick =>
    s.detection.bind fun d => if d.scanned = c.nParts then s.round c d rand pick else none

end Manager

/-- The lock manager with options `c`. -/
def lockSystem (c : Config) : System Manager Act where
  init s := s = Manager.create
  step := Manager.step c

end LibXtc.LockMgr

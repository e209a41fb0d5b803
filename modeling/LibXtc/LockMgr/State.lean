import LibXtc.Foundations.LinkedList
import LibXtc.LockMgr.Modes
import LibXtc.LockMgr.WaitGraph

/-!
# The state of a lock manager

Lock entries live in a slab at addresses that are reused after they are freed; an object has a
list of granted and a list of waiting entries, both doubly linked through the entries. An object
is identified by its key: its own address is not modelled. The functions here are the small
helpers of `src/ptc/lock_mgr.c`, written with the same pointer reads and stores.
-/

namespace LibXtc.LockMgr

open Foundations

/-- The bytes that name a lock object. -/
abbrev Key := List UInt8

/-- `struct lock_entry`. `live` and `serial` are not in the source: they record whether the entry
is between its `__entry_alloc` and its `__entry_release`, and which allocation it is. -/
structure LockEntry where
  locker : ℕ
  mode : ℕ
  granted : Bool
  aborted : Bool
  prev : Option ℕ
  next : Option ℕ
  obj : Key
  live : Bool
  serial : ℕ
  deriving DecidableEq

/-- The entry after `memset`. -/
instance : Inhabited LockEntry := ⟨⟨0, 0, false, false, none, none, [], false, 0⟩⟩

/-- `struct lock_obj`: its key, and the heads of its two lists. -/
structure LockObj where
  key : Key
  granted : Option ℕ
  waiting : Option ℕ
  waitingTail : Option ℕ
  deriving DecidableEq

/-- The results of the calls. -/
inductive Rc
  | ok | inval | nomem | again | deadlk | aborted
  deriving DecidableEq

/-- A thread or fiber inside the wait of `__do_acquire_locked`. -/
structure Wait where
  /-- The entry `e` it waits on. -/
  entry : ℕ
  /-- The allocation that entry was when the wait began; not in the source. -/
  serial : ℕ
  key : Key
  locker : ℕ
  mode : ℕ
  /-- The wait was entered from `xtc_lock_upgrade`. -/
  upgrade : Bool
  /-- `masked == 1`: a fiber whose pending kill ends the wait. -/
  masked : Bool
  /-- The wait has a deadline. -/
  timed : Bool
  deriving DecidableEq

/-- The counters of `struct xtc_lockmgr`. -/
structure Stats where
  nHeld : ℤ
  nWaiting : ℤ
  nObjects : ℤ
  nLockers : ℤ
  nAcquires : ℕ
  nReleases : ℕ
  nDeadlocksFound : ℕ
  nTimeouts : ℕ
  deriving DecidableEq

/-- A run of `xtc_lockmgr_check_deadlocks` in progress. -/
structure Detection where
  /-- The time read at its start. -/
  now : ℤ
  /-- The number of partitions it has locked and scanned. -/
  scanned : ℕ
  graph : DdState
  /-- `n_killed`. -/
  killed : ℕ
  deriving DecidableEq

/-- The options of a manager that its critical sections read. -/
structure Config where
  matrix : ConflictMatrix
  nParts : ℕ
  victim : VictimPolicy
  parts_pos : 0 < nParts

/-- `struct xtc_lockmgr`, the memory it uses and the threads inside it. -/
structure Manager where
  /-- The slab of `lock_entry`. -/
  ents : Heap LockEntry
  /-- The objects of all partitions, newest first. -/
  objs : List LockObj
  /-- The locker table, newest first. -/
  lockers : List LockerRec
  nextLocker : ℕ
  stats : Stats
  waits : Heap (Option Wait)
  detection : Option Detection
  /-- The number of entries allocated so far; not in the source. -/
  serials : ℕ
  /-- The waits that are over, with what they returned; not in the source. -/
  finished : List (ℕ × Rc)
  deriving DecidableEq

/-- `__hash`: FNV-1a, never zero. -/
def hashKey (k : Key) : UInt32 :=
  let h := k.foldl (fun h b => (h ^^^ b.toUInt32) * 16777619) 2166136261
  if h = 0 then 1 else h

namespace Config

variable (c : Config)

/-- The partition of a key: `h % n_parts`. -/
def part (k : Key) : ℕ := (hashKey k).toNat % c.nParts

/-- The arguments that `xtc_lock_get` does not reject. -/
def accepts (k : Key) (mode : ℕ) : Prop :=
  k ≠ [] ∧ mode ≠ Mode.nl ∧ mode < c.matrix.nModes ∧ mode ≠ Mode.wait

instance (k : Key) (mode : ℕ) : Decidable (c.accepts k mode) :=
  inferInstanceAs (Decidable (_ ∧ _))

/-- A manager with the default options. -/
def default : Config where
  matrix := .default9
  nParts := 64
  victim := .default
  parts_pos := by decide

end Config

namespace Manager

/-- The state after `xtc_lockmgr_create`. -/
def create : Manager where
  ents := .empty
  objs := []
  lockers := []
  nextLocker := 0
  stats := ⟨0, 0, 0, 0, 0, 0, 0, 0⟩
  waits := .empty
  detection := none
  serials := 0
  finished := []

variable (s : Manager)

/-! ## Reads and stores -/

/-- The entry at an address. -/
def entry (a : ℕ) : LockEntry := s.ents.get a

/-- A store to fields of an entry. -/
def modEntry (a : ℕ) (f : LockEntry → LockEntry) : Manager := { s with ents := s.ents.modify a f }

/-- A store to fields of an object. -/
def modObj (k : Key) (f : LockObj → LockObj) : Manager :=
  { s with objs := s.objs.map fun o => if o.key = k then f o else o }

/-- A store to the counters. -/
def modStats (f : Stats → Stats) : Manager := { s with stats := f s.stats }

/-- `__obj_lookup`. -/
def objLookup (k : Key) : Option LockObj := s.objs.find? (·.key = k)

/-- `o->granted`. -/
def grantedHead (k : Key) : Option ℕ := (s.objLookup k).bind (·.granted)

/-- `o->waiting`. -/
def waitingHead (k : Key) : Option ℕ := (s.objLookup k).bind (·.waiting)

/-- `o->waiting_tail`. -/
def waitingTail (k : Key) : Option ℕ := (s.objLookup k).bind (·.waitingTail)

/-- The keys of the objects. -/
def keys : List Key := s.objs.map (·.key)

/-- The keys of the objects of a partition, in the order of its table. -/
def table (c : Config) (i : ℕ) : List Key := s.keys.filter fun k => c.part k = i

/-- Fuel for a walk along a list: no list is longer than the slab, unless its links are damaged. -/
def fuel : ℕ := s.ents.size

/-! ## Entries, lockers and objects -/

/-- `__entry_alloc` at the address the slab chose, with the fields its callers then store. -/
def entryAlloc (a : ℕ) (k : Key) (locker mode : ℕ) (granted : Bool) : Manager :=
  { s with
    ents := s.ents.set a
      { (default : LockEntry) with
        locker := locker, mode := mode, granted := granted, obj := k
        live := true, serial := s.serials }
    serials := s.serials + 1 }

/-- `__entry_release`: the slab keeps the contents until the address is allocated again. -/
def entryRelease (a : ℕ) : Manager := s.modEntry a fun e => { e with live := false }

/-- `__locker_find`. -/
def lockerFind (id : ℕ) : Option LockerRec := s.lockers.find? (·.id = id)

/-- A store to the record of a locker, if there is one. -/
def modLocker (id : ℕ) (f : LockerRec → LockerRec) : Manager :=
  { s with lockers := s.lockers.map fun r => if r.id = id then f r else r }

/-- Add to `n_held` and, for a write mode, to `n_write_held` of a locker. -/
def countLocker (id mode : ℕ) (d : ℤ) : Manager :=
  s.modLocker id fun r =>
    { r with
      nHeld := r.nHeld + d
      nWriteHeld := if Mode.isWrite mode then r.nWriteHeld + d else r.nWriteHeld }

/-- Move a locker's `n_write_held` along with the mode of one of its entries. -/
def shiftWrite (id before after : ℕ) : Manager :=
  s.modLocker id fun r =>
    { r with
      nWriteHeld := r.nWriteHeld + (Mode.isWrite after).toNat - (Mode.isWrite before).toNat }

/-- `__obj_get` with `create`; `room` says whether the allocation succeeds. -/
def objGet (k : Key) (room : Bool) : Option Manager :=
  match s.objLookup k with
  | some _ => some s
  | none =>
    if room then
      some { s with
        objs := ⟨k, none, none, none⟩ :: s.objs
        stats := { s.stats with nObjects := s.stats.nObjects + 1 } }
    else none

/-- `__obj_maybe_free`. -/
def objMaybeFree (k : Key) : Manager :=
  if s.grantedHead k = none ∧ s.waitingHead k = none then
    { s with
      objs := s.objs.filter (·.key ≠ k)
      stats := { s.stats with nObjects := s.stats.nObjects - 1 } }
  else s

/-! ## The two lists of an object -/

section

variable (k : Key)

/-- `if (p) p->next = v; else o->... = ...`, the store to the object being `f`. -/
def linkNext (p v : Option ℕ) (f : LockObj → LockObj) : Manager :=
  match p with
  | some p => s.modEntry p fun e => { e with next := v }
  | none => s.modObj k f

/-- `if (n) n->prev = v; else o->... = ...`, the store to the object being `f`. -/
def linkPrev (n v : Option ℕ) (f : LockObj → LockObj) : Manager :=
  match n with
  | some n => s.modEntry n fun e => { e with prev := v }
  | none => s.modObj k f

/-- `if (e->prev) e->prev->next = e->next; else o->granted = e->next;
if (e->next) e->next->prev = e->prev;` -/
def unlinkGranted (a : ℕ) : Manager :=
  let next := (s.entry a).next
  let s₁ := s.linkNext k (s.entry a).prev next fun o => { o with granted := next }
  s₁.linkPrev k (s₁.entry a).next (s₁.entry a).prev id

/-- The same for the wait queue, with `else o->waiting_tail = e->prev`. -/
def unlinkWaiting (a : ℕ) : Manager :=
  let next := (s.entry a).next
  let s₁ := s.linkNext k (s.entry a).prev next fun o => { o with waiting := next }
  let prev := (s₁.entry a).prev
  s₁.linkPrev k (s₁.entry a).next prev fun o => { o with waitingTail := prev }

/-- `e->next = o->granted; if (o->granted) o->granted->prev = e; o->granted = e;` -/
def pushGranted (a : ℕ) : Manager :=
  let s₁ := s.modEntry a fun e => { e with next := s.grantedHead k }
  (s₁.linkPrev k (s₁.grantedHead k) (some a) id).modObj k fun o => { o with granted := some a }

/-- A conversion goes to the head of the wait queue. -/
def pushWaitingHead (a : ℕ) : Manager :=
  let s₁ := s.modEntry a fun e => { e with prev := none, next := s.waitingHead k }
  (s₁.linkPrev k (s₁.waitingHead k) (some a) fun o => { o with waitingTail := some a }).modObj k
    fun o => { o with waiting := some a }

/-- Any other request goes to its tail. -/
def pushWaitingTail (a : ℕ) : Manager :=
  let s₁ := s.modEntry a fun e => { e with prev := s.waitingTail k }
  (s₁.linkNext k (s₁.waitingTail k) (some a) fun o => { o with waiting := some a }).modObj k
    fun o => { o with waitingTail := some a }

/-- `__find_granted`: the newest granted entry of a locker. -/
def findGranted (locker : ℕ) : Option (Option ℕ) :=
  findFrom (fun a => (s.entry a).next) (fun a => (s.entry a).locker = locker) s.fuel
    (s.grantedHead k)

end

/-- `__has_conflict_granted`: some other locker holds a conflicting mode. -/
def hasConflictGranted (c : Config) (k : Key) (locker mode : ℕ) : Option Bool :=
  (findFrom (fun a => (s.entry a).next)
    (fun a => (s.entry a).locker ≠ locker ∧ c.matrix.conflicts (s.entry a).mode mode = true)
    s.fuel (s.grantedHead k)).map Option.isSome

/-- The entries of the granted list, from its head. -/
def grantedList (k : Key) : Option (List ℕ) :=
  walk (fun a => (s.entry a).next) s.fuel (s.grantedHead k)

/-- The entries of the wait queue, from its head. -/
def waitingList (k : Key) : Option (List ℕ) :=
  walk (fun a => (s.entry a).next) s.fuel (s.waitingHead k)

end Manager

end LibXtc.LockMgr

import LibXtc.Foundations.Heap
import LibXtc.Foundations.Probing
import LibXtc.Foundations.Queue
import LibXtc.Proc.Signals

/-!
# Process tables and the loop registry

Every loop that hosts processes has a table of slots, registered under the id of the loop. A spawn
takes a slot and stamps the process with its pid, an exit gives the slot back, and a finalized loop
leaves its table for another loop to use. Resolving a pid probes the registry, reads a slot of the
table it found and compares the pid of the process it found, in three steps between which loops and
processes come and go.

Loops, tables and processes are numbered in the order in which they are created. A number stands
for the pointer, and for a loop it is also its id. A critical section that holds all the stripes of
a table, or the stripe of the one slot it touches, is one step.
-/

namespace LibXtc.PidTable

open Foundations
open Proc (Pid)

/-! ### One table -/

/-- `struct xtc_proc_slot`. `XTC_PT_FREE_NONE` is `none`. -/
structure Slot where
  proc : Option ℕ
  gen : ℕ
  nextFree : Option ℕ
  deriving DecidableEq

instance : Inhabited Slot := ⟨⟨none, 0, none⟩⟩

/-- `struct xtc_proc_table`. -/
structure Table where
  slots : List Slot
  hw : ℕ
  freeHead : Option ℕ
  nUsed : ℕ
  deriving DecidableEq

/-- A table as `calloc` and the finalization of its loop leave it. -/
instance : Inhabited Table := ⟨⟨[], 0, none, 0⟩⟩

/-- The return codes of the calls below. -/
inductive Rc
  | resource
  | nomem
  deriving DecidableEq

/-- `XTC_PROC_MAX_LOCAL_ID`. -/
def maxLocalId : ℕ := 2 ^ 32 - 1

namespace Table

section

variable (t : Table)

/-- `t->cap`, the length of the slot array. -/
def cap : ℕ := t.slots.length

def slot (k : ℕ) : Slot := t.slots.getD k default

/-- The capacity that `__table_alloc_slot` grows a full table to. -/
def newCap : ℕ := min (if t.cap = 0 then 16 else t.cap * 2) maxLocalId

/-- The slot that `__table_alloc_slot` hands out: the first of the free list, else the first that
was never handed out, else the first of a larger array, if there is `memory` for it. -/
def pick (memory : Bool) : Except Rc (ℕ × Table) :=
  match t.freeHead with
  | some k => .ok (k, { t with freeHead := (t.slot k).nextFree })
  | none =>
    if t.hw < t.cap then .ok (t.hw, { t with hw := t.hw + 1 })
    else if maxLocalId ≤ t.cap then .error .resource
    else if memory then
      .ok (t.hw, { t with
        slots := t.slots ++ List.replicate (t.newCap - t.cap) default
        hw := t.hw + 1 })
    else .error .nomem

/-- The label `take` of `__table_alloc_slot`. -/
def take (k p : ℕ) : Table :=
  { t with
    slots := t.slots.set k
      { t.slot k with proc := some p, gen := ((t.slot k).gen + 1) % 2 ^ 64 }
    nUsed := t.nUsed + 1 }

/-- `__table_vacate_locked`. -/
def vacate (k : ℕ) : Table :=
  { t with
    slots := t.slots.set k { t.slot k with proc := none, nextFree := t.freeHead }
    freeHead := some k
    nUsed := t.nUsed - 1 }

/-- `__table_lookup`. -/
def lookup (localId gen : ℕ) : Option ℕ :=
  if localId < t.cap ∧ (t.slot localId).gen = gen then (t.slot localId).proc else none

/-- `l` are the slots on the free list. -/
def FreeList (l : List ℕ) : Prop :=
  Path (fun k => (t.slot k).nextFree) none t.freeHead l

end

end Table

/-! ### The registry -/

/-- `LOOP_TABLE_MAX`. -/
def loopTableMax : ℕ := 1024

/-- `LT_HCAP`. -/
def ltHcap : ℕ := 2048

/-- `__lt_id_hash`. -/
def ltIdHash (id : ℕ) : ℕ := (id * 2654435761 % 2 ^ 32) / 2 ^ 21

/-- Dense array: the last entry moves into the hole at `i`. -/
def removeAt (lt : List (ℕ × ℕ)) (i : ℕ) : List (ℕ × ℕ) :=
  match lt.getLast? with
  | none => lt
  | some e => (lt.set i e).dropLast

/-! ### The system -/

/-- `struct xtc_proc`: the loop it was spawned on and its pid. -/
structure Process where
  loop : ℕ
  pid : Pid
  deriving DecidableEq

/-- A call of `xtc_proc_spawn` that has got its table and, later, a slot for its process. -/
structure Spawn where
  loop : ℕ
  tbl : ℕ
  proc : Option ℕ
  deriving DecidableEq

/-- A call of `__xtc_proc_loop_unregister` that has removed its loop from the registry. -/
structure Unregister where
  loop : ℕ
  tbl : ℕ
  emptied : Bool
  deriving DecidableEq

/-- Where a call of `__resolve` stands. -/
inductive ResolvePc
  /-- The probe found this table. -/
  | lookup (tbl : ℕ)
  /-- The table held this process. -/
  | compare (p : ℕ)
  deriving DecidableEq

/-- A call of `__resolve`. `listed` and `present` are no data of the code: they record the process
with this pid that was in a registered table at the probe, and in any table at the lookup. -/
structure Resolve where
  pid : Pid
  pc : ResolvePc
  listed : Option ℕ
  present : Option ℕ
  deriving DecidableEq

/-- What a call of `__resolve` returned. -/
structure Answer where
  pid : Pid
  listed : Option ℕ
  present : Option ℕ
  result : Option ℕ
  deriving DecidableEq

/-- The registry is the array `lt` of loops with their tables and the hash `ih` of their ids. -/
structure State where
  loopIds : ℕ
  live : List ℕ
  lt : List (ℕ × ℕ)
  ih : Places ℕ ℕ
  tables : Heap Table
  nextTable : ℕ
  retired : List ℕ
  procs : List Process
  spawning : List Spawn
  closing : List Unregister
  resolving : List Resolve
  answers : List Answer

namespace State

def start : State :=
  { loopIds := 0, live := [], lt := [], ih := fun _ => none, tables := .empty, nextTable := 0,
    retired := [], procs := [], spawning := [], closing := [], resolving := [], answers := [] }

section

variable (s : State)

/-- `__xtc_loop_id_take`, in `xtc_loop_init`. -/
def loopInit : State :=
  if maxLocalId - 1 ≤ s.loopIds then s
  else { s with loopIds := s.loopIds + 1, live := (s.loopIds + 1) :: s.live }

/-- `__lt_find` finds the entry of the array that its hash of loops points to. -/
def ltFind (loop : ℕ) : Option ℕ := (s.lt.find? (·.1 = loop)).map Prod.snd

/-- The insertion at the end of `__table_get`. -/
def register (loop tbl : ℕ) : State :=
  { s with lt := s.lt ++ [(loop, tbl)], ih := s.ih.put ltHcap ltIdHash (loop, tbl) }

/-- `__table_get`, at the beginning of `xtc_proc_spawn`. -/
def tableGet (loop : ℕ) (memory : Bool) : State :=
  match s.ltFind loop with
  | some t => { s with spawning := ⟨loop, t, none⟩ :: s.spawning }
  | none =>
    if loopTableMax ≤ s.lt.length then s
    else
      match s.retired with
      | t :: rest =>
        { s.register loop t with retired := rest, spawning := ⟨loop, t, none⟩ :: s.spawning }
      | [] =>
        if memory then
          { s.register loop s.nextTable with
            nextTable := s.nextTable + 1
            spawning := ⟨loop, s.nextTable, none⟩ :: s.spawning }
        else s

/-- `__table_alloc_slot` for the `n`th spawn. -/
def allocSlot (n : ℕ) (memory : Bool) : Option State :=
  match s.spawning[n]? with
  | some ⟨loop, tbl, none⟩ =>
    match (s.tables.get tbl).pick memory with
    | .error _ => some { s with spawning := s.spawning.eraseIdx n }
    | .ok (k, t) =>
      let p := s.procs.length
      let t := t.take k p
      some { s with
        tables := s.tables.set tbl t
        procs := s.procs ++ [⟨loop, ⟨loop, k, (t.slot k).gen⟩⟩]
        spawning := ⟨loop, tbl, some p⟩ :: s.spawning.eraseIdx n }
  | _ => none

/-- The `n`th spawn has queued the task of its process. -/
def spawned (n : ℕ) : Option State :=
  match s.spawning[n]? with
  | some ⟨_, _, some _⟩ => some { s with spawning := s.spawning.eraseIdx n }
  | _ => none

/-- The `n`th spawn failed after it had a slot: `__table_release`. -/
def release (n : ℕ) : Option State :=
  match s.spawning[n]? with
  | some ⟨_, tbl, some p⟩ =>
    match s.procs[p]? with
    | none => none
    | some P =>
      let t := s.tables.get tbl
      let s := { s with spawning := s.spawning.eraseIdx n }
      if P.pid.localId < t.cap ∧ (t.slot P.pid.localId).proc ≠ none then
        some { s with tables := s.tables.set tbl (t.vacate P.pid.localId) }
      else some s
  | _ => none

/-- A process whose spawn has returned exits: the section of `__notify_links_and_monitors` that
gives its slot back. -/
def exit (p : ℕ) : Option State :=
  match s.procs[p]? with
  | none => none
  | some P =>
    if s.spawning.any (·.proc = some p) then none
    else
      match s.ltFind P.loop with
      | none => some s
      | some tbl =>
        let t := s.tables.get tbl
        if P.pid.localId < t.cap ∧ (t.slot P.pid.localId).proc = some p then
          some { s with tables := s.tables.set tbl (t.vacate P.pid.localId) }
        else some s

/-- `__lt_remove_locked`, at the beginning of `__xtc_proc_loop_unregister`. A loop is finalized
when no spawn on it is running. -/
def ltRemove (loop : ℕ) : Option State :=
  if loop ∈ s.live ∧ ∀ w ∈ s.spawning, w.loop ≠ loop then
    let s := { s with live := s.live.filter (· ≠ loop) }
    match s.lt.findIdx? (·.1 = loop) with
    | none => some s
    | some i =>
      let lt := removeAt s.lt i
      some { s with
        lt := lt
        ih := Places.fill ltHcap ltIdHash lt
        closing := ⟨loop, (s.lt.getD i default).2, false⟩ :: s.closing }
  else none

/-- The `n`th finalization empties its table under all its stripes. -/
def emptyTable (n : ℕ) : Option State :=
  match s.closing[n]? with
  | some ⟨loop, tbl, false⟩ =>
    some { s with
      tables := s.tables.set tbl default
      closing := ⟨loop, tbl, true⟩ :: s.closing.eraseIdx n }
  | _ => none

/-- The `n`th finalization leaves its table for reuse. -/
def retire (n : ℕ) : Option State :=
  match s.closing[n]? with
  | some ⟨_, tbl, true⟩ =>
    some { s with retired := tbl :: s.retired, closing := s.closing.eraseIdx n }
  | _ => none

/-- `__lt_find_id`. -/
def ltFindId (id : ℕ) : Option ℕ := s.ih.find ltHcap ltIdHash id

/-- The process that was given `pid`, if it is in its slot of one of the tables. -/
def holder (pid : Pid) (tbls : List ℕ) : Option ℕ :=
  (s.procs.findIdx? (·.pid = pid)).filter fun p =>
    tbls.any fun t => ((s.tables.get t).slot pid.localId).proc = some p

/-- A call of `__resolve` probes the registry. -/
def probe (pid : Pid) : State :=
  let listed := s.holder pid (s.lt.map Prod.snd)
  match s.ltFindId pid.loopId with
  | none =>
    { s with answers := ⟨pid, listed, s.holder pid (List.range s.nextTable), none⟩ :: s.answers }
  | some t => { s with resolving := ⟨pid, .lookup t, listed, none⟩ :: s.resolving }

/-- The `n`th call of `__resolve` reads a slot. -/
def lookup (n : ℕ) : Option State :=
  match s.resolving[n]? with
  | some ⟨pid, .lookup t, listed, _⟩ =>
    let present := s.holder pid (List.range s.nextTable)
    match (s.tables.get t).lookup pid.localId pid.gen with
    | none =>
      some { s with
        resolving := s.resolving.eraseIdx n
        answers := ⟨pid, listed, present, none⟩ :: s.answers }
    | some p =>
      some { s with
        resolving := ⟨pid, .compare p, listed, present⟩ :: s.resolving.eraseIdx n }
  | _ => none

/-- The `n`th call of `__resolve` compares the pid of the process it found. -/
def compare (n : ℕ) : Option State :=
  match s.resolving[n]? with
  | some ⟨pid, .compare p, listed, present⟩ =>
    let result := if (s.procs[p]?).map Process.pid = some pid then some p else none
    some { s with
      resolving := s.resolving.eraseIdx n
      answers := ⟨pid, listed, present, result⟩ :: s.answers }
  | _ => none

end

end State

inductive Act
  | loopInit
  | tableGet (loop : ℕ) (memory : Bool)
  | allocSlot (n : ℕ) (memory : Bool)
  | spawned (n : ℕ)
  | release (n : ℕ)
  | exit (p : ℕ)
  | ltRemove (loop : ℕ)
  | emptyTable (n : ℕ)
  | retire (n : ℕ)
  | probe (pid : Pid)
  | lookup (n : ℕ)
  | compare (n : ℕ)
  deriving DecidableEq

/-- Spawns are made on loops that are not finalized. -/
def State.step (s : State) : Act → Option State
  | .loopInit => some s.loopInit
  | .tableGet loop memory => if loop ∈ s.live then some (s.tableGet loop memory) else none
  | .allocSlot n memory => s.allocSlot n memory
  | .spawned n => s.spawned n
  | .release n => s.release n
  | .exit p => s.exit p
  | .ltRemove loop => s.ltRemove loop
  | .emptyTable n => s.emptyTable n
  | .retire n => s.retire n
  | .probe pid => some (s.probe pid)
  | .lookup n => s.lookup n
  | .compare n => s.compare n

/-- Any interleaving of the calls, starting with no loop. -/
def system : System State Act where
  init s := s = .start
  step := State.step

end LibXtc.PidTable

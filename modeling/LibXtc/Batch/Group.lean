import LibXtc.Foundations.LinkedList
import LibXtc.Foundations.Loops

/-!
# The slots of a batch group

A group holds its requests in a table of slots. Every slot is on the list of its state class, by
index links in the slots themselves; a slot whose request is being delivered is on none. Counters
say how many slots are in each state, how many are taken, and how much of the resource the active
requests reserve. A cancelled request that is not running is also linked on a list of pending
cancels. Requests from other threads that find every slot taken are held in a queue.

The functions here are those of the owner loop, each run as a whole under the unsafe bracket. The
handle map is a function: probing and deletion in it are left out.
-/

namespace LibXtc.Batch

open Foundations

/-- `enum batch_slot_state`. -/
inductive SlotState
  | free
  | waiting
  | ready
  | blocked
  | inflight
  | terminal
  | delivering
  deriving DecidableEq

/-- The lists of slots: `l_free`, `l_wait`, `l_active` and `l_term`. -/
inductive ListId
  | free
  | wait
  | active
  | term
  deriving DecidableEq

/-- `batch_list_of`. -/
def listOf : SlotState → Option ListId
  | .free => some .free
  | .waiting => some .wait
  | .ready | .blocked | .inflight => some .active
  | .terminal => some .term
  | .delivering => none

/-- The states that hold a reservation. -/
def SlotState.isActive : SlotState → Bool
  | .ready | .blocked | .inflight => true
  | _ => false

/-- The states in which a cancel takes effect at the next boundary. -/
def SlotState.abortable : SlotState → Bool
  | .waiting | .ready | .blocked => true
  | _ => false

/-- `struct batch_slot`, without the request pointer that the engine only passes on. -/
structure Slot where
  handle : ℕ
  charge : ℕ
  state : SlotState
  outcome : ℤ
  cancel : Bool
  onClist : Bool
  hinted : Bool
  prev : Option ℕ
  next : Option ℕ
  cnext : Option ℕ
  deriving DecidableEq

/-- `struct batch_list`. -/
structure SlotList where
  head : Option ℕ
  tail : Option ℕ
  deriving DecidableEq

/-- Where the handle map says a request is. -/
inductive Place
  | slot (i : ℕ)
  | held
  deriving DecidableEq

/-- A held request. -/
structure Held where
  handle : ℕ
  charge : ℕ
  cancel : Bool
  deriving DecidableEq

/-- `enum batch_mt_op`. -/
inductive MtOp
  | submit
  | cancel
  | resume
  deriving DecidableEq

/-- A record of the ring (`struct batch_mt_rec`). -/
structure Rec where
  op : MtOp
  handle : ℕ
  charge : ℕ
  deriving DecidableEq

/-- `enum xtc_batch_state`. -/
inductive ResultState
  | unset
  | proceed
  | done
  | blocked
  | error
  deriving DecidableEq

/-- `xtc_batch_result_t`. -/
structure Result where
  state : ResultState
  error : ℤ
  deriving DecidableEq

/-- The slots with the lists and the counters that follow their states. -/
structure Table where
  slots : ℕ → Slot
  lists : ListId → SlotList
  nState : SlotState → ℕ

/-- The part of a group that only its owner loop uses. -/
structure Group extends Table where
  capacity : ℕ
  maxActive : ℕ
  resourceCapacity : ℕ
  clist : Option ℕ
  delivering : Option ℕ
  map : ℕ → Option Place
  live : ℕ
  reservedUnits : ℕ
  held : List Held
  closed : Bool
  cancelling : Bool

/-! ## Codes -/

/-- `XTC_E_ABORTED`. -/
def eAborted : ℤ := -10

/-- `XTC_E_INTERNAL`. -/
def eInternal : ℤ := -6

/-- `XTC_E_AGAIN`. -/
def eAgain : ℤ := -5

/-- `XTC_BATCH_EXEC_TIMEOUT`. -/
def execTimeout : ℤ := 1

/-- `XTC_BATCH_EXEC_ABORTED`. -/
def execAborted : ℤ := 2

/-- `batch_error(rc) ? rc : XTC_E_INTERNAL`. -/
def batchExecError (rc : ℤ) : ℤ := if rc ≤ -1 ∧ -12 ≤ rc then rc else eInternal

/-! ## Lists and states -/

namespace Table

section

variable (t : Table)

/-- A write to slot `i`. -/
def modify (i : ℕ) (f : Slot → Slot) : Table :=
  { t with slots := fun j => if j = i then f (t.slots j) else t.slots j }

/-- `b->slots[i].next = n`. -/
def setNext (i : ℕ) (n : Option ℕ) : Table := t.modify i fun s => { s with next := n }

/-- `b->slots[i].prev = p`. -/
def setPrev (i : ℕ) (p : Option ℕ) : Table := t.modify i fun s => { s with prev := p }

/-- A write to the head and tail of list `k`. -/
def setList (k : ListId) (l : SlotList) : Table :=
  { t with lists := fun k' => if k' = k then l else t.lists k' }

/-- `batch_list_push`. -/
def listPush (k : ListId) (i : ℕ) : Table :=
  let l := t.lists k
  let t := (t.setNext i none).setPrev i l.tail
  match l.tail with
  | some j => (t.setNext j (some i)).setList k ⟨l.head, some i⟩
  | none => t.setList k ⟨some i, some i⟩

/-- `batch_list_unlink`. -/
def listUnlink (k : ListId) (i : ℕ) : Table :=
  let s := t.slots i
  let t := match s.prev with
    | some p => t.setNext p s.next
    | none => t.setList k { t.lists k with head := s.next }
  let t := match s.next with
    | some n => t.setPrev n s.prev
    | none => t.setList k { t.lists k with tail := s.prev }
  (t.setPrev i none).setNext i none

/-- `if (from != NULL) batch_list_unlink(b, from, i)`. -/
def leave (i : ℕ) : Option ListId → Table
  | some k => t.listUnlink k i
  | none => t

/-- `if (dst != NULL) batch_list_push(b, dst, i)`. -/
def enter (i : ℕ) : Option ListId → Table
  | some k => t.listPush k i
  | none => t

/-- The part of `batch_move` that changes lists. -/
def relink (i : ℕ) (src dst : Option ListId) : Table :=
  if src = dst then t else (t.leave i src).enter i dst

/-- `b->n_state[src]--; b->n_state[dst]++`. -/
def recount (src dst : SlotState) : Table :=
  { t with
    nState := fun st =>
      let n := if st = src then t.nState st - 1 else t.nState st
      if st = dst then n + 1 else n }

/-- `batch_move`. -/
def move (i : ℕ) (dst : SlotState) : Table :=
  let src := (t.slots i).state
  ((t.recount src dst).relink i (listOf src) (listOf dst)).modify i fun s => { s with state := dst }

end

end Table

namespace Group

/-- A write to slot `i`. -/
def modify (g : Group) (i : ℕ) (f : Slot → Slot) : Group :=
  { g with toTable := g.toTable.modify i f }

/-- `batch_move`. -/
def move (g : Group) (i : ℕ) (dst : SlotState) : Group :=
  { g with toTable := g.toTable.move i dst }

/-- `batch_active`. -/
def active (g : Group) : ℕ := g.nState .ready + g.nState .blocked + g.nState .inflight

/-- A loop `for (i = head; i != B_NIL; i = nx) { nx = s->next; … }` over linked slots. -/
def forEach (g : Group) (next : Slot → Option ℕ) (head : Option ℕ) (body : ℕ → Group → Group) :
    Group :=
  (loopFrom (fun g i => next (g.slots i)) (fun i g => some (body i g, true)) g.capacity head
    g).getD g

/-! ## The handle map -/

section

variable (g : Group) (h : ℕ)

/-- `batch_map_get`. The key `0` marks an empty entry. -/
def mapGet : Option Place := if h = 0 then none else g.map h

/-- `batch_map_put`. -/
def mapPut (p : Place) : Group :=
  { g with map := fun h' => if h' = h then some p else g.map h' }

/-- `batch_map_del`. -/
def mapDel : Group :=
  { g with map := fun h' => if h' = h then none else g.map h' }

/-- `batch_find`. -/
def find : Option ℕ :=
  match g.mapGet h with
  | some (.slot i) => if (g.slots i).state ≠ .free then some i else none
  | _ => none

end

/-! ## Cancels and outcomes -/

/-- `batch_mark_cancel`. -/
def markCancel (g : Group) (i : ℕ) : Group :=
  let g := g.modify i fun s => { s with cancel := true }
  if !(g.slots i).onClist && (g.slots i).state.abortable then
    { g.modify i fun s => { s with onClist := true, cnext := g.clist } with clist := some i }
  else g

/-- `batch_terminal`. -/
def terminal (g : Group) (i : ℕ) (outcome : ℤ) : Group :=
  let s := g.slots i
  let g := if s.state.isActive then { g with reservedUnits := g.reservedUnits - s.charge } else g
  (g.move i .terminal).modify i fun s => { s with outcome := outcome }

/-- The body of the first loop of `batch_consume_cancels`. -/
def consumeOne (i : ℕ) (g : Group) : Group :=
  let g := g.modify i fun s => { s with cnext := none, onClist := false }
  if (g.slots i).cancel && (g.slots i).state.abortable then g.terminal i eAborted else g

/-- The first loop of `batch_consume_cancels`. -/
def consumeClist (g : Group) : Group :=
  { g.forEach Slot.cnext g.clist consumeOne with clist := none }

/-- The second loop of `batch_consume_cancels`. -/
def abortWaiting (g : Group) : Group :=
  g.forEach Slot.next (g.lists .wait).head fun i g => g.terminal i eAborted

/-- The third loop of `batch_consume_cancels`. -/
def abortActive (g : Group) : Group :=
  g.forEach Slot.next (g.lists .active).head fun i g =>
    if (g.slots i).state ≠ .inflight then g.terminal i eAborted else g

/-- `batch_consume_cancels`. -/
def consumeCancels (g : Group) : Group :=
  let g := g.consumeClist
  if g.cancelling then g.abortWaiting.abortActive else g

/-! ## Requests enter and leave -/

section

variable (g : Group)

/-- The slot `i` takes a request. -/
def occupy (i h charge : ℕ) : Group :=
  let g := (g.modify i fun s => { s with handle := h, charge := charge }).move i .waiting
  { g.mapPut h (.slot i) with live := g.live + 1 }

/-- The accepting branch of `xtc_batch_submit`. -/
def submit (h charge : ℕ) : Group :=
  match (g.lists .free).head with
  | some i => g.occupy i h charge
  | none => g

/-- `batch_mt_place`. -/
def mtPlace (r : Held) : Group :=
  match (g.lists .free).head with
  | some i =>
    let g := (g.modify i fun s => { s with cancel := false }).occupy i r.handle r.charge
    if r.cancel then g.markCancel i else g
  | none => g

/-- The body of the loop of `batch_mt_admit_held`. -/
def admitHeldNext : Option Group :=
  match g.held with
  | r :: held => if g.live < g.capacity then some ({ g with held := held }.mtPlace r) else none
  | [] => none

/-- `batch_mt_admit_held`. -/
def mtAdmitHeld : Group := loopWhile admitHeldNext g.held.length g

/-- `batch_retire` up to the admission of held requests. -/
def vacate (i : ℕ) : Group :=
  let g := g.mapDel (g.slots i).handle
  let g := if g.delivering = some i then { g with delivering := none } else g
  let g := g.modify i fun s =>
    { s with handle := 0, charge := 0, outcome := 0, cancel := false, hinted := false }
  let g := g.move i .free
  { g with live := g.live - 1 }

/-- `batch_retire`. -/
def retire (i : ℕ) : Group := (g.vacate i).mtAdmitHeld

/-- `if (b->delivering != B_NIL) batch_retire(b, &b->slots[b->delivering])`. -/
def retireDelivering : Group :=
  match g.delivering with
  | some i => g.retire i
  | none => g

/-- The slot whose outcome `batch_deliver` delivers next, with the group after it is claimed. -/
def claimTerminal : Option (ℕ × Group) :=
  match (g.lists .term).head with
  | some i => some (i, { g.move i .delivering with delivering := some i })
  | none => none

end

/-! ## Records from other threads -/

/-- A cancel of a held request. -/
def cancelHeld (g : Group) (h : ℕ) : Group :=
  { g with held := g.held.map fun r => if r.handle = h then { r with cancel := true } else r }

/-- `batch_mt_control`. -/
def mtControl (g : Group) (h : ℕ) (op : MtOp) : Group :=
  match g.mapGet h with
  | none => g
  | some .held => if op = .cancel then g.cancelHeld h else g
  | some (.slot i) =>
    if op = .cancel then
      if (g.slots i).state ≠ .terminal ∧ (g.slots i).state ≠ .delivering then g.markCancel i else g
    else if op = .resume ∧ ((g.slots i).state = .blocked ∨ (g.slots i).state = .ready) then
      g.move i .ready
    else g

/-- What `batch_mt_drain` does with one record. -/
def mtDrainOne (g : Group) (r : Rec) : Group :=
  if r.op ≠ .submit then g.mtControl r.handle r.op
  else if g.held ≠ [] ∨ g.live = g.capacity then
    mapPut { g with held := g.held ++ [⟨r.handle, r.charge, false⟩] } r.handle .held
  else g.mtPlace ⟨r.handle, r.charge, false⟩

/-- What `xtc_batch_cancel` does with a slot. -/
def cancelSlot (g : Group) (i : ℕ) : Group :=
  if (g.slots i).state ≠ .terminal ∧ (g.slots i).state ≠ .delivering then g.markCancel i
  else g.modify i fun s => { s with cancel := true }

/-- `xtc_batch_resume`, with no change where it returns an error. -/
def resume (g : Group) (h : ℕ) : Group :=
  match g.find h with
  | some i =>
    if (g.slots i).state = .blocked ∨ (g.slots i).state = .ready then g.move i .ready else g
  | none => g

/-! ## Vectors -/

/-- The body of the admission loop of `batch_vector`. -/
def admitNext (g : Group) : Option Group :=
  if g.active < g.maxActive then
    match (g.lists .wait).head with
    | some i =>
      if g.resourceCapacity - g.reservedUnits < (g.slots i).charge then none
      else
        some { g.move i .ready with reservedUnits := g.reservedUnits + (g.slots i).charge }
    | none => none
  else none

/-- The admission loop of `batch_vector`. -/
def admission (g : Group) : Group := loopWhile admitNext g.maxActive g

/-- The last loop of `batch_vector`. -/
def readyMembers (g : Group) : List ℕ :=
  ((walk (fun i => (g.slots i).next) g.capacity (g.lists .active).head).getD []).filter
    fun i => (g.slots i).state = .ready

/-- The group after `batch_vector`; the vector is then `readyMembers`. -/
def vector (g : Group) : Group := g.consumeCancels.admission

/-- What the driver does with the result of member `i` after the step callback returned `rc`. -/
def stepResult (rc : ℤ) (r : Result) (i : ℕ) (g : Group) : Group :=
  if rc ≠ 0 then g.terminal i (batchExecError rc)
  else match r.state with
    | .done => g.terminal i 0
    | .blocked => g.move i .blocked
    | .error => g.terminal i (batchExecError r.error)
    | .proceed => g
    | .unset => g.terminal i eInternal

/-- What `batch_collect_inflight` does with the result of member `i` after collect returned
`rc`. -/
def collectResult (status rc : ℤ) (r : Result) (i : ℕ) (g : Group) : Group :=
  if (g.slots i).cancel ∨ status = execAborted then g.terminal i eAborted
  else if status < 0 then g.terminal i (batchExecError status)
  else if rc ≠ 0 then g.terminal i (batchExecError rc)
  else match r.state with
    | .done => g.terminal i 0
    | .error => g.terminal i (batchExecError r.error)
    | .blocked => if status = execTimeout then g.terminal i eAgain else g.move i .blocked
    | .proceed => if status = execTimeout then g.terminal i eAgain else g.move i .ready
    | .unset => g.terminal i (if status = execTimeout then eAgain else eInternal)

/-- `batch_fire_hints`, for the vector in flight. -/
def fireHint (all : Bool) (i : ℕ) (g : Group) : Group :=
  if (g.slots i).hinted || !(all || (g.slots i).cancel || g.cancelling) then g
  else g.modify i fun s => { s with hinted := true }

/-- A loop over the members of a vector. -/
def forMembers (g : Group) (members : List ℕ) (body : ℕ → Group → Group) : Group :=
  members.foldl (fun g i => body i g) g

/-- The body of the inner loop of `batch_cleanup`. -/
def failNext (g : Group) : Option Group :=
  match (g.lists .wait).head <|> (g.lists .active).head with
  | some i =>
    some (g.terminal i (if g.cancelling || (g.slots i).cancel then eAborted else eInternal))
  | none => none

/-- The inner loop of `batch_cleanup`. -/
def failAll (g : Group) : Group := loopWhile failNext g.capacity g

/-! ## Creation -/

/-- A slot after `calloc`. -/
def emptySlot : Slot := ⟨0, 0, .free, 0, false, false, false, none, none, none⟩

/-- The table before its slots are put on the list of free ones. -/
def blankTable (capacity : ℕ) : Table :=
  { slots := fun _ => emptySlot,
    lists := fun _ => ⟨none, none⟩,
    nState := fun st => if st = .free then capacity else 0 }

/-- `batch_finish_create`. -/
def create (capacity maxActive resourceCapacity : ℕ) : Group :=
  { toTable := (List.range capacity).foldl (fun t i => t.listPush .free i) (blankTable capacity),
    capacity := capacity, maxActive := maxActive, resourceCapacity := resourceCapacity,
    clist := none, delivering := none, map := fun _ => none, live := 0, reservedUnits := 0,
    held := [], closed := false, cancelling := false }

end Group

end LibXtc.Batch

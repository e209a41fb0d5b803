import LibXtc.Foundations.Runs

/-!
# Links, monitors and exits

The part of a process that its peers see: its liveness, its link and monitor lists, its pending
kill and what was put in its mailbox. A call of `xtc_link`, `xtc_monitor` or a linking or
monitoring spawn is cut where it reads or writes memory that another process may change, and so is
the exit of a process. A push on a list reads its head in one step and writes it in the next,
because the owner of a link list, and the spawner of a child, push without the stripe lock that
the peers take.

A pid names one process for ever, so resolving it is a question about that process alone.
Entries are identified by their address, which is not handed out twice.
-/

namespace LibXtc.Proc

open Foundations

/-- `xtc_pid_t`: the id of the minting loop, the slot in its table and the slot's generation. -/
structure Pid where
  loopId : ℕ
  localId : ℕ
  gen : ℕ
  deriving DecidableEq

/-- `xtc_down_kind_t`. -/
inductive DownKind
  | clean
  | exit
  | signal
  | noproc
  | noconnection
  deriving DecidableEq

/-- The return codes of the calls below. -/
inductive Rc
  | ok
  | inval
  | nomem
  deriving DecidableEq

/-- `XTC_DOWN_NOPROC`. -/
def downNoproc : ℤ := -100000

/-- The messages that the library itself sends. -/
inductive Message
  /-- The `'D'` message of a monitor. -/
  | down (ref : ℕ) (pid : Pid) (reason : ℤ) (kind : DownKind)
  /-- The `'E'` message of a link. -/
  | exit (reason : ℤ) (pid : Pid) (kind : DownKind)
  deriving DecidableEq

/-- `struct mon_entry`. The target's entry has the address of the watcher's as `peer`, and `refs`
counts the holders of a watcher's entry. -/
structure MonEntry where
  ref : ℕ
  target : Pid
  watcher : Pid
  peer : Option ℕ
  refs : ℕ
  deriving DecidableEq

/-- How far a process has come. The two middle stages of an exit hold the lists that
`__notify_links_and_monitors` detached and has still to go through. -/
inductive Phase
  /-- Not spawned yet. -/
  | absent
  /-- In its slot, while its spawner installs the link or monitor. -/
  | unborn
  /-- Running its function. -/
  | body
  /-- `alive` is cleared; the at-exit hooks run. -/
  | hooks
  /-- Out of its slot, about to look up the first of `todo`. -/
  | links (todo : List Pid) (mons : List MonEntry) (own : List ℕ)
  /-- It has read `trap_exit` of `peer`, which had been set `sets` times, and is about to signal
  it. -/
  | signal (peer : Pid) (trap : Bool) (sets : ℕ) (todo : List Pid) (mons : List MonEntry)
    (own : List ℕ)
  /-- About to send the DOWN of the first of `mons`. -/
  | downs (mons : List MonEntry) (own : List ℕ)
  /-- About to release the watcher's entry of `sent`. -/
  | put (sent : MonEntry) (mons : List MonEntry) (own : List ℕ)
  /-- About to release its own monitors. -/
  | puts (own : List ℕ)
  /-- Its exit is finished. -/
  | gone
  /-- Freed by a spawn that failed, before it ran. -/
  | discarded
  deriving DecidableEq

namespace Phase

/-- The `alive` flag. -/
def alive : Phase → Bool
  | .unborn | .body => true
  | _ => false

/-- The slot of its pid holds the process. -/
def inTable : Phase → Bool
  | .unborn | .body | .hooks => true
  | _ => false

/-- The process can make calls: in its function or in an at-exit hook. -/
def runs : Phase → Bool
  | .body | .hooks => true
  | _ => false

/-- The process has detached its lists, or its exit is over. -/
def leaves : Phase → Bool
  | .links .. | .signal .. | .downs .. | .put .. | .puts .. | .gone => true
  | _ => false

/-- The detached links that are not signalled yet. -/
def todo : Phase → List Pid
  | .links todo _ _ => todo
  | .signal peer _ _ todo _ _ => peer :: todo
  | _ => []

/-- The detached monitors whose DOWN is not sent yet. -/
def mons : Phase → List MonEntry
  | .links _ mons _ | .signal _ _ _ _ mons _ | .downs mons _ | .put _ mons _ => mons
  | _ => []

end Phase

/-- The relation that a spawn installs. -/
inductive Rel
  | link
  | monitor
  deriving DecidableEq

/-- Where a process stands inside a call, with the locals it has read. -/
inductive Call
  | idle
  /-- `xtc_monitor` found its target dead. -/
  | monitorDead (target : Pid)
  /-- It found it alive and allocates `me`. -/
  | monitorAlloc (target : Pid)
  /-- It allocates `m2`. -/
  | monitorPeer (target : Pid) (me ref : ℕ)
  /-- `__peer_push_monitored_by`, before the stripe lock. -/
  | monitorPush (target : Pid) (me ref : ℕ)
  /-- Under the stripe lock, with the head of `monitored_by` read. -/
  | monitorStore (target : Pid) (me ref : ℕ) (head : List MonEntry)
  /-- `__mon_watch_push` and the return. -/
  | monitorWatch (target : Pid) (me ref : ℕ)
  /-- `xtc_link` found its peer alive and allocates `le`. -/
  | linkAlloc (other : Pid)
  /-- The head of `self->links` is read. -/
  | linkStore (other : Pid) (head : List Pid)
  /-- It allocates `pe`. -/
  | linkPeer (other : Pid)
  /-- `__peer_push_link`, before the stripe lock. -/
  | linkPush (other : Pid)
  /-- Under the stripe lock, with the head of the peer's `links` read. -/
  | linkPeerStore (other : Pid) (head : List Pid)
  /-- A removal from `self->links` has read the list; `undo` says that a failed spawn made it. -/
  | unlinkStore (other : Pid) (head : List Pid) (undo : Bool)
  /-- The child has its slot; its spawner allocates the two entries. -/
  | spawnEntries (child : Pid) (rel : Rel)
  /-- The head of the child's `links` is read. -/
  | spawnLinkStore (child : Pid) (head : List Pid)
  /-- The child's entry is stored; the spawner is about to read `self->links`. -/
  | spawnOwnRead (child : Pid)
  /-- The head of `self->links` is read. -/
  | spawnOwnStore (child : Pid) (head : List Pid)
  /-- `__mon_watch_push` of a monitoring spawn. -/
  | spawnWatch (child : Pid) (me ref : ℕ)
  /-- The head of the child's `monitored_by` is read. -/
  | spawnMonStore (child : Pid) (me ref : ℕ) (head : List MonEntry)
  /-- `__xtc_async_ex` of a linking spawn. -/
  | spawnAsyncLink (child : Pid)
  /-- `__xtc_async_ex` of a monitoring spawn. -/
  | spawnAsyncMonitor (child : Pid) (ref : ℕ)
  deriving DecidableEq

/-- The peer whose stripe lock the caller holds. -/
def Call.locks : Call → Option Pid
  | .monitorStore peer .. | .linkPeerStore peer _ => some peer
  | _ => none

/-- The child that the caller is about to make runnable or to free. -/
def Call.spawns : Call → Option Pid
  | .spawnEntries child _ | .spawnLinkStore child _ | .spawnOwnRead child
  | .spawnOwnStore child _ | .spawnWatch child .. | .spawnMonStore child ..
  | .spawnAsyncLink child | .spawnAsyncMonitor child _ | .unlinkStore child _ true => some child
  | _ => none

/-- `struct xtc_proc`, as far as links and monitors go. `inbox` lists everything the library has
put in the mailbox, `lock` is the holder of the stripe lock while a peer pushes, `call` and `rc`
belong to the process's own thread. `trapSets` is history: how often `trap_exit` was set. -/
structure Process where
  phase : Phase
  links : List Pid
  monitoredBy : List MonEntry
  monitors : List ℕ
  monN : ℕ
  monSweepAt : ℕ
  trapExit : Bool
  trapSets : ℕ
  killPending : ℤ
  exitReason : ℤ
  exitKind : DownKind
  inbox : List Message
  lock : Option Pid
  call : Call
  rc : Rc

/-- A process before its spawn. -/
def Process.fresh : Process :=
  ⟨.absent, [], [], [], 0, 0, false, 0, 0, 0, .clean, [], none, .idle, .ok⟩

/-- The watcher's list has grown to the length at which it is swept. -/
def Process.sweeps (P : Process) : Bool := P.monSweepAt ≤ P.monN

/-- `__mon_watch_push` on the watcher's own fields: once the list has doubled since the last
sweep, the entries that only the list holds are dropped before the push. -/
def Process.watchPush (P : Process) (unheld : ℕ → Bool) (me : ℕ) : Process :=
  if P.sweeps then
    let kept := P.monitors.filter fun a => !unheld a
    let n := P.monN - (P.monitors.length - kept.length)
    { P with
      monitors := me :: kept
      monN := n + 1
      monSweepAt := if n < 32 then 64 else 2 * n }
  else { P with monitors := me :: P.monitors, monN := P.monN + 1 }

/-- A record of one signal to a linked peer: the setting of `trap_exit` that was read, how often it
had been set by then, and the pending kill that the signal met. -/
structure SignalRecord where
  exiter : Pid
  peer : Pid
  trap : Bool
  sets : ℕ
  kill : ℤ
  deriving DecidableEq

/-- The processes, the watchers' monitor entries and `__mon_ref_seq`. The last three fields are
history: the monitors and the links whose calls returned `XTC_OK`, the links without those that
one side has removed since, and the signals sent to linked peers. -/
structure State where
  procs : Pid → Process
  watch : ℕ → Option MonEntry
  nextWatch : ℕ
  refSeq : ℕ
  granted : List (Pid × Pid × ℕ)
  linked : List (Pid × Pid)
  signals : List SignalRecord

/-- No process was spawned yet. -/
def State.empty : State := ⟨fun _ => .fresh, fun _ => none, 0, 0, [], [], []⟩

namespace State

variable (s : State)

/-- Change one process. -/
def upd (p : Pid) (f : Process → Process) : State :=
  { s with procs := Function.update s.procs p (f (s.procs p)) }

/-- The thread of `p` goes on inside its call. -/
def setCall (p : Pid) (c : Call) : State := s.upd p fun P => { P with call := c }

/-- The call of `p` returns. -/
def ret (p : Pid) (rc : Rc) : State := s.upd p fun P => { P with call := .idle, rc := rc }

/-- The exit of `p` goes on. -/
def setPhase (p : Pid) (phase : Phase) : State := s.upd p fun P => { P with phase := phase }

/-! ## Delivery -/

/-- `__send_sys`: a library message is refused by a dead process only, or lost to the allocator.
`alive` is never set again, so the tests before the one under `mbox_lock` add nothing. -/
def sendSys (dest : Pid) (msg : Message) (alloc : Bool) : State :=
  s.upd dest fun P => if P.phase.alive ∧ alloc then { P with inbox := P.inbox ++ [msg] } else P

/-- The code in which `kill_pending` holds a reason; no kill is pending at 0. -/
def killCode (reason : ℤ) : ℤ := if reason = 0 then 1 else reason + 1

/-- `__exit_pid_on`: the first kill wins. -/
def exitPidOn (target : Pid) (reason : ℤ) : State :=
  s.upd target fun P =>
    if P.phase.alive ∧ P.killPending = 0 then { P with killPending := killCode reason } else P

/-! ## The watchers' entries -/

/-- `atomic_fetch_add(&__mon_ref_seq, 1) + 1`. -/
def nextRef : ℕ := (s.refSeq + 1) % 2 ^ 64

/-- The counter after a reference is drawn. -/
def drawRef : State := { s with refSeq := s.nextRef }

/-- `__mon_put`. -/
def monPut (a : ℕ) : State :=
  { s with watch := Function.update s.watch a ((s.watch a).bind fun e =>
      if e.refs = 1 then none else some { e with refs := e.refs - 1 }) }

/-- The watcher's entry at `a` is held by nobody but the watcher's list. -/
def unheld (a : ℕ) : Bool := (s.watch a).any (·.refs = 1)

/-- `__mon_watch_push`. The swept entries are freed. -/
def monWatchPush (p : Pid) (me : ℕ) : State :=
  { s.upd p fun P => P.watchPush s.unheld me with
    watch := fun a =>
      if (s.procs p).sweeps ∧ a ∈ (s.procs p).monitors ∧ s.unheld a then none else s.watch a }

/-- A new watcher's entry, with the next reference. -/
def newWatch (target watcher : Pid) (refs : ℕ) : State :=
  { s.drawRef with
    watch := Function.update s.watch s.nextWatch (some ⟨s.nextRef, target, watcher, none, refs⟩)
    nextWatch := s.nextWatch + 1 }

/-- Store the reference count of a watcher's entry. -/
def setRefs (a refs : ℕ) : State :=
  { s with watch := Function.update s.watch a ((s.watch a).map fun e => { e with refs := refs }) }

/-! ## History -/

/-- A monitor call of `watcher` succeeded. -/
def grant (watcher target : Pid) (ref : ℕ) : State :=
  { s with granted := (watcher, target, ref) :: s.granted }

/-- A link call of `p` succeeded. -/
def linkUp (p other : Pid) : State := { s with linked := (p, other) :: s.linked }

/-- `p` has removed its link to `other`. -/
def linkDown (p other : Pid) : State :=
  { s with linked := s.linked.filter fun e => e ≠ (p, other) ∧ e ≠ (other, p) }

/-! ## Calls -/

/-- `undo_slot`: the child of a failed spawn is freed with its lists. -/
def discard (child : Pid) : State :=
  s.upd child fun P => { P with phase := .discarded, links := [], monitoredBy := [] }

/-- A failed spawn takes back the first of the spawner's monitors with the child as target. -/
def undoWatch (p child : Pid) : State :=
  match (s.procs p).monitors.find? fun a => (s.watch a).any (·.target = child) with
  | some a =>
    { s.upd p fun P => { P with monitors := P.monitors.erase a, monN := P.monN - 1 } with
      watch := Function.update s.watch a none }
  | none => s

/-- The list left by a removal that found the list `head` and runs on the list `now`, which peers
have pushed on since. A removal of the first entry writes the head of the list, any other one a
link inside it. -/
def unlinked (head now : List Pid) (other : Pid) : List Pid :=
  if head.head? = some other then head.tail
  else now.take (now.length - head.length) ++ head.erase other

/-- The next step of the monitor call or monitoring spawn of `p`. -/
def advanceMonitor (p : Pid) (fst snd : Bool) : Call → Option State
  | .monitorDead target =>
    some (((s.ret p .ok).drawRef.sendSys p (.down s.nextRef target downNoproc .noproc) fst).grant
      p target s.nextRef)
  | .monitorAlloc target =>
    if fst then
      some ((s.newWatch target p 1).setCall p (.monitorPeer target s.nextWatch s.nextRef))
    else some (s.ret p .nomem)
  | .monitorPeer target me ref =>
    if fst then some ((s.setRefs me 2).setCall p (.monitorPush target me ref))
    else some (s.setCall p (.monitorWatch target me ref))
  | .monitorPush target me ref =>
    if (s.procs target).phase.inTable ∧ (s.procs target).lock.isSome then none
    else if (s.procs target).phase.alive then
      some ((s.upd target fun P => { P with lock := some p }).setCall p
        (.monitorStore target me ref (s.procs target).monitoredBy))
    else some ((s.setRefs me 1).setCall p (.monitorWatch target me ref))
  | .monitorStore target me ref head =>
    some ((s.setCall p (.monitorWatch target me ref)).upd target fun P =>
      { P with monitoredBy := ⟨ref, target, p, some me, 0⟩ :: head, lock := none })
  | .monitorWatch target me ref => some (((s.monWatchPush p me).ret p .ok).grant p target ref)
  | .spawnWatch child me ref =>
    some ((s.monWatchPush p me).setCall p (.spawnMonStore child me ref (s.procs child).monitoredBy))
  | .spawnMonStore child me ref head =>
    some ((s.setCall p (.spawnAsyncMonitor child ref)).upd child fun P =>
      { P with monitoredBy := ⟨ref, child, p, some me, 0⟩ :: head })
  | .spawnAsyncMonitor child ref =>
    if fst then some (((s.ret p .ok).setPhase child .body).grant p child ref)
    else if (s.procs child).lock.isSome then none
    else some (((s.undoWatch p child).ret p .nomem).discard child)
  | .spawnEntries child .monitor =>
    if fst ∧ snd then
      some ((s.newWatch child p 2).setCall p (.spawnWatch child s.nextWatch s.nextRef))
    else if (s.procs child).lock.isSome then none
    else some ((s.ret p .nomem).discard child)
  | _ => none

/-- The next step of the link call or linking spawn of `p`. -/
def advanceLink (p : Pid) (fst snd : Bool) : Call → Option State
  | .linkAlloc other =>
    if fst then some (s.setCall p (.linkStore other (s.procs p).links))
    else some (s.ret p .nomem)
  | .linkStore other head =>
    some ((s.setCall p (.linkPeer other)).upd p fun P => { P with links := other :: head })
  | .linkPeer other =>
    if fst then some (s.setCall p (.linkPush other))
    else some ((s.linkUp p other).ret p .ok)
  | .linkPush other =>
    if (s.procs other).phase.inTable ∧ (s.procs other).lock.isSome then none
    else if (s.procs other).phase.alive then
      some ((s.upd other fun P => { P with lock := some p }).setCall p
        (.linkPeerStore other (s.procs other).links))
    else some ((s.linkUp p other).ret p .ok)
  | .linkPeerStore other head =>
    some (((s.ret p .ok).upd other fun P => { P with links := p :: head, lock := none }).linkUp
      p other)
  | .unlinkStore other head undo =>
    if undo ∧ (s.procs other).lock.isSome then none
    else
      let s' := (s.upd p fun P =>
        { P with links := unlinked head P.links other }).linkDown p other
      some (if undo then (s'.ret p .nomem).discard other else s'.ret p .ok)
  | .spawnEntries child .link =>
    if fst ∧ snd then some (s.setCall p (.spawnLinkStore child (s.procs child).links))
    else if (s.procs child).lock.isSome then none
    else some ((s.ret p .nomem).discard child)
  | .spawnLinkStore child head =>
    some ((s.setCall p (.spawnOwnRead child)).upd child fun P => { P with links := p :: head })
  | .spawnOwnRead child => some (s.setCall p (.spawnOwnStore child (s.procs p).links))
  | .spawnOwnStore child head =>
    some ((s.setCall p (.spawnAsyncLink child)).upd p fun P => { P with links := child :: head })
  | .spawnAsyncLink child =>
    if fst then some (((s.ret p .ok).setPhase child .body).linkUp p child)
    else some (s.setCall p (.unlinkStore child (s.procs p).links true))
  | _ => none

/-! ## Exit -/

/-- The value that `longjmp` makes of 0 is 1, so a reason of -1 arrives as 0. -/
def unwindReason (reason : ℤ) : ℤ := (if reason + 1 = 0 then 1 else reason + 1) - 1

end State

/-- How a process's function ends. -/
inductive Ending
  /-- It returns. -/
  | returned
  /-- `xtc_exit_self`, or `__xtc_exit_self_kind` with its kind; a delivered kill comes here. -/
  | exitSelf (reason : ℤ) (kind : Option DownKind)
  /-- A contained fault. -/
  | fault (sig : ℕ)
  deriving DecidableEq

/-- `exit_reason`. A kill that was not delivered is the reason of a return. -/
def Ending.reason (kill : ℤ) : Ending → ℤ
  | .returned => if kill = 0 then 0 else kill - 1
  | .exitSelf reason _ => State.unwindReason reason
  | .fault sig => sig

/-- `exit_kind`. -/
def Ending.kind (kill : ℤ) : Ending → DownKind
  | .returned => if kill = 0 ∨ kill - 1 = 0 then .clean else .exit
  | .exitSelf reason kind => kind.getD (if State.unwindReason reason = 0 then .clean else .exit)
  | .fault _ => .signal

namespace State

variable (s : State)

/-- The exit of `p` begins: `alive` is cleared and the pending kill consumed. Whatever call the
process was in is abandoned. -/
def beginExit (p : Pid) (ending : Ending) : State :=
  s.upd p fun P =>
    { P with
      phase := .hooks
      call := .idle
      exitReason := ending.reason P.killPending
      exitKind := ending.kind P.killPending
      killPending := 0 }

/-- The critical section of `__notify_links_and_monitors`: the lists are detached and the slot is
vacated. -/
def detach (p : Pid) : State :=
  s.upd p fun P =>
    { P with
      phase := .links P.links P.monitoredBy P.monitors
      links := []
      monitoredBy := []
      monitors := [] }

/-- The signal to the linked peer `q`. -/
def signalPeer (p q : Pid) (trap : Bool) (sets : ℕ) (alloc : Bool) : State :=
  let P := s.procs p
  let s' := { s with signals := ⟨p, q, trap, sets, (s.procs q).killPending⟩ :: s.signals }
  if trap then s'.sendSys q (.exit P.exitReason p P.exitKind) alloc
  else if P.exitReason ≠ 0 then s'.exitPidOn q P.exitReason
  else s'

/-- The next step of the rest of `__notify_links_and_monitors`. -/
def notify (p : Pid) (alloc : Bool) : Phase → Option State
  | .links [] mons own => some (s.setPhase p (.downs mons own))
  | .links (q :: todo) mons own =>
    if (s.procs q).phase.inTable then
      some (s.setPhase p (.signal q (s.procs q).trapExit (s.procs q).trapSets todo mons own))
    else some (s.setPhase p (.links todo mons own))
  | .signal q trap sets todo mons own =>
    some ((s.signalPeer p q trap sets alloc).setPhase p (.links todo mons own))
  | .downs [] own => some (s.setPhase p (.puts own))
  | .downs (m :: mons) own =>
    some ((s.sendSys m.watcher
      (.down m.ref p (s.procs p).exitReason (s.procs p).exitKind) alloc).setPhase p
        (.put m mons own))
  | .put m mons own =>
    some ((match m.peer with | some a => s.monPut a | none => s).setPhase p (.downs mons own))
  | .puts [] => some (s.setPhase p .gone)
  | .puts (a :: own) => some ((s.monPut a).setPhase p (.puts own))
  | _ => none

end State

/-- The next step, with the answers of the allocator. -/
inductive Act
  /-- A plain spawn, from anywhere. -/
  | spawn (child : Pid)
  /-- `xtc_proc_spawn_link` or `xtc_proc_spawn_monitor` of `p`, up to the child's slot. -/
  | spawnRel (p child : Pid) (rel : Rel)
  /-- `xtc_monitor` of `p`: the liveness test. -/
  | monitor (p target : Pid)
  /-- `xtc_link` of `p`: the liveness test. -/
  | link (p other : Pid)
  /-- `xtc_unlink` of `p`: the search. -/
  | unlink (p other : Pid)
  /-- `xtc_proc_trap_exit` of `p`. -/
  | trapExit (p : Pid) (on : Bool)
  /-- `xtc_exit_pid`, from anywhere. -/
  | exitPid (target : Pid) (reason : ℤ)
  /-- The next step of the call that `p` is in. -/
  | advance (p : Pid) (fst snd : Bool)
  /-- The function of `p` ends. -/
  | exit (p : Pid) (ending : Ending)
  /-- `p` detaches its lists. -/
  | detach (p : Pid)
  /-- The next step of the exit of `p`. -/
  | notify (p : Pid) (alloc : Bool)
  deriving DecidableEq

namespace State

variable (s : State)

/-- `p` is free to make a call. -/
def canCall (p : Pid) : Prop := (s.procs p).phase.runs ∧ (s.procs p).call = .idle

instance (p : Pid) : Decidable (s.canCall p) := inferInstanceAs (Decidable (_ ∧ _))

/-- One step. A step that waits for a lock is not enabled while the lock is held. -/
def step : Act → Option State
  | .spawn child =>
    if (s.procs child).phase = .absent then some (s.setPhase child .body) else none
  | .spawnRel p child rel =>
    if s.canCall p ∧ (s.procs child).phase = .absent then
      some ((s.setPhase child .unborn).setCall p (.spawnEntries child rel))
    else none
  | .monitor p target =>
    if s.canCall p then
      some (s.setCall p
        (if (s.procs target).phase.alive then .monitorAlloc target else .monitorDead target))
    else none
  | .link p other =>
    if s.canCall p then
      some (if (s.procs other).phase.alive then s.setCall p (.linkAlloc other)
        else s.ret p .inval)
    else none
  | .unlink p other =>
    if s.canCall p then
      some (if other ∈ (s.procs p).links then
        s.setCall p (.unlinkStore other (s.procs p).links false)
        else (s.linkDown p other).ret p .ok)
    else none
  | .trapExit p on =>
    if s.canCall p then
      some (s.upd p fun P => { P with trapExit := on, trapSets := P.trapSets + 1 })
    else none
  | .exitPid target reason => some (s.exitPidOn target reason)
  | .advance p fst snd =>
    if (s.procs p).phase.runs then
      (s.advanceMonitor p fst snd (s.procs p).call).or (s.advanceLink p fst snd (s.procs p).call)
    else none
  | .exit p ending =>
    if (s.procs p).phase = .body ∧ (s.procs p).call.locks = none then
      some (s.beginExit p ending)
    else none
  | .detach p =>
    if (s.procs p).phase = .hooks ∧ (s.procs p).call = .idle ∧ (s.procs p).lock = none then
      some (s.detach p)
    else none
  | .notify p alloc => s.notify p alloc (s.procs p).phase

end State

/-- The processes of one program, over every interleaving of their calls and exits. -/
def system : System State Act where
  init s := s = State.empty
  step := State.step

end LibXtc.Proc

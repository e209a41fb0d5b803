import LibXtc.Foundations.Int64
import LibXtc.Foundations.Lists
import LibXtc.Foundations.Runs

/-!
# The supervisor

A supervisor is a process that starts its children, waits for their DOWN messages and applies its
restart strategy. Its table belongs to its own fiber; a step of the supervisor is one access to
what others also use (its mailbox, the flags, the process table) with the private work around it.
The children run next to it: each exits when it likes and with any reason, whether it was killed
or not, leaves the process table after its exit hooks, and then sends its DOWN.

Pids are not reused, so a process is named by its place in the list of those started.
-/

namespace LibXtc.Sup

open Foundations

/-- `xtc_restart_policy_t`. -/
inductive Policy
  | permanent
  | transient
  | temporary
  deriving DecidableEq

/-- `xtc_restart_strategy_t`. -/
inductive Strategy
  | oneForOne
  | oneForAll
  | restForOne
  | simpleOneForOne
  deriving DecidableEq

/-- `xtc_sup_opts_t`. -/
structure Opts where
  strategy : Strategy
  maxRestarts : ℕ
  periodNs : ℤ
  /-- The bound on the live children, `0` for none. -/
  maxChildren : ℕ

/-- An entry of the table (`struct child`). `id` says which child it is, wherever it stands in the
table and whatever process runs it. -/
structure Child where
  id : ℕ
  policy : Policy
  pid : Option ℕ
  alive : Bool
  dynamic : Bool
  deriving DecidableEq

/-- The table, with the counter `n_alive` that other threads read. -/
structure Table where
  children : List Child
  nAlive : ℤ

/-- Where a child's process is. -/
inductive Phase
  | running
  /-- In its exit hooks. -/
  | exiting (reason : ℤ)
  /-- Out of the process table; its DOWN is not sent yet. -/
  | left (reason : ℤ)
  /-- Its DOWN was sent, or lost for want of memory. -/
  | silent (reason : ℤ)
  deriving DecidableEq

/-- Whether the process is in the process table. -/
def Phase.inTable : Phase → Bool
  | .running | .exiting _ => true
  | .left _ | .silent _ => false

def Phase.reason : Phase → Option ℤ
  | .running => none
  | .exiting r | .left r | .silent r => some r

/-- A process and the child it runs. `killed` constrains nothing: a child may ignore a kill, delay
it, or exit for another reason first. -/
structure Process where
  child : ℕ
  phase : Phase
  killed : Bool
  deriving DecidableEq

/-- A message to the supervisor. -/
inductive Msg
  | down (pid : ℕ) (reason : ℤ)
  | addChild (policy : Policy)
  /-- A kick, or anything else. -/
  | other
  deriving DecidableEq

/-- The answer to `xtc_sup_add_child`. -/
inductive Reply
  | noMemory
  | started (pid : ℕ)
  | atCap
  deriving DecidableEq

/-- Where `__wait_children_gone` is. -/
inductive Look
  /-- At the test of `abandon_wait`. -/
  | round
  /-- At child `i`, with `pending` of those before it still there. -/
  | child (i pending : ℕ)
  | sleeping
  deriving DecidableEq

/-- A wait for the processes `old[lo]` up to `old[hi - 1]`. -/
structure Wait where
  lo : ℕ
  hi : ℕ
  old : List (Option ℕ)
  start : ℤ
  look : Look
  deriving DecidableEq

/-- Where the supervisor is. -/
inductive Pc
  /-- About to start child `i` for the first time. -/
  | start (i : ℕ)
  /-- At the test of the loop. -/
  | top
  | receive
  /-- About to restart child `i` alone. -/
  | restart (i : ℕ)
  /-- In the wait of a group restart. -/
  | waiting (w : Wait)
  /-- In a group restart of the children from `lo` on, about to start child `i`. -/
  | respawn (lo i : ℕ)
  /-- At `__sup_exited`. -/
  | exiting
  /-- In the wait of `__sup_exited`. -/
  | exitWait (w : Wait)
  | done
  deriving DecidableEq

/-- The start of a child, with the reason of its last exit before and whether it was alive when the
group restart that starts it began. -/
structure Start where
  child : ℕ
  policy : Policy
  lastExit : Option ℤ
  wasAlive : Bool
  deriving DecidableEq

/-- A supervisor and the processes it has started, with the history: the last exit of each child,
all starts, the processes whose DOWN was received, those that a group restart set out to replace,
the children alive when the last group restart began, and the number of starts before it. -/
structure State where
  opts : Opts
  /-- The exit hook could be registered. -/
  hooked : Bool
  table : Table
  recentRestarts : List ℤ
  nRestartsTotal : ℕ
  stopRequested : Bool
  abandonWait : Bool
  restartOld : Option (List (Option ℕ))
  mailbox : List Msg
  replies : List Reply
  procs : List Process
  pc : Pc
  nextId : ℕ
  lastExit : ℕ → Option ℤ
  starts : List Start
  reported : List ℕ
  retired : List ℕ
  aliveBefore : List ℕ
  startsBefore : ℕ

/-- `xtc_sup_start`, with the policies of the children. -/
def State.create (opts : Opts) (hooked : Bool) (policies : List Policy) : State :=
  { opts := opts, hooked := hooked,
    table := ⟨policies.mapIdx fun i policy => ⟨i, policy, none, false, false⟩, 0⟩,
    recentRestarts := [], nRestartsTotal := 0, stopRequested := false, abandonWait := false,
    restartOld := none, mailbox := [], replies := [], procs := [], pc := .start 0,
    nextId := policies.length, lastExit := fun _ => none, starts := [], reported := [],
    retired := [], aliveBefore := [], startsBefore := 0 }

/-- `__should_restart`. `XTC_DOWN_NOPROC` is `-100000`. -/
def shouldRestart (c : Child) (reason : ℤ) : Bool :=
  match c.policy with
  | .permanent => true
  | .temporary => false
  | .transient => reason ≠ 0 && reason ≠ -100000

/-- `__intensity_exceeded`. -/
def State.intensityExceeded (s : State) (now : ℤ) : Bool :=
  s.opts.maxRestarts < s.recentRestarts.countP fun t => wrapInt64 (now - s.opts.periodNs) < t

/-- `__record_restart`; the array has `max_restarts + 4` places. -/
def State.recordRestart (s : State) (now : ℤ) : State :=
  { s with
    recentRestarts :=
      if s.recentRestarts.length < s.opts.maxRestarts + 4 then s.recentRestarts ++ [now]
      else s.recentRestarts.tail ++ [now]
    nRestartsTotal := s.nRestartsTotal + 1 }

/-- `__child_alive`, for the entry `c` at index `i`. -/
def Table.childAlive (t : Table) (i : ℕ) (c : Child) (v : Bool) : Table :=
  if c.alive = v then t
  else
    { children := t.children.set i { c with alive := v }
      nAlive := if v then t.nAlive + 1 else t.nAlive - 1 }

/-- `__child_alive(.., 0)` for `n` entries from `i` on. -/
def Table.markDead (t : Table) (i : ℕ) : ℕ → Table
  | 0 => t
  | n + 1 =>
    match t.children[i]? with
    | some c => (t.childAlive i c false).markDead (i + 1) n
    | none => t

/-- What a successful `__spawn_child` does to the entry `c` at index `i`. -/
def Table.spawned (t : Table) (i : ℕ) (c : Child) (pid : ℕ) : Table :=
  { t with children := t.children.set i { c with pid := some pid } }.childAlive i
    { c with pid := some pid } true

/-- `__spawn_child` when `xtc_proc_spawn_monitor` succeeds; if it fails it changes nothing. -/
def State.spawnChild (s : State) (i : ℕ) (c : Child) (wasAlive : Bool) : State :=
  { s with
    table := s.table.spawned i c s.procs.length
    procs := s.procs ++ [⟨c.id, .running, false⟩]
    starts := s.starts ++ [⟨c.id, c.policy, s.lastExit c.id, wasAlive⟩] }

/-- `__handle_add_child`. `mem` is whether the table can grow, `ok` whether the spawn succeeds. -/
def State.handleAddChild (s : State) (policy : Policy) (mem ok : Bool) : State :=
  if 0 < s.opts.maxChildren ∧ s.opts.maxChildren ≤ s.table.children.countP (·.alive) then
    { s with replies := s.replies ++ [.atCap] }
  else if mem ∧ ok then
    let c : Child := ⟨s.nextId, policy, none, false, true⟩
    let s' := { s with
      table := { s.table with children := s.table.children ++ [c] }
      nextId := s.nextId + 1
      replies := s.replies ++ [Reply.started s.procs.length] }
    s'.spawnChild s.table.children.length c false
  else { s with replies := s.replies ++ [.noMemory] }

/-- Whether `p` is in the process table. -/
def inTable (procs : List Process) (p : ℕ) : Bool := procs[p]?.any fun q => q.phase.inTable

/-- The kill that the live ones of `cs` are sent. -/
def kill (cs : List Child) (procs : List Process) : List Process :=
  procs.mapIdx fun p q =>
    { q with killed := q.killed || cs.any fun c => c.alive && c.pid == some p }

/-- `XTC_SUP_CLEANUP_WAIT_NS`. -/
def cleanupWaitNs : ℤ := 5000000000

/-- The outcome of a step of a wait. -/
inductive Waited
  | more (w : Wait)
  | gone
  | gaveUp

/-- A step of `__wait_children_gone`. -/
def State.wait (s : State) (w : Wait) (now : ℤ) : Waited :=
  match w.look with
  | .round => if s.abandonWait then .gaveUp else .more { w with look := .child w.lo 0 }
  | .child i pending =>
    if i < w.hi then
      let there := (w.old.getD i none).any (inTable s.procs)
      .more { w with look := .child (i + 1) (if there then pending + 1 else pending) }
    else if pending = 0 then .gone
    else if cleanupWaitNs ≤ wrapInt64 (now - w.start) then .gaveUp
    else .more { w with look := .sleeping }
  | .sleeping => .more { w with look := .round }

/-- `__do_one_for_all` with `lo = 0`, or `__do_rest_for_one` with `lo` the index of the child that
failed, up to the wait. -/
def State.beginGroup (s : State) (lo : ℕ) (now : ℤ) (mem : Bool) : State :=
  let cs := s.table.children
  if mem ∨ cs = [] then
    let old := cs.mapIdx fun i c => if lo ≤ i then c.pid else none
    { s with
      procs := kill (cs.drop lo) s.procs
      table := s.table.markDead lo (cs.length - lo)
      restartOld := some old
      retired := s.retired ++ (cs.drop lo).filterMap (·.pid)
      aliveBefore := ((cs.drop lo).filter (·.alive)).map (·.id)
      startsBefore := s.starts.length
      pc := .waiting ⟨lo, cs.length, old, now, .round⟩ }
  else { s with stopRequested := true }

/-- `__find_child_by_pid`. -/
def findChildByPid (cs : List Child) (pid : ℕ) : Option ℕ :=
  cs.findIdx? fun c => c.alive && c.pid == some pid

/-- The restart of child `i` by the strategy. -/
def State.applyStrategy (s : State) (i : ℕ) (now : ℤ) (mem : Bool) : State :=
  match s.opts.strategy with
  | .oneForOne | .simpleOneForOne => { s with pc := .restart i }
  | .oneForAll => s.beginGroup 0 now mem
  | .restForOne => s.beginGroup i now mem

/-- The end of child `c` at index `i`, as `__sup_entry` handles it. -/
def State.childDown (s : State) (i : ℕ) (c : Child) (reason now : ℤ) (mem : Bool) : State :=
  let s := { s with table := s.table.childAlive i c false }
  if s.stopRequested then { s with pc := .exiting }
  else if shouldRestart c reason then
    let s := s.recordRestart now
    if s.intensityExceeded now then { s with pc := .exiting } else s.applyStrategy i now mem
  else if c.dynamic then
    { s with table := { s.table with children := s.table.children.eraseIdx i } }
  else s

/-- A DOWN message. -/
def State.handleDown (s : State) (pid : ℕ) (reason now : ℤ) (mem : Bool) : State :=
  let s := { s with reported := s.reported ++ [pid] }
  match findChildByPid s.table.children pid with
  | none => s
  | some i =>
    match s.table.children[i]? with
    | some c => s.childDown i c reason now mem
    | none => s

/-- A message was taken from the mailbox. -/
def State.handle (s : State) (m : Msg) (now : ℤ) (mem ok : Bool) : State :=
  match m with
  | .down pid reason => s.handleDown pid reason now mem
  | .addChild policy => s.handleAddChild policy mem ok
  | .other => s

/-- `__sup_exited`, up to its wait. -/
def State.exited (s : State) (now : ℤ) (mem : Bool) : State :=
  let cs := s.table.children
  let old := cs.mapIdx fun i c =>
    if c.alive then c.pid else (s.restartOld.bind fun rold => rold[i]?).join
  { s with
    procs := kill cs s.procs
    table := s.table.markDead 0 cs.length
    restartOld := none
    pc := if mem ∧ cs ≠ [] then .exitWait ⟨0, cs.length, old, now, .round⟩ else .done }

/-- The supervisor's next step: `now` is what a read of the clock gives, `mem` whether an
allocation succeeds, `ok` whether a spawn does. -/
def State.supStep (s : State) (now : ℤ) (mem ok : Bool) : Option State :=
  match s.pc with
  | .start i =>
    match s.table.children[i]? with
    | some c =>
      if ok then some { s.spawnChild i c false with pc := .start (i + 1) }
      else some { s with pc := .exiting }
    | none => some { s with pc := .top }
  | .top => some { s with pc := if s.stopRequested then .exiting else .receive }
  | .receive =>
    match s.mailbox with
    | m :: rest => some ({ s with mailbox := rest, pc := .top }.handle m now mem ok)
    | [] => some { s with pc := .top }
  | .restart i =>
    (s.table.children[i]?).map fun c =>
      if ok then { s.spawnChild i c false with pc := .top } else { s with pc := .top }
  | .waiting w =>
    match s.wait w now with
    | .more w' => some { s with pc := .waiting w' }
    | .gone => some { s with restartOld := none, pc := .respawn w.lo w.lo }
    | .gaveUp => some { s with restartOld := none, stopRequested := true, pc := .top }
  | .respawn lo i =>
    match s.table.children[i]? with
    | some c =>
      if ok then
        some { s.spawnChild i c (c.id ∈ s.aliveBefore) with pc := .respawn lo (i + 1) }
      else some { s with stopRequested := true, pc := .top }
    | none => some { s with pc := .top }
  | .exiting => some (s.exited now mem)
  | .exitWait w =>
    match s.wait w now with
    | .more w' => some { s with pc := .exitWait w' }
    | .gone | .gaveUp => some { s with pc := .done }
  | .done => none

/-- A place where a kill of the supervisor is delivered. -/
def Pc.killPoint : Pc → Bool
  | .receive => true
  | .waiting w => w.look = .sleeping
  | _ => false

/-- What can happen: the supervisor takes a step, its receive fails, it is killed; someone calls
`xtc_sup_stop`, `__xtc_sup_abandon_wait` or `xtc_sup_add_child`, or sends something else; a child's
process exits, leaves the process table, and sends its DOWN. -/
inductive Act
  | sup (now : ℤ) (mem ok : Bool)
  | recvFail
  | killSup
  | stop
  | abandon
  | addChild (policy : Policy)
  | send
  | exit (p : ℕ) (reason : ℤ)
  | leave (p : ℕ)
  | report (p : ℕ) (ok : Bool)

/-- Process `p` goes to another phase. -/
def State.setPhase (s : State) (p : ℕ) (q : Process) (phase : Phase) : State :=
  { s with procs := s.procs.set p { q with phase := phase } }

/-- One step. -/
def State.act (s : State) : Act → Option State
  | .sup now mem ok => s.supStep now mem ok
  | .recvFail => if s.pc = .receive then some { s with pc := .exiting } else none
  | .killSup =>
    if s.pc.killPoint then some { s with pc := if s.hooked then .exiting else .done } else none
  | .stop => some { s with stopRequested := true, mailbox := s.mailbox ++ [.other] }
  | .abandon => some { s with abandonWait := true }
  | .addChild policy => some { s with mailbox := s.mailbox ++ [.addChild policy] }
  | .send => some { s with mailbox := s.mailbox ++ [.other] }
  | .exit p reason =>
    (s.procs[p]?).bind fun q =>
      if q.phase = .running then
        some { s.setPhase p q (.exiting reason) with
          lastExit := Function.update s.lastExit q.child (some reason) }
      else none
  | .leave p =>
    (s.procs[p]?).bind fun q =>
      match q.phase with
      | .exiting r => some (s.setPhase p q (.left r))
      | _ => none
  | .report p ok =>
    (s.procs[p]?).bind fun q =>
      match q.phase with
      | .left r =>
        some { s.setPhase p q (.silent r) with
          mailbox := if ok then s.mailbox ++ [.down p r] else s.mailbox }
      | _ => none

/-- The runs of a supervisor. -/
def system : System State Act where
  init s := ∃ opts hooked policies, s = .create opts hooked policies
  step := State.act

end LibXtc.Sup

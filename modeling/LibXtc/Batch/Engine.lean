import LibXtc.Batch.Group
import LibXtc.Foundations.Runs

/-!
# The batch engine

A driver process serves the group on its owner loop; other fibers of the loop submit, cancel,
resume and close; producers on any thread hand requests and controls in through a ring. A step is
one access to what several parties share, with the private work around it. The owner loop's
brackets are not interrupted by its other fibers, but producers run all the time, also while a
bracket drains the ring.

The records of the ring come from pools; a claim may fail or succeed in any state, and so may a
push. What the user's callbacks return, and when a device operation ends, is up to the run. A kill
of the driver, an exit out of a callback included, sends it to its exit hook.
-/

namespace LibXtc.Batch

open Foundations

/-- `UINT64_MAX`. -/
def handleMax : ℕ := 2 ^ 64 - 1

/-- A call of a producer. -/
inductive Call
  /-- `xtc_batch_submit_mt`. -/
  | submit (charge : ℕ)
  /-- `xtc_batch_cancel_mt`. -/
  | cancel (handle : ℕ)
  /-- `xtc_batch_resume_mt`. -/
  | resume (handle : ℕ)
  deriving DecidableEq

/-- The first value of the gate that refuses the call. -/
def Call.limit : Call → ℕ
  | .submit _ => 1
  | .cancel _ | .resume _ => 2

/-- Where a producer is. -/
inductive Producer
  | idle
  /-- The gate let it pass the first time. -/
  | tested (c : Call)
  /-- Counted in `inflight`, at the second test of the gate. -/
  | announced (c : Call)
  /-- Refused at the second test, still counted. -/
  | refused
  /-- Past the gate, at the claim of a record. -/
  | entered (c : Call)
  /-- With a record to fill. -/
  | claimed (c : Call)
  /-- With a filled record, at the push. -/
  | filled (r : Rec)
  /-- Place `n` of the ring is reserved and not written. -/
  | reserved (r : Rec) (n : ℕ)
  /-- The record is in the ring; the call will return `XTC_OK`. -/
  | pushed (r : Rec)
  /-- The call will return an error. -/
  | rejected
  deriving DecidableEq

/-- A place of the ring. -/
structure Cell where
  place : ℕ
  record : Rec
  written : Bool
  deriving DecidableEq

/-- Which of its drains the driver is in. -/
inductive Drain
  /-- At the top of the loop. -/
  | top
  /-- Before `batch_vector`. -/
  | vector
  /-- In `batch_await_stop`. -/
  | await
  /-- In `batch_cleanup`. -/
  | cleanup
  deriving DecidableEq

/-- Which `batch_deliver` the driver is in. -/
inductive Delivery
  /-- The one after the top of the loop. -/
  | vector
  /-- The one before the yield. -/
  | yield
  /-- The one of `batch_cleanup`. -/
  | cleanup
  deriving DecidableEq

/-- What the driver does after `batch_fire_hints`. -/
inductive Hinting
  | await
  | collect (status : ℤ) (cleanup : Bool)
  deriving DecidableEq

/-- Where `batch_mt_quiesced` is. -/
inductive Quiesce
  | shut
  | inflight
  | length
  | finish
  | inflightAgain
  | lengthAgain
  deriving DecidableEq

/-- Where the driver is. -/
inductive Pc
  | start
  /-- Before the bracket of a drain. -/
  | enter (k : Drain)
  | drain (k : Drain)
  | deliver (k : Delivery)
  /-- In the complete callback for slot `i`. -/
  | completing (k : Delivery) (i : ℕ)
  /-- In the step callback. -/
  | stepping (members : List ℕ)
  /-- In the submit callback. -/
  | submitting (members : List ℕ)
  | awaiting
  /-- At member `j` of the vector in flight. -/
  | hinting (j : ℕ) (k : Hinting)
  /-- In the collect callback. -/
  | collecting (status : ℤ) (cleanup : Bool)
  | quiesce (q : Quiesce) (cleanup : Bool)
  /-- Before `batch_cleanup`. -/
  | exiting
  /-- In `batch_cleanup`, with no operation in flight. -/
  | closing
  | exited
  deriving DecidableEq

/-- What another fiber of the owner loop is in the middle of, inside its bracket. -/
inductive Peer
  | none
  /-- `xtc_batch_submit`, before the draw of a handle. -/
  | submitting (charge : ℕ)
  /-- `xtc_batch_cancel`, draining the ring. -/
  | cancelling (handle : ℕ)
  deriving DecidableEq

/-- A group with its driver and its producers. The last fields are the history: the handles
returned with `XTC_OK`, those passed to the complete callback, and those that some cancel named. -/
structure State where
  async : Bool
  /-- The ring exists. -/
  mt : Bool
  /-- There is a cancel hint. -/
  hints : Bool
  group : Group
  callback : Bool
  /-- The vector in flight. -/
  inflight : Option (List ℕ)
  ring : List Cell
  places : ℕ
  gate : ℕ
  mtInflight : ℕ
  handleCtr : ℕ
  producers : List Producer
  pc : Pc
  peer : Peer
  returned : List ℕ
  completed : List ℕ
  cancelled : List ℕ

/-- A new group, with `n` threads that may become producers. -/
def State.create (capacity maxActive resourceCapacity : ℕ) (async mt hints : Bool) (n : ℕ) :
    State :=
  { async := async, mt := mt, hints := hints,
    group := Group.create capacity maxActive resourceCapacity, callback := false,
    inflight := none, ring := [], places := 0, gate := 0, mtInflight := 0, handleCtr := 0,
    producers := List.replicate n .idle, pc := .start, peer := .none, returned := [],
    completed := [], cancelled := [] }

/-- What the driver's calls bring back: whether a fallible call succeeds, the codes of the
callbacks, the kind and the end of a device operation, and the results of the members. -/
structure Outcome where
  ok : Bool
  rc : ℤ
  sync : Bool
  status : ℤ
  results : ℕ → Result

namespace State

/-! ## Producers -/

/-- `batch_next_handle`. -/
def nextHandle (s : State) : ℕ := if s.handleCtr = handleMax then 0 else s.handleCtr + 1

/-- The counter after `batch_next_handle`. -/
def nextCtr (s : State) : ℕ := if s.handleCtr = handleMax then s.handleCtr else s.handleCtr + 1

def setProducer (s : State) (i : ℕ) (p : Producer) : State :=
  { s with producers := s.producers.set i p }

/-- A producer begins a call: the tests of its arguments and the first test of the gate. -/
def call (s : State) (i : ℕ) (c : Call) : Option State :=
  if s.mt ∧ s.producers[i]? = some .idle ∧ s.gate < c.limit then
    match c with
    | .submit charge =>
      if charge ≠ 0 ∧ charge ≤ s.group.resourceCapacity then some (s.setProducer i (.tested c))
      else none
    | .cancel h =>
      if h ≠ 0 then some { s.setProducer i (.tested c) with cancelled := s.cancelled ++ [h] }
      else none
    | .resume h => if h ≠ 0 then some (s.setProducer i (.tested c)) else none
  else none

/-- The next step of producer `i`; `ok` says whether a claim or a push succeeds. -/
def produce (s : State) (i : ℕ) (ok : Bool) : Option State :=
  match s.producers[i]? with
  | none | some .idle => none
  | some (.tested c) =>
    some { s.setProducer i (.announced c) with mtInflight := s.mtInflight + 1 }
  | some (.announced c) =>
    some (s.setProducer i (if c.limit ≤ s.gate then .refused else .entered c))
  | some .refused => some { s.setProducer i .idle with mtInflight := s.mtInflight - 1 }
  | some (.entered c) => some (s.setProducer i (if ok then .claimed c else .rejected))
  | some (.claimed (.submit charge)) =>
    if s.nextHandle = 0 then some (s.setProducer i .rejected)
    else some { s.setProducer i (.filled ⟨.submit, s.nextHandle, charge⟩) with
      handleCtr := s.nextCtr }
  | some (.claimed (.cancel h)) => some (s.setProducer i (.filled ⟨.cancel, h, 0⟩))
  | some (.claimed (.resume h)) => some (s.setProducer i (.filled ⟨.resume, h, 0⟩))
  | some (.filled r) =>
    if ok then some { s.setProducer i (.reserved r s.places) with
      ring := s.ring ++ [⟨s.places, r, false⟩], places := s.places + 1 }
    else some (s.setProducer i .rejected)
  | some (.reserved r n) =>
    some { s.setProducer i (.pushed r) with
      ring := s.ring.map fun c => if c.place = n then { c with written := true } else c }
  | some (.pushed r) =>
    some { s.setProducer i .idle with
      mtInflight := s.mtInflight - 1,
      returned := if r.op = .submit then s.returned ++ [r.handle] else s.returned }
  | some .rejected => some { s.setProducer i .idle with mtInflight := s.mtInflight - 1 }

/-! ## The driver -/

/-- One turn of the loop of `batch_mt_drain`; the ring's reader stops at a place not written. -/
def drainOne (s : State) : Option State :=
  match s.ring with
  | c :: ring =>
    if c.written then some { s with ring := ring, group := s.group.mtDrainOne c.record } else none
  | [] => none

/-- After the drain before `batch_vector`. -/
def afterVector (s : State) : State :=
  let s := { s with group := s.group.vector }
  if s.group.closed ∧ s.group.live = 0 ∧ s.group.held = [] then
    { s with pc := .quiesce .shut false }
  else if s.group.readyMembers = [] then { s with pc := .enter .top }
  else
    { s with
      callback := true,
      pc := if s.async then .submitting s.group.readyMembers
        else .stepping s.group.readyMembers }

/-- What follows a drain. -/
def drained (s : State) : Drain → State
  | .top => { s with group := s.group.consumeCancels, pc := .deliver .vector }
  | .vector => s.afterVector
  | .await => { s with pc := .hinting 0 .await }
  | .cleanup =>
    if s.group.live = 0 ∧ s.group.held = [] then { s with pc := .quiesce .shut true }
    else { s with group := s.group.failAll, pc := .deliver .cleanup }

/-- What follows `batch_deliver`. -/
def afterDelivery : Delivery → Pc
  | .vector => .enter .vector
  | .yield => .enter .top
  | .cleanup => .enter .cleanup

section

variable (s : State)

/-- The step callback has returned. -/
def stepped (members : List ℕ) (o : Outcome) : State :=
  { s with
    group := s.group.forMembers members fun i => Group.stepResult o.rc (o.results i) i,
    callback := false, pc := .deliver .yield }

/-- The submit callback has returned. -/
def submitted (members : List ℕ) (o : Outcome) : State :=
  if o.rc ≠ 0 then
    { s with
      group := s.group.forMembers members fun i g => g.terminal i (batchExecError o.rc),
      callback := false, pc := .deliver .yield }
  else
    { s with
      group := s.group.forMembers members fun i g => g.move i .inflight,
      inflight := some members, callback := false,
      pc := if o.sync then .hinting 0 (.collect 0 false) else .awaiting }

/-- One turn of the loop of `batch_fire_hints`, and what follows it. -/
def hinted (j : ℕ) (k : Hinting) : State :=
  let all := match k with
    | .collect status _ => decide (status = execAborted)
    | .await => false
  match (s.inflight.getD [])[j]? with
  | some i =>
    { s with
      group := if s.hints then s.group.fireHint all i else s.group, pc := .hinting (j + 1) k }
  | none =>
    match k with
    | .await =>
      { s with
        pc := if s.group.cancelling then .hinting 0 (.collect execAborted false)
          else .awaiting }
    | .collect status cleanup => { s with callback := true, pc := .collecting status cleanup }

/-- The collect callback has returned. -/
def collected (status : ℤ) (cleanup : Bool) (o : Outcome) : State :=
  { s with
    group := s.group.forMembers (s.inflight.getD []) fun i =>
      Group.collectResult status o.rc (o.results i) i,
    inflight := none, callback := false,
    pc := if cleanup then .closing else .deliver .yield }

/-- `batch_mt_quiesced` returns. -/
def quiesced (cleanup idle : Bool) : State :=
  { s with
    pc := if idle then (if cleanup then .exited else .exiting)
      else .enter (if cleanup then .cleanup else .top) }

/-- `batch_mt_quiesced`. -/
def quiesce (cleanup : Bool) : Quiesce → State
  | .shut =>
    if !s.mt then s.quiesced cleanup true
    else { s with gate := max s.gate 1, pc := .quiesce .inflight cleanup }
  | .inflight =>
    if s.mtInflight = 0 then { s with pc := .quiesce .length cleanup }
    else s.quiesced cleanup false
  | .length =>
    if s.ring = [] then { s with pc := .quiesce .finish cleanup } else s.quiesced cleanup false
  | .finish => { s with gate := 2, pc := .quiesce .inflightAgain cleanup }
  | .inflightAgain =>
    if s.mtInflight = 0 then { s with pc := .quiesce .lengthAgain cleanup }
    else s.quiesced cleanup false
  | .lengthAgain => s.quiesced cleanup (decide (s.ring = []))

/-- The start of the bracket of `batch_cleanup`. -/
def closeDown : State :=
  { s with
    group := { s.group with closed := true }.retireDelivering,
    callback := false, pc := .drain .cleanup }

/-- The next step of the driver. -/
def driver (o : Outcome) : Option State :=
  match s.pc with
  | .start => some { s with pc := if o.ok then .enter .top else .exiting }
  | .enter k => some { s with pc := .drain k }
  | .drain k =>
    match s.drainOne with
    | some s' => some s'
    | none => some (s.drained k)
  | .deliver k =>
    match s.group.claimTerminal with
    | some (i, g) =>
      some { s with
        group := g, callback := true, pc := .completing k i,
        completed := s.completed ++ [(g.slots i).handle] }
    | none => some { s with pc := afterDelivery k }
  | .completing k i =>
    some { s with group := s.group.retire i, callback := false, pc := .deliver k }
  | .stepping members => some (s.stepped members o)
  | .submitting members => some (s.submitted members o)
  | .awaiting =>
    some { s with
      pc := if o.ok then .hinting 0 (.collect o.status false) else .enter .await }
  | .hinting j k => some (s.hinted j k)
  | .collecting status cleanup => some (s.collected status cleanup o)
  | .quiesce q cleanup => some (s.quiesce cleanup q)
  | .exiting =>
    some { s with
      pc := if s.inflight.isSome then .hinting 0 (.collect execAborted true) else .closing }
  | .closing => some s.closeDown
  | .exited => none

end

/-! ## Other fibers of the owner loop -/

/-- `xtc_batch_submit` up to the draw of a handle. -/
def submitBegin (s : State) (charge : ℕ) : Option State :=
  if charge = 0 ∨ s.group.resourceCapacity < charge ∨ s.handleCtr = handleMax ∨ s.group.closed ∨
      s.group.live = s.group.capacity ∨ s.group.held ≠ [] then none
  else some { s with peer := .submitting charge }

/-- `xtc_batch_submit` from the draw of a handle on. -/
def submitEnd (s : State) (charge : ℕ) : State :=
  { s with
    handleCtr := s.nextCtr, group := s.group.submit s.nextHandle charge, peer := .none,
    returned := s.returned ++ [s.nextHandle] }

/-- `xtc_batch_cancel`, up to the drain if it needs one. -/
def cancelBegin (s : State) (h : ℕ) : State :=
  let s := { s with cancelled := s.cancelled ++ [h] }
  match s.group.find h with
  | some i => { s with group := s.group.cancelSlot i }
  | none => { s with peer := .cancelling h }

/-- `xtc_batch_cancel` after the drain. -/
def cancelEnd (s : State) (h : ℕ) : State :=
  let s := { s with peer := .none }
  match s.group.find h with
  | some i => { s with group := s.group.cancelSlot i }
  | none =>
    if s.group.mapGet h = some .held then { s with group := s.group.cancelHeld h } else s

/-- `xtc_batch_close`. -/
def close (s : State) (cancelling : Bool) : State :=
  { s with
    group := { s.group with closed := true, cancelling := s.group.cancelling || cancelling },
    gate := if s.mt ∧ s.gate = 0 then 1 else s.gate }

/-- The next step of the fiber that is inside its bracket. -/
def peerStep (s : State) : Option State :=
  match s.peer with
  | .none => none
  | .submitting charge => some (s.submitEnd charge)
  | .cancelling h =>
    match s.drainOne with
    | some s' => some s'
    | none => some (s.cancelEnd h)

end State

/-- Whether the driver is in its exit hook, or done, or has not begun: no kill is delivered. -/
def Pc.masked : Pc → Bool
  | .start | .enter .cleanup | .drain .cleanup | .deliver .cleanup | .completing .cleanup _
  | .hinting _ (.collect _ true) | .collecting _ true | .quiesce _ true | .exiting | .closing
  | .exited => true
  | _ => false

/-- Whether the driver is outside its brackets. -/
def Pc.outside : Pc → Bool
  | .drain _ | .quiesce _ _ => false
  | _ => true

/-- Whether another fiber of the owner loop may begin a call that changes the group. -/
def State.unlocked (s : State) : Bool := s.peer = .none && s.pc.outside && !s.callback

/-- The steps of the engine. -/
inductive Act
  | driver (o : Outcome)
  | kill
  | call (i : ℕ) (c : Call)
  | produce (i : ℕ) (ok : Bool)
  | submit (charge : ℕ)
  | cancel (h : ℕ)
  | resume (h : ℕ)
  | close (cancelling : Bool)
  | peer

/-- A step. -/
def State.act (s : State) : Act → Option State
  | .driver o => if s.peer = .none then s.driver o else none
  | .kill => if s.peer = .none ∧ !s.pc.masked then some { s with pc := .exiting } else none
  | .call i c => s.call i c
  | .produce i ok => s.produce i ok
  | .submit charge => if s.unlocked then s.submitBegin charge else none
  | .cancel h => if s.unlocked then some (s.cancelBegin h) else none
  | .resume h => if s.unlocked then some { s with group := s.group.resume h } else none
  | .close cancelling => if s.unlocked then some (s.close cancelling) else none
  | .peer => s.peerStep

/-- The engine, from the creation of the group on. -/
def system : System State Act where
  init s := ∃ capacity maxActive resourceCapacity async mt hints n,
    0 < maxActive ∧ maxActive ≤ capacity ∧ 0 < resourceCapacity ∧
      s = State.create capacity maxActive resourceCapacity async mt hints n
  step := State.act

end LibXtc.Batch

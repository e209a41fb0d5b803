import LibXtc.Foundations.Heap
import LibXtc.Foundations.Queue
import LibXtc.Foundations.Runs

/-!
# Mailbox and selective receive

The mailbox of one process, at the level of its pointers: envelopes are cells of a memory, the
mailbox and the save queue are two singly linked queues in it. A delivery is one critical section
under `mbox_lock`. The owner's receive is cut where it calls its predicate and where it takes or
releases the lock, so that any number of deliveries may come between two of its steps. A parked
receiver may be resumed at any time, by a delivery, by its timer or for no reason.
-/

namespace LibXtc.Mailbox

open Foundations

/-- `struct envelope`. `ext` says that the payload is a block of its own, which is handed over
without a copy; `live` that the block of the envelope is allocated. `seq` is history: how many
messages were accepted before this one. -/
structure Envelope where
  next : Option ℕ
  data : List UInt8
  ext : Bool
  seq : ℕ
  live : Bool
  deriving DecidableEq, Inhabited

/-- A message by its place in the order of acceptance. -/
structure Message where
  seq : ℕ
  data : List UInt8
  deriving DecidableEq

/-- The return codes of a receive. -/
inductive Rc
  | ok
  | again
  | nomem
  | inval
  deriving DecidableEq

/-! ## Memory -/

/-- The envelopes by their address. -/
abbrev Memory := Heap Envelope

namespace Memory

variable (mem : Memory)

/-- The link of an envelope. -/
def next (a : ℕ) : Option ℕ := (mem.get a).next

/-- The message in an envelope. -/
def message (a : ℕ) : Message := ⟨(mem.get a).seq, (mem.get a).data⟩

/-- `a->next = n`. -/
def setNext (a : ℕ) (n : Option ℕ) : Memory := mem.modify a fun e => { e with next := n }

/-- `e->next = NULL`, and the link of the envelope that was last leads to `e`. -/
def linkLast (tail : Option ℕ) (e : ℕ) : Memory :=
  match tail with
  | none => mem.setNext e none
  | some t => (mem.setNext e none).setNext t (some e)

/-- `__env_free`, or `__env_reject`, which gives an owned payload back. -/
def envFree (a : ℕ) : Memory := mem.modify a fun e => { e with live := false }

end Memory

/-- The fields of `struct xtc_proc` that deliveries and receives use. -/
structure Box where
  mem : Memory
  alive : Bool
  mboxHead : Option ℕ
  mboxTail : Option ℕ
  mboxN : ℕ
  mboxCap : ℕ
  mboxPeak : ℕ
  mboxRecvTotal : ℕ
  mboxDropTotal : ℕ
  mboxWmLvl : ℕ
  mboxWmFired : Bool
  saveHead : Option ℕ
  saveTail : Option ℕ
  mboxSaved : ℕ
  wakerArmed : Bool

namespace Box

variable (b : Box)

/-- The mailbox of a process that was just spawned. -/
def spawned (cap wmLvl : ℕ) : Box :=
  ⟨.empty, true, none, none, 0, cap, 0, 0, 0, wmLvl, false, none, none, 0, false⟩

/-! ## Delivery -/

/-- `__mbox_push_locked`. -/
def mboxPushLocked (e : ℕ) : Box :=
  { b with
    mem := b.mem.linkLast b.mboxTail e
    mboxHead := if b.mboxTail = none then some e else b.mboxHead
    mboxTail := some e
    mboxN := b.mboxN + 1
    mboxPeak := if b.mboxPeak < b.mboxN + 1 then b.mboxN + 1 else b.mboxPeak
    mboxRecvTotal := b.mboxRecvTotal + 1 }

/-- `__mbox_pop_locked`. -/
def mboxPopLocked : Option (ℕ × Box) :=
  b.mboxHead.map fun e =>
    (e, { b with
      mboxHead := b.mem.next e
      mboxTail := if b.mem.next e = none then none else b.mboxTail
      mboxN := b.mboxN - 1
      mboxWmFired :=
        if 0 < b.mboxWmLvl ∧ b.mboxN - 1 < b.mboxWmLvl then false else b.mboxWmFired })

/-- `__mbox_deliver_locked` refuses the envelope: the process is dead, or its mailbox is capped
and full and the message is not one of the library's own. -/
def refuses (sys : Bool) : Prop :=
  b.alive = false ∨ (sys = false ∧ 0 < b.mboxCap ∧ b.mboxCap ≤ b.mboxN + b.mboxSaved)

instance (sys : Bool) : Decidable (b.refuses sys) := inferInstanceAs (Decidable (_ ∨ _))

/-- `__mbox_deliver_locked`. -/
def mboxDeliverLocked (e : ℕ) (sys : Bool) : Box :=
  if b.refuses sys then { b with mem := b.mem.envFree e, mboxDropTotal := b.mboxDropTotal + 1 }
  else
    let b' := b.mboxPushLocked e
    { b' with mboxWmFired := b'.mboxWmFired || decide (0 < b'.mboxWmLvl ∧ b'.mboxWmLvl ≤ b'.mboxN) }

/-- The allocator hands out the block `e` and the sender fills it. -/
def envAlloc (e : ℕ) (data : List UInt8) (ext : Bool) : Box :=
  { b with mem := b.mem.set e ⟨none, data, ext, b.mboxRecvTotal, true⟩ }

/-! ## The save queue -/

/-- `*link`, where `link` is the link of `prev`, or `save_head`. -/
def link : Option ℕ → Option ℕ
  | none => b.saveHead
  | some a => b.mem.next a

/-- The envelope `e` at the link of `prev` leaves the save queue: `*link = e->next`, and `save_tail`
follows. -/
def unsave (prev : Option ℕ) (e : ℕ) : Box :=
  { b with
    mem := match prev with
      | none => b.mem
      | some a => b.mem.setNext a (b.mem.next e)
    saveHead := if prev = none then b.mem.next e else b.saveHead
    saveTail := if b.saveTail = some e then prev else b.saveTail
    mboxSaved := b.mboxSaved - 1 }

/-- The envelope `e` is appended to the save queue. -/
def save (e : ℕ) : Box :=
  { b with
    mem := b.mem.linkLast b.saveTail e
    saveHead := if b.saveTail = none then some e else b.saveHead
    saveTail := some e
    mboxSaved := b.mboxSaved + 1 }

/-- The envelope `e` goes to the head of the save queue. -/
def putBack (e : ℕ) : Box :=
  { b with
    mem := b.mem.setNext e b.saveHead
    saveHead := some e
    saveTail := if b.saveTail = none then some e else b.saveTail
    mboxSaved := b.mboxSaved + 1 }

end Box

/-! ## Receive -/

/-- Where the owner stands. -/
inductive Pc
  /-- Outside a receive. -/
  | idle
  /-- At the entry of `__do_recv`. -/
  | start
  /-- In the save queue, about to look at the envelope after `prev`. -/
  | walk (prev : Option ℕ)
  /-- About to lock the mailbox and pop. -/
  | pull
  /-- The envelope `e` is popped and the lock released; the predicate is about to be called. -/
  | test (e : ℕ)
  /-- The mailbox was empty; the timeout is about to be looked at. -/
  | check
  /-- Parked. -/
  | park
  /-- The envelope `e` is about to be handed over. -/
  | deliver (e : ℕ)
  /-- At the head of the loop of `xtc_recv_correlate`. -/
  | collect
  deriving DecidableEq

/-- The arguments and locals of `__do_recv`. -/
structure Frame where
  matchFn : List UInt8 → Bool
  timeout : ℤ
  deadline : ℤ
  mark : Option ℕ

/-- The arguments and locals of `xtc_recv_correlate`. -/
structure Correlate where
  corr : List UInt8
  expected : ℤ
  collected : ℤ
  deadline : ℤ

/-- `__corr_match`. -/
def corrMatch (corr data : List UInt8) : Bool :=
  decide (corr.length ≤ data.length) && data.take corr.length == corr

/-- A record of one successful receive: its predicate, the message and what was pending when it
returned. -/
structure Receipt where
  matchFn : List UInt8 → Bool
  message : Message
  pending : List Message

/-- What was accepted and what was returned so far, the latest receipt first. -/
structure History where
  accepted : List Message
  receipts : List Receipt

/-- The messages that were returned, the latest first. -/
def History.returned (h : History) : List Message := h.receipts.map Receipt.message

/-- The messages that were accepted and not returned, in the order of acceptance. -/
def History.pending (h : History) : List Message := h.accepted.filter fun m => m ∉ h.returned

/-- How things stood when the owner's present call began. -/
structure Since where
  before : List Message
  accepted : ℕ
  returned : ℕ

/-- A record of one call that timed out: what was pending at its beginning, what was accepted in
the meantime, what it has handed out (by `xtc_recv_correlate`), and what was pending at its end. -/
structure Expiry where
  correlate : Bool
  before : List Message
  arrived : List Message
  taken : List Message
  outN : ℤ
  after : List Message
  deriving DecidableEq

/-- The mailbox, the owner, and the history. -/
structure State where
  box : Box
  pc : Pc
  frame : Frame
  correlate : Option Correlate
  rc : Rc
  hist : History
  since : Since
  expired : List Expiry

namespace State

variable (s : State)

/-- A process that was just spawned. -/
def spawned (cap wmLvl : ℕ) : State :=
  ⟨.spawned cap wmLvl, .idle, ⟨fun _ => true, 0, -1, none⟩, none, .ok, ⟨[], []⟩, ⟨[], 0, 0⟩, []⟩

/-- A call of the owner begins. -/
def begin : State :=
  { s with since := ⟨s.hist.pending, s.hist.accepted.length, s.hist.receipts.length⟩ }

/-- What the present call has handed out. -/
def taken : List Message := s.hist.returned.take (s.hist.receipts.length - s.since.returned)

/-- The call of the owner returns to its caller; a timeout is recorded. -/
def leave (rc : Rc) (correlate : Bool) (outN : ℤ) : State :=
  { s with
    pc := .idle
    correlate := none
    rc := rc
    expired := if rc = .again then
      ⟨correlate, s.since.before, s.hist.accepted.drop s.since.accepted, s.taken, outN,
        s.hist.pending⟩ :: s.expired
      else s.expired }

/-- The end of `xtc_recv_correlate`. -/
def leaveCorrelate (c : Correlate) : State :=
  s.leave (if c.collected = c.expected then .ok else .again) true c.collected

/-- `__do_recv` returns `rc`, to the caller or to the loop of `xtc_recv_correlate`. -/
def ret (rc : Rc) : State :=
  match s.correlate with
  | none => s.leave rc false 0
  | some c =>
    if rc = .ok then
      let c' := { c with collected := c.collected + 1 }
      if c'.collected < c'.expected then { s with correlate := some c', pc := .collect }
      else s.leaveCorrelate c'
    else s.leaveCorrelate c

/-- The message in `e` is handed over and the envelope freed. -/
def handOver (e : ℕ) : State :=
  { s with
    box := { s.box with mem := s.box.mem.envFree e }
    hist := ⟨s.hist.accepted,
      ⟨s.frame.matchFn, s.box.mem.message e, s.hist.pending⟩ :: s.hist.receipts⟩ }

/-- The buffer for the payload of `e` cannot be allocated. -/
def noBuffer (e : ℕ) (alloc : Bool) : Prop :=
  (s.box.mem.get e).ext = false ∧ (s.box.mem.get e).data ≠ [] ∧ alloc = false

instance (e : ℕ) (alloc : Bool) : Decidable (s.noBuffer e alloc) :=
  inferInstanceAs (Decidable (_ ∧ _ ∧ _))

/-- The next step of the owner, with the time on the clock and the answer of the allocator. -/
def advance (now : ℤ) (alloc : Bool) : Option State :=
  match s.pc with
  | .idle => none
  | .start =>
    some { s with
      pc := .walk none
      frame := { s.frame with
        deadline := if 0 ≤ s.frame.timeout then now + s.frame.timeout else -1
        mark := none } }
  | .walk prev =>
    match s.box.link prev with
    | none => some { s with pc := .pull }
    | some e =>
      if s.frame.matchFn (s.box.mem.get e).data then
        some { s with box := s.box.unsave prev e, pc := .deliver e }
      else some { s with pc := .walk (some e) }
  | .pull =>
    match s.box.mboxPopLocked with
    | some (e, b) => some { s with box := b, pc := .test e }
    | none =>
      some { s with
        box := if s.frame.timeout = 0 then s.box else { s.box with wakerArmed := true }
        pc := .check }
  | .test e =>
    if s.frame.matchFn (s.box.mem.get e).data then some { s with pc := .deliver e }
    else some { s with box := s.box.save e, pc := .pull }
  | .check =>
    if s.frame.timeout = 0 then some (s.ret .again)
    else if 0 ≤ s.frame.deadline ∧ s.frame.deadline ≤ now then some (s.ret .again)
    else some { s with pc := .park, frame := { s.frame with mark := s.box.saveTail } }
  | .park => some { s with box := { s.box with wakerArmed := false }, pc := .walk s.frame.mark }
  | .deliver e =>
    if s.noBuffer e alloc then some (({ s with box := s.box.putBack e } : State).ret .nomem)
    else some ((s.handOver e).ret .ok)
  | .collect =>
    match s.correlate with
    | none => none
    | some c =>
      if 0 ≤ c.deadline ∧ c.deadline ≤ now then some (s.leaveCorrelate c)
      else
        some { s with
          pc := .start
          frame := ⟨corrMatch c.corr, if 0 ≤ c.deadline then c.deadline - now else -1, -1, none⟩ }

end State

/-- The next step. -/
inductive Act
  /-- A sender fills the block `e` and delivers it; `sys` marks a message of the library. -/
  | send (e : ℕ) (data : List UInt8) (ext sys : Bool)
  /-- `xtc_recv`, with the predicate that is always true, or `xtc_recv_match`. -/
  | recv (matchFn : List UInt8 → Bool) (timeout : ℤ)
  /-- `xtc_recv_correlate`. -/
  | recvCorrelate (corr : List UInt8) (expected timeout now : ℤ)
  /-- The owner goes on. -/
  | advance (now : ℤ) (alloc : Bool)
  /-- The owner exits, of its own or by a kill that reaches it where it looks for one. -/
  | exit

namespace State

variable (s : State)

/-- A delivery. The allocator hands out a block that is free. -/
def send (e : ℕ) (data : List UInt8) (ext sys : Bool) : Option State :=
  if (s.box.mem.get e).live then none
  else
    let b := s.box.envAlloc e data ext
    some { s with
      box := b.mboxDeliverLocked e sys
      hist := if b.refuses sys then s.hist
        else { s.hist with accepted := s.hist.accepted ++ [⟨s.box.mboxRecvTotal, data⟩] } }

/-- One step. -/
def step : Act → Option State
  | .send e data ext sys => s.send e data ext sys
  | .recv matchFn timeout =>
    if s.pc = .idle then
      some { s.begin with pc := .start, frame := ⟨matchFn, timeout, -1, none⟩, correlate := none }
    else none
  | .recvCorrelate corr expected timeout now =>
    if s.pc = .idle then
      if corr = [] ∨ expected ≤ 0 then some { s with rc := .inval }
      else
        some { s.begin with
          pc := .collect
          correlate := some ⟨corr, expected, 0, if 0 ≤ timeout then now + timeout else -1⟩ }
    else none
  | .advance now alloc => s.advance now alloc
  | .exit =>
    if s.pc = .idle ∨ s.pc = .start ∨ s.pc = .park then
      some { s with box := { s.box with alive := false }, pc := .idle, correlate := none }
    else none

end State

/-- One process's mailbox under deliveries and receives in any order. -/
def system : System State Act where
  init s := ∃ cap wmLvl, s = .spawned cap wmLvl
  step := State.step

end LibXtc.Mailbox

import LibXtc.Foundations.Runs

/-!
# The bounded channel with many producers and one consumer

`xtc_chan_mpsc_try_send`, `xtc_chan_mpsc_try_recv` and `xtc_chan_mpsc_close` of `chan.c` under
sequentially consistent interleaving, one step per atomic access. A producer reserves a position
by a compare-and-swap on `head` and publishes it by a store to its slot; the consumer takes the
slot of `tail` when it is not `NULL`. The counters are 64-bit words and the capacity, rounded up by
`xtc_chan_mpsc_create`, is `2 ^ k`.
-/

namespace LibXtc.Mpsc

open Foundations

variable {τ : Type*}

/-- Where a producer is in `xtc_chan_mpsc_try_send`. -/
inductive Producer (τ : Type*)
  | idle
  /-- The channel was open and the message is not `NULL`. -/
  | charge (msg : τ)
  | loadHead (msg : τ)
  | loadTail (msg : τ) (head : ℕ)
  | cas (msg : τ) (head : ℕ)
  /-- The position `head` is reserved. -/
  | publish (msg : τ) (head : ℕ)
  | loadWaker (msg : τ)
  deriving DecidableEq

/-- Where the consumer is in `xtc_chan_mpsc_try_recv`. -/
inductive Consumer (τ : Type*)
  | idle
  | loadHead (tail : ℕ)
  /-- The channel looked empty. -/
  | loadClosed (tail : ℕ)
  | loadSlot (tail : ℕ)
  | clearSlot (tail : ℕ) (v : τ)
  | storeTail (tail : ℕ) (v : τ)
  deriving DecidableEq

/-- The shared words, the threads, and histories that no call reads: the messages in the order of
their positions with the producer that reserved each; the sends that returned `XTC_OK`; the
producers whose send returned `XTC_E_AGAIN`; what the receives returned; and what they had returned
when one of them first returned `XTC_E_INVAL`. -/
structure State (τ : Type*) where
  head : ℕ
  tail : ℕ
  slots : ℕ → Option τ
  closed : Bool
  hasWaker : Bool
  /-- Calls of `xtc_waker_wake`. -/
  wakes : ℕ
  producers : List (Producer τ)
  consumer : Consumer τ
  reserved : List (ℕ × τ)
  sent : List (ℕ × τ)
  again : List ℕ
  received : List τ
  drained : Option (List τ)

/-- The capacity. -/
def cap (k : ℕ) : ℕ := 2 ^ k

/-- `n & (cap - 1)`. -/
def slot (k n : ℕ) : ℕ := n &&& (cap k - 1)

/-- Subtraction of 64-bit words. -/
def sub64 (a b : ℕ) : ℕ := (a + 2 ^ 64 - b) % 2 ^ 64

def State.put (s : State τ) (i : ℕ) (p : Producer τ) : State τ :=
  { s with producers := s.producers.set i p }

/-- Producer `i` calls `xtc_chan_mpsc_try_send`. A closed channel and `NULL` are `XTC_E_INVAL`. -/
def State.trySend (s : State τ) (i : ℕ) (msg : Option τ) : State τ :=
  match s.closed, msg with
  | false, some v => s.put i (.charge v)
  | _, _ => s

/-- A producer's next step. `ok` is whether `xtc_res_acquire` succeeds and whether the weak
compare-and-swap does not fail spuriously. -/
def State.producerStep (k : ℕ) (s : State τ) (i : ℕ) (ok : Bool) : Producer τ → Option (State τ)
  | .idle => none
  | .charge msg => some (s.put i (if ok then .loadHead msg else .idle))
  | .loadHead msg => some (s.put i (.loadTail msg s.head))
  | .loadTail msg head =>
    if sub64 head s.tail ≥ cap k then some { s.put i .idle with again := s.again ++ [i] }
    else some (s.put i (.cas msg head))
  | .cas msg head =>
    if s.head = head ∧ ok then
      some { s.put i (.publish msg head) with
        head := (head + 1) % 2 ^ 64
        reserved := s.reserved ++ [(i, msg)] }
    else some (s.put i (.loadHead msg))
  | .publish msg head =>
    some { s.put i (.loadWaker msg) with
      slots := Function.update s.slots (slot k head) (some msg) }
  | .loadWaker msg =>
    some { s.put i .idle with
      wakes := if s.hasWaker then s.wakes + 1 else s.wakes
      sent := s.sent ++ [(i, msg)] }

/-- The consumer's next step. -/
def State.consumerStep (k : ℕ) (s : State τ) : Option (State τ) :=
  match s.consumer with
  | .idle => none
  | .loadHead tail =>
    some { s with consumer := if tail ≥ s.head then .loadClosed tail else .loadSlot tail }
  | .loadClosed _ =>
    -- `XTC_E_INVAL` if the channel is closed, `XTC_E_AGAIN` otherwise
    some { s with
      consumer := .idle
      drained := if s.closed then s.drained <|> some s.received else s.drained }
  | .loadSlot tail =>
    -- A reserved slot that is not written yet is `XTC_E_AGAIN`.
    match s.slots (slot k tail) with
    | none => some { s with consumer := .idle }
    | some v => some { s with consumer := .clearSlot tail v }
  | .clearSlot tail v =>
    some { s with
      slots := Function.update s.slots (slot k tail) none
      consumer := .storeTail tail v }
  | .storeTail tail v =>
    some { s with
      tail := (tail + 1) % 2 ^ 64
      consumer := .idle
      received := s.received ++ [v] }

inductive Act (τ : Type*)
  | trySend (i : ℕ) (msg : Option τ)
  | producer (i : ℕ) (ok : Bool)
  /-- `xtc_chan_mpsc_try_recv` loads `tail`. -/
  | tryRecv
  | consumer
  | close
  /-- `xtc_chan_mpsc_set_waker` stores the flag. -/
  | setWaker

def State.act (k : ℕ) (s : State τ) : Act τ → Option (State τ)
  | .trySend i msg => if s.producers[i]? matches some .idle then some (s.trySend i msg) else none
  | .producer i ok => s.producers[i]?.bind fun p => s.producerStep k i ok p
  | .tryRecv =>
    if s.consumer matches .idle then some { s with consumer := .loadHead s.tail } else none
  | .consumer => s.consumerStep k
  | .close => some { s with closed := true }
  | .setWaker => some { s with hasWaker := true }

/-- `xtc_chan_mpsc_create`, with `n` producers. -/
def create (n : ℕ) : State τ where
  head := 0
  tail := 0
  slots := fun _ => none
  closed := false
  hasWaker := false
  wakes := 0
  producers := List.replicate n .idle
  consumer := .idle
  reserved := []
  sent := []
  again := []
  received := []
  drained := none

def system (τ : Type*) (k : ℕ) : System (State τ) (Act τ) where
  init s := ∃ n, s = create n
  step := State.act k

/-- The producer is about to reserve a position. -/
def Producer.atCas : Producer τ → Bool
  | .cas _ _ => true
  | _ => false

/-- The `head` that the producer has loaded when it is about to load `tail`. -/
def Producer.loadedHead : Producer τ → Option ℕ
  | .loadTail _ head => some head
  | _ => none

/-- The producer has found the channel open and has not reserved a position. -/
def Producer.unreserved : Producer τ → Bool
  | .charge _ | .loadHead _ | .loadTail _ _ | .cas _ _ => true
  | _ => false

/-- The `tail` at which the consumer has found the channel empty. -/
def Consumer.foundEmpty : Consumer τ → Option ℕ
  | .loadClosed tail => some tail
  | _ => none

/-- A reservation does not bring `head` to `2 ^ 64`. -/
def fits (s : State τ) : Act τ → Prop
  | .producer i _ => s.producers[i]?.any Producer.atCas = true → s.head + 1 < 2 ^ 64
  | _ => True

/-- A producer does not load a `tail` beyond the `head` it has loaded. -/
def notOvertaken (s : State τ) : Act τ → Prop
  | .producer i _ => ∀ head ∈ s.producers[i]?.bind Producer.loadedHead, s.tail ≤ head
  | _ => True

/-- When the consumer is about to return `XTC_E_INVAL`, nothing was reserved since it found the
channel empty, and no send is between its test of `closed` and its reservation. -/
def quiet (s : State τ) : Act τ → Prop
  | .consumer => ∀ tail ∈ s.consumer.foundEmpty, s.closed = true →
    s.head = tail ∧ ∀ p ∈ s.producers, p.unreserved = false
  | _ => True

instance (s : State τ) (a : Act τ) : Decidable (fits s a) :=
  match a with
  | .producer i _ =>
    inferInstanceAs (Decidable (s.producers[i]?.any Producer.atCas = true → s.head + 1 < 2 ^ 64))
  | .trySend _ _ | .tryRecv | .consumer | .close | .setWaker => inferInstanceAs (Decidable True)

instance (s : State τ) (a : Act τ) : Decidable (notOvertaken s a) :=
  match a with
  | .producer i _ =>
    inferInstanceAs (Decidable (∀ head ∈ s.producers[i]?.bind Producer.loadedHead, s.tail ≤ head))
  | .trySend _ _ | .tryRecv | .consumer | .close | .setWaker => inferInstanceAs (Decidable True)

instance (s : State τ) (a : Act τ) : Decidable (quiet s a) :=
  match a with
  | .consumer => inferInstanceAs (Decidable (∀ tail ∈ s.consumer.foundEmpty, s.closed = true →
    s.head = tail ∧ ∀ p ∈ s.producers, p.unreserved = false))
  | .producer _ _ | .trySend _ _ | .tryRecv | .close | .setWaker => inferInstanceAs (Decidable True)

end LibXtc.Mpsc

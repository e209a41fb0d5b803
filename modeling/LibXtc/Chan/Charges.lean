import LibXtc.Res.Calls

/-!
# What channels charge

The channels of `src/ptc/chan.c` as objects that hold units of an accountant: one of
`XTC_RES_CHANNELS` from their creation to their destruction, and for the bounded kinds one of
`XTC_RES_CHAN_SLOTS` for each message inside. Calls happen one after the other here; what the
accountant does in a call is `LibXtc.Res.Config.acquire` and `LibXtc.Res.release`.

A pointer to an accountant is its number, and `none` is `NULL`; a message is an `Option` too.
-/

namespace LibXtc.Channels

open Foundations

/-- The codes that the calls return. -/
inductive Rc
  | ok
  | inval
  | range
  | again
  | nomem
  | resource
  deriving DecidableEq

/-- `struct xtc_chan_oneshot`. Its state is never `2`. -/
structure Oneshot (α : Type*) where
  res : Option ℕ
  written : Bool
  value : Option α
  deriving DecidableEq

/-- `struct xtc_chan_mpsc`. -/
structure Mpsc (α : Type*) where
  res : Option ℕ
  cap : ℕ
  slots : List (Option α)
  head : UInt64
  tail : UInt64
  closed : Bool
  deriving DecidableEq

/-- `struct xtc_chan_watch`. -/
structure Watch (α : Type*) where
  res : Option ℕ
  value : Option α
  hasValue : Bool
  deriving DecidableEq

/-- `struct xtc_chan_mpmc`. -/
structure Mpmc (α : Type*) where
  res : Option ℕ
  cap : ℕ
  slots : List (Option α)
  head : ℕ
  tail : ℕ
  n : ℕ
  closed : Bool
  deriving DecidableEq

/-- `struct xtc_chan_broadcast`, with the cursors of its receivers in the order in which they were
made; `none` has unsubscribed. -/
structure Broadcast (α : Type*) where
  res : Option ℕ
  cap : ℕ
  slots : List (Option α)
  pos : UInt64
  recvs : List (Option UInt64)
  deriving DecidableEq

/-- `struct xtc_chan_demand`. -/
structure Demand (α : Type*) where
  res : Option ℕ
  cap : ℕ
  slots : List (Option α)
  head : ℕ
  tail : ℕ
  n : ℕ
  demand : ℕ
  closed : Bool
  deriving DecidableEq

/-- A channel of any kind. -/
inductive Chan (α : Type*)
  | oneshot (c : Oneshot α)
  | mpsc (c : Mpsc α)
  | watch (c : Watch α)
  | mpmc (c : Mpmc α)
  | broadcast (c : Broadcast α)
  | demand (c : Demand α)
  deriving DecidableEq

/-- The counters of the accountants, and the channels in the order of their creation; `none` has
been destroyed. -/
structure State (α : Type*) where
  used : ℕ → Res.Kind → ℤ
  chans : List (Option (Chan α))

/-- No channel has been created. -/
def State.create {α : Type*} (base : ℕ → Res.Kind → ℤ) : State α := ⟨base, []⟩

variable {α : Type*} (cfg : ℕ → Res.Config) (s : State α) (i : ℕ)

namespace State

/-- `xtc_res_acquire`, where the code calls it only if `res != NULL`. -/
def acquire (res : Option ℕ) (k : Res.Kind) (n : ℤ) : Option (State α) :=
  match res with
  | none => some s
  | some r =>
    ((cfg r).acquire (s.used r) k n).map fun u => { s with used := Function.update s.used r u }

/-- `xtc_res_release`, where the code calls it only if `res != NULL`. -/
def release (res : Option ℕ) (k : Res.Kind) (n : ℤ) : State α :=
  match res with
  | none => s
  | some r => { s with used := Function.update s.used r (Res.release (s.used r) k n) }

def put (c : Chan α) : State α := { s with chans := s.chans.set i (some c) }

/-! ## Creation -/

/-- What the creates share: the charge, then `allocs` allocations, of which the first `granted`
succeed. A create that fails gives the charge back. -/
def createWith (res : Option ℕ) (allocs granted : ℕ) (c : Chan α) : State α × Rc :=
  match s.acquire cfg res .channels 1 with
  | none => (s, .resource)
  | some s =>
    if granted < allocs then (s.release res .channels 1, .nomem)
    else ({ s with chans := s.chans ++ [some c] }, .ok)

/-- `xtc_chan_oneshot_create`. -/
def oneshotCreate (res : Option ℕ) (granted : ℕ) : State α × Rc :=
  s.createWith cfg res 1 granted (.oneshot ⟨res, false, none⟩)

/-- The loop of `xtc_chan_mpsc_create` that rounds the capacity up; it makes at most `fuel`
turns. -/
def roundUp (capacity : ℕ) : ℕ → ℕ → ℕ
  | 0, p => p
  | fuel + 1, p => if p < capacity then roundUp capacity fuel (p <<< 1) else p

/-- `SIZE_MAX`. -/
def sizeMax : ℕ := 2 ^ 64 - 1

section

variable (res : Option ℕ)

/-- `xtc_chan_mpsc_create`. -/
def mpscCreate (capacity granted : ℕ) : State α × Rc :=
  if capacity = 0 then (s, .inval)
  else if sizeMax / 2 + 1 < capacity then (s, .range)
  else
    s.createWith cfg res 2 granted
      (.mpsc ⟨res, roundUp capacity 64 1, List.replicate (roundUp capacity 64 1) none, 0, 0, false⟩)

/-- `xtc_chan_watch_create`. -/
def watchCreate (granted : ℕ) : State α × Rc :=
  s.createWith cfg res 1 granted (.watch ⟨res, none, false⟩)

/-- `xtc_chan_mpmc_create`. -/
def mpmcCreate (capacity granted : ℕ) : State α × Rc :=
  if capacity = 0 then (s, .inval)
  else
    s.createWith cfg res 2 granted
      (.mpmc ⟨res, capacity, List.replicate capacity none, 0, 0, 0, false⟩)

/-- `xtc_chan_broadcast_create`. -/
def broadcastCreate (capacity granted : ℕ) : State α × Rc :=
  if capacity = 0 then (s, .inval)
  else
    s.createWith cfg res 3 granted (.broadcast ⟨res, capacity, List.replicate capacity none, 0, []⟩)

/-- `xtc_chan_demand_create`. -/
def demandCreate (capacity granted : ℕ) : State α × Rc :=
  if capacity = 0 then (s, .inval)
  else
    s.createWith cfg res 2 granted
      (.demand ⟨res, capacity, List.replicate capacity none, 0, 0, 0, 0, false⟩)

end

end State

/-! ## Messages -/

/-- `xtc_chan_mpsc_len`. -/
def Mpsc.len (c : Mpsc α) : ℕ := (c.head - c.tail).toNat

namespace State

/-- `xtc_chan_oneshot_send`. -/
def oneshotSend (c : Oneshot α) (msg : Option α) : State α × Rc :=
  if c.written then (s, .inval)
  else (s.put i (.oneshot { c with written := true, value := msg }), .ok)

/-- `xtc_chan_mpsc_try_send`: the slot is charged first. -/
def mpscTrySend (c : Mpsc α) (msg : Option α) : State α × Rc :=
  if c.closed then (s, .inval)
  else if msg = none then (s, .inval)
  else
    match s.acquire cfg c.res .chanSlots 1 with
    | none => (s, .resource)
    | some s =>
      if c.cap ≤ (c.head - c.tail).toNat then (s.release c.res .chanSlots 1, .again)
      else
        (s.put i (.mpsc { c with
          slots := c.slots.set (c.head.toNat &&& (c.cap - 1)) msg, head := c.head + 1 }), .ok)

/-- `xtc_chan_watch_send`. -/
def watchSend (c : Watch α) (value : Option α) : State α × Rc :=
  (s.put i (.watch { c with value := value, hasValue := true }), .ok)

/-- `xtc_chan_mpmc_try_send`: the slot is charged first. -/
def mpmcTrySend (c : Mpmc α) (msg : Option α) : State α × Rc :=
  if msg = none then (s, .inval)
  else
    match s.acquire cfg c.res .chanSlots 1 with
    | none => (s, .resource)
    | some s =>
      if c.closed then (s.release c.res .chanSlots 1, .inval)
      else if c.cap ≤ c.n then (s.release c.res .chanSlots 1, .again)
      else
        (s.put i (.mpmc { c with
          slots := c.slots.set c.head msg, head := (c.head + 1) % c.cap, n := c.n + 1 }), .ok)

/-- `xtc_chan_broadcast_send`. -/
def broadcastSend (c : Broadcast α) (msg : Option α) : State α × Rc :=
  (s.put i (.broadcast { c with
    slots := c.slots.set (c.pos.toNat % c.cap) msg, pos := c.pos + 1 }), .ok)

/-- `xtc_chan_demand_send`: the slot is charged last. -/
def demandSend (c : Demand α) (msg : Option α) : State α × Rc :=
  if c.closed then (s, .inval)
  else if c.demand = 0 ∨ c.n = c.cap then (s, .again)
  else
    match s.acquire cfg c.res .chanSlots 1 with
    | none => (s, .resource)
    | some s =>
      (s.put i (.demand { c with
        slots := c.slots.set c.tail msg, tail := (c.tail + 1) % c.cap, n := c.n + 1,
        demand := c.demand - 1 }), .ok)

/-- `xtc_chan_oneshot_try_recv`. -/
def oneshotTryRecv (c : Oneshot α) : State α × Except Rc (Option α) :=
  if c.written then (s, .ok c.value) else (s, .error .again)

/-- `xtc_chan_mpsc_try_recv`. -/
def mpscTryRecv (c : Mpsc α) : State α × Except Rc (Option α) :=
  if c.head ≤ c.tail then (s, .error (if c.closed then .inval else .again))
  else
    match c.slots[c.tail.toNat &&& (c.cap - 1)]?.join with
    | none => (s, .error .again)
    | some v =>
      let slots := c.slots.set (c.tail.toNat &&& (c.cap - 1)) none
      ((s.put i (.mpsc { c with slots := slots, tail := c.tail + 1 })).release c.res .chanSlots 1,
        .ok (some v))

/-- `xtc_chan_watch_recv`. -/
def watchRecv (c : Watch α) : State α × Except Rc (Option α) :=
  if c.hasValue then (s, .ok c.value) else (s, .error .again)

/-- `xtc_chan_mpmc_try_recv`. -/
def mpmcTryRecv (c : Mpmc α) : State α × Except Rc (Option α) :=
  if 0 < c.n then
    ((s.put i (.mpmc { c with tail := (c.tail + 1) % c.cap, n := c.n - 1 })).release c.res
      .chanSlots 1, .ok c.slots[c.tail]?.join)
  else (s, .error (if c.closed then .inval else .again))

/-- `xtc_chan_broadcast_recv` by receiver `r`, with the number of messages that it missed. -/
def broadcastRecv (c : Broadcast α) (r : ℕ) : Option (State α × Except Rc (Option α × Int32)) :=
  match c.recvs[r]? with
  | some (some cursor) =>
    if c.pos ≤ cursor then some (s, .error .again)
    else
      let missed := c.pos - cursor - UInt64.ofNat c.cap
      let (cursor, lagged) :=
        if c.cap < (c.pos - cursor).toNat then
          (c.pos - UInt64.ofNat c.cap, missed.toUInt32.toInt32)
        else (cursor, 0)
      some (s.put i (.broadcast { c with recvs := c.recvs.set r (some (cursor + 1)) }),
        .ok (c.slots[cursor.toNat % c.cap]?.join, lagged))
  | _ => none

/-- `xtc_chan_demand_try_recv`. -/
def demandTryRecv (c : Demand α) : State α × Except Rc (Option α) :=
  if c.n = 0 then (s, .error (if c.closed then .inval else .again))
  else
    ((s.put i (.demand { c with head := (c.head + 1) % c.cap, n := c.n - 1 })).release c.res
      .chanSlots 1, .ok c.slots[c.head]?.join)

/-- `xtc_chan_demand_ask`. -/
def demandAsk (c : Demand α) (n : ℕ) : State α × Rc :=
  if n = 0 then (s, .ok)
  else if c.closed then (s, .inval)
  else (s.put i (.demand { c with demand := (c.demand + n) % 2 ^ 64 }), .ok)

/-- `xtc_chan_broadcast_subscribe`. -/
def broadcastSubscribe (c : Broadcast α) (granted : Bool) : State α × Rc :=
  if granted then (s.put i (.broadcast { c with recvs := c.recvs ++ [some c.pos] }), .ok)
  else (s, .nomem)

/-- `xtc_chan_broadcast_unsubscribe`. -/
def broadcastUnsubscribe (c : Broadcast α) (r : ℕ) : State α :=
  s.put i (.broadcast { c with recvs := c.recvs.set r none })

/-! ## Destruction -/

/-- What the destroys share: the charge for the channel is given back. -/
def destroyWith (res : Option ℕ) : State α :=
  ({ s with chans := s.chans.set i none }).release res .channels 1

/-- `xtc_chan_oneshot_destroy`. -/
def oneshotDestroy (c : Oneshot α) : State α := s.destroyWith i c.res

/-- `xtc_chan_mpsc_destroy`: the messages inside are given back too, as an `int64_t`. -/
def mpscDestroy (c : Mpsc α) : State α :=
  (s.release c.res .chanSlots (wrapInt64 c.len)).destroyWith i c.res

/-- `xtc_chan_watch_destroy`. -/
def watchDestroy (c : Watch α) : State α := s.destroyWith i c.res

/-- `xtc_chan_mpmc_destroy`: the messages inside are given back too, as an `int64_t`. -/
def mpmcDestroy (c : Mpmc α) : State α :=
  (s.release c.res .chanSlots (wrapInt64 c.n)).destroyWith i c.res

/-- `xtc_chan_broadcast_destroy`. -/
def broadcastDestroy (c : Broadcast α) : State α := s.destroyWith i c.res

/-- `xtc_chan_demand_destroy`: only the channel is given back. -/
def demandDestroy (c : Demand α) : State α := s.destroyWith i c.res

/-- The destroy of each kind. -/
def destroy : Chan α → State α
  | .oneshot c => s.oneshotDestroy i c
  | .mpsc c => s.mpscDestroy i c
  | .watch c => s.watchDestroy i c
  | .mpmc c => s.mpmcDestroy i c
  | .broadcast c => s.broadcastDestroy i c
  | .demand c => s.demandDestroy i c

/-! ## Calls on any channel -/

/-- `xtc_chan_mpsc_close`, `xtc_chan_mpmc_close` and `xtc_chan_demand_close`; the other kinds have
none. -/
def close : Chan α → Option (State α)
  | .mpsc c => some (s.put i (.mpsc { c with closed := true }))
  | .mpmc c => some (s.put i (.mpmc { c with closed := true }))
  | .demand c => some (s.put i (.demand { c with closed := true }))
  | _ => none

/-- The send of each kind. -/
def send (msg : Option α) : Chan α → State α × Rc
  | .oneshot c => s.oneshotSend i c msg
  | .mpsc c => s.mpscTrySend cfg i c msg
  | .watch c => s.watchSend i c msg
  | .mpmc c => s.mpmcTrySend cfg i c msg
  | .broadcast c => s.broadcastSend i c msg
  | .demand c => s.demandSend cfg i c msg

/-- The receive of each kind; `r` is the receiver of a broadcast channel. -/
def recv (i r : ℕ) : Chan α → Option (State α × Except Rc (Option α))
  | .oneshot c => some (s.oneshotTryRecv c)
  | .mpsc c => some (s.mpscTryRecv i c)
  | .watch c => some (s.watchRecv c)
  | .mpmc c => some (s.mpmcTryRecv i c)
  | .broadcast c => (s.broadcastRecv i c r).map fun out => (out.1, out.2.map Prod.fst)
  | .demand c => some (s.demandTryRecv i c)

end State

/-- The calls. A channel is known by its place in the order of creation. -/
inductive Act (α : Type*)
  | oneshotCreate (res : Option ℕ) (granted : ℕ)
  | mpscCreate (res : Option ℕ) (capacity granted : ℕ)
  | watchCreate (res : Option ℕ) (granted : ℕ)
  | mpmcCreate (res : Option ℕ) (capacity granted : ℕ)
  | broadcastCreate (res : Option ℕ) (capacity granted : ℕ)
  | demandCreate (res : Option ℕ) (capacity granted : ℕ)
  | send (i : ℕ) (msg : Option α)
  | recv (i r : ℕ)
  | ask (i n : ℕ)
  | subscribe (i : ℕ) (granted : Bool)
  | unsubscribe (i r : ℕ)
  | close (i : ℕ)
  | destroy (i : ℕ)

/-- One call. Calls on a channel that is not there are no part of the model. -/
def State.act (cfg : ℕ → Res.Config) (s : State α) : Act α → Option (State α)
  | .oneshotCreate res granted => some (s.oneshotCreate cfg res granted).1
  | .mpscCreate res capacity granted => some (s.mpscCreate cfg res capacity granted).1
  | .watchCreate res granted => some (s.watchCreate cfg res granted).1
  | .mpmcCreate res capacity granted => some (s.mpmcCreate cfg res capacity granted).1
  | .broadcastCreate res capacity granted => some (s.broadcastCreate cfg res capacity granted).1
  | .demandCreate res capacity granted => some (s.demandCreate cfg res capacity granted).1
  | .send i msg => s.chans[i]?.join.map fun c => (s.send cfg i msg c).1
  | .recv i r => s.chans[i]?.join.bind fun c => (s.recv i r c).map Prod.fst
  | .ask i n => s.chans[i]?.join.bind fun
    | .demand c => some (s.demandAsk i c n).1
    | _ => none
  | .subscribe i granted => s.chans[i]?.join.bind fun
    | .broadcast c => some (s.broadcastSubscribe i c granted).1
    | _ => none
  | .unsubscribe i r => s.chans[i]?.join.bind fun
    | .broadcast c => some (s.broadcastUnsubscribe i c r)
    | _ => none
  | .close i => s.chans[i]?.join.bind (s.close i)
  | .destroy i => s.chans[i]?.join.map (s.destroy i)

/-- Any sequence of calls, from the amounts `base`. -/
def system (cfg : ℕ → Res.Config) (base : ℕ → Res.Kind → ℤ) : System (State α) (Act α) where
  init s := s = State.create base
  step := State.act cfg

end LibXtc.Channels

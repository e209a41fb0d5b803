import LibXtc.Foundations.Runs

/-!
# The work-stealing deque

`xtc_deque_push`, `xtc_deque_pop`, `xtc_deque_take` and `xtc_deque_steal` of `deque.h` under
sequentially consistent interleaving. One owner calls the first three, any number of thieves call
the last. Each atomic load, store or compare-and-swap is one step, and the local variables of a
call live in the position it has reached. The capacity is `2 ^ k`; an index is masked at each
access of the ring and is not bounded otherwise.
-/

namespace LibXtc.Deque

open Foundations

variable {τ : Type*}

/-- Where a call of `xtc_deque_steal` is. -/
inductive Steal (τ : Type*)
  /-- No access made yet. -/
  | start
  /-- `top` was loaded. -/
  | loadBottom (t : ℤ)
  /-- `bottom` was loaded and is beyond `t`. -/
  | loadSlot (t : ℤ)
  /-- The slot was loaded. -/
  | cas (t : ℤ) (x : Option τ)
  deriving DecidableEq

/-- Where the owner is. -/
inductive Owner (τ : Type*)
  | idle
  -- `xtc_deque_push`
  | pushLoadTop (v : τ) (b : ℤ)
  | pushStoreSlot (v : τ) (b : ℤ)
  | pushStoreBottom (v : τ) (b : ℤ)
  -- `xtc_deque_pop`
  | popStoreBottom (b : ℤ)
  | popLoadTop (b : ℤ)
  | popEmpty (t : ℤ)
  | popLoadSlot (b t : ℤ)
  | popCas (b t : ℤ) (x : Option τ)
  | popRestore (b : ℤ) (x : Option τ)
  -- `xtc_deque_take`
  | takeLoadBottom
  | takeLoadTop (b : ℤ)
  | taking (c : Steal τ)
  deriving DecidableEq

/-- The shared words of the deque, where each thread is, and three histories no call reads: the
tasks whose push succeeded, the tasks that calls returned, and the tasks whose push failed. -/
structure State (τ : Type*) where
  top : ℤ
  bottom : ℤ
  buf : ℕ → Option τ
  owner : Owner τ
  thieves : List (Steal τ)
  pushed : List τ
  returned : List τ
  refused : List τ

/-- `XTC_DEQUE_CAP`, a power of two. -/
def cap (k : ℕ) : ℕ := 2 ^ k

/-- `i & XTC_DEQUE_MASK`. -/
def slot (k : ℕ) (i : ℤ) : ℕ := i.toNat &&& (cap k - 1)

/-- What one step of a steal leads to: the rest of the call or its result. -/
inductive Outcome (τ : Type*)
  | more (c : Steal τ)
  | done (x : Option τ)

/-- One step of `xtc_deque_steal`. -/
def steal (k : ℕ) (s : State τ) : Steal τ → Outcome τ
  | .start => .more (.loadBottom s.top)
  | .loadBottom t => if t ≥ s.bottom then .done none else .more (.loadSlot t)
  | .loadSlot t => .more (.cas t (s.buf (slot k t)))
  | .cas t x => if s.top = t then .done x else .done none

/-- `top` after one step of `xtc_deque_steal`. -/
def stealTop (s : State τ) : Steal τ → ℤ
  | .cas t _ => if s.top = t then t + 1 else s.top
  | _ => s.top

/-- The calls an idle owner can make. -/
inductive Call (τ : Type*)
  | push (v : τ)
  | pop
  | take

/-- The first access of a call. -/
def State.call (s : State τ) : Call τ → Owner τ
  | .push v => .pushLoadTop v s.bottom
  | .pop => .popStoreBottom (s.bottom - 1)
  | .take => .takeLoadTop s.bottom

/-- The owner's call returns `x`. -/
def State.finish (s : State τ) (x : Option τ) : State τ :=
  { s with owner := .idle, returned := s.returned ++ x.toList }

/-- One step of the owner inside a call. -/
def State.ownerStep (k : ℕ) (s : State τ) : Option (State τ) :=
  match s.owner with
  | .idle => none
  | .pushLoadTop v b =>
    -- A full ring is `XTC_E_AGAIN`.
    if b - s.top ≥ cap k then some { s with owner := .idle, refused := s.refused ++ [v] }
    else some { s with owner := .pushStoreSlot v b }
  | .pushStoreSlot v b =>
    some { s with buf := Function.update s.buf (slot k b) (some v), owner := .pushStoreBottom v b }
  | .pushStoreBottom v b =>
    some { s with bottom := b + 1, owner := .idle, pushed := s.pushed ++ [v] }
  | .popStoreBottom b => some { s with bottom := b, owner := .popLoadTop b }
  | .popLoadTop b =>
    if s.top > b then some { s with owner := .popEmpty s.top }
    else some { s with owner := .popLoadSlot b s.top }
  | .popEmpty t => some ({ s with bottom := t }.finish none)
  | .popLoadSlot b t =>
    if t < b then some (s.finish (s.buf (slot k b)))
    else some { s with owner := .popCas b t (s.buf (slot k b)) }
  | .popCas b t x =>
    if s.top = t then some { s with top := t + 1, owner := .popRestore b x }
    else some { s with owner := .popRestore b none }
  | .popRestore b x => some ({ s with bottom := b + 1 }.finish x)
  | .takeLoadBottom => some { s with owner := .takeLoadTop s.bottom }
  | .takeLoadTop b =>
    if b > s.top then some { s with owner := .taking .start } else some (s.finish none)
  | .taking c =>
    match steal k s c with
    | .more c' => some { s with top := stealTop s c, owner := .taking c' }
    | .done (some x) => some ({ s with top := stealTop s c }.finish (some x))
    -- Another consumer won the slot: retry.
    | .done none => some { s with top := stealTop s c, owner := .takeLoadBottom }

/-- One step of thief `i`. A thief whose call returned starts the next one. -/
def State.thiefStep (k : ℕ) (s : State τ) (i : ℕ) : Option (State τ) :=
  s.thieves[i]?.map fun c =>
    match steal k s c with
    | .more c' => { s with top := stealTop s c, thieves := s.thieves.set i c' }
    | .done x =>
      { s with
        top := stealTop s c
        thieves := s.thieves.set i .start
        returned := s.returned ++ x.toList }

inductive Act (τ : Type*)
  | call (c : Call τ)
  | owner
  | thief (i : ℕ)

def State.act (k : ℕ) (s : State τ) : Act τ → Option (State τ)
  | .call c => if s.owner matches .idle then some { s with owner := s.call c } else none
  | .owner => s.ownerStep k
  | .thief i => s.thiefStep k i

/-- `xtc_deque_init`, with `n` thieves. -/
def create (n : ℕ) : State τ where
  top := 0
  bottom := 0
  buf := fun _ => none
  owner := .idle
  thieves := List.replicate n .start
  pushed := []
  returned := []
  refused := []

def system (τ : Type*) (k : ℕ) : System (State τ) (Act τ) where
  init s := ∃ n, s = create n
  step := State.act k

/-- How far `bottom` is below the end of the deque. A pop lowers `bottom` before it knows whether
the last task is its own. -/
def Owner.lag : Owner τ → ℕ
  | .popLoadTop _ | .popEmpty _ | .popCas _ _ _ | .popRestore _ _ => 1
  | .popLoadSlot b t => if t < b then 0 else 1
  | _ => 0

/-- The task that a pop has claimed and is about to return. -/
def Owner.held (k : ℕ) (buf : ℕ → Option τ) : Owner τ → List τ
  | .popLoadSlot b t => if t < b then (buf (slot k b)).toList else []
  | .popRestore _ x => x.toList
  | _ => []

/-- The tasks of the ring that no call has claimed, oldest first. -/
def State.live (k : ℕ) (s : State τ) : List τ :=
  (List.range (s.bottom + s.owner.lag - s.top).toNat).filterMap fun j : ℕ =>
    s.buf (slot k (s.top + j))

end LibXtc.Deque

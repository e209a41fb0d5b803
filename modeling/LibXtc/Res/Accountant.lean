import LibXtc.Foundations.Int64
import LibXtc.Foundations.Runs

/-!
# The resource accountant

`xtc_res_acquire` and `xtc_res_release` move one counter per kind of resource in compare-and-swap
loops. Any number of threads run them; every atomic load and compare-and-swap is one step, and the
tests between two of them belong to the step before. Numbers are integers; sums and differences
are computed as `int64_t` does, and `overflow` remembers whether one ever left the range.
-/

namespace LibXtc.Res

open Foundations Function

/-- The kinds of resource (`xtc_res_kind_t`). -/
inductive Kind
  | tasks
  | channels
  | chanSlots
  | fds
  | memBytes
  | inboxMsgs
  deriving DecidableEq

/-- The caps (`xtc_res_caps_t`); a cap that is not positive is none. -/
structure Caps where
  tasks : Signed64
  channels : Signed64
  chanSlots : Signed64
  fds : Signed64
  memBytes : Signed64
  inboxMsgs : Signed64

/-- The cap of a kind (`__cap_for`). -/
def Caps.capFor (c : Caps) : Kind → Signed64
  | .tasks => c.tasks
  | .channels => c.channels
  | .chanSlots => c.chanSlots
  | .fds => c.fds
  | .memBytes => c.memBytes
  | .inboxMsgs => c.inboxMsgs

/-- What is fixed for a run: the caps, whether an alert function is installed, and the threshold
that `alert_pct` gives for each kind with an alert. -/
structure Config where
  caps : Caps
  alertFn : Bool
  threshold : Kind → Option ℤ

/-- The alert threshold of a kind: there is none without a positive cap. -/
def Config.thresholdFor (c : Config) (k : Kind) : Option ℤ :=
  if 0 < (c.caps.capFor k).1 then c.threshold k else none

/-- The most that `used` may be: the cap, or what an `int64_t` holds if there is none. -/
def Config.limit (c : Config) (k : Kind) : ℤ :=
  if 0 < (c.caps.capFor k).1 then (c.caps.capFor k).1 else int64Max

/-- Where a thread is, with its local variables. -/
inductive Thread
  | idle
  /-- At the load of `used` in `xtc_res_acquire`. -/
  | acquire (k : Kind) (n : ℤ)
  /-- At the compare-and-swap of `used` from `cur` to `next`. -/
  | acquireCas (k : Kind) (n cur next : ℤ)
  /-- At the increment of `rejects`; the call then returns `XTC_E_RESOURCE`. -/
  | reject (k : Kind) (n : ℤ)
  /-- At the load of the high-water mark. -/
  | loadHigh (k : Kind) (n next : ℤ)
  /-- At the compare-and-swap of the high-water mark. -/
  | raiseHigh (k : Kind) (n next observedHigh : ℤ)
  /-- At the threshold test and the compare-and-swap of `alert_armed`; the call then returns
  `XTC_OK`. -/
  | alert (k : Kind) (n next : ℤ)
  /-- At the first load of `used` in `xtc_res_release`. -/
  | release (k : Kind) (n : ℤ)
  /-- At the compare-and-swap of `used` from `prev`. -/
  | releaseCas (k : Kind) (n prev : ℤ)
  /-- At the load of `used` that decides whether the alert is armed again. -/
  | loadUsed (k : Kind) (threshold : ℤ)
  /-- At the store of `alert_armed`. -/
  | rearm (k : Kind)
  deriving DecidableEq

/-- A change of `used`: a successful compare-and-swap of a thread. -/
inductive Entry
  | acquired (i : ℕ) (k : Kind) (n : ℤ)
  | released (i : ℕ) (k : Kind) (n : ℤ)
  deriving DecidableEq

/-- The kind whose counter an entry changes. -/
def Entry.kind : Entry → Kind
  | .acquired _ k _ | .released _ k _ => k

/-- The accountant (`xtc_res_t`) and the threads, with the history: `ledger` are the changes of
`used` in order, `granted` the acquires that returned `XTC_OK` and `refused` those found not to
fit, each with its thread. -/
structure State where
  used : Kind → ℤ
  high : Kind → ℤ
  rejects : Kind → ℤ
  alertArmed : Kind → Bool
  threads : List Thread
  alerts : List (Kind × ℤ)
  overflow : Bool
  ledger : List Entry
  granted : List (ℕ × Kind × ℤ)
  refused : List (ℕ × Kind × ℤ)

/-- The accountant after `xtc_res_init`, with `n` threads. -/
def State.create (n : ℕ) : State :=
  { used := fun _ => 0, high := fun _ => 0, rejects := fun _ => 0, alertArmed := fun _ => true,
    threads := List.replicate n .idle, alerts := [], overflow := false, ledger := [],
    granted := [], refused := [] }

def State.put (s : State) (i : ℕ) (t : Thread) : State :=
  { s with threads := s.threads.set i t }

/-- The exact result `x` of a sum or difference is computed. -/
def State.compute (s : State) (x : ℤ) : State :=
  { s with overflow := s.overflow || !decide (FitsInt64 x) }

/-- A request was found not to fit: `xtc_res_acquire` goes on to count the rejection. -/
def State.refuse (s : State) (i : ℕ) (k : Kind) (n : ℤ) : State :=
  { s.put i (.reject k n) with refused := s.refused ++ [(i, k, n)] }

/-- The tests of `xtc_res_acquire` after it has loaded `cur`: the headroom is tested before the
sum is computed, and the sum against the cap. -/
def State.tryFit (c : Config) (s : State) (i : ℕ) (k : Kind) (n cur : ℤ) : State :=
  let s := if 0 < cur then s.compute (int64Max - cur) else s
  if 0 < cur ∧ wrapInt64 (int64Max - cur) < n then s.refuse i k n
  else
    let s := s.compute (cur + n)
    if 0 < (c.caps.capFor k).1 ∧ (c.caps.capFor k).1 < wrapInt64 (cur + n) then s.refuse i k n
    else s.put i (.acquireCas k n cur (wrapInt64 (cur + n)))

/-- The value that `xtc_res_release` swaps in: the difference, floored at zero. -/
def State.lower (s : State) (n prev : ℤ) : State × ℤ :=
  if n < prev then (s.compute (prev - n), wrapInt64 (prev - n)) else (s, 0)

/-- After its compare-and-swap, `xtc_res_release` looks at the alert if the kind has one. -/
def afterRelease (c : Config) (k : Kind) : Thread :=
  match c.thresholdFor k with
  | some threshold => .loadUsed k threshold
  | none => .idle

/-- A thread's next step. `ok` is whether a weak compare-and-swap does not fail spuriously. -/
def State.threadStep (c : Config) (s : State) (i : ℕ) (ok : Bool) : Thread → Option State
  | .idle => none
  | .acquire k n => some (s.tryFit c i k n (s.used k))
  | .acquireCas k n cur next =>
    if ok ∧ s.used k = cur then
      some { s.put i (.loadHigh k n next) with
        used := update s.used k next, ledger := s.ledger ++ [.acquired i k n] }
    else some (s.put i (.acquire k n))
  | .reject k _ =>
    some { s.put i .idle with
      rejects := update s.rejects k (wrapInt64 (s.rejects k + 1)) }
  | .loadHigh k n next =>
    if s.high k < next then some (s.put i (.raiseHigh k n next (s.high k)))
    else some (s.put i (.alert k n next))
  | .raiseHigh k n next observedHigh =>
    if s.high k = observedHigh then
      some { s.put i (.alert k n next) with high := update s.high k next }
    else some (s.put i (.alert k n next))
  | .alert k n next =>
    let s := { s.put i .idle with granted := s.granted ++ [(i, k, n)] }
    match c.thresholdFor k with
    | none => some s
    | some threshold =>
      if c.alertFn ∧ threshold ≤ next ∧ s.alertArmed k then
        some { s with
          alertArmed := update s.alertArmed k false, alerts := s.alerts ++ [(k, next)] }
      else some s
  | .release k n => some (s.put i (.releaseCas k n (s.used k)))
  | .releaseCas k n prev =>
    let (s, next) := s.lower n prev
    if ok ∧ s.used k = prev then
      some { s.put i (afterRelease c k) with
        used := update s.used k next, ledger := s.ledger ++ [.released i k n] }
    else some (s.put i (.releaseCas k n (s.used k)))
  | .loadUsed k threshold => some (s.put i (if s.used k < threshold then .rearm k else .idle))
  | .rearm k =>
    some { s.put i .idle with alertArmed := update s.alertArmed k true }

/-- What can happen: a call of `xtc_res_acquire` or `xtc_res_release` by an idle thread, or the next
step of a thread. -/
inductive Act
  | acquire (i : ℕ) (k : Kind) (n : Signed64)
  | release (i : ℕ) (k : Kind) (n : Signed64)
  | step (i : ℕ) (ok : Bool)

/-- One step. A call with a negative number, or a release of nothing, returns at once. -/
def State.act (c : Config) (s : State) : Act → Option State
  | .acquire i k n =>
    if s.threads[i]? = some .idle then some (if n.1 < 0 then s else s.put i (.acquire k n))
    else none
  | .release i k n =>
    if s.threads[i]? = some .idle then some (if n.1 ≤ 0 then s else s.put i (.release k n))
    else none
  | .step i ok => s.threads[i]?.bind (s.threadStep c i ok)

/-- The runs of one accountant with any number of threads. -/
def system (c : Config) : System State Act where
  init s := ∃ n, s = .create n
  step := State.act c

end LibXtc.Res

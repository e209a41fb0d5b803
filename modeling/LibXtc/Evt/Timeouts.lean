import LibXtc.Evt.TimerDrain

/-!
# Timeouts are not early and not forgotten

All timed calls compute a deadline as `now + delay` in 64 bits. The calls that wait in a loop
(`xtc_proc_sleep`, `xtc_recv`, the fiber waits of the synchronisation objects) compare it with the
clock at each turn and park on a timer for it. Here they run on top of the timers of one loop.
`instant` is the moment a timer was asked for, as an integer and at most `INT64_MAX`.

As long as no sum leaves the range of `int64_t`, no timer fires and no wait times out before its
instant, no wait parks without its timer, and the loop does not sleep past a queued timer. A sum
that does leave it gives a negative deadline, which fires at once, or is taken for none.
-/

namespace LibXtc.Timeouts

open Foundations Option List Function Timers

/-- The calls that wait in a loop of their own. -/
inductive Call
  | procSleep
  | recv
  | syncWait
  deriving DecidableEq

/-- What one turn of a waiting loop does. -/
inductive Turn
  /-- The time is up. -/
  | expired
  /-- Park on a timer for the deadline. -/
  | parkAt (deadline : ℤ)
  /-- Park without a timer. -/
  | park

/-- A turn of `xtc_proc_sleep`, called at `start`. -/
def procSleep (start ns now : ℤ) : Turn :=
  if ns ≤ 0 then .expired
  else if deadlineAfter start ns ≤ now then .expired
  else .parkAt (deadlineAfter start ns)

/-- A turn of `__do_recv` that finds no message. -/
def recv (start timeout now : ℤ) : Turn :=
  let deadline := if 0 ≤ timeout then deadlineAfter start timeout else -1
  if timeout = 0 then .expired
  else if 0 ≤ deadline then if deadline ≤ now then .expired else .parkAt deadline
  else .park

/-- `fw_deadline`: `-1` for none. -/
def fwDeadline (start timeout : ℤ) : ℤ := if timeout < 0 then -1 else deadlineAfter start timeout

/-- `fw_expired`. -/
def fwExpired (deadline now : ℤ) : Bool := if deadline < 0 then false else deadline ≤ now

/-- A turn of a synchronisation object's fiber wait that finds nothing granted; the wait parks as
`fw_park_unlocked` does. -/
def syncWait (start timeout now : ℤ) : Turn :=
  if timeout = 0 then .expired
  else if fwExpired (fwDeadline start timeout) now then .expired
  else if 0 ≤ fwDeadline start timeout then .parkAt (fwDeadline start timeout)
  else .park

def Call.turn : Call → ℤ → ℤ → ℤ → Turn
  | .procSleep => Timeouts.procSleep
  | .recv => Timeouts.recv
  | .syncWait => Timeouts.syncWait

/-- A call under way: when it began, and its timeout. -/
structure Wait where
  call : Call
  start : ℤ
  delay : ℤ
  deriving DecidableEq

/-- The moment that a delay from `now` on asks for. -/
def instantAfter (now delay : ℤ) : ℤ := min (now + delay) int64Max

/-- The timers of a loop and the calls that its fibers wait in, with the history: the moment each
timer was asked for, the waits that timed out (the moment asked for and the time), and the waits
that parked without a timer. -/
structure State where
  timers : Timers.State
  waits : List (Option Wait)
  instant : ℕ → ℤ
  timedOut : List (ℤ × ℤ)
  forgotten : List Wait

/-- A loop with `n` fibers at time `now`. -/
def State.create (n : ℕ) (now : ℤ) : State :=
  { timers := .create n now, waits := replicate n none, instant := fun _ => 0,
    timedOut := [], forgotten := [] }

/-- The monotonic times considered: from zero to `2 ^ 62`. -/
def validTime (now : ℤ) : Prop := 0 ≤ now ∧ now ≤ 4611686018427387904

instance (now : ℤ) : Decidable (validTime now) := inferInstanceAs (Decidable (_ ∧ _))

/-- What can happen: the timed calls, a turn of a wait, its end for another reason, the clock, and
any other step of the loop and its timers. -/
inductive Act
  | timerSet (i : ℕ) (delay : ℤ) (handle ok : Bool)
  | parkOnTimer (i : ℕ) (delay : ℤ) (ok : Bool)
  | begin (i : ℕ) (call : Call) (delay : ℤ)
  | turn (i : ℕ) (ok : Bool)
  | finish (i : ℕ)
  | tick (now : ℤ)
  | timers (a : Timers.Act)

/-- The steps of the loop and its timers that neither arm a timer nor advance the clock. -/
def other : Timers.Act → Bool
  | .timerSet _ _ _ _ | .parkOnTimer _ _ _ | .parkOnTimerAt _ _ _ | .tick _ => false
  | _ => true

/-- A turn of fiber `i`'s wait. The fiber has cancelled the timer of the turn before. -/
def State.turn (s : State) (i : ℕ) (f : Fiber) (w : Wait) (ok : Bool) : State :=
  match w.call.turn w.start w.delay s.timers.now with
  | .expired =>
    { s with
      waits := s.waits.set i none
      timedOut := s.timedOut ++ [(instantAfter w.start w.delay, s.timers.now)] }
  | .parkAt deadline =>
    { s with
      timers := s.timers.parkOnTimerAt i f deadline ok
      instant := update s.instant s.timers.created (instantAfter w.start w.delay) }
  | .park => { s with forgotten := s.forgotten ++ [w] }

/-- One step. The delays are the nonnegative `int64_t`. -/
def State.act (s : State) : Act → Option State
  | .timerSet i delay handle ok =>
    if 0 ≤ delay ∧ delay ≤ int64Max then
      (s.timers.act (.timerSet i delay handle ok)).map fun timers =>
        { s with
          timers := timers
          instant :=
            update s.instant s.timers.created (instantAfter s.timers.now delay) }
    else none
  | .parkOnTimer i delay ok =>
    if 0 ≤ delay ∧ delay ≤ int64Max then
      (s.timers.act (.parkOnTimer i delay ok)).map fun timers =>
        { s with
          timers := timers
          instant :=
            update s.instant s.timers.created (instantAfter s.timers.now delay) }
    else none
  | .begin i call delay =>
    if s.waits[i]? = some none ∧ 0 ≤ delay ∧ delay ≤ int64Max then
      some { s with waits := s.waits.set i (some ⟨call, s.timers.now, delay⟩) }
    else none
  | .turn i ok =>
    (s.timers.fibers[i]?).bind fun f => (s.waits[i]?).bind fun w =>
      if f.pc = .idle ∧ f.parkTimer = none ∧ s.timers.ownerFree then
        w.map fun w => s.turn i f w ok
      else none
  | .finish i => some { s with waits := s.waits.set i none }
  | .tick now =>
    if validTime now then
      (s.timers.act (.tick now)).map fun timers => { s with timers := timers }
    else none
  | .timers a =>
    if other a then (s.timers.act a).map fun timers => { s with timers := timers } else none

/-- The runs of one loop and the timed calls on it. -/
def system : System State Act where
  init s := ∃ n now, validTime now ∧ s = .create n now
  step := State.act

/-- A timed call does not ask for a moment after `INT64_MAX`. -/
def inRange (s : State) : Act → Prop
  | .timerSet _ delay _ _ | .parkOnTimer _ delay _ | .begin _ _ delay =>
    s.timers.now + delay ≤ int64Max
  | _ => True

instance (s : State) (a : Act) : Decidable (inRange s a) :=
  match a with
  | .timerSet _ _ _ _ | .parkOnTimer _ _ _ | .begin _ _ _ => inferInstanceAs (Decidable (_ ≤ _))
  | .turn _ _ | .finish _ | .tick _ | .timers _ => inferInstanceAs (Decidable True)

/-! ## Deadlines stay as they were armed -/

section Deadlines

variable {s s' : Timers.State} {P : ℕ → ℤ → Prop} {i t : ℕ} {f : Fiber} {r : Timer} {ok : Bool}
  {a : Timers.Act}

/-- What holds of the deadline of every timer, and of the one that is being pushed. -/
structure Deadlines (P : ℕ → ℤ → Prop) (s : Timers.State) : Prop where
  pushed : ∀ t, t < s.created → P t (s.timer t).deadline
  pushing : ∀ w, s.sweep = some w → P s.created w.timer.deadline

/-- A step that leaves the deadlines and the pushes as they are. -/
structure Quiet (s s' : Timers.State) : Prop where
  created : s'.created = s.created
  sweep : s'.sweep = s.sweep
  deadline : ∀ t, (s'.timer t).deadline = (s.timer t).deadline

theorem Deadlines.quiet (h : Deadlines P s) (hquiet : Quiet s s') : Deadlines P s' := by
  refine ⟨fun t ht => ?_, fun w hw => ?_⟩
  · rw [hquiet.created] at ht
    rw [hquiet.deadline]
    exact h.pushed t ht
  · rw [hquiet.sweep] at hw
    rw [hquiet.created]
    exact h.pushing w hw

theorem quiet_modify {g : Timer → Timer} (hg : (g (s.timer t)).deadline = (s.timer t).deadline) :
    Quiet s (s.modify t g) :=
  ⟨rfl, rfl, fun u => modify_same Timer.deadline hg u⟩

theorem quiet_release : Quiet s (s.release t) :=
  ⟨rfl, rfl, fun u => release_same Timer.deadline u⟩

section

variable (h : Deadlines P s)
include h

section

variable (hsw : s.sweep = none) (hnew : P s.created r.deadline)
include hsw hnew

theorem Deadlines.insert : Deadlines P (s.insert i f r) := by
  refine ⟨fun t ht => ?_, fun w hw => ?_⟩
  · have ht : t < s.created + 1 := ht
    show P t (update s.timer s.created r t).deadline
    by_cases htc : t = s.created
    · subst htc
      rw [update_self]
      exact hnew
    · rw [update_of_ne htc]
      exact h.pushed t (by omega)
  · have hw : s.sweep = some w := hw
    rw [hsw] at hw
    cases hw

theorem Deadlines.growAndInsert : Deadlines P (s.growAndInsert i f r ok) := by
  unfold Timers.State.growAndInsert
  split
  · split
    · exact Deadlines.insert ⟨h.pushed, h.pushing⟩ hsw hnew
    · exact ⟨h.pushed, h.pushing⟩
  · exact h.insert hsw hnew

theorem Deadlines.push : Deadlines P (s.push i f r ok) := by
  unfold Timers.State.push
  split
  · split
    · refine ⟨h.pushed, fun w hw => ?_⟩
      cases hw
      exact hnew
    · exact h.growAndInsert hsw hnew
  · exact h.insert hsw hnew

end

theorem Deadlines.sweepStep {w : Sweep} (hw : s.sweep = some w) (hs' : s.sweepStep w ok = some s') :
    Deadlines P s' := by
  have hnew := h.pushing w hw
  unfold Timers.State.sweepStep at hs'
  split at hs'
  · dsimp only at hs'
    split at hs' <;> cases hs'
    · refine Deadlines.quiet ?_ quiet_release
      refine ⟨h.pushed, fun w' hw' => ?_⟩
      cases hw'
      exact hnew
    · refine ⟨h.pushed, fun w' hw' => ?_⟩
      cases hw'
      exact hnew
  · obtain ⟨f, -, rfl⟩ := map_eq_some_iff.mp hs'
    exact Deadlines.growAndInsert ⟨h.pushed, nofun⟩ rfl hnew

/-- The steps that do not arm a timer keep what holds of the deadlines. -/
theorem Deadlines.other (hother : other a = true) (hs' : s.act a = some s') :
    Deadlines P s' := by
  cases a with
  | timerSet | parkOnTimer | parkOnTimerAt | tick => cases hother
  | cancelParkTimer i =>
    obtain ⟨f, -, hs'⟩ := bind_eq_some_iff.mp hs'
    split at hs'
    · split at hs' <;> cases hs' <;> exact ⟨h.pushed, h.pushing⟩
    · cases hs'
  | timerCancel i t =>
    obtain ⟨f, -, hs'⟩ := bind_eq_some_iff.mp hs'
    split at hs' <;> cases hs'
    exact ⟨h.pushed, h.pushing⟩
  | timerRelease i t =>
    obtain ⟨f, -, hs'⟩ := bind_eq_some_iff.mp hs'
    split at hs' <;> cases hs'
    have hquiet : Quiet s (s.modify t fun r => { r with handle := false }) := quiet_modify rfl
    exact (h.quiet hquiet).quiet quiet_release
  | fiber i onOwner =>
    obtain ⟨f, -, hs'⟩ := bind_eq_some_iff.mp hs'
    obtain ⟨-, hcreated, hsweep, hdl⟩ := fiberStep_frame hs'
    exact h.quiet ⟨hcreated, hsweep, hdl⟩
  | sweep ok =>
    obtain ⟨w, hw, hs'⟩ := bind_eq_some_iff.mp hs'
    exact h.sweepStep hw hs'
  | startDrain | startPeek =>
    simp only [Timers.State.act] at hs'
    split at hs' <;> cases hs'
    exact ⟨h.pushed, h.pushing⟩
  | drain => exact h.quiet { Drained.of_drainStep hs' with }

end

/-- The clock stands still, and a peek uses the time at which it began. -/
theorem other_peek (hother : other a = true) (hs' : s.act a = some s') :
    s'.now = s.now ∧ ∀ now, s'.drain = .peek now → s.drain = .peek now ∨ now = s.now := by
  cases a with
  | tick => cases hother
  | startDrain =>
    simp only [Timers.State.act] at hs'
    split at hs' <;> cases hs'
    exact ⟨rfl, by rintro _ ⟨⟩⟩
  | startPeek =>
    simp only [Timers.State.act] at hs'
    split at hs' <;> cases hs'
    refine ⟨rfl, fun now hnow => .inr ?_⟩
    cases hnow
    rfl
  | drain =>
    have hdrain := Drained.of_drainStep hs'
    exact ⟨hdrain.now, fun now hdr => .inl (hdrain.peek now hdr)⟩
  | _ =>
    obtain ⟨hnow, hdr, -⟩ := act_beside hs'
    exact ⟨hnow, fun now hpeek => .inl (hdr.symm.trans hpeek)⟩

end Deadlines

/-! ## What holds in every run without overflow -/

variable {s s' : State} {i t : ℕ} {now delay x d : ℤ} {timers : Timers.State} {f : Fiber}
  {ok : Bool} {a : Act} {w : Wait}

theorem deadlineAfter_eq (hnow : 0 ≤ now) (hdelay : 0 ≤ delay)
    (h : now + delay ≤ int64Max) : deadlineAfter now delay = now + delay := by
  refine wrapInt64_of_fits ⟨?_, h⟩
  omega

theorem instantAfter_eq (h : now + delay ≤ int64Max) :
    instantAfter now delay = now + delay := Int.min_eq_left h

/-- A deadline in range is not before the moment asked for. -/
theorem deadlineAfter_bounds (hnow : 0 ≤ now) (hdelay : 0 ≤ delay)
    (h : now + delay ≤ int64Max) : instantAfter now delay ≤ deadlineAfter now delay ∧
      0 ≤ deadlineAfter now delay ∧ deadlineAfter now delay ≤ int64Max := by
  rw [deadlineAfter_eq hnow hdelay h, instantAfter_eq h]
  exact ⟨Int.le_refl _, by omega, h⟩

structure Wait.Ok (w : Wait) (now : ℤ) : Prop where
  start : 0 ≤ w.start
  past : w.start ≤ now
  delay : 0 ≤ w.delay
  inRange : w.start + w.delay ≤ int64Max

/-- A turn gives up only when the time is up, and otherwise parks for the moment asked for. -/
theorem Wait.Ok.turn (h : w.Ok now) :
    w.call.turn w.start w.delay now = .expired ∧ w.start + w.delay ≤ now ∨
      w.call.turn w.start w.delay now = .parkAt (w.start + w.delay) := by
  have hdl := deadlineAfter_eq h.start h.delay h.inRange
  have hstart := h.start
  have hpast := h.past
  have hdelay := h.delay
  cases hcall : w.call with
  | procSleep =>
    simp only [Call.turn, procSleep, hdl]
    split
    · exact .inl ⟨rfl, by omega⟩
    · split
      · exact .inl ⟨rfl, by assumption⟩
      · exact .inr rfl
  | recv =>
    simp only [Call.turn, recv, hdl, hdelay, if_true]
    split
    · exact .inl ⟨rfl, by omega⟩
    · rw [if_pos (by omega)]
      split
      · exact .inl ⟨rfl, by assumption⟩
      · exact .inr rfl
  | syncWait =>
    have hfw : fwDeadline w.start w.delay = w.start + w.delay := by
      rw [fwDeadline, if_neg (by omega), hdl]
    simp only [Call.turn, syncWait, hfw, fwExpired]
    rw [if_neg (by omega : ¬ w.start + w.delay < 0)]
    split
    · exact .inl ⟨rfl, by omega⟩
    · split
      · exact .inl ⟨rfl, by simpa using ‹decide (w.start + w.delay ≤ now) = true›⟩
      · rw [if_pos (by omega)]
        exact .inr rfl

structure Good (s : State) : Prop where
  timers : Timers.Ok s.timers
  clock : validTime s.timers.now
  peek : ∀ now, s.timers.drain = .peek now → validTime now
  deadlines : Deadlines (fun t d => s.instant t ≤ d ∧ 0 ≤ d ∧ d ≤ int64Max) s.timers
  waits : ∀ w, some w ∈ s.waits → w.Ok s.timers.now
  timedOut : ∀ e ∈ s.timedOut, e.1 ≤ e.2
  forgotten : s.forgotten = []

/-- The new timer gets its moment; those of the others stay. -/
theorem Deadlines.update {instant : ℕ → ℤ} {s : Timers.State} (x : ℤ)
    (h : Deadlines (fun t d => instant t ≤ d ∧ 0 ≤ d ∧ d ≤ int64Max) s) (hsw : s.sweep = none) :
    Deadlines (fun t d => update instant s.created x t ≤ d ∧ 0 ≤ d ∧ d ≤ int64Max) s := by
  refine ⟨fun t ht => ?_, fun w hw => ?_⟩
  · rw [update_of_ne (Nat.ne_of_lt ht)]
    exact h.pushed t ht
  · rw [hsw] at hw
    cases hw

/-- The clock stands still while the loop or its timers take a step. -/
theorem Good.setTimers {instant : ℕ → ℤ} (h : Good s) (hok : Timers.Ok timers)
    (hnow : timers.now = s.timers.now)
    (hpeek : ∀ now, timers.drain = .peek now → s.timers.drain = .peek now ∨ now = s.timers.now)
    (hdeadlines : Deadlines (fun t d => instant t ≤ d ∧ 0 ≤ d ∧ d ≤ int64Max) timers) :
    Good { s with timers := timers, instant := instant } := by
  refine ⟨hok, ?_, fun now hdr => ?_, hdeadlines, fun w hw => ?_, h.timedOut, h.forgotten⟩
  · show validTime timers.now
    rw [hnow]
    exact h.clock
  · rcases hpeek now hdr with hdr | rfl
    · exact h.peek now hdr
    · exact h.clock
  · show w.Ok timers.now
    rw [hnow]
    exact h.waits w hw

theorem Good.push {r : Timer} (h : Good s)
    (hok : Timers.Ok (s.timers.push i f r ok)) (hsw : s.timers.sweep = none)
    (hx : x ≤ r.deadline ∧ 0 ≤ r.deadline ∧ r.deadline ≤ int64Max) :
    Good { s with
      timers := s.timers.push i f r ok
      instant := update s.instant s.timers.created x } := by
  have hsame : Beside s.timers (s.timers.push i f r ok) := beside_push
  refine h.setTimers hok hsame.1 (fun _ hpeek => .inl (hsame.2.1.symm.trans hpeek))
    ((h.deadlines.update x hsw).push hsw ?_)
  rw [update_self]
  exact hx

theorem Good.parkOnTimerAt {deadline : ℤ} (h : Good s)
    (hok : Timers.Ok (s.timers.parkOnTimerAt i f deadline ok)) (hsw : s.timers.sweep = none)
    (hx : x ≤ deadline ∧ 0 ≤ deadline ∧ deadline ≤ int64Max) :
    Good { s with
      timers := s.timers.parkOnTimerAt i f deadline ok
      instant := update s.instant s.timers.created x } := by
  by_cases hslot : f.parkTimer.isSome = true
  · have hsame : s.timers.parkOnTimerAt i f deadline ok = s.timers := if_pos hslot
    rw [hsame]
    exact h.setTimers h.timers rfl (fun _ => .inl) (h.deadlines.update x hsw)
  · have hpush : s.timers.parkOnTimerAt i f deadline ok =
        s.timers.push i f (newParkTimer deadline i) ok := if_neg hslot
    rw [hpush] at hok ⊢
    exact h.push hok hsw hx

theorem Good.finish (h : Good s) : Good { s with waits := s.waits.set i none } := by
  refine { h with waits := fun w hw => ?_ }
  rcases mem_or_eq_of_mem_set hw with hw | hw
  · exact h.waits w hw
  · cases hw

theorem Good.turn (h : Good s)
    (hf : s.timers.fibers[i]? = some f) (hw : s.waits[i]? = some (some w)) (hidle : f.pc = .idle)
    (hfree : s.timers.ownerFree = true) : Good (s.turn i f w ok) := by
  have hwait := h.waits w (mem_of_getElem? hw)
  have hinstant := instantAfter_eq hwait.inRange
  have hstart := hwait.start
  have hdelay := hwait.delay
  unfold State.turn
  rcases hwait.turn with ⟨hturn, hup⟩ | hturn
  · rw [hturn]
    refine { h.finish with timedOut := fun e he => ?_ }
    rcases mem_append.mp he with he | he
    · exact h.timedOut e he
    · rw [mem_singleton.mp he, hinstant]
      exact hup
  · rw [hturn]
    refine h.parkOnTimerAt (h.timers.parkOnTimerAt hf hidle hfree) (ownerFree_iff.mp hfree).1 ?_
    rw [hinstant]
    exact ⟨Int.le_refl _, by omega, hwait.inRange⟩

theorem Good.act (h : Good s) (hrange : inRange s a) (hs' : s.act a = some s') :
    Good s' := by
  have hclock := h.clock.1
  cases a with
  | timerSet i delay handle ok | parkOnTimer i delay ok =>
    simp only [State.act] at hs'
    split at hs'
    case isFalse => cases hs'
    rename_i hdelay
    obtain ⟨timers, htimers, rfl⟩ := map_eq_some_iff.mp hs'
    have hok := h.timers.act htimers
    obtain ⟨f, hf, htimers⟩ := bind_eq_some_iff.mp htimers
    split at htimers
    case isFalse => cases htimers
    rename_i hcond
    rw [if_neg (by omega)] at htimers
    cases htimers
    have hfree := (ownerFree_iff.mp hcond.2).1
    have hbounds := deadlineAfter_bounds hclock hdelay.1 hrange
    first
      | exact h.push hok hfree hbounds
      | exact h.parkOnTimerAt hok hfree hbounds
  | begin i call delay =>
    simp only [State.act] at hs'
    split at hs' <;> cases hs'
    rename_i hcond
    refine { h with waits := fun w hw => ?_ }
    rcases mem_or_eq_of_mem_set hw with hw | hw
    · exact h.waits w hw
    · cases hw
      exact ⟨hclock, Int.le_refl _, hcond.2.1, hrange⟩
  | turn i ok =>
    obtain ⟨f, hf, hs'⟩ := bind_eq_some_iff.mp hs'
    obtain ⟨w, hw, hs'⟩ := bind_eq_some_iff.mp hs'
    split at hs'
    case isFalse => cases hs'
    rename_i hcond
    obtain ⟨w, rfl, rfl⟩ := map_eq_some_iff.mp hs'
    exact h.turn hf hw hcond.1 hcond.2.2
  | finish i =>
    cases hs'
    exact h.finish
  | tick now =>
    simp only [State.act] at hs'
    split at hs'
    case isFalse => cases hs'
    rename_i hvalid
    obtain ⟨timers, htimers, rfl⟩ := map_eq_some_iff.mp hs'
    have hok := h.timers.act htimers
    simp only [Timers.State.act] at htimers
    split at htimers <;> cases htimers
    rename_i hle
    refine ⟨hok, hvalid, h.peek, ⟨h.deadlines.pushed, h.deadlines.pushing⟩, fun w hw => ?_,
      h.timedOut, h.forgotten⟩
    have hwait := h.waits w hw
    exact { hwait with past := Int.le_trans hwait.past hle }
  | timers a =>
    simp only [State.act] at hs'
    split at hs'
    case isFalse => cases hs'
    rename_i hother
    obtain ⟨timers, htimers, rfl⟩ := map_eq_some_iff.mp hs'
    obtain ⟨hnow, hpeek⟩ := other_peek hother htimers
    exact h.setTimers (h.timers.act htimers) hnow hpeek (h.deadlines.other hother htimers)

theorem Good.of_reachable (hs : system.ReachableUnder inRange s) : Good s := by
  refine hs.invariant ?_ ?_
  · rintro s ⟨n, now, hnow, rfl⟩
    refine ⟨ok_create, hnow, nofun, ⟨nofun, nofun⟩, fun w hw => ?_, nofun, rfl⟩
    cases eq_of_mem_replicate hw
  · intro s a s' h hrange ht
    exact h.act hrange ht

/-- A step is one of the timers, or leaves them alone. -/
theorem timersAct_of_act (hs' : s.act a = some s') :
    s'.timers = s.timers ∨ ∃ b, s.timers.act b = some s'.timers := by
  cases a with
  | timerSet i delay handle ok | parkOnTimer i delay ok | tick now | timers b =>
    simp only [State.act] at hs'
    split at hs'
    · obtain ⟨timers, htimers, rfl⟩ := map_eq_some_iff.mp hs'
      exact .inr ⟨_, htimers⟩
    · cases hs'
  | begin i call delay =>
    simp only [State.act] at hs'
    split at hs' <;> cases hs'
    exact .inl rfl
  | turn i ok =>
    obtain ⟨f, hf, hs'⟩ := bind_eq_some_iff.mp hs'
    obtain ⟨w, -, hs'⟩ := bind_eq_some_iff.mp hs'
    split at hs'
    case isFalse => cases hs'
    rename_i hcond
    obtain ⟨w, rfl, rfl⟩ := map_eq_some_iff.mp hs'
    unfold State.turn
    split
    case h_2 deadline _ =>
      refine .inr ⟨.parkOnTimerAt i deadline ok, ?_⟩
      exact bind_eq_some_iff.mpr ⟨f, hf, if_pos ⟨hcond.1, hcond.2.2⟩⟩
    all_goals exact .inl rfl
  | finish i =>
    cases hs'
    exact .inl rfl

/-- No timer fires before its moment. -/
theorem Good.fire (h : Good s) (hs' : s.act a = some s')
    (hfires : s'.timers.fires ≠ s.timers.fires) :
    ∃ now t, s.timers.drain = .popped now t ∧ s'.timers.fires = s.timers.fires ++ [t] ∧
      s.instant t ≤ now := by
  rcases timersAct_of_act hs' with hsame | ⟨b, hb⟩
  · rw [hsame] at hfires
    exact absurd rfl hfires
  · obtain ⟨now, t, hdr, hnew, -⟩ :=
      (Drained.of_drainStep (act_fires hb hfires)).fires.resolve_left hfires
    have hhand : s.timers.drain.inHand t = true := by
      refine Drain.inHand_of_isPopped ?_
      rw [hdr]
      exact decide_eq_true rfl
    have hknown := h.timers.drain.known t hhand
    have hdl := (h.deadlines.pushed t hknown).1
    exact ⟨now, t, hdr, hnew, Int.le_trans hdl (h.timers.order.popped now t hdr).1⟩

/-- The poll ends at the deadline, or at once. -/
theorem pollTimeout_eq (hd : 0 ≤ d ∧ d ≤ int64Max) (hnow : validTime now) :
    0 ≤ pollTimeout d now ∧ now + pollTimeout d now = max now d := by
  have hexact : wrapInt64 (d - now) = d - now := by
    obtain ⟨hnow, hlate⟩ := hnow
    exact wrapInt64_of_fits ⟨by omega, by omega⟩
  unfold pollTimeout
  dsimp only
  split <;> omega

/-- The loop does not sleep past a timer in the heap. -/
theorem Good.poll (h : Good s) (hdr : s.timers.drain = .peek now)
    (ht : s.timers.drainStep = some timers) (hend : timers.drain = .idle)
    (hd : timers.heap.find t = some d) :
    ∃ timeout, timers.timeout = some timeout ∧ 0 ≤ timeout ∧ now + timeout ≤ max now d := by
  have hsw : s.timers.sweep = none := h.timers.sweep_eq_none hdr
  unfold Timers.State.drainStep at ht
  simp only [hdr] at ht
  split at ht
  · cases ht
    obtain ⟨j, hj, -⟩ := map_eq_some_iff.mp hd
    have hlt := ((h.timers.valid hsw).item_index t j hj).1
    omega
  · rename_i hsize
    obtain ⟨hroot, hleast⟩ := h.timers.root hsw hsize
    obtain ⟨hknown, hkey⟩ := h.timers.key _ _ hroot
    split at ht <;> cases ht
    · have hend : s.timers.drain = .idle := hend
      rw [hdr] at hend
      cases hend
    · have hdl := (h.deadlines.pushed _ hknown).2
      rw [← hkey] at hdl
      obtain ⟨hpos, htimeout⟩ := pollTimeout_eq hdl (h.peek now hdr)
      refine ⟨_, rfl, hpos, ?_⟩
      have hle : (s.timers.heap.slots 0).1 ≤ d := hleast t d hd
      omega

/-- In every run whose timed calls ask for moments up to `INT64_MAX`:

* the deadline of a timer is not before the moment it was asked for, and no timer fires before
  that moment;
* no wait times out before the moment asked for, and none parks without a timer;
* when the loop computes its sleep and a timer is in the heap, the result is not `-1`, and the
  sleep ends by the timer's deadline. -/
theorem timeouts_not_early_not_forgotten {s : State} (hs : system.ReachableUnder inRange s) :
    (∀ t ∈ s.timers.pushed, s.instant t ≤ (s.timers.timer t).deadline) ∧
    (∀ a, ∀ s' ∈ system.step s a, s'.timers.fires ≠ s.timers.fires →
      ∃ now t, s.timers.drain = .popped now t ∧ s'.timers.fires = s.timers.fires ++ [t] ∧
        s.instant t ≤ now) ∧ (∀ e ∈ s.timedOut, e.1 ≤ e.2) ∧ s.forgotten = [] ∧
    (∀ now, s.timers.drain = .peek now → ∀ s' ∈ system.step s (.timers .drain),
      s'.timers.drain = .idle → ∀ t ∈ s'.timers.pushed, t ∉ s'.timers.left →
        ∃ timeout, s'.timers.timeout = some timeout ∧ 0 ≤ timeout ∧
          now + timeout ≤ max now (s'.timers.timer t).deadline) := by
  have h := Good.of_reachable hs
  refine ⟨fun t ht => ?_, fun a s' hstep => h.fire hstep, h.timedOut, h.forgotten,
    fun now hdrain s' hstep hend t ht hleft => ?_⟩
  · rw [h.timers.pushed] at ht
    exact (h.deadlines.pushed t (mem_range.mp ht)).1
  · obtain ⟨timers, htimers, rfl⟩ := map_eq_some_iff.mp hstep
    have h' := h.timers.act htimers
    have ht : t < timers.created := by
      rw [h'.pushed] at ht
      exact mem_range.mp ht
    have hcount : timers.left.count t = (!(timers.heap.find t).isSome).toNat := (h'.views t ht).left
    rw [count_eq_zero.mpr hleft] at hcount
    cases hfind : timers.heap.find t with
    | none =>
      rw [hfind] at hcount
      cases hcount
    | some d =>
      have hpoll := h.poll hdrain htimers hend hfind
      rw [(h'.key t d hfind).2] at hpoll
      exact hpoll

/-- A fiber sleeps for 5 and a timer is set for the last moment there is; the sleeper wakes at 6,
and the loop computes its sleep for the other timer. -/
def sleeperAndLast : List Act :=
  [.begin 0 .procSleep 5, .turn 0 true, .timers (.fiber 0 true),
    .timerSet 1 (int64Max - 1) false true, .tick 6, .timers .startDrain] ++
  replicate 8 (.timers .drain) ++ [.turn 0 true, .timers .startPeek]

theorem timeouts_not_early_not_forgotten_sleeperAndLast :
    ∃ s ∈ system.runUnder inRange (.create 2 1) sleeperAndLast,
      s.timers.fires = [0] ∧ s.timedOut = [(6, 6)] ∧
      (∀ t ∈ s.timers.pushed, s.instant t ≤ (s.timers.timer t).deadline) := by
  refine System.exists_run ⟨2, 1, by decide, rfl⟩ (by decide +kernel) fun s eval hs _ => ?_
  exact ⟨by apply eval; decide +kernel, (timeouts_not_early_not_forgotten hs).1⟩

/-- At time 1 a delay of `INT64_MAX` gives a deadline before all others: the timer fires at once,
a sleep ends at once, and a wait of a synchronisation object parks without a timer. -/
theorem last_delay_fires_at_once : (∃ s ∈ system.run (.create 1 1)
        [.timerSet 0 int64Max false true, .timers .startDrain, .timers .drain, .timers .drain,
          .timers .drain],
      s.timers.fires = [0] ∧ s.instant 0 = int64Max ∧ s.timers.now = 1 ∧
        (s.timers.timer 0).deadline < s.instant 0) ∧
    (∃ s ∈ system.run (.create 1 1) [.begin 0 .procSleep int64Max, .turn 0 true],
      s.timedOut = [(int64Max, 1)]) ∧
    (∃ s ∈ system.run (.create 1 1) [.begin 0 .syncWait int64Max, .turn 0 true],
      s.forgotten = [⟨.syncWait, 1, int64Max⟩]) ∧
    (∃ s ∈ system.run (.create 1 1) [.begin 0 .recv int64Max, .turn 0 true],
      s.forgotten = [⟨.recv, 1, int64Max⟩]) ∧ (∃ s ∈ system.run (.create 1 1)
        [.timerSet 0 int64Max false true, .timers .startPeek, .timers .drain],
      s.timers.pushed = [0] ∧ s.timers.left = [] ∧ s.timers.timeout = some (-1)) := by
  decide +kernel

end LibXtc.Timeouts

import LibXtc.Proc.Signals

/-!
# How the function of a process ends

One process runs a program made of the library's cancellation, scope and recovery calls. A call
that runs a procedure of the program leaves what remains to be done after it on the control stack,
so a `longjmp` out of the procedure drops it. Kills arrive between any two steps. A kill or an exit
jumps to the exit path of `__proc_entry`, a contained fault to the recovery frame armed last.

The program is any table of procedures: finalizers, releases and bodies are named by their number
in it. What the code would do to freed memory is not a step.
-/

namespace LibXtc.Unwind

open Foundations
open Proc (DownKind)

/-! ### Programs -/

/-- The calls that a procedure makes. A procedure is a list of calls. -/
inductive Op
  /-- A point at which a kill is delivered: a receive, a sleep, a yield. -/
  | park
  /-- `xtc_exit_self`. -/
  | exitSelf (reason : ℤ)
  /-- A fault that the handler may contain. -/
  | fault (sig : ℕ)
  /-- `xtc_proc_recovery_track`. -/
  | recoveryTrack (f : ℕ)
  /-- `v = xtc_scope_open()`. -/
  | scopeOpen (v : ℕ)
  /-- `xtc_scope_defer(v, f)`. -/
  | scopeDefer (v f : ℕ)
  /-- `xtc_scope_close(v)`. -/
  | scopeClose (v : ℕ)
  /-- `xtc_bracket`. -/
  | bracket (acquire use release : ℕ)
  /-- `xtc_uncancelable`. -/
  | uncancelable (body : ℕ)
  /-- `xtc_mask_enter`, the body and `xtc_mask_leave`. -/
  | masked (body : ℕ)
  /-- `xtc_cancel_poll`. -/
  | cancelPoll (body : ℕ)
  /-- `if (xtc_proc_recovery_arm() != 0) onFault`. -/
  | recoveryArm (onFault : ℕ)
  /-- `xtc_proc_recovery_cleanup`. -/
  | recoveryCleanup
  deriving DecidableEq

/-- What is left to do, the next first. -/
inductive Ins
  | op (o : Op)
  /-- The end of a masked region: the mask is lowered and a latched kill drained. -/
  | maskLeave
  /-- The end of `xtc_cancel_poll`. -/
  | restore (saved : ℕ)
  /-- `acquire` of a bracket returns. -/
  | acquired (use release : ℕ)
  /-- `use` of a bracket has returned. -/
  | closeScope (sc : ℕ)
  /-- The loop of `__scope_run`. -/
  | scopeRun (sc : ℕ)
  /-- The rest of `xtc_scope_close`. -/
  | closeEnd (sc : ℕ)
  /-- The rest of `__scope_recover_cb`. -/
  | recoverEnd (sc : ℕ)
  /-- The loop of `__recov_release_all`. -/
  | recovRelease
  /-- The rest of `xtc_proc_recovery_cleanup`. -/
  | cleanupEnd
  /-- The function of the process returns. -/
  | bodyReturned
  /-- The default frame has released what the process tracked. -/
  | faultExit (sig : ℕ)
  /-- The label `proc_exit`, up to the walk in `__run_proc_at_exit`. -/
  | procExit
  /-- `__notify_links_and_monitors`. -/
  | notify
  deriving DecidableEq

def Ins.isOp : Ins → Bool
  | .op _ => true
  | _ => false

/-- What is left to do after the procedure whose calls come next. -/
def under (ctl : List Ins) : List Ins := ctl.dropWhile Ins.isOp

/-- A procedure about to run. -/
def body (code : ℕ → List Op) (f : ℕ) : List Ins := (code f).map Ins.op

/-! ### The recovery registry and the scopes -/

/-- A finalizer or a bracket's release, with the number of its registration. -/
structure Fin where
  id : ℕ
  f : ℕ
  deriving DecidableEq

/-- `struct xtc_scope`. The finalizers are listed last first. -/
structure Scope where
  fins : List Fin
  closed : Bool
  closing : Bool
  live : Bool
  deriving DecidableEq

/-- `struct xtc_recov_rec`: a tracked callback or the marker of a scope. -/
inductive Rec
  | callback (id f : ℕ)
  | scope (sc : ℕ)
  deriving DecidableEq

/-- Scopes and registrations are numbered together, in order. -/
def Rec.seq : Rec → ℕ
  | .callback id _ => id
  | .scope sc => sc

/-- The record of the scope. -/
def Rec.scopes : Rec → List ℕ
  | .callback .. => []
  | .scope sc => [sc]

/-- `XTC_PROC_MAX_RECOVERY`. -/
def maxRecovery : ℕ := 16

/-- `XTC_SCOPE_MAX_DEFER`. -/
def maxDefer : ℕ := 32

/-- The registry, last record first, the scopes, and the variables of the program that hold them.
The last two fields are history: the registrations that were accepted, with the scope they were
made in, and those whose callback was started, last first. -/
structure Registry where
  recov : List Rec
  scopes : ℕ → Scope
  vars : ℕ → Option ℕ
  next : ℕ
  accepted : List (ℕ × Option ℕ)
  started : List ℕ

namespace Registry

variable (r : Registry)

/-- `__recov_push` has room. -/
def room : Bool := r.recov.length < maxRecovery

def setScope (sc : ℕ) (v : Scope) : Registry :=
  { r with scopes := Function.update r.scopes sc v }

/-- The registration with the next number is accepted. -/
def accept (sc : Option ℕ) : Registry :=
  { r with next := r.next + 1, accepted := (r.next, sc) :: r.accepted }

def start (id : ℕ) : Registry := { r with started := id :: r.started }

/-- `xtc_proc_recovery_track`. -/
def recoveryTrack (f : ℕ) : Registry :=
  if r.room then { r.accept none with recov := .callback r.next f :: r.recov } else r

/-- `xtc_scope_open` that succeeds: the scope and its marker. -/
def scopeOpen : Registry :=
  { r with
    recov := .scope r.next :: r.recov
    scopes := Function.update r.scopes r.next ⟨[], false, false, true⟩
    next := r.next + 1 }

/-- `xtc_scope_defer` that finds room in an open scope. -/
def deferred (sc f : ℕ) : Registry :=
  (r.setScope sc { r.scopes sc with fins := ⟨r.next, f⟩ :: (r.scopes sc).fins }).accept (some sc)

/-- `xtc_scope_defer`. -/
def scopeDefer (sc f : ℕ) : Registry :=
  if (r.scopes sc).closed ∨ maxDefer ≤ (r.scopes sc).fins.length then r else r.deferred sc f

/-- `__scope_drop_marker`. -/
def scopeDropMarker (sc : ℕ) : Registry := { r with recov := r.recov.erase (.scope sc) }

def free (sc : ℕ) : Registry := r.setScope sc { r.scopes sc with live := false }

end Registry

/-! ### The process -/

/-- The counters that a kill goes through. `first` is history: the reason of the first kill that was
accepted. -/
structure Kill where
  pending : ℤ
  deferred : ℤ
  depth : ℕ
  alive : Bool
  first : Option ℤ
  deriving DecidableEq

namespace Kill

variable (k : Kill)

def mask : Kill := { k with depth := k.depth + 1 }

/-- `__mask_depth_dec`. -/
def unmask : Kill := { k with depth := k.depth - 1 }

/-- The latch of `__xtc_proc_kill_deliver`. -/
def latch : Kill := { k with deferred := if k.deferred = 0 then k.pending else k.deferred }

/-- The code of a kill that was never delivered. -/
def undelivered : ℤ := if k.pending = 0 then k.deferred else k.pending

/-- `__exit_pid_on`: refused by a process that is not alive. -/
def exitPid (reason : ℤ) : Kill :=
  if k.alive then
    { k with
      pending := if k.pending = 0 then Proc.State.killCode reason else k.pending
      first := k.first.or (some reason) }
  else k

end Kill

/-- Why the process left its function. -/
inductive Death
  | exitSelf (reason : ℤ)
  | killed
  | returned
  | fault (sig : ℕ)
  deriving DecidableEq

/-- The process. `frame` is the frame that the program armed last, with what was left to do there,
or the default frame. `death` and `unwinds` are history. -/
structure State where
  control : List Ins
  reg : Registry
  kill : Kill
  armed : Bool
  frame : Option (ℕ × List Ins)
  exitReason : ℤ
  exitKind : DownKind
  death : Option Death
  unwinds : ℕ
  notified : Bool
  aborted : Bool

namespace State

/-- The process runs procedure `main`. -/
def start (code : ℕ → List Op) (main : ℕ) : State :=
  { control := body code main ++ [.bodyReturned]
    reg := ⟨[], fun _ => ⟨[], false, false, false⟩, fun _ => none, 0, [], []⟩
    kill := ⟨0, 0, 0, true, none⟩
    armed := true
    frame := none
    exitReason := 0
    exitKind := .clean
    death := none
    unwinds := 0
    notified := false
    aborted := false }

variable (s : State)

/-- `EXIT_LONGJMP` and the branch of `__proc_entry` it arrives in. -/
def unwind (reason : ℤ) (death : Death) : State :=
  { s with
    control := [.procExit]
    exitReason := Proc.State.unwindReason reason
    exitKind := if Proc.State.unwindReason reason = 0 then .clean else .exit
    death := some death
    unwinds := s.unwinds + 1 }

/-- `__xtc_proc_kill_deliver`. -/
def killDeliver : State :=
  if s.kill.pending = 0 then s
  else if 0 < s.kill.depth then { s with kill := s.kill.latch }
  else s.unwind (s.kill.pending - 1) .killed

/-- `__mask_drain`. -/
def maskDrain : State :=
  if 0 < s.kill.depth ∨ s.kill.deferred = 0 then s
  else { s with kill := { s.kill with deferred := 0 } }.unwind (s.kill.deferred - 1) .killed

/-- `__mask_depth_dec` and `__mask_drain`. -/
def maskLeave : State := { s with kill := s.kill.unmask }.maskDrain

/-- Run a procedure, and then `after`. -/
def call (code : ℕ → List Op) (f : ℕ) (after : List Ins) : State :=
  { s with control := body code f ++ (after ++ s.control) }

/-- `__xtc_fault_handler` and the frame it jumps to. The procedure that armed it has not returned,
so what is left to do after it is still there. With no frame armed the operating system's process
dies. -/
def fault (code : ℕ → List Op) (sig : ℕ) : Option State :=
  if s.armed then
    match s.frame with
    | none =>
      some { s with
        armed := false
        kill := s.kill.mask
        control := [.recovRelease, .faultExit sig]
        unwinds := s.unwinds + 1 }
    | some (f, rest) =>
      if under rest <:+ s.control then
        some { s with
          armed := false
          control := body code f ++ rest
          unwinds := s.unwinds + 1 }
      else none
  else some { s with aborted := true }

/-- `xtc_scope_close`. A scope is closed once. -/
def scopeClose (sc : ℕ) : Option State :=
  if (s.reg.scopes sc).live ∧ ¬(s.reg.scopes sc).closed then
    some { s with
      kill := s.kill.mask
      reg := s.reg.setScope sc { s.reg.scopes sc with closed := true, closing := true }
      control := .scopeRun sc :: .closeEnd sc :: s.control }
  else none

section

variable (code : ℕ → List Op)

/-- `acquire` of a bracket has returned `XTC_OK`: the release is registered, or run at once if the
scope or the registration is refused. -/
def acquired (use release : ℕ) (scope entry : Bool) : State :=
  if scope ∧ s.reg.room then
    if entry then
      { s with
        reg := s.reg.scopeOpen.deferred s.reg.next release
        control := .maskLeave :: (body code use ++ .closeScope s.reg.next :: s.control) }
    else
      -- the empty scope is closed again
      let r := ((s.reg.scopeOpen.scopeDropMarker s.reg.next).free s.reg.next).accept none
      { s with reg := r.start (s.reg.next + 1) }.call code release [.maskLeave]
  else { s with reg := (s.reg.accept none).start s.reg.next }.call code release [.maskLeave]

/-- One call of the program. `ok` answers for the allocator. -/
def execOp (ok : Bool) : Op → Option State
  | .park => some s.killDeliver
  | .exitSelf reason => some (s.unwind reason (.exitSelf reason))
  | .fault sig => s.fault code sig
  | .recoveryTrack f => some { s with reg := s.reg.recoveryTrack f }
  | .scopeOpen v =>
    if ok ∧ s.reg.room then
      some { s with
        reg := { s.reg.scopeOpen with vars := Function.update s.reg.vars v (some s.reg.next) } }
    else some { s with reg := { s.reg with vars := Function.update s.reg.vars v none } }
  | .scopeDefer v f =>
    match s.reg.vars v with
    | none => some s
    | some sc =>
      if (s.reg.scopes sc).live then some { s with reg := s.reg.scopeDefer sc f } else none
  | .scopeClose v =>
    match s.reg.vars v with
    | none => some s
    | some sc => s.scopeClose sc
  | .bracket acquire use release =>
    some ({ s with kill := s.kill.mask }.call code acquire [.acquired use release])
  | .uncancelable f | .masked f => some ({ s with kill := s.kill.mask }.call code f [.maskLeave])
  | .cancelPoll f =>
    if s.kill.depth = 0 then some (s.call code f [])
    else
      let s' := { s with kill := { s.kill with depth := 0 } }
      if s.kill.deferred = 0 then some (s'.call code f [.restore s.kill.depth])
      else some s'.maskDrain
  | .recoveryArm f => some { s with armed := true, frame := some (f, s.control) }
  | .recoveryCleanup =>
    some { s with
      kill := s.kill.mask
      control := .recovRelease :: .cleanupEnd :: s.control }

/-- One turn of `__recov_release_all`: the last record is popped, then run. -/
def recovRelease : Option State :=
  match s.reg.recov with
  | [] => some s
  | .callback id f :: rest =>
    some ({ s with reg := { s.reg with recov := rest }.start id }.call code f [.recovRelease])
  | .scope sc :: rest =>
    if (s.reg.scopes sc).live then
      some { s with
        reg := { s.reg with recov := rest }.setScope sc { s.reg.scopes sc with closed := true }
        kill := if (s.reg.scopes sc).closing then s.kill.unmask else s.kill
        control := .scopeRun sc :: .recoverEnd sc :: .recovRelease :: s.control }
    else none

/-- One turn of `__scope_run`: the last finalizer is popped, then run. -/
def scopeRun (sc : ℕ) : Option State :=
  if (s.reg.scopes sc).live then
    match (s.reg.scopes sc).fins with
    | [] => some s
    | fin :: fins =>
      some ({ s with
        reg := (s.reg.setScope sc { s.reg.scopes sc with fins := fins }).start fin.id }.call
          code fin.f [.scopeRun sc])
  else none

end

/-- The function returns. A kill that was not delivered is its exit reason. -/
def bodyReturned : State :=
  { s with
    control := [.procExit]
    exitReason := if s.kill.undelivered = 0 then 0 else s.kill.undelivered - 1
    exitKind := if s.kill.undelivered = 0 ∨ s.kill.undelivered - 1 = 0 then .clean else .exit
    death := some (if s.kill.undelivered = 0 then .returned else .killed) }

/-- One instruction, taken off the control stack before. `ok`, `scope` and `entry` answer for the
program and the allocator. -/
def exec (code : ℕ → List Op) (ok scope entry : Bool) : Ins → Option State
  | .op o => s.execOp code ok o
  | .maskLeave => some s.maskLeave
  | .restore saved => some { s with kill := { s.kill with depth := saved } }
  | .acquired use release =>
    if ok then some (s.acquired code use release scope entry) else some s.maskLeave
  | .closeScope sc => s.scopeClose sc
  | .scopeRun sc => s.scopeRun code sc
  | .closeEnd sc =>
    if (s.reg.scopes sc).live then
      some { s with reg := (s.reg.scopeDropMarker sc).free sc }.maskLeave
    else none
  | .recoverEnd sc => some { s with reg := s.reg.free sc }
  | .recovRelease => s.recovRelease code
  | .cleanupEnd => some { s with kill := s.kill.unmask }
  | .bodyReturned => some s.bodyReturned
  | .faultExit sig =>
    some { s with
      control := [.procExit]
      exitReason := sig
      exitKind := .signal
      death := some (.fault sig) }
  | .procExit =>
    some { s with
      armed := false
      kill := { s.kill with alive := false, pending := 0, deferred := 0 }.mask
      control := [.recovRelease, .notify] }
  | .notify => some { s with notified := true, control := [] }

end State

/-- The process takes its next step, or a kill arrives. -/
inductive Act
  | step (ok scope entry : Bool)
  | kill (reason : ℤ)
  deriving DecidableEq

def State.step (code : ℕ → List Op) (s : State) : Act → Option State
  | .step ok scope entry =>
    match s.control with
    | [] => none
    | i :: rest =>
      if s.aborted then none else { s with control := rest }.exec code ok scope entry i
  | .kill reason => some { s with kill := s.kill.exitPid reason }

/-- The runs of a process of the program `code`, over all arrivals of kills. -/
def system (code : ℕ → List Op) : System State Act where
  init s := ∃ main, s = .start code main
  step := State.step code

end LibXtc.Unwind

import LibXtc.Proc.Unwind

/-!
# Exit reasons

A reason travels as the value of a `longjmp`, as `kill_pending` and as `mask_deferred`, each of
which keeps 0 for itself. The codes agree for every reason but -1, whose code is that reserved 0: it
arrives as 0 from a `longjmp`, and as a kill it is not recorded at all.
-/

namespace LibXtc.Unwind

open Foundations
open Proc (DownKind)
open Proc.State (killCode unwindReason)

variable {reason : ℤ} {ok : Bool}

theorem unwindReason_eq (h : reason ≠ -1) : unwindReason reason = reason := by
  rw [unwindReason, if_neg (by omega)]
  omega

/-- The code of a kill is not 0 and is decoded to its reason. -/
theorem killCode_sub_one (h : reason ≠ -1) :
    killCode reason ≠ 0 ∧ killCode reason - 1 = reason := by
  rw [killCode]
  split <;> omega

/-! ### What an instruction does about kills -/

/-- The kill and what is recorded of the exit are as before, the mask may be at another depth. -/
structure Keeps (s s' : State) : Prop where
  kill : s'.kill = { s.kill with depth := s'.kill.depth }
  exitReason : s'.exitReason = s.exitReason
  exitKind : s'.exitKind = s.exitKind
  death : s'.death = s.death

/-- What an instruction does about kills and the exit. Only a walk lowers the mask and does not act
on a kill that was latched. -/
inductive Effect (s : State) : Ins → State → Prop
  | park : Effect s (.op .park) s.killDeliver
  | exitSelf (reason : ℤ) :
      Effect s (.op (.exitSelf reason)) (s.unwind reason (.exitSelf reason))
  | bodyReturned : Effect s .bodyReturned s.bodyReturned
  | faultExit (sig : ℕ) : Effect s (.faultExit sig) { s with
      control := [.procExit], exitReason := sig, exitKind := .signal, death := some (.fault sig) }
  | procExit : Effect s .procExit { s with
      armed := false
      kill := { s.kill with alive := false, pending := 0, deferred := 0 }.mask
      control := [.recovRelease, .notify] }
  | drain {i : Ins} {s' : State} : Keeps s s' → Effect s i s'.maskDrain
  | keeps {i : Ins} {s' : State} : Keeps s s' →
      (s'.kill.depth < s.kill.depth → s.kill.deferred = 0 ∨ i = .restore s'.kill.depth) →
      Effect s i s'
  | walk {i : Ins} {s' : State} : i = .cleanupEnd ∨ i = .recovRelease → Keeps s s' → Effect s i s'

namespace Effect

variable {code : ℕ → List Op} {s s' : State} {i : Ins}

theorem raised (hk : Keeps s s') (hle : s.kill.depth ≤ s'.kill.depth) : Effect s i s' :=
  .keeps hk fun hlt => absurd hle (Nat.not_le_of_lt hlt)

theorem scopeClose {sc : ℕ} (ht : s.scopeClose sc = some s') : Effect s i s' := by
  unfold State.scopeClose at ht
  split at ht <;> cases ht
  exact raised ⟨rfl, rfl, rfl, rfl⟩ (Nat.le_succ _)

theorem execOp {o : Op} (ht : s.execOp code ok o = some s') : Effect s (.op o) s' := by
  cases o <;> simp only [State.execOp] at ht
  case park =>
    cases ht
    exact .park
  case exitSelf reason =>
    cases ht
    exact .exitSelf reason
  case fault sig =>
    unfold State.fault at ht
    split at ht
    · split at ht
      · cases ht
        exact raised ⟨rfl, rfl, rfl, rfl⟩ (Nat.le_succ _)
      · split at ht <;> cases ht
        exact raised ⟨rfl, rfl, rfl, rfl⟩ le_rfl
    · cases ht
      exact raised ⟨rfl, rfl, rfl, rfl⟩ le_rfl
  case scopeOpen v =>
    split at ht <;> cases ht <;> exact raised ⟨rfl, rfl, rfl, rfl⟩ le_rfl
  case scopeDefer v f =>
    split at ht
    · cases ht
      exact raised ⟨rfl, rfl, rfl, rfl⟩ le_rfl
    · split at ht <;> cases ht
      exact raised ⟨rfl, rfl, rfl, rfl⟩ le_rfl
  case scopeClose v =>
    split at ht
    · cases ht
      exact raised ⟨rfl, rfl, rfl, rfl⟩ le_rfl
    · exact scopeClose ht
  case cancelPoll f =>
    split at ht
    · cases ht
      exact raised ⟨rfl, rfl, rfl, rfl⟩ le_rfl
    · split at ht <;> cases ht
      · next hdef => exact .keeps ⟨rfl, rfl, rfl, rfl⟩ fun _ => .inl hdef
      · exact .drain ⟨rfl, rfl, rfl, rfl⟩
  case recoveryTrack f | recoveryArm f =>
    cases ht
    exact raised ⟨rfl, rfl, rfl, rfl⟩ le_rfl
  all_goals
    cases ht
    exact raised ⟨rfl, rfl, rfl, rfl⟩ (Nat.le_succ _)

theorem exec {scope entry : Bool} (ht : s.exec code ok scope entry i = some s') :
    Effect s i s' := by
  cases i <;> simp only [State.exec] at ht
  case op o => exact execOp ht
  case restore saved =>
    cases ht
    exact .keeps ⟨rfl, rfl, rfl, rfl⟩ fun _ => .inr rfl
  case acquired use release =>
    split at ht <;> cases ht
    · unfold State.acquired
      split
      · split <;> exact raised ⟨rfl, rfl, rfl, rfl⟩ le_rfl
      · exact raised ⟨rfl, rfl, rfl, rfl⟩ le_rfl
    · exact .drain ⟨rfl, rfl, rfl, rfl⟩
  case closeScope sc => exact scopeClose ht
  case scopeRun sc =>
    unfold State.scopeRun at ht
    split at ht
    · split at ht <;> cases ht <;> exact raised ⟨rfl, rfl, rfl, rfl⟩ le_rfl
    · cases ht
  case closeEnd sc =>
    split at ht <;> cases ht
    exact .drain ⟨rfl, rfl, rfl, rfl⟩
  case recovRelease =>
    unfold State.recovRelease at ht
    split at ht
    · cases ht
      exact raised ⟨rfl, rfl, rfl, rfl⟩ le_rfl
    · cases ht
      exact raised ⟨rfl, rfl, rfl, rfl⟩ le_rfl
    · split at ht <;> cases ht
      refine .walk (.inr rfl) ⟨?_, rfl, rfl, rfl⟩
      dsimp only
      split <;> rfl
  case cleanupEnd =>
    cases ht
    exact .walk (.inl rfl) ⟨rfl, rfl, rfl, rfl⟩
  case maskLeave =>
    cases ht
    exact .drain ⟨rfl, rfl, rfl, rfl⟩
  case recoverEnd sc | notify =>
    cases ht
    exact raised ⟨rfl, rfl, rfl, rfl⟩ le_rfl
  all_goals
    cases ht
    constructor

end Effect

/-! ### The codes -/

namespace State

/-- The reason given in this step is not -1. -/
def reasonOk (s : State) : Act → Bool
  | .kill reason => reason ≠ -1
  | .step .. =>
    match s.control.head? with
    | some (.op (.exitSelf reason)) => reason ≠ -1
    | _ => true

/-- The reason and the kind that are recorded are those of an exit with `reason`. -/
def Records (s : State) (reason : ℤ) : Prop :=
  s.exitReason = reason ∧ (s.exitKind = .clean → reason = 0)

/-- What is recorded fits the death of the process. -/
def Recorded (s : State) : Prop :=
  (∀ reason, s.death = some (.exitSelf reason) → s.Records reason) ∧
    (s.death = some .killed → ∃ reason, s.kill.first = some reason ∧ s.Records reason)

end State

/-- A code is that of the first kill, or no kill. -/
def Kill.Codes (k : Kill) (code : ℤ) : Prop :=
  code = 0 ∨ ∃ reason, k.first = some reason ∧ code = killCode reason

/-- The invariant of the codes. -/
structure Faithful (s : State) : Prop where
  first : ∀ reason, s.kill.first = some reason → reason ≠ -1
  pending : s.kill.Codes s.kill.pending
  latched : s.kill.Codes s.kill.deferred
  accepted : s.kill.alive = true → ∀ reason, s.kill.first = some reason → s.kill.pending ≠ 0
  recorded : s.Recorded

namespace Faithful

variable {code : ℕ → List Op} {s s' : State}

theorem start (main : ℕ) : Faithful (State.start code main) :=
  ⟨nofun, .inl rfl, .inl rfl, fun _ => nofun, nofun, nofun⟩

section

variable (h : Faithful s)
include h

theorem keeps (hk : Keeps s s') : Faithful s' := by
  obtain ⟨hkill, hreason, hkind, hdeath⟩ := hk
  obtain ⟨h1, h2, h3, h4, h5⟩ := h
  refine ⟨?_, ?_, ?_, ?_, ?_⟩
  · rwa [hkill]
  · rwa [hkill]
  · rwa [hkill]
  · rwa [hkill]
  · have hfirst : s'.kill.first = s.kill.first := by rw [hkill]
    simpa only [State.Recorded, State.Records, hdeath, hfirst, hreason, hkind] using h5

/-- `xtc_exit_self`. -/
theorem unwind_exitSelf (hne : reason ≠ -1) : Faithful (s.unwind reason (.exitSelf reason)) := by
  refine { h with recorded := ⟨?_, nofun⟩ }
  rintro _ ⟨⟩
  refine ⟨unwindReason_eq hne, ?_⟩
  simp only [State.unwind, unwindReason_eq hne]
  split
  · exact fun _ => ‹_›
  · nofun

/-- A kill is acted on with its code. -/
theorem unwind_killed {kp : ℤ} (hcodes : s.kill.Codes kp) (hkp : kp ≠ 0) :
    Faithful (s.unwind (kp - 1) .killed) := by
  obtain ⟨reason, hfirst, rfl⟩ := hcodes.resolve_left hkp
  have hne := h.first reason hfirst
  refine { h with recorded := ⟨nofun, fun _ => ⟨reason, hfirst, ?_, ?_⟩⟩ }
  · simp only [State.unwind, (killCode_sub_one hne).2, unwindReason_eq hne]
  · simp only [State.unwind, (killCode_sub_one hne).2, unwindReason_eq hne]
    split
    · exact fun _ => ‹_›
    · nofun

theorem killDeliver : Faithful s.killDeliver := by
  unfold State.killDeliver
  split
  · exact h
  · next hpend =>
    split
    · refine { h with latched := ?_ }
      simp only [Kill.latch]
      split
      · exact h.pending
      · exact h.latched
    · exact h.unwind_killed h.pending hpend

theorem maskDrain : Faithful s.maskDrain := by
  unfold State.maskDrain
  split
  · exact h
  · next hno =>
    have hzero : Faithful { s with kill := { s.kill with deferred := 0 } } :=
      { h with latched := .inl rfl }
    exact hzero.unwind_killed h.latched fun h0 => hno (.inr h0)

theorem bodyReturned : Faithful s.bodyReturned := by
  have hcodes : s.kill.Codes s.kill.undelivered := by
    rw [Kill.undelivered]
    split
    · exact h.latched
    · exact h.pending
  refine { h with recorded := ⟨?_, ?_⟩ }
  · intro reason hdeath
    simp only [State.bodyReturned] at hdeath
    split at hdeath <;> cases hdeath
  · intro hdeath
    simp only [State.bodyReturned] at hdeath
    split at hdeath
    · cases hdeath
    · next hkp =>
      obtain ⟨reason, hfirst, heq⟩ := hcodes.resolve_left hkp
      have hcode := killCode_sub_one (h.first reason hfirst)
      refine ⟨reason, hfirst, ?_, ?_⟩
      · simp only [State.bodyReturned, heq, if_neg hcode.1, hcode.2]
      · simp only [State.bodyReturned, heq, hcode.1, false_or, hcode.2]
        split
        · exact fun _ => ‹_›
        · nofun

theorem effect {i : Ins} (hne : ∀ reason, i = .op (.exitSelf reason) → reason ≠ -1)
    (he : Effect s i s') : Faithful s' := by
  cases he with
  | keeps hk _ | walk _ hk => exact h.keeps hk
  | park => exact h.killDeliver
  | exitSelf reason => exact h.unwind_exitSelf (hne reason rfl)
  | drain hk => exact (h.keeps hk).maskDrain
  | bodyReturned => exact h.bodyReturned
  | faultExit sig => exact { h with recorded := ⟨nofun, nofun⟩ }
  | procExit => exact { h with pending := .inl rfl, latched := .inl rfl, accepted := nofun }

/-- A kill arrives: the first one is recorded. -/
theorem exitPid (hne : reason ≠ -1) : Faithful { s with kill := s.kill.exitPid reason } := by
  unfold Kill.exitPid
  split
  case isFalse => exact { h with }
  next halive =>
  cases hfirst : s.kill.first with
  | some r =>
    -- a later kill changes nothing
    have hpend := h.accepted halive r hfirst
    exact h.keeps ⟨by simp [hpend, hfirst], rfl, rfl, rfl⟩
  | none =>
    have hnone : ∀ {c}, s.kill.Codes c → c = 0 := by
      rintro c (hc | ⟨r, hr, -⟩)
      · exact hc
      · rw [hfirst] at hr
        cases hr
    refine ⟨?_, ?_, .inl (hnone h.latched), fun _ _ _ => ?_, h.recorded.1, fun hd => ?_⟩
    · rintro _ ⟨⟩
      exact hne
    · rw [if_pos (hnone h.pending)]
      exact .inr ⟨reason, by simp, rfl⟩
    · simp only [hnone h.pending]
      exact (killCode_sub_one hne).1
    · obtain ⟨r, hr, -⟩ := h.recorded.2 hd
      rw [hfirst] at hr
      cases hr

theorem step {a : Act} (hok : s.reasonOk a = true) (ht : s.step code a = some s') :
    Faithful s' := by
  cases a with
  | step ok scope entry =>
    simp only [State.step] at ht
    split at ht
    · cases ht
    · next i rest hctl =>
      split at ht
      · cases ht
      have hrest : Faithful { s with control := rest } := { h with }
      refine hrest.effect ?_ (.exec ht)
      rintro reason rfl
      simpa [State.reasonOk, hctl] using hok
  | kill reason =>
    cases ht
    exact h.exitPid (by simpa [State.reasonOk] using hok)

end

end Faithful

variable {code : ℕ → List Op} {s : State}

theorem faithful_of_reachable
    (hs : (system code).ReachableUnder (fun s a => s.reasonOk a = true) s) : Faithful s := by
  refine hs.invariant ?_ fun _ _ _ h hok ht => h.step hok ht
  rintro _ ⟨main, rfl⟩
  exact .start main

/-- Reasons other than -1 are recorded faithfully. A process that leaves by `xtc_exit_self` is
recorded with the reason of that call, and as a clean exit only if that is 0. After the first
accepted kill a kill stays pending as long as the process is alive, and a process that dies of the
kill, masked or not, is recorded with its reason. -/
theorem exit_reason_faithful
    (hs : (system code).ReachableUnder (fun s a => s.reasonOk a = true) s) :
    (∀ reason, s.death = some (.exitSelf reason) → s.Records reason) ∧
      ∀ reason, s.kill.first = some reason → (s.kill.alive = true → s.kill.pending ≠ 0) ∧
        (s.death = some .killed → s.Records reason) := by
  have h := faithful_of_reachable hs
  refine ⟨h.recorded.1, fun reason hfirst => ⟨fun halive => h.accepted halive reason hfirst, ?_⟩⟩
  intro hdeath
  obtain ⟨reason', hfirst', hrecords⟩ := h.recorded.2 hdeath
  obtain rfl : reason = reason' := Option.some.inj (hfirst.symm.trans hfirst')
  exact hrecords

/-- A masked region that parks. -/
def maskedPark : ℕ → List Op
  | 0 => [.uncancelable 1]
  | _ => [.park]

/-- The process is killed with -5 and then with 3 in the region, and dies at its end. -/
def killInRegion : List Act :=
  [.step true true true, .kill (-5), .kill 3, .step true true true, .step true true true]

theorem exit_reason_faithful_maskedPark :
    ∃ s ∈ (system maskedPark).runUnder (fun s a => s.reasonOk a = true) (.start maskedPark 0)
        killInRegion,
      s.kill.first = some (-5) ∧ s.death = some .killed ∧ s.Records (-5) := by
  refine System.exists_run ⟨0, rfl⟩ (by decide) fun s eval hs hfirst => ?_
  have hdeath : s.death = some .killed := by apply eval; decide
  exact ⟨hdeath, ((exit_reason_faithful hs).2 (-5) hfirst).2 hdeath⟩

/-- `xtc_exit_self(XTC_E_INVAL)`. -/
def exitInvalid : ℕ → List Op := fun _ => [.exitSelf (-1)]

/-- A body that parks once. -/
def parkOnce : ℕ → List Op := fun _ => [.park]

/-- `XTC_E_INVAL` as the reason of an exit is recorded as a clean exit with reason 0, and as the
reason of a kill it leaves no kill pending: the process goes on and returns. -/
theorem exit_invalid_is_clean :
    (∃ s ∈ (system exitInvalid).run (.start exitInvalid 0) [.step true true true],
      s.death = some (.exitSelf (-1)) ∧ s.exitReason = 0 ∧ s.exitKind = .clean) ∧
    ∃ s ∈ (system parkOnce).run (.start parkOnce 0)
        [.kill (-1), .step true true true, .step true true true],
      s.kill.first = some (-1) ∧ s.kill.alive = true ∧ s.kill.pending = 0 ∧
      s.death = some .returned ∧ s.exitReason = 0 ∧ s.exitKind = .clean := by
  decide

end LibXtc.Unwind

import LibXtc.Proc.Signals

/-!
# The end of an OS child

The reason with which the root process of a child ends reaches a monitor in the parent through a
pump that polls for the `DOWN`, the low byte of the exit status and the shadow that decodes it.
-/

namespace LibXtc.XProc

open Foundations Option
open Proc (DownKind Ending)

/-- How the root ends. -/
inductive RootEnd
  | returned
  | exited (code : ℤ)
  | killed (reason : ℤ)
  | faulted (sig : ℕ)
  deriving DecidableEq

namespace RootEnd

/-- The reason in the `DOWN` of the root. -/
def reason : RootEnd → ℤ
  | .returned => Ending.reason 0 .returned
  | .exited code => Ending.reason 0 (.exitSelf code none)
  | .killed reason => reason
  | .faulted sig => Ending.reason 0 (.fault sig)

/-- The root ends normally with reason 0. -/
def Normal (e : RootEnd) : Prop := e = .returned ∨ e = .exited 0

instance (e : RootEnd) : Decidable e.Normal := inferInstanceAs (Decidable (_ ∨ _))

end RootEnd

structure Child where
  /-- How the root has ended. Its `DOWN` is in the mailbox of the pump then. -/
  root : Option RootEnd := none
  /-- The parent's frames that the pump has not read. -/
  frames : ℕ := 0
  /-- The parent has closed the control channel. -/
  closed : Bool := false
  /-- `child_pump_proc` has not returned. -/
  pumping : Bool := true
  exitCode : ℤ := 0

inductive Act
  | ends (e : RootEnd)
  | send
  | close
  /-- One round of the loop of `child_pump_proc`. -/
  | pump

/-- What `waitpid` reports. -/
inductive Status
  | exited (code : ℤ)
  | signaled (sig : ℕ)
  | other

/-- `shadow_proc` exits with the reason and the kind of the status. -/
def shadowProc : Status → Ending
  | .signaled sig => .exitSelf sig (some .signal)
  | .exited code => .exitSelf code (some (if code = 0 then .clean else .exit))
  | .other => .exitSelf 4 (some .noconnection)

namespace Child

variable (c : Child)

def step : Act → Option Child
  | .ends e => if c.root = none then some { c with root := e } else none
  | .send => if c.closed then none else some { c with frames := c.frames + 1 }
  | .close => some { c with closed := true }
  | .pump =>
    if c.pumping = false then none
    else if 0 < c.frames then some { c with frames := c.frames - 1 }
    else if c.closed then some { c with pumping := false }
    else match c.root with
      -- no frame in the slice, and no message
      | none => some c
      | some e => some { c with pumping := false, exitCode := e.reason }

/-- `xtc_xproc_child_main` returns when root and pump have, and `_exit` keeps the low byte. -/
def status : Option Status :=
  if c.root ≠ none ∧ c.pumping = false then some (.exited (c.exitCode % 256)) else none

/-- The kind in the `DOWN` that a monitor of the child receives. -/
def downKind : Option DownKind := c.status.map fun status => (shadowProc status).kind 0

/-- An abnormal end has a reason whose low byte is not 0, and the pump does not leave before it has
read it. -/
def Reported : Act → Prop
  | .ends e => e.Normal ∨ c.pumping = true ∧ e.reason % 256 ≠ 0
  | .pump => c.closed = true → c.frames = 0 → ∀ e ∈ c.root, e.Normal
  | _ => True

instance : ∀ a, Decidable (c.Reported a)
  | .ends _ => inferInstanceAs (Decidable (_ ∨ _))
  | .pump => inferInstanceAs (Decidable (_ → _))
  | .send | .close => isTrue trivial

/-- What the child will report of an abnormal end is not 0. -/
def Faithful : Prop :=
  ∀ e ∈ c.root, e.Normal ∨ (if c.pumping then e.reason else c.exitCode) % 256 ≠ 0

end Child

def system : System Child Act where
  init c := c = {}
  step := Child.step

variable {c c' : Child} {a : Act}

theorem Child.Faithful.step (h : c.Faithful) (hok : c.Reported a) (hstep : c.step a = some c') :
    c'.Faithful := by
  cases a with
  | ends e =>
    obtain ⟨-, ⟨⟩⟩ := ite_none_right_eq_some.mp hstep
    rintro _ ⟨⟩
    refine hok.imp_right fun ⟨hpump, hlow⟩ => ?_
    rwa [if_pos hpump]
  | send =>
    obtain ⟨-, ⟨⟩⟩ := ite_none_left_eq_some.mp hstep
    exact h
  | close =>
    cases hstep
    exact h
  | pump =>
    simp only [Child.step] at hstep
    split at hstep
    · cases hstep
    next hpump =>
    split at hstep
    · cases hstep
      exact h
    next hframes =>
    split at hstep
    · next hclosed =>
      cases hstep
      exact fun e he => .inl (hok hclosed (Nat.eq_zero_of_not_pos hframes) e he)
    · split at hstep <;> cases hstep
      · exact h
      · next e hroot =>
        rintro _ hmem
        obtain rfl : e = _ := some.inj (hroot.symm.trans hmem)
        have hlow := h e hroot
        rwa [if_pos (Bool.of_not_eq_false hpump)] at hlow

/-- A monitor of the child sees a clean end only if the root ended normally with reason 0. -/
theorem child_clean_only_if_normal (hc : system.ReachableUnder Child.Reported c)
    (hdown : c.downKind = some .clean) : ∃ e, c.root = some e ∧ e.Normal := by
  have h : c.Faithful := by
    refine hc.invariant ?_ fun _ _ _ h hok hstep => h.step hok hstep
    rintro _ rfl
    nofun
  obtain ⟨status, hstatus, hkind⟩ := map_eq_some_iff.mp hdown
  obtain ⟨⟨hroot, hpump⟩, ⟨⟩⟩ := ite_none_right_eq_some.mp hstatus
  obtain ⟨e, he⟩ := ne_none_iff_exists'.mp hroot
  refine ⟨e, he, (h e he).resolve_right fun hlow => ?_⟩
  rw [if_neg (by simp [hpump])] at hlow
  simp [shadowProc, Ending.kind, hlow] at hkind

theorem child_clean_only_if_normal_exit :
    ∃ c ∈ system.runUnder Child.Reported {} [.send, .ends (.exited 0), .pump, .pump, .close],
      c.downKind = some .clean ∧ ∃ e, c.root = some e ∧ e.Normal :=
  System.exists_run rfl (by decide) fun _ _ hc hdown => child_clean_only_if_normal hc hdown

/-- `xtc_exit_self(256)` and `xtc_exit_self(-1)` are reported as clean, and so is a fault if the
parent closes the channel before the pump has read of it. -/
theorem abnormal_child_clean :
    (∃ c ∈ system.run {} [.ends (.exited 256), .pump], c.downKind = some .clean) ∧
    (∃ c ∈ system.run {} [.ends (.exited (-1)), .pump], c.downKind = some .clean) ∧
    ∃ c ∈ system.run {} [.ends (.faulted 11), .close, .pump], c.downKind = some .clean := by
  decide

end LibXtc.XProc

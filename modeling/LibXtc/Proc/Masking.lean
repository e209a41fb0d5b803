import LibXtc.Proc.ExitReason
import LibXtc.Proc.MaskDepth

/-!
# Cancellation masking

Outside of the recovery walk the depth of the mask is the one that the open regions give, so it is
the same whenever the process comes back to a point of its program. A fault that a frame of the
program catches drops regions without their ends. The walk of `xtc_proc_recovery_cleanup` gives back
the masks of the scope closes among them, and only those.
-/

namespace LibXtc.Unwind

open Foundations State List
open Proc.State (unwindReason)

/-! ### The depth of the mask -/

/-- What lies below the innermost walk, where `o` orphans are left and the depth is `B`. -/
inductive Bottom (B o : ℕ) : List Ins → Prop
  /-- There is no walk. -/
  | body : o = 0 → Bottom B o []
  /-- The walk of `xtc_proc_recovery_cleanup` holds its own mask and those of the orphans. -/
  | cleanup {k : List Ins} : (∀ i ∈ k, i.base = false) → closes k = [] →
      B = level 0 k + 1 + o → Bottom B o (.recovRelease :: .cleanupEnd :: k)
  /-- The walk of the default frame or of the exit path. -/
  | exit {i : Ins} : (i = .notify ∨ ∃ sig, i = .faultExit sig) → Bottom B o [.recovRelease, i]

/-- The mask has the depth that belongs to the control stack. -/
structure Leveled (B : ℕ) (tail : List Ins) (r : Registry) (ctl : List Ins) (d : ℕ) : Prop where
  markers : Markers r ctl
  split : ∃ l, ctl = l ++ tail ∧ ∀ i ∈ l, i.base = false
  depth : d = level B ctl
  restores : Restores B ctl
  bottom : Bottom B (orphans r ctl).length tail

namespace Leveled

variable {B d sc : ℕ} {tail ctl : List Ins} {r r' : Registry} {i : Ins}

theorem split_cons (h : ∃ l, ctl = l ++ tail ∧ ∀ i ∈ l, i.base = false) (hi : i.base = false) :
    ∃ l, i :: ctl = l ++ tail ∧ ∀ i ∈ l, i.base = false := by
  obtain ⟨l, rfl, hl⟩ := h
  exact ⟨i :: l, rfl, forall_mem_cons.mpr ⟨hi, hl⟩⟩

/-- The next instruction is above the innermost walk or is that walk. -/
theorem next_cases (h : Leveled B tail r (i :: ctl) d) :
    (i.base = false ∧ ∃ l, ctl = l ++ tail ∧ ∀ i ∈ l, i.base = false) ∨
      i = .recovRelease ∧ tail = i :: ctl := by
  obtain ⟨l, hl, hbase⟩ := h.split
  cases l with
  | cons j l =>
    cases hl
    rw [forall_mem_cons] at hbase
    exact .inl ⟨hbase.1, l, rfl, hbase.2⟩
  | nil =>
    have hbot := h.bottom
    rw [nil_append] at hl
    rw [← hl] at hbot
    refine .inr ⟨?_, hl.symm⟩
    cases hbot <;> rfl

/-- An instruction above the innermost walk is taken off. -/
theorem split_tail (h : Leveled B tail r (i :: ctl) d) (hi : i.base = false) :
    ∃ l, ctl = l ++ tail ∧ ∀ i ∈ l, i.base = false := by
  rcases h.next_cases with ⟨-, hsplit⟩ | ⟨rfl, -⟩
  · exact hsplit
  · cases hi

theorem push (h : Leveled B tail r ctl d) (hi : i.simple = true) :
    Leveled B tail r (i :: ctl) (d + i.weight) where
  markers := h.markers.control (closes_simple hi)
  split := split_cons h.split (by cases i <;> first | rfl | cases hi)
  depth := by rw [level_simple hi, h.depth]
  restores := h.restores.simple hi
  bottom := by
    rw [orphans, closes_simple hi]
    exact h.bottom

theorem pop (h : Leveled B tail r (i :: ctl) d) (hi : i.simple = true) :
    Leveled B tail r ctl (d - i.weight) where
  markers := h.markers.control (closes_simple hi).symm
  split := h.split_tail (by cases i <;> first | rfl | cases hi)
  depth := by rw [h.depth, level_simple hi, Nat.add_sub_cancel]
  restores := h.restores.tail
  bottom := by
    have hbot := h.bottom
    rw [orphans, closes_simple hi] at hbot
    exact hbot

theorem pushOps (h : Leveled B tail r ctl d) (ops : List Op) :
    Leveled B tail r (ops.map .op ++ ctl) d := by
  induction ops with
  | nil => exact h
  | cons o ops ih => exact ih.push rfl

/-- Where no walk is on the stack, there is none below. -/
theorem tail_eq_nil (h : Leveled B tail r ctl d) (hno : .recovRelease ∉ ctl) : tail = [] := by
  obtain ⟨l, hl, -⟩ := h.split
  have hnot : .recovRelease ∉ tail := fun hmem => hno (hl ▸ mem_append_right l hmem)
  have hbot := h.bottom
  cases hbot with
  | body => rfl
  | cleanup | exit => exact absurd mem_cons_self hnot

theorem base_free (h : Leveled B [] r ctl d) : ∀ i ∈ ctl, i.base = false := by
  obtain ⟨l, hl, hbase⟩ := h.split
  rw [hl, append_nil]
  exact hbase

theorem orphans_eq_nil (h : Leveled B [] r ctl d) : orphans r ctl = [] := by
  have hbot := h.bottom
  cases hbot with
  | body hzero => exact eq_nil_of_length_eq_zero hzero

/-- A poll begins: the depth is saved. -/
theorem pushRestore (h : Leveled B tail r ctl d) (hd : 0 < d) :
    Leveled B tail r (.restore d :: ctl) 0 where
  markers := h.markers.control rfl
  split := split_cons h.split rfl
  depth := rfl
  restores := by
    refine ⟨?_, h.restores⟩
    rintro _ ⟨⟩
    exact ⟨hd, h.depth⟩
  bottom := h.bottom

theorem popRestore {saved : ℕ} (h : Leveled B tail r (.restore saved :: ctl) d) :
    Leveled B tail r ctl saved where
  markers := h.markers.control rfl
  split := h.split_tail rfl
  depth := (h.restores.1 saved rfl).2
  restores := h.restores.tail
  bottom := h.bottom

section

variable (h : Leveled B tail r ctl d)
include h

theorem setReg (hmarks : Markers r' ctl) (horph : orphans r' ctl = orphans r ctl) :
    Leveled B tail r' ctl d :=
  { h with markers := hmarks, bottom := by rw [horph]; exact h.bottom }

theorem like (hlike : r.Like r') : Leveled B tail r' ctl d :=
  h.setReg (h.markers.like hlike) (hlike.orphans_eq ctl)

theorem scopeOpen : Leveled B tail r.scopeOpen ctl d :=
  h.setReg h.markers.scopeOpen.1 h.markers.scopeOpen.2

/-- A scope is closed under its own mask. -/
theorem scopeClose (hlive : (r.scopes sc).live = true) (hcl : (r.scopes sc).closed = false)
    {v : Scope} (hv : v.closed = true ∧ v.closing = true) :
    Leveled B tail (r.setScope sc v) (.scopeRun sc :: .closeEnd sc :: ctl) (d + 1) := by
  have hcloses : closes (.scopeRun sc :: .closeEnd sc :: ctl) = sc :: closes ctl := rfl
  obtain ⟨hmarks, horph⟩ := h.markers.scopeClose hlive hcl hv hcloses
  refine ⟨hmarks, split_cons (split_cons h.split rfl) rfl, ?_, ⟨nofun, nofun, h.restores⟩, ?_⟩
  · rw [h.depth]
    rfl
  · rw [horph]
    exact h.bottom

end

theorem closeEnd (h : Leveled B tail r (.closeEnd sc :: ctl) d) :
    Leveled B tail ((r.scopeDropMarker sc).free sc) ctl (d - 1) := by
  obtain ⟨hmarks, horph⟩ := h.markers.closeEnd
  refine ⟨hmarks, h.split_tail rfl, ?_, h.restores.tail, ?_⟩
  · rw [h.depth]
    rfl
  · rw [horph]
    exact h.bottom

end Leveled

/-! ### Steps -/

/-- A fault was caught: the frame is about to run `xtc_proc_recovery_cleanup`, and the mask is still
raised for the closes that the fault cut off. -/
structure Faulted (s : State) : Prop where
  markers : Markers s.reg s.control
  stack : ∃ k, s.control = .op .recoveryCleanup :: k ∧ (∀ i ∈ k, i.base = false) ∧
    closes k = [] ∧ Restores 0 k ∧ s.kill.depth = level 0 k + (orphans s.reg k).length

/-- The control stack of `s` is at the right depth. -/
def State.Leveled (s : State) (B : ℕ) (tail : List Ins) : Prop :=
  Unwind.Leveled B tail s.reg s.control s.kill.depth

/-- The process has left its function. -/
structure Left (s : State) : Prop where
  markers : Markers s.reg s.control
  stack : s.control = [.procExit] ∨ (∃ sig, s.control = [.faultExit sig]) ∨
    s.control = [.notify] ∨ s.control = []

/-- What a step above the innermost walk leads to, after `u` jumps. -/
inductive Next (B : ℕ) (tail : List Ins) (u : ℕ) (s : State) : Prop
  | kept : s.Leveled B tail → Next B tail u s
  | left : Left s → Next B tail u s
  | faulted : tail = [] → Faulted s → s.unwinds ≠ u → Next B tail u s
  | contained (B' : ℕ) (sig : ℕ) :
      s.Leveled B' [.recovRelease, .faultExit sig] → s.unwinds ≠ u → Next B tail u s
  | walk (B' : ℕ) (tail' : List Ins) : tail = [] → s.Leveled B' tail' → Next B tail u s

/-- The masks that a fault leaves to the frame of the program are those of scope closes. The frame
was not armed in a finalizer, and it runs `xtc_proc_recovery_cleanup` first, which is not called in
a finalizer either. -/
def State.maskOk (code : ℕ → List Op) (s : State) : Act → Bool
  | .kill _ => true
  | .step .. =>
    match s.control, s.armed, s.frame with
    | .op .recoveryCleanup :: k, _, _ => (closes k).isEmpty && !k.contains .recovRelease
    | .op (.fault _) :: k, true, some (f, rest) =>
      (k.take (k.length - (under rest).length)).all (!·.owes) && (closes rest).isEmpty &&
        !k.contains .recovRelease && (code f).head? == some .recoveryCleanup
    | _, _, _ => true

namespace State.Leveled

variable {B sc u : ℕ} {tail : List Ins} {s s' : State}

/-- The process leaves for the exit path. -/
theorem unwind (h : s.Leveled B tail) (reason : ℤ) (death : Death) : Left (s.unwind reason death) :=
  ⟨h.markers.of_sublist (nil_sublist _), .inl rfl⟩

theorem killDeliver (h : s.Leveled B tail) : Next B tail u s.killDeliver := by
  unfold State.killDeliver
  split
  · exact .kept h
  · split
    · exact .kept h
    · exact .left (h.unwind _ _)

theorem maskDrain (h : s.Leveled B tail) : Next B tail u s.maskDrain := by
  unfold State.maskDrain
  split
  · exact .kept h
  · exact .left (unwind (s := { s with kill := { s.kill with deferred := 0 } }) h _ _)

variable {d : ℕ}

/-- The end of a region. -/
theorem maskLeave {r : Registry} {ctl : List Ins} (h : Unwind.Leveled B tail r ctl (d - 1))
    (hreg : s.reg = r) (hctl : s.control = ctl) (hdepth : s.kill.depth = d) :
    Next B tail u s.maskLeave := by
  subst hreg hctl hdepth
  exact maskDrain h

theorem scopeClose (h : s.Leveled B tail) (ht : s.scopeClose sc = some s') :
    Next B tail u s' := by
  unfold State.scopeClose at ht
  split at ht <;> cases ht
  next hopen => exact .kept (Unwind.Leveled.scopeClose h hopen.1
    (by simpa using hopen.2) ⟨rfl, rfl⟩)

end State.Leveled

variable {k rest mid : List Ins} {o : Op} {sc B : ℕ}

/-- The orphans that a fault makes are the scopes whose closes it cut off. -/
theorem length_orphans_of_fault {r : Registry}
    (h : Leveled B [] r (mid ++ rest) d) (hrest : closes rest = [])
    (hk : closes k = []) : (orphans r k).length = (closes mid).length := by
  have hcloses : closes (mid ++ rest) = closes mid := by rw [closes_append, hrest, append_nil]
  refine List.Perm.length_eq ((perm_ext_iff_of_nodup ?_ ?_).mpr fun sc => ?_)
  · exact h.markers.nodup.filter _
  · exact hcloses ▸ h.markers.once
  constructor
  · -- an orphan now was being closed
    intro hsc
    obtain ⟨hmark, hcl⟩ := mem_filter.mp hsc
    by_contra hnot
    have hold : sc ∈ orphans r (mid ++ rest) := by
      refine mem_filter.mpr ⟨hmark, ?_⟩
      rw [hcloses]
      simp only [Bool.and_eq_true] at hcl
      simp [hnot, hcl.1]
    rw [h.orphans_eq_nil] at hold
    cases hold
  · intro hsc
    obtain ⟨hmark, hcl⟩ := h.markers.ends sc (hcloses ▸ hsc)
    exact mem_filter.mpr ⟨hmark, by simp [hcl, hk]⟩

namespace State.Leveled

variable {code : ℕ → List Op} {B sig : ℕ} {tail : List Ins} {s s' : State} {ok scope entry : Bool}

/-- A fault that a frame of the program catches. -/
theorem fault_frame (h : s.Leveled B tail) {f : ℕ}
    (hctl : s.control = mid ++ under rest) (hmid : ∀ i ∈ mid, i.owes = false)
    (hrest : closes rest = []) (hno : .recovRelease ∉ s.control)
    (hcode : (code f).head? = some .recoveryCleanup) :
    tail = [] ∧ Faulted { s with
      armed := false, control := body code f ++ rest, unwinds := s.unwinds + 1 } := by
  obtain rfl : tail = [] := h.tail_eq_nil hno
  obtain ⟨ops, hops⟩ := head?_eq_some_iff.mp hcode
  obtain ⟨ops', hops'⟩ := exists_ops rest
  -- what is left to do: calls of the handler and of the procedure that armed the frame
  have hbody : body code f ++ rest =
      .op .recoveryCleanup :: ((ops ++ ops').map .op ++ under rest) := by
    rw [body, hops, map_append, append_assoc, ← hops']
    rfl
  have hlevel : Unwind.Leveled B [] s.reg (mid ++ under rest) s.kill.depth := hctl ▸ h
  have hbase : ∀ i ∈ mid ++ under rest, i.base = false := hlevel.base_free
  have hbaserest : ∀ i ∈ under rest, i.base = false := fun i hi =>
    hbase i (mem_append_right _ hi)
  have hunder : closes (under rest) = [] := by
    rw [hops', closes_ops] at hrest
    exact hrest
  have hcloses : closes ((ops ++ ops').map .op ++ under rest) = [] := by
    rw [closes_ops, hunder]
  refine ⟨rfl, ?_, _, hbody, ?_, hcloses, ?_, ?_⟩
  · refine hlevel.markers.of_sublist ?_
    rw [hbody]
    change (closes ((ops ++ ops').map .op ++ under rest)).Sublist _
    rw [hcloses]
    exact nil_sublist _
  · intro i hi
    rcases mem_append.mp hi with hop | hi
    · obtain ⟨o, -, rfl⟩ := mem_map.mp hop
      rfl
    · exact hbaserest i hi
  · exact (hlevel.restores.of_append.congr hbaserest).ops _
  · have hdepth := hlevel.depth
    rw [level_append (fun i hi => hbase i (mem_append_left _ hi)) hmid] at hdepth
    rw [level_ops, length_orphans_of_fault hlevel hunder hcloses, ← level_congr hbaserest]
    exact hdepth

theorem fault (h : s.Leveled B tail) {sig : ℕ}
    (hok : maskOk code { s with control := .op (.fault sig) :: s.control }
      (.step ok scope entry) = true) (ht : s.fault code sig = some s') :
    Next B tail s.unwinds s' := by
  unfold State.fault at ht
  split at ht
  case isFalse =>
    cases ht
    exact .kept h
  next harmed =>
  split at ht
  · cases ht
    refine .contained (s.kill.depth + 1) sig ⟨?_, ⟨[], rfl, nofun⟩, rfl, ?_, ?_⟩
      (Nat.succ_ne_self _)
    · exact h.markers.of_sublist (nil_sublist _)
    · exact ⟨nofun, nofun, trivial⟩
    · exact .exit (.inr ⟨sig, rfl⟩)
  · next f rest hframe =>
    split at ht <;> cases ht
    next hsuffix =>
    obtain ⟨mid, hmid⟩ := hsuffix
    simp only [maskOk, harmed, hframe, Bool.and_eq_true] at hok
    obtain ⟨⟨⟨howes, hrest⟩, hno⟩, hcode⟩ := hok
    have htake : s.control.take (s.control.length - (under rest).length) = mid := by
      rw [← hmid, length_append, Nat.add_sub_cancel, take_left]
    rw [htake] at howes
    have hcleanup : (code f).head? = some .recoveryCleanup := by simpa using hcode
    obtain ⟨htail, hfaulted⟩ := h.fault_frame hmid.symm (by simpa using howes)
      (by simpa using hrest) (by simpa using hno) hcleanup
    exact .faulted htail hfaulted (Nat.succ_ne_self _)

/-- `xtc_proc_recovery_cleanup` begins outside of every walk and close. -/
theorem recoveryCleanup (h : s.Leveled B tail) (hcloses : closes s.control = [])
    (hno : .recovRelease ∉ s.control) :
    tail = [] ∧ State.Leveled { s with
        kill := s.kill.mask
        control := .recovRelease :: .cleanupEnd :: s.control }
      (s.kill.depth + 1) (.recovRelease :: .cleanupEnd :: s.control) := by
  obtain rfl : tail = [] := h.tail_eq_nil hno
  have hbase : ∀ i ∈ s.control, i.base = false := h.base_free
  refine ⟨rfl, h.markers.control rfl, ⟨[], rfl, nofun⟩, rfl, ⟨nofun, nofun, ?_⟩, ?_⟩
  · exact h.restores.congr hbase
  · refine .cleanup hbase hcloses ?_
    have hnil : orphans s.reg (.recovRelease :: .cleanupEnd :: s.control) = [] := h.orphans_eq_nil
    rw [hnil, h.depth, level_congr hbase]
    rfl

/-- `acquire` has returned: the mask stays until the release is registered or has run. -/
theorem acquired (h : Unwind.Leveled B tail s.reg s.control d)
    (hdepth : s.kill.depth = d + 1) (use release : ℕ) (scope entry : Bool) :
    State.Leveled (s.acquired code use release scope entry) B tail := by
  unfold State.acquired State.Leveled
  split
  · split
    · have hlike : s.reg.scopeOpen.Like (s.reg.scopeOpen.setScope s.reg.next
          { s.reg.scopeOpen.scopes s.reg.next with
            fins := ⟨s.reg.next + 1, release⟩ :: (s.reg.scopeOpen.scopes s.reg.next).fins }) :=
        .setScope rfl rfl id
      have hreg := h.scopeOpen.like (hlike.accept (some s.reg.next))
      have huse := (hreg.push (i := .closeScope s.reg.next) rfl).pushOps (code use)
      exact hdepth ▸ huse.push rfl
    · have hreg := (h.setReg h.markers.openFree.1 h.markers.openFree.2).like
        ((Registry.Like.accept (.refl _) none).start (s.reg.next + 1))
      exact hdepth ▸ (hreg.push rfl).pushOps (code release)
  · have hreg := h.like ((Registry.Like.accept (.refl _) none).start s.reg.next)
    exact hdepth ▸ (hreg.push rfl).pushOps (code release)

theorem execOp (hop : Unwind.Leveled B tail s.reg (.op o :: s.control) s.kill.depth)
    (hok : maskOk code { s with control := .op o :: s.control } (.step ok scope entry) = true)
    (ht : s.execOp code ok o = some s') : Next B tail s.unwinds s' := by
  have h : s.Leveled B tail := hop.pop rfl
  cases o <;> simp only [execOp] at ht
  case park =>
    cases ht
    exact h.killDeliver
  case exitSelf reason =>
    cases ht
    exact .left (h.unwind _ _)
  case fault sig => exact h.fault hok ht
  case recoveryTrack f =>
    cases ht
    exact .kept (h.like (.recoveryTrack s.reg f))
  case scopeOpen v =>
    split at ht <;> cases ht
    · exact .kept (h.scopeOpen.like { Registry.Like.refl s.reg.scopeOpen with })
    · exact .kept (h.like { Registry.Like.refl s.reg with })
  case scopeDefer v f =>
    split at ht
    · cases ht
      exact .kept h
    · split at ht <;> cases ht
      exact .kept (h.like (.scopeDefer s.reg _ f))
  case scopeClose v =>
    split at ht
    · cases ht
      exact .kept h
    · exact h.scopeClose ht
  case bracket acquire use release =>
    cases ht
    exact .kept ((h.push rfl).pushOps (code acquire))
  case uncancelable f | masked f =>
    cases ht
    exact .kept ((h.push rfl).pushOps (code f))
  case cancelPoll f =>
    split at ht
    · cases ht
      exact .kept (h.pushOps (code f))
    · next hdepth =>
      have hrestore := h.pushRestore (Nat.pos_of_ne_zero hdepth)
      split at ht <;> cases ht
      · exact .kept (hrestore.pushOps (code f))
      · next hdeferred =>
        -- the latched kill is acted on at once
        have hdr : ¬(0 < 0 ∨ s.kill.deferred = 0) := by simp [hdeferred]
        unfold State.maskDrain
        rw [if_neg hdr]
        exact .left ⟨h.markers.of_sublist (nil_sublist _), .inl rfl⟩
  case recoveryArm f =>
    cases ht
    exact .kept h
  case recoveryCleanup =>
    cases ht
    simp only [maskOk, Bool.and_eq_true] at hok
    obtain ⟨htail, hwalk⟩ := h.recoveryCleanup (by simpa using hok.1) (by simpa using hok.2)
    exact .walk _ _ htail hwalk

theorem scopeRun (h : Unwind.Leveled B tail s.reg (.scopeRun sc :: s.control) s.kill.depth)
    (ht : s.scopeRun code sc = some s') : Next B tail s.unwinds s' := by
  unfold State.scopeRun at ht
  split at ht
  case isFalse => cases ht
  split at ht <;> cases ht
  · exact .kept (h.pop rfl)
  · next fin fins _ =>
    have hlike : s.reg.Like (s.reg.setScope sc { s.reg.scopes sc with fins := fins }) :=
      .setScope rfl rfl id
    have hreg := h.like (hlike.start fin.id)
    exact .kept (hreg.pushOps (code fin.f))

variable {i : Ins}

/-- A step above the innermost walk. -/
theorem exec (h : Unwind.Leveled B tail s.reg (i :: s.control) s.kill.depth) (hi : i.base = false)
    (hok : maskOk code { s with control := i :: s.control } (.step ok scope entry) = true)
    (ht : s.exec code ok scope entry i = some s') : Next B tail s.unwinds s' := by
  cases i <;> simp only [exec] at ht
  case op o => exact execOp h hok ht
  case maskLeave =>
    cases ht
    exact maskLeave (h.pop rfl) rfl rfl rfl
  case restore saved =>
    cases ht
    exact .kept h.popRestore
  case acquired use release =>
    split at ht <;> cases ht
    · have hdepth := h.depth
      refine .kept (acquired (h.pop rfl) ?_ use release scope entry)
      rw [hdepth]
      rfl
    · exact maskLeave (h.pop rfl) rfl rfl rfl
  case closeScope sc => exact State.Leveled.scopeClose (h.pop rfl) ht
  case scopeRun sc => exact scopeRun h ht
  case closeEnd sc =>
    split at ht <;> cases ht
    exact maskLeave h.closeEnd rfl rfl rfl
  case recoverEnd sc =>
    cases ht
    exact .kept ((h.pop rfl).like (.free s.reg sc))
  case cleanupEnd =>
    cases ht
    exact .kept (h.pop rfl)
  case bodyReturned =>
    cases ht
    exact .left ⟨h.markers.of_sublist (nil_sublist _), .inl rfl⟩
  all_goals cases hi

end State.Leveled

section Walk

variable {code : ℕ → List Op} {B d : ℕ} {tail ctl : List Ins} {s s' : State} {r : Registry}

theorem Leveled.tail_eq (h : Leveled B tail r (.recovRelease :: ctl) d) :
    tail = .recovRelease :: ctl := by
  rcases h.next_cases with ⟨hbase, -⟩ | ⟨-, htail⟩
  · cases hbase
  · exact htail

theorem Bottom.closes_eq {o : ℕ} (h : Bottom B o (.recovRelease :: ctl)) : closes ctl = [] := by
  cases h with
  | cleanup _ hcloses => exact hcloses
  | exit hi => rcases hi with rfl | ⟨sig, rfl⟩ <;> rfl

/-- The depth below which a walk runs may be changed with the orphans. -/
theorem Bottom.restores {B' o : ℕ} (h : Bottom B o (.recovRelease :: ctl)) (hr : Restores B ctl) :
    Restores B' (.recovRelease :: ctl) := by
  refine ⟨nofun, ?_⟩
  cases h with
  | cleanup hbase _ _ => exact ⟨nofun, hr.tail.congr hbase⟩
  | exit hi => rcases hi with rfl | ⟨sig, rfl⟩ <;> exact ⟨nofun, trivial⟩

/-- The walk is at its end. -/
theorem Leveled.walkEnd (h : Leveled B tail s.reg (.recovRelease :: s.control) s.kill.depth)
    (hrecov : s.reg.recov = []) : Left s ∨ s.Leveled 0 [] := by
  have hnil : ∀ ctl, orphans s.reg ctl = [] := by
    intro ctl
    rw [orphans, Registry.marked, hrecov]
    rfl
  have hmarks : Markers s.reg s.control := h.markers.control rfl
  have hbot := h.bottom
  have hrestores := h.restores.tail
  have hdepth : s.kill.depth = B := h.depth
  rw [h.tail_eq, hnil] at hbot
  generalize hctl : s.control = ctl at hbot
  cases hbot with
  | exit hi =>
    refine .inl ⟨hmarks, ?_⟩
    rcases hi with rfl | ⟨sig, rfl⟩
    · exact .inr (.inr (.inl hctl))
    · exact .inr (.inl ⟨sig, hctl⟩)
  | cleanup hbase hcloses hB =>
    rw [hctl] at hrestores
    refine .inr ⟨hmarks, ⟨s.control, (append_nil _).symm, ?_⟩, ?_, ?_, .body ?_⟩
    · rw [hctl]
      exact forall_mem_cons.mpr ⟨rfl, hbase⟩
    · rw [hctl, hdepth, hB]
      rfl
    · rw [hctl]
      exact ⟨by rintro _ ⟨⟩, hrestores.tail.congr hbase⟩
    · rw [hnil]
      rfl

/-- The walk takes the marker of a scope, and gives back the mask of its close. -/
theorem Leveled.walkScope (h : Leveled B tail r (.recovRelease :: ctl) d)
    {rest : List Rec} (hrecov : r.recov = .scope sc :: rest) :
    ∃ B', Leveled B' tail ({ r with recov := rest }.setScope sc { r.scopes sc with closed := true })
      (.scopeRun sc :: .recoverEnd sc :: .recovRelease :: ctl)
      (if (r.scopes sc).closing then d - 1 else d) := by
  obtain rfl := h.tail_eq
  have hcloses : closes (.recovRelease :: ctl) = [] := h.bottom.closes_eq
  obtain ⟨hmarks, hlen⟩ := h.markers.unmark hrecov hcloses rfl
  have hdepth : d = B := h.depth
  have hwalk : Leveled (if (r.scopes sc).closing then d - 1 else d) (.recovRelease :: ctl)
      ({ r with recov := rest }.setScope sc { r.scopes sc with closed := true })
      (.recovRelease :: ctl) (if (r.scopes sc).closing then d - 1 else d) := by
    refine ⟨hmarks, ⟨[], rfl, nofun⟩, rfl, h.bottom.restores h.restores.tail, ?_⟩
    have hbot := h.bottom
    rw [hlen] at hbot
    cases hbot with
    | exit hi => exact .exit hi
    | cleanup hbase hk hB =>
      refine .cleanup hbase hk ?_
      rw [hdepth, hB]
      split
      · simp
      · rfl
  exact ⟨_, (hwalk.push rfl).push rfl⟩

/-- A turn of the innermost walk. -/
theorem Leveled.recovRelease (h : Leveled B tail s.reg (.recovRelease :: s.control) s.kill.depth)
    (ht : s.recovRelease code = some s') : Left s' ∨ ∃ B' tail', s'.Leveled B' tail' := by
  unfold State.recovRelease at ht
  split at ht
  · next hrecov =>
    cases ht
    rcases h.walkEnd hrecov with hleft | hlevel
    · exact .inl hleft
    · exact .inr ⟨_, _, hlevel⟩
  · next id f rest hrecov =>
    cases ht
    have hlike : s.reg.Like ({ s.reg with recov := rest }.start id) := by
      refine ⟨?_, le_rfl, fun _ => ⟨rfl, rfl, fun h => h⟩⟩
      rw [Registry.marked, Registry.marked, hrecov]
      rfl
    exact .inr ⟨B, tail, (h.like hlike).pushOps (code f)⟩
  · next sc rest hrecov =>
    split at ht <;> cases ht
    obtain ⟨B', hlevel⟩ := h.walkScope hrecov
    refine .inr ⟨B', tail, ?_⟩
    split at hlevel
    · next hcl =>
      rw [if_pos hcl]
      exact hlevel
    · next hcl =>
      rw [if_neg hcl]
      exact hlevel

variable {ok : Bool}

/-- The cleanup after a fault. -/
theorem Faulted.exec (h : Faulted s) (hctl : s.control = .op .recoveryCleanup :: k)
    {scope entry : Bool}
    (ht : { s with control := k }.exec code ok scope entry (.op .recoveryCleanup) = some s') :
    ∃ B' tail', s'.Leveled B' tail' := by
  obtain ⟨k', hk', hbase, hcloses, hrestores, hdepth⟩ := h.stack
  obtain rfl : k = k' := tail_eq_of_cons_eq (hctl.symm.trans hk')
  have hmarks := h.markers
  rw [hctl] at hmarks
  cases ht
  refine ⟨s.kill.depth + 1, .recovRelease :: .cleanupEnd :: k, hmarks.control rfl,
    ⟨[], rfl, nofun⟩, rfl, ⟨nofun, nofun, hrestores.congr hbase⟩, .cleanup hbase hcloses ?_⟩
  rw [hdepth, Nat.add_right_comm]
  rfl

theorem Left.exec (h : Left s) (hctl : s.control = i :: k) {scope entry : Bool}
    (ht : { s with control := k }.exec code ok scope entry i = some s') :
    Left s' ∨ ∃ B' tail', s'.Leveled B' tail' := by
  have hmarks : ∀ {ctl}, closes ctl = [] → Markers s.reg ctl := fun hnil =>
    h.markers.of_sublist (hnil ▸ nil_sublist _)
  rcases h.stack with heq | ⟨sig, heq⟩ | heq | heq
  · cases hctl.symm.trans heq
    cases ht
    refine .inr ⟨s.kill.depth + 1, [.recovRelease, .notify], hmarks rfl, ⟨[], rfl, nofun⟩, rfl,
      ⟨nofun, nofun, trivial⟩, .exit (.inl rfl)⟩
  · cases hctl.symm.trans heq
    cases ht
    exact .inl ⟨hmarks rfl, .inl rfl⟩
  · cases hctl.symm.trans heq
    cases ht
    exact .inl ⟨hmarks rfl, .inr (.inr (.inr rfl))⟩
  · cases hctl.symm.trans heq

end Walk

theorem Kill.depth_exitPid (k : Kill) (reason : ℤ) : (k.exitPid reason).depth = k.depth := by
  unfold exitPid
  split <;> rfl

/-- The depth is right, or what it is too high by is left to the cleanup. -/
def Balanced (s : State) : Prop := Faulted s ∨ Left s ∨ ∃ B tail, s.Leveled B tail

namespace Balanced

variable {code : ℕ → List Op} {B : ℕ} {tail : List Ins} {s s' : State} {a : Act}

theorem start (main : ℕ) : Balanced (State.start code main) := by
  refine .inr (.inr ⟨0, [], ?_⟩)
  have hend : Leveled 0 [] (State.start code main).reg [.bodyReturned] 0 := by
    exact ⟨⟨.nil, nofun, nofun, nofun, nofun, .nil⟩,
      ⟨[.bodyReturned], rfl, forall_mem_singleton.mpr rfl⟩, rfl, ⟨nofun, trivial⟩, .body rfl⟩
  exact hend.pushOps (code main)

/-- A step of a process whose mask is at the right depth. -/
theorem step_leveled (h : s.Leveled B tail) (hok : s.maskOk code a = true)
    (ht : s.step code a = some s') :
    Next B tail s.unwinds s' ∨ s.control.head? = some .recovRelease ∧
      (Left s' ∨ ∃ B' tail', s'.Leveled B' tail') := by
  cases a with
  | kill reason =>
    cases ht
    refine .inl (.kept ?_)
    unfold State.Leveled
    rw [s.kill.depth_exitPid]
    exact h
  | step ok scope entry =>
    simp only [step] at ht
    split at ht
    · cases ht
    next i rest hctl =>
    split at ht
    · cases ht
    have hcons : Leveled B tail s.reg (i :: rest) s.kill.depth := hctl ▸ h
    rcases hcons.next_cases with ⟨hi, -⟩ | ⟨rfl, -⟩
    · have hok' : maskOk code { s with control := i :: rest } (.step ok scope entry) = true := by
        rw [← hctl]
        exact hok
      exact .inl (State.Leveled.exec (s := { s with control := rest }) hcons hi hok' ht)
    · exact .inr ⟨by rw [hctl]; rfl, Leveled.recovRelease hcons ht⟩

theorem step (h : Balanced s) (hok : s.maskOk code a = true) (ht : s.step code a = some s') :
    Balanced s' := by
  rcases h with hfaulted | hleft | ⟨B, tail, hlevel⟩
  · cases a with
    | kill reason =>
      cases ht
      obtain ⟨k, hk⟩ := hfaulted.stack
      exact .inl ⟨hfaulted.markers, k, s.kill.depth_exitPid reason ▸ hk⟩
    | step ok scope entry =>
      obtain ⟨k, hctl, -⟩ := hfaulted.stack
      simp only [step, hctl] at ht
      split at ht
      · cases ht
      · exact .inr (.inr (hfaulted.exec hctl ht))
  · cases a with
    | kill reason =>
      cases ht
      exact .inr (.inl { hleft with })
    | step ok scope entry =>
      simp only [step] at ht
      split at ht
      · cases ht
      next i rest hctl =>
      split at ht
      · cases ht
      · exact .inr (hleft.exec hctl ht)
  · rcases step_leveled hlevel hok ht with hnext | ⟨-, hwalk⟩
    · cases hnext with
      | kept h | contained _ _ h _ | walk _ _ _ h => exact .inr (.inr ⟨_, _, h⟩)
      | left h => exact .inr (.inl h)
      | faulted _ h _ => exact .inl h
    · exact .inr hwalk

end Balanced

variable {code : ℕ → List Op} {s : State}

theorem balanced_of_reachable
    (hs : (system code).ReachableUnder (fun s a => s.maskOk code a = true) s) : Balanced s := by
  refine hs.invariant ?_ fun _ _ _ h hok ht => h.step hok ht
  rintro _ ⟨main, rfl⟩
  exact .start main

/-! ### Kills -/

/-- A kill that was latched is still pending. -/
def Kill.Latched (k : Kill) : Prop := k.alive = true → k.deferred ≠ 0 → k.pending = k.deferred

/-- How the step from `s` to `s'` treats kills: it acts on one only with the mask down, and on one
that was latched if it takes the mask down. -/
structure Acts (s s' : State) : Prop where
  masked : s.death ≠ some .killed → s'.death = some .killed → s'.kill.depth = 0
  latched : 0 < s.kill.depth → s.kill.deferred ≠ 0 → s'.kill.depth = 0 →
    s'.death = some .killed ∧ s'.exitReason = s.kill.deferred - 1
  pending : s.kill.Latched → s'.kill.Latched

namespace Acts

variable {code : ℕ → List Op} {s s' s₁ : State}

/-- The mask is lowered only where no kill was latched. -/
theorem keeps (hk : Keeps s s')
    (hlow : 0 < s.kill.depth → s.kill.deferred ≠ 0 → s'.kill.depth ≠ 0) : Acts s s' := by
  refine ⟨fun hne hkilled => absurd (hk.death ▸ hkilled) hne, fun hpos hdef hzero => ?_,
    fun h => ?_⟩
  · exact absurd hzero (hlow hpos hdef)
  · rw [hk.kill]
    exact h

theorem killDeliver (s : State) : Acts s s.killDeliver := by
  unfold State.killDeliver
  split
  · exact keeps ⟨rfl, rfl, rfl, rfl⟩ fun hpos _ => Nat.ne_of_gt hpos
  split
  · next hpos =>
    refine ⟨fun hne hkill => absurd hkill hne, fun _ _ hzero => ?_, fun h halive hdef => ?_⟩
    · exact absurd hpos (by rw [show s.kill.depth = 0 from hzero]; exact lt_irrefl _)
    · simp only [Kill.latch] at halive hdef ⊢
      split
      · rfl
      · next hne => exact h halive hne
  · next hmask =>
    exact ⟨fun _ _ => Nat.eq_zero_of_not_pos hmask, fun hpos => absurd hpos hmask, fun h => h⟩

/-- A drain after the mask was set to another depth. -/
theorem maskDrain (hk : Keeps s s') : Acts s s'.maskDrain := by
  unfold State.maskDrain
  split
  · next hno =>
    refine keeps hk fun _ hdef => ?_
    rw [hk.kill] at hno
    exact Nat.ne_of_gt (hno.resolve_right hdef)
  · next hdr =>
    obtain ⟨hzero, hdef⟩ := not_or.mp hdr
    refine ⟨fun _ _ => Nat.eq_zero_of_not_pos hzero, fun _ _ _ => ⟨rfl, ?_⟩, fun _ _ => ?_⟩
    · rw [hk.kill] at hdef ⊢
      refine unwindReason_eq fun heq => hdef ?_
      omega
    · exact fun hne => absurd rfl hne

theorem effect (he : Effect s i s') (hbody : i = .bodyReturned → s.kill.depth = 0)
    (hrestore : ∀ d, i = .restore d → 0 < d) :
    Acts s s' ∨ (i = .cleanupEnd ∨ i = .recovRelease) ∧ Keeps s s' := by
  cases he with
  | keeps hk hlow =>
    refine .inl (keeps hk fun hpos hdef hzero => ?_)
    have hrest := (hlow (hzero ▸ hpos)).resolve_left hdef
    exact Nat.ne_of_gt (hrestore _ hrest) hzero
  | walk hi hk => exact .inr ⟨hi, hk⟩
  | park => exact .inl (killDeliver s)
  | drain hk => exact .inl (maskDrain hk)
  | bodyReturned =>
    have hdepth := hbody rfl
    exact .inl ⟨fun _ _ => hdepth, fun hpos => absurd hdepth (Nat.ne_of_gt hpos), fun h => h⟩
  | exitSelf reason | faultExit sig =>
    exact .inl ⟨fun _ => nofun, fun hpos _ hzero => absurd hzero (Nat.ne_of_gt hpos), fun h => h⟩
  | procExit =>
    refine .inl ⟨fun hne hkill => absurd hkill hne, fun _ _ hzero => ?_, fun _ => nofun⟩
    exact absurd hzero (Nat.succ_ne_zero _)

theorem exitPid (s : State) (reason : ℤ) : Acts s { s with kill := s.kill.exitPid reason } := by
  refine ⟨fun hne hkill => absurd hkill hne, fun hpos _ hzero => ?_, fun h => ?_⟩
  · exact absurd ((s.kill.depth_exitPid reason).symm.trans hzero) (Nat.ne_of_gt hpos)
  · unfold Kill.exitPid
    split
    · next halive =>
      intro _ hdef
      have hpend := h halive hdef
      have hne : s.kill.pending ≠ 0 := by
        rw [hpend]
        exact hdef
      simp only [if_neg hne]
      exact hpend
    · exact h

end Acts

/-- What a process whose mask is at the right depth does about kills. -/
theorem Balanced.acts {s' : State} {a : Act} (h : Balanced s) (ht : s.step code a = some s') :
    (s.control.head? ≠ some .cleanupEnd → s.control.head? ≠ some .recovRelease → Acts s s') ∧
      (s.death ≠ some .killed → s'.death = some .killed → s'.kill.depth = 0) ∧
      (s.kill.Latched → s'.kill.Latched) := by
  cases a with
  | kill reason =>
    cases ht
    have hacts := Acts.exitPid s reason
    exact ⟨fun _ _ => hacts, hacts.masked, hacts.pending⟩
  | step ok scope entry =>
    simp only [State.step] at ht
    split at ht
    · cases ht
    next i rest hctl =>
    split at ht
    · cases ht
    have hlevel : (∀ d, i = .restore d → 0 < d) ∧ (i = .bodyReturned → s.kill.depth = 0) := by
      rcases h with hfaulted | hleft | ⟨B, tail, hlevel⟩
      · obtain ⟨k, hk, -⟩ := hfaulted.stack
        cases hctl.symm.trans hk
        exact ⟨by rintro _ ⟨⟩, by rintro ⟨⟩⟩
      · rcases hleft.stack with heq | ⟨sig, heq⟩ | heq | heq <;>
          cases hctl.symm.trans heq <;> exact ⟨by rintro _ ⟨⟩, by rintro ⟨⟩⟩
      · have hcons : Leveled B tail s.reg (i :: rest) s.kill.depth := hctl ▸ hlevel
        refine ⟨fun d hd => (hcons.restores.1 d hd).1, ?_⟩
        rintro rfl
        exact hcons.depth
    rcases Acts.effect (.exec ht) hlevel.2 hlevel.1 with hacts | ⟨hi, hk⟩
    · obtain ⟨h1, h2, h3⟩ := hacts
      exact ⟨fun _ _ => ⟨h1, h2, h3⟩, h1, h3⟩
    · refine ⟨fun hne hne' => ?_, fun hne hkill => absurd (hk.death ▸ hkill) hne, fun h => ?_⟩
      · rw [hctl] at hne hne'
        rcases hi with rfl | rfl
        · exact absurd rfl hne
        · exact absurd rfl hne'
      · rw [hk.kill]
        exact h

/-! ### Regions -/

section Regions

variable {code : ℕ → List Op} {s s₂ : State} {k : List Ins}

/-- Only calls of the program are left to do above `k`, and the next is not the cleanup after a
fault. -/
def State.At (s : State) (k : List Ins) : Prop :=
  (∃ ops : List Op, s.control = ops.map .op ++ k) ∧ s.control.head? ≠ some (.op .recoveryCleanup)

/-- Outside of a walk the depth is that of the open regions. -/
theorem Balanced.depth_eq (h : Balanced s) (hat : s.At k) (hbody : .bodyReturned ∈ k)
    (hwalk : .recovRelease ∉ k) : s.kill.depth = level 0 k := by
  obtain ⟨⟨ops, hops⟩, hhead⟩ := hat
  rcases h with hfaulted | hleft | ⟨B, tail, hlevel⟩
  · obtain ⟨k', hk', -⟩ := hfaulted.stack
    rw [hk'] at hhead
    exact absurd rfl hhead
  · have hmem : .bodyReturned ∈ s.control := hops ▸ mem_append_right _ hbody
    rcases hleft.stack with heq | ⟨sig, heq⟩ | heq | heq <;> rw [heq] at hmem <;> simp at hmem
  · have hno : .recovRelease ∉ s.control := by
      rw [hops]
      simpa using hwalk
    obtain rfl : tail = [] := Leveled.tail_eq_nil hlevel hno
    have hbase : ∀ i ∈ s.control, i.base = false := Leveled.base_free hlevel
    have hdepth : s.kill.depth = level B s.control := hlevel.depth
    rw [hdepth, level_congr hbase, hops, level_ops]

/-- The runs that begin in `s`. -/
def runsFrom (code : ℕ → List Op) (s : State) : System State Act where
  init := (· = s)
  step := State.step code

/-- The step is taken above `k`, without a jump. -/
def State.above (code : ℕ → List Op) (k : List Ins) (s : State) (a : Act) : Prop :=
  s.control ≠ k ∧ ∀ s', s.step code a = some s' → k <:+ s'.control ∧ s'.unwinds = s.unwinds

theorem Left.mem_control (h : Left s) (hi : i ∈ s.control) : i.base = true ∧ i ≠ .recovRelease := by
  rcases h.stack with heq | ⟨sig, heq⟩ | heq | heq <;> rw [heq] at hi
  · cases mem_singleton.mp hi
    exact ⟨rfl, nofun⟩
  · cases mem_singleton.mp hi
    exact ⟨rfl, nofun⟩
  · cases mem_singleton.mp hi
    exact ⟨rfl, nofun⟩
  · cases hi

/-- A region outside of walks ends at the depth at which it began. -/
theorem region_outside (h : s.Leveled B []) (hctl : s.control = .op o :: k) (hk : k ≠ [])
    (hrun : (runsFrom code s).ReachableUnder
      (fun s a => s.maskOk code a = true ∧ s.above code k a) s₂)
    (hend : s₂.control = k) : s₂.kill.depth = s.kill.depth := by
  have hbase : ∀ i ∈ s.control, i.base = false := Leveled.base_free h
  rw [hctl] at hbase
  have hinv : ∃ B' tail', s₂.Leveled B' tail' := by
    refine hrun.invariant (I := fun s' => ∃ B' tail', s'.Leveled B' tail') ?_ ?_
    · rintro _ rfl
      exact ⟨B, [], h⟩
    · rintro t a t' ⟨B', tail', ht⟩ ⟨hok, hne, habove⟩ hstep
      obtain ⟨hsuffix, hunwinds⟩ := habove t' hstep
      have hnotleft : ¬Left t' := by
        intro hleft
        obtain ⟨i, hi⟩ := exists_mem_of_ne_nil k hk
        have htrue := (hleft.mem_control (hsuffix.subset hi)).1
        rw [hbase i (.tail _ hi)] at htrue
        cases htrue
      rcases Balanced.step_leveled ht hok hstep with hnext | ⟨-, hwalk⟩
      · cases hnext with
        | kept h | contained _ _ h _ | walk _ _ _ h => exact ⟨_, _, h⟩
        | left h => exact absurd h hnotleft
        | faulted _ _ hjump => exact absurd hunwinds hjump
      · exact hwalk.resolve_left hnotleft
  obtain ⟨B', tail', h₂⟩ := hinv
  have hdepth : s.kill.depth = level B s.control := h.depth
  have hdepth₂ : s₂.kill.depth = level B' s₂.control := h₂.depth
  rw [hdepth, hdepth₂, hend, hctl]
  exact level_congr fun i hi => hbase i (.tail _ hi)

/-- A region in a callback that a walk runs ends at the depth at which it began. -/
theorem region_inside {tail : List Ins} (h : s.Leveled B tail) (htail : tail ≠ [])
    (hcontrol : s.control = .op o :: k) (hrun : (runsFrom code s).ReachableUnder
      (fun s a => s.maskOk code a = true ∧ s.above code k a) s₂)
    (hend : s₂.control = k) : s₂.kill.depth = s.kill.depth := by
  have hcons : Leveled B tail s.reg (.op o :: k) s.kill.depth := hcontrol ▸ h
  obtain ⟨l, hl, -⟩ := hcons.split_tail rfl
  have hhead : ∃ rest, tail = .recovRelease :: rest := by
    have hbot := h.bottom
    cases hbot with
    | body => exact absurd rfl htail
    | cleanup | exit => exact ⟨_, rfl⟩
  obtain ⟨rest, hrest⟩ := hhead
  have hmem : .recovRelease ∈ k := by
    rw [hl, hrest]
    exact mem_append_right _ mem_cons_self
  have hinv : s₂.Leveled B tail ∧ k <:+ s₂.control := by
    refine hrun.invariant (I := fun s' => s'.Leveled B tail ∧ k <:+ s'.control) ?_ ?_
    · rintro _ rfl
      exact ⟨h, hcontrol ▸ suffix_cons _ _⟩
    · rintro t a t' ⟨ht, habove⟩ ⟨hok, hne, hnext⟩ hstep
      obtain ⟨hsuffix, hunwinds⟩ := hnext t' hstep
      have hnotleft : ¬Left t' := fun hleft =>
        (hleft.mem_control (hsuffix.subset hmem)).2 rfl
      rcases Balanced.step_leveled ht hok hstep with hnext | ⟨hwalk, -⟩
      · cases hnext with
        | kept h => exact ⟨h, hsuffix⟩
        | left h => exact absurd h hnotleft
        | faulted hnil _ _ | walk _ _ hnil _ => exact absurd hnil htail
        | contained _ _ _ hjump => exact absurd hunwinds hjump
      · -- the walk itself is not above `k`
        obtain ⟨ctl, hctl⟩ := head?_eq_some_iff.mp hwalk
        have heq : tail = t.control := by
          have hwalking : Leveled B tail t.reg (.recovRelease :: ctl) t.kill.depth := hctl ▸ ht
          rw [hctl]
          exact hwalking.tail_eq
        have hsub : t.control <:+ k := heq ▸ ⟨l, hl.symm⟩
        exact absurd (hsub.eq_of_length (Nat.le_antisymm hsub.length_le habove.length_le)) hne
  have hdepth : s.kill.depth = level B s.control := h.depth
  have hdepth₂ : s₂.kill.depth = level B s₂.control := hinv.1.depth
  rw [hdepth, hdepth₂, hend, hcontrol]
  rfl

end Regions

theorem latched_of_reachable
    (hs : (system code).ReachableUnder (fun s a => s.maskOk code a = true) s) : s.kill.Latched := by
  induction hs with
  | start h =>
    obtain ⟨main, rfl⟩ := h
    exact fun _ hne => absurd rfl hne
  | next hs hok ht ih => exact ((balanced_of_reachable hs).acts ht).2.2 ih

/-- Cancellation masking. A kill is acted on only with the mask down. A kill that was latched is
acted on, with its reason, by the step of the program that takes the mask down, be it the end of a
region or the beginning of a poll; the recovery walk leaves it pending. Outside of the walk the
depth is the same whenever the process is at the same point of its program, after a fault and its
cleanup as well, and a region that ends without a jump ends at the depth at which it began. -/
theorem cancellation_masking {code : ℕ → List Op} {s : State}
    (hs : (system code).ReachableUnder (fun s a => s.maskOk code a = true) s) :
    (∀ a s', s.step code a = some s' →
      (s.death ≠ some .killed → s'.death = some .killed → s'.kill.depth = 0) ∧
      (s.control.head? ≠ some .cleanupEnd → s.control.head? ≠ some .recovRelease →
        0 < s.kill.depth → s.kill.deferred ≠ 0 → s'.kill.depth = 0 →
        s'.death = some .killed ∧ s'.exitReason = s.kill.deferred - 1)) ∧
    (s.kill.alive = true → s.kill.deferred ≠ 0 → s.kill.pending = s.kill.deferred) ∧
    (∀ k s₂, (system code).ReachableUnder (fun s a => s.maskOk code a = true) s₂ →
      .bodyReturned ∈ k → .recovRelease ∉ k → s.At k → s₂.At k → s₂.kill.depth = s.kill.depth) ∧
    ∀ o k s₂, s.control = .op o :: k → o ≠ .recoveryCleanup → k ≠ [] →
      (runsFrom code s).ReachableUnder (fun s a => s.maskOk code a = true ∧ s.above code k a) s₂ →
      s₂.control = k → s₂.kill.depth = s.kill.depth := by
  have h := balanced_of_reachable hs
  refine ⟨fun a s' hstep => ?_, latched_of_reachable hs, ?_, ?_⟩
  · obtain ⟨hacts, hmasked, -⟩ := h.acts hstep
    exact ⟨hmasked, fun hne hne' => (hacts hne hne').latched⟩
  · intro k s₂ hs₂ hbody hwalk hat hat₂
    rw [h.depth_eq hat hbody hwalk, (balanced_of_reachable hs₂).depth_eq hat₂ hbody hwalk]
  · intro o k s₂ hcontrol ho hk hrun hend
    rcases h with hfaulted | hleft | ⟨B, tail, hlevel⟩
    · obtain ⟨k', hk', -⟩ := hfaulted.stack
      cases hcontrol.symm.trans hk'
      exact absurd rfl ho
    · have hop := (hleft.mem_control (hcontrol ▸ mem_cons_self)).1
      cases hop
    · by_cases htail : tail = []
      · subst htail
        exact region_outside hlevel hcontrol hk hrun hend
      · exact region_inside hlevel htail hcontrol hrun hend

/-- The program arms a frame and closes a scope whose finalizer faults. The frame cleans up. -/
def faultInClose : ℕ → List Op
  | 0 => [.recoveryArm 1, .scopeOpen 0, .scopeDefer 0 2, .scopeClose 0]
  | 1 => [.recoveryCleanup]
  | _ => [.fault 11]

/-- What is left to do where the frame was armed. -/
def afterArm : List Ins :=
  [.op (.scopeOpen 0), .op (.scopeDefer 0 2), .op (.scopeClose 0), .bodyReturned]

theorem cancellation_masking_faultInClose :
    ∃ s ∈ (system faultInClose).runUnder (fun s a => s.maskOk faultInClose a = true)
        (.start faultInClose 0) (replicate 12 (.step true true true)),
      s.unwinds = 1 ∧ s.control = afterArm ∧
        s.kill.depth = (State.start faultInClose 0).kill.depth := by
  have hrun : ∃ s ∈ (system faultInClose).runUnder (fun s a => s.maskOk faultInClose a = true)
        (.start faultInClose 0) (replicate 12 (.step true true true)),
      s.unwinds = 1 ∧ s.control = afterArm := by
    decide
  obtain ⟨s, hs, hunwinds, hcontrol⟩ := hrun
  have hstart : (system faultInClose).ReachableUnder (fun s a => s.maskOk faultInClose a = true)
      (.start faultInClose 0) := .start ⟨0, rfl⟩
  refine ⟨s, hs, hunwinds, hcontrol, ?_⟩
  refine (cancellation_masking hstart).2.2.1 afterArm s (.runUnder hstart hs) (by decide)
    (by decide) ⟨⟨[.recoveryArm 1], rfl⟩, by decide⟩ ⟨⟨[], hcontrol⟩, ?_⟩
  rw [hcontrol]
  decide

/-- A tracked callback parks while the program cleans up. -/
def parkInCleanup : ℕ → List Op
  | 0 => [.recoveryTrack 1, .recoveryCleanup, .park]
  | _ => [.park]

/-- The program arms a frame and faults in a masked region. The frame cleans up. -/
def faultInRegion : ℕ → List Op
  | 0 => [.recoveryArm 1, .uncancelable 2]
  | 1 => [.recoveryCleanup]
  | _ => [.fault 11]

/-- A kill that was latched during the cleanup is not acted on when the mask comes down at its end.
And after a fault in a masked region and the cleanup, the process is back at the point where it
armed the frame with the mask raised. -/
theorem mask_left_raised_by_fault : (∃ s ∈ (system parkInCleanup).run (.start parkInCleanup 0)
        (.kill 3 :: replicate 5 (.step true true true)),
      s.kill.depth = 1 ∧ s.kill.deferred = 4 ∧ ∃ s' ∈ s.step parkInCleanup (.step true true true),
          s'.kill.depth = 0 ∧ s'.death = none) ∧
    (State.start faultInRegion 0).kill.depth = 0 ∧
    (State.start faultInRegion 0).control = .op (.recoveryArm 1) :: [.op (.uncancelable 2),
      .bodyReturned] ∧
    ∃ s ∈ (system faultInRegion).run (.start faultInRegion 0) (replicate 6 (.step true true true)),
      s.control = [.op (.uncancelable 2), .bodyReturned] ∧ s.kill.depth = 1 := by
  decide

end LibXtc.Unwind

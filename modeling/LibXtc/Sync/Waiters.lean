import LibXtc.Foundations.Lists

/-!
# Callers that block

The primitives of `src/ptc/sync.c` share how a caller blocks. A fiber links a waiter into the
primitive's queue, drops the lock and parks; every resume runs one pass of its loop under the lock.
A thread that is not on a loop polls the state words for a while and then sleeps on a condition
variable. What the caller wants from the primitive is `μ`, and what it holds of it is `η`.
-/

namespace LibXtc.Sync

open Foundations List

/-- `struct fiber_waiter`. A waiter is `queued` if the queue lists its fiber, and `woken` if its
waker has fired since the fiber parked. -/
structure Waiter where
  granted : Bool
  lost : ℕ
  woken : Bool
  deriving DecidableEq

/-- A waiter that is not granted and lost `lost` races; after `memset` it lost none. -/
def Waiter.ungranted (lost : ℕ) : Waiter := ⟨false, lost, false⟩

/-- Where a caller is. `checks` is `masked == 1`: kills are checked. -/
inductive Phase (μ : Type)
  /-- In no blocking call. -/
  | idle
  /-- A fiber in `fw_park`. -/
  | parked (want : μ) (w : Waiter) (checks timed : Bool)
  /-- A fiber in `fw_kill_deliver`, whose waiter is neither queued nor granted. -/
  | delivering (want : μ) (lost : ℕ) (timed : Bool)
  /-- A thread that polls, counted in `spinners`. -/
  | spinning (want : μ) (timed : Bool)
  /-- A thread that has stopped polling and takes the lock to look again. -/
  | spun (want : μ) (timed : Bool)
  /-- A thread in `pthread_cond_wait` or `pthread_cond_timedwait`. -/
  | asleep (want : μ) (timed signalled : Bool)
  /-- A fiber that was killed. -/
  | dead
  deriving DecidableEq

/-- A fiber or a thread. A kill is pending if `kill`; only a process can be killed. -/
structure Ctx (μ η : Type) where
  onLoop : Bool
  inProc : Bool
  kill : Bool
  phase : Phase μ
  holds : η
  deriving DecidableEq

/-- How long a call waits. -/
inductive Wait
  | poll | timed | forever
  deriving DecidableEq

namespace Ctx

variable {μ η : Type} (c : Ctx μ η)

/-- What the caller waits for in the queue of the primitive. -/
def waiting : Option μ :=
  match c.phase with
  | .parked want w _ _ => if w.granted then none else some want
  | _ => none

/-- What the caller was granted and has not yet taken note of. -/
def granted : Option μ :=
  match c.phase with
  | .parked want w _ _ => if w.granted then some want else none
  | _ => none

/-- The caller parks and its waker has fired. -/
def woken : Bool :=
  match c.phase with
  | .parked _ w _ _ => w.woken
  | _ => false

def spinning : Bool :=
  match c.phase with
  | .spinning _ _ => true
  | _ => false

/-- What a sleeping thread waits for. -/
def sleeping : Option μ :=
  match c.phase with
  | .asleep want _ _ => some want
  | _ => none

/-- The thread sleeps and was not signalled. -/
def unsignalled : Option μ :=
  match c.phase with
  | .asleep want _ false => some want
  | _ => none

/-- What a sleeping thread that was signalled waits for. -/
def signalled : Option μ :=
  match c.phase with
  | .asleep want _ true => some want
  | _ => none

/-- A sleeping thread was signalled, or a thread that was counted in `spinners` has not looked
again. -/
def coming : Option μ :=
  match c.phase with
  | .asleep want _ true | .spinning want _ | .spun want _ => some want
  | _ => none

/-- The parked fiber will see that it is killed. -/
def dying : Bool :=
  match c.phase with
  | .parked _ _ checks _ => checks && c.kill
  | _ => false

/-- `xtc_waker_wake`. -/
def wake : Ctx μ η :=
  match c.phase with
  | .parked want w checks timed =>
    { c with phase := .parked want { w with woken := true } checks timed }
  | _ => c

/-- A hand-off: `granted` is set and the waker fires. -/
def grant : Ctx μ η :=
  match c.phase with
  | .parked want w checks timed =>
    { c with phase := .parked want { w with granted := true, woken := true } checks timed }
  | _ => c

/-- The condition variable wakes the thread. -/
def signal : Ctx μ η :=
  match c.phase with
  | .asleep want timed _ => { c with phase := .asleep want timed true }
  | _ => c

theorem waiting_signal : c.signal.waiting = c.waiting := by
  rcases c with ⟨_, _, _, phase, _⟩
  cases phase <;> rfl

variable {c}

theorem woken_wake (h : c.waiting.isSome) : c.wake.woken = true := by
  rcases c with ⟨_, _, _, phase, _⟩
  cases phase <;> first | rfl | cases h

theorem waiting_eq_none (h : c.granted.isSome) : c.waiting = none := by
  rcases c with ⟨_, _, _, phase, _⟩
  cases phase with
  | parked want w checks timed =>
    cases hw : w.granted with
    | true => simp [waiting, hw]
    | false => simp [granted, hw] at h
  | _ => rfl

end Ctx

section Only

variable {μ η β : Type} {f : Ctx μ η → Ctx μ η} {cs cs' : List (Ctx μ η)}

/-- Callers changed by `f` only: whatever `f` does not change is unchanged. -/
def Only (f : Ctx μ η → Ctx μ η) (cs cs' : List (Ctx μ η)) : Prop :=
  ∀ (β : Type) (k : Ctx μ η → β), (∀ c, k (f c) = k c) → cs'.map k = cs.map k

theorem Only.refl : Only f cs cs := fun _ _ _ => rfl

theorem Only.set {c : Ctx μ η} (hc : cs[p]? = some c) : Only f cs (cs.set p (f c)) := by
  intro β k hk
  obtain ⟨hp, rfl⟩ := List.getElem?_eq_some_iff.mp hc
  rw [map_set, hk, ← map_set, set_getElem_self]

theorem Only.modify : Only f cs (cs.modify p f) := by
  cases hp : cs[p]? with
  | none =>
    rw [modify_eq_self (getElem?_eq_none_iff.mp hp)]
    exact .refl
  | some c =>
    rw [modify_eq_set_of_getElem? hp]
    exact .set hp

theorem Only.trans {cs'' : List (Ctx μ η)} (h : Only f cs cs') (h' : Only f cs' cs'') :
    Only f cs cs'' :=
  fun β k hk => (h' β k hk).trans (h β k hk)

/-- What caller `j` keeps. -/
theorem Only.getElem? (h : Only f cs cs') {k : Ctx μ η → β} (hk : ∀ c, k (f c) = k c) (j : ℕ) :
    cs'[j]?.map k = cs[j]?.map k := by
  rw [← getElem?_map, ← getElem?_map, h β k hk]

theorem Only.getElem?_bind (h : Only f cs cs') {k : Ctx μ η → Option β}
    (hk : ∀ c, k (f c) = k c) (j : ℕ) : cs'[j]?.bind k = cs[j]?.bind k := by
  have hbind := congrArg (Option.bind · id) (h.getElem? hk j)
  simpa only [Option.bind_map, Function.id_comp] using hbind

end Only

section Cond

variable {μ η : Type} (on : μ → Bool) {cs : List (Ctx μ η)}

/-- The thread sleeps on the condition variable of `on` and was not signalled. -/
def Ctx.sleepsOn (c : Ctx μ η) : Bool := c.unsignalled.any on

theorem Ctx.sleeping_of_sleepsOn {c : Ctx μ η} (h : c.sleepsOn on = true) : c.sleeping.isSome := by
  rcases c with ⟨_, _, _, phase, _⟩
  cases phase <;> first | rfl | cases h

/-- `pthread_cond_signal`: thread `p` wakes. The caller of the primitive has no say in who it is,
but if a thread sleeps, one wakes. -/
def condSignal (cs : List (Ctx μ η)) (p : ℕ) : Option (List (Ctx μ η)) :=
  match cs[p]? with
  | some c =>
    if c.sleepsOn on then some (cs.set p c.signal)
    else if cs.any (·.sleepsOn on) then none else some cs
  | none => if cs.any (·.sleepsOn on) then none else some cs

/-- `pthread_cond_broadcast` -/
def condBroadcast (cs : List (Ctx μ η)) : List (Ctx μ η) :=
  cs.map fun c => if c.sleepsOn on then c.signal else c

theorem only_condBroadcast {on : μ → Bool} : Only Ctx.signal cs (condBroadcast on cs) := by
  intro β k hk
  rw [condBroadcast, map_map]
  refine map_congr_left fun c _ => ?_
  rw [Function.comp_apply]
  split
  · exact hk c
  · rfl

/-- A signal reaches a sleeping thread unless there is none. -/
theorem condSignal_cases {on : μ → Bool} (h : condSignal on cs p = some cs') :
    (∃ c, cs[p]? = some c ∧ c.sleepsOn on = true ∧ cs' = cs.set p c.signal) ∨
      (cs' = cs ∧ ∀ c ∈ cs, c.sleepsOn on = false) := by
  have hnone (h : (if cs.any (·.sleepsOn on) then none else some cs) = some cs') :
      cs' = cs ∧ ∀ c ∈ cs, c.sleepsOn on = false := by
    split at h
    · cases h
    · rename_i hany
      cases h
      exact ⟨rfl, by simpa using hany⟩
  rw [condSignal] at h
  split at h
  · rename_i c hc
    split at h
    · rename_i hsleeps
      cases h
      exact .inl ⟨c, hc, hsleeps, rfl⟩
    · exact .inr (hnone h)
  · exact .inr (hnone h)

end Cond

section Queue

variable {μ η : Type}

/-- The queue `wq` lists fibers that wait, none of them twice. -/
structure Queued (wq : List ℕ) (cs : List (Ctx μ η)) : Prop where
  nodup : wq.Nodup
  waiting : ∀ i ∈ wq, ∃ c, cs[i]? = some c ∧ c.waiting.isSome

namespace Queued

variable {wq : List ℕ} {cs : List (Ctx μ η)} {i : ℕ} {c c' : Ctx μ η}

section

variable (h : Queued wq cs)
include h

section

variable (hc : cs[i]? = some c)
include hc

theorem waiting_of_mem (hi : i ∈ wq) : c.waiting.isSome := by
  obtain ⟨d, hd, hw⟩ := h.waiting i hi
  rw [hc] at hd
  cases hd
  exact hw

theorem not_mem (hw : c.waiting = none) : i ∉ wq := by
  intro hi
  have := h.waiting_of_mem hc hi
  rw [hw] at this
  cases this

/-- A caller may change as long as a queued one keeps waiting. -/
theorem set (hw : i ∈ wq → c'.waiting.isSome) : Queued wq (cs.set i c') where
  nodup := h.nodup
  waiting j hj := by
    by_cases hij : i = j
    · subst hij
      exact ⟨c', getElem?_set_new hc, hw hj⟩
    · rw [getElem?_set_ne hij]
      exact h.waiting j hj

theorem set_of_not_mem (hi : i ∉ wq) : Queued wq (cs.set i c') :=
  h.set hc fun hmem => absurd hmem hi

end

theorem sublist {wq' : List ℕ} (hsub : wq'.Sublist wq) : Queued wq' cs :=
  ⟨h.nodup.sublist hsub, fun i hi => h.waiting i (hsub.subset hi)⟩

/-- Whoever leaves the queue may become anything. -/
theorem erase_set (hc : cs[i]? = some c) : Queued (wq.erase i) (cs.set i c') :=
  (h.sublist (erase_sublist)).set hc fun hi => absurd hi h.nodup.not_mem_erase

/-- A new waiter joins at the tail. -/
theorem append_set (hc : cs[i]? = some c) (hi : i ∉ wq) (hw : c'.waiting.isSome) :
    Queued (wq ++ [i]) (cs.set i c') where
  nodup := nodup_append.mpr ⟨h.nodup, nodup_singleton i, by
    rintro a ha b hb rfl
    exact hi (mem_singleton.mp hb ▸ ha)⟩
  waiting j hj := by
    rcases mem_append.mp hj with hj | hj
    · exact (h.set hc fun _ => hw).waiting j hj
    · rw [mem_singleton.mp hj]
      exact ⟨c', getElem?_set_new hc, hw⟩

theorem only {f : Ctx μ η → Ctx μ η} (hf : ∀ c, (f c).waiting = c.waiting)
    (hs : Only f cs cs') : Queued wq cs' where
  nodup := h.nodup
  waiting j hj := by
    obtain ⟨d, hd, hw⟩ := h.waiting j hj
    have hmap := hs.getElem? hf j
    rw [hd] at hmap
    obtain ⟨d', hd', heq⟩ := Option.map_eq_some_iff.mp hmap
    exact ⟨d', hd', heq ▸ hw⟩

end

end Queued

end Queue

end LibXtc.Sync

import Mathlib.Data.List.Nodup
import LibXtc.LockMgr.Modes

/-!
# A lock object as two lists

What a lock object is for, without its pointers: a list of granted requests, newest first, and a
queue of waiting ones. `ObjOp` names what a critical section of the manager may do to one object,
`ObjView.apply` the effect and `ObjView.Enabled` the checks the manager makes before it.
-/

namespace LibXtc.LockMgr

open List

/-- A request on an object: the entry that represents it and the data of that entry. -/
structure Req where
  addr : ℕ
  locker : ℕ
  mode : ℕ
  aborted : Bool
  deriving DecidableEq

/-- The granted and the waiting requests of an object. -/
@[ext] structure ObjView where
  granted : List Req
  waiting : List Req
  deriving DecidableEq

/-- Some granted request of another locker conflicts with `mode`. -/
def blocked (m : ConflictMatrix) (granted : List Req) (locker mode : ℕ) : Bool :=
  granted.any fun g => decide (g.locker ≠ locker ∧ m.conflicts g.mode mode = true)

variable {granted : List Req} {m : ConflictMatrix}

theorem blocked_iff {locker mode : ℕ} : blocked m granted locker mode = true ↔
      ∃ g ∈ granted, g.locker ≠ locker ∧ m.conflicts g.mode mode = true := by
  simp [blocked]

/-- More granted requests block at least as much. -/
theorem blocked_mono {granted' : List Req} {locker mode : ℕ}
    (h : ∀ g ∈ granted, g ∈ granted') (hb : blocked m granted locker mode = true) :
    blocked m granted' locker mode = true := by
  rw [blocked_iff] at hb ⊢
  obtain ⟨g, hg, hconf⟩ := hb
  exact ⟨g, h g hg, hconf⟩

/-- Promotion: waiters are granted from the head of the queue until one is blocked. -/
def promoteList (m : ConflictMatrix) : List Req → List Req → ObjView
  | granted, [] => ⟨granted, []⟩
  | granted, w :: rest =>
    if blocked m granted w.locker w.mode then ⟨granted, w :: rest⟩
    else promoteList m (w :: granted) rest

/-- What a critical section may do to one object. -/
inductive ObjOp
  /-- Raise a granted request in place. -/
  | raise (addr mode : ℕ)
  /-- Grant a new request. -/
  | grant (r : Req)
  /-- Queue a conversion. -/
  | waitHead (r : Req)
  /-- Queue a new request. -/
  | waitTail (r : Req)
  /-- A waiter leaves without a lock. -/
  | leave (addr : ℕ)
  /-- Release a granted request and promote. -/
  | release (addr : ℕ)
  /-- Lower a granted request and promote. -/
  | lower (addr mode : ℕ)
  /-- Flag the waiters of a locker and release what it holds. -/
  | drop (locker : ℕ)
  deriving DecidableEq

/-- Remove a request. -/
def without (addr : ℕ) (l : List Req) : List Req := l.filter (·.addr ≠ addr)

/-- Change the request at an address. -/
def updateAt (addr : ℕ) (u : Req → Req) (l : List Req) : List Req :=
  l.map fun r => if r.addr = addr then u r else r

/-- Change the mode of a request. -/
def withMode (addr mode : ℕ) (l : List Req) : List Req :=
  updateAt addr (fun r => { r with mode := mode }) l

/-- Flag the requests of a locker aborted. -/
def flagged (locker : ℕ) (l : List Req) : List Req :=
  l.map fun r => if r.locker = locker then { r with aborted := true } else r

namespace ObjView

variable (m : ConflictMatrix)

/-- An object without requests. -/
def empty : ObjView := ⟨[], []⟩

section

variable (v : ObjView)

/-- Release a granted request and promote. -/
def release (addr : ℕ) : ObjView := promoteList m (without addr v.granted) v.waiting

/-- Release granted requests one after the other. -/
def releaseEach (addrs : List ℕ) : ObjView := addrs.foldl (release m) v

/-- Flag the waiters of a locker. -/
def flag (locker : ℕ) : ObjView := ⟨v.granted, flagged locker v.waiting⟩

/-- The granted requests of a locker. -/
def heldBy (locker : ℕ) : List Req := v.granted.filter (·.locker = locker)

/-- The effect of an operation. -/
def apply : ObjOp → ObjView
  | .raise addr mode => ⟨withMode addr mode v.granted, v.waiting⟩
  | .grant r => ⟨r :: v.granted, v.waiting⟩
  | .waitHead r => ⟨v.granted, r :: v.waiting⟩
  | .waitTail r => ⟨v.granted, v.waiting ++ [r]⟩
  | .leave addr => ⟨v.granted, without addr v.waiting⟩
  | .release addr => v.release m addr
  | .lower addr mode => promoteList m (withMode addr mode v.granted) v.waiting
  | .drop locker => (v.flag locker).releaseEach m ((v.heldBy locker).map (·.addr))

/-- The checks made before an operation. -/
def Enabled : ObjOp → Prop
  | .raise addr mode => ∃ r ∈ v.granted, r.addr = addr ∧ m.dominates mode r.mode = true ∧
      blocked m v.granted r.locker mode = false
  | .grant r => blocked m v.granted r.locker r.mode = false
  | .waitHead r => r.aborted = false ∧ blocked m v.granted r.locker r.mode = true
  | .waitTail r => r.aborted = false ∧ (blocked m v.granted r.locker r.mode = true ∨ v.waiting ≠ [])
  | .leave addr => ∃ r ∈ v.waiting, r.addr = addr
  | .release addr => ∃ r ∈ v.granted, r.addr = addr
  | .lower addr mode => ∃ r ∈ v.granted, r.addr = addr ∧ m.dominates r.mode mode = true
  | .drop _ => True

end

end ObjView

variable {m : ConflictMatrix} {waiting l l' : List Req} {a : ℕ} {u : Req → Req} {w : Req}

/-- A property of the granted list that holds before promotion and is kept by each grant of an
unblocked request holds after promotion. -/
theorem promoteList_granted {P : List Req → Prop}
    (hgrant : ∀ granted w, P granted → blocked m granted w.locker w.mode = false →
      P (w :: granted)) (h : P granted) : P (promoteList m granted waiting).granted := by
  induction waiting generalizing granted with
  | nil => exact h
  | cons w rest ih =>
    rw [promoteList]
    split
    · exact h
    · rename_i hfree
      exact ih (hgrant granted w h (by simpa using hfree))

/-- Promotion takes waiters from the head of the queue to the granted list. -/
theorem promoteList_split (granted waiting : List Req) :
    ∃ taken, waiting = taken ++ (promoteList m granted waiting).waiting ∧
      (promoteList m granted waiting).granted = taken.reverse ++ granted := by
  induction waiting generalizing granted with
  | nil => exact ⟨[], rfl, rfl⟩
  | cons w rest ih =>
    rw [promoteList]
    split
    · exact ⟨[], rfl, rfl⟩
    · obtain ⟨taken, hwait, hgrant⟩ := ih (w :: granted)
      refine ⟨w :: taken, ?_, ?_⟩
      · rw [cons_append, ← hwait]
      · rw [hgrant, reverse_cons, append_assoc]
        rfl

/-- Promotion stops at a blocked waiter or at the end of the queue. -/
theorem promoteList_head_blocked (granted waiting : List Req) :
    ∀ w ∈ (promoteList m granted waiting).waiting.head?,
      blocked m (promoteList m granted waiting).granted w.locker w.mode = true := by
  induction waiting generalizing granted with
  | nil => simp [promoteList]
  | cons w rest ih =>
    rw [promoteList]
    split
    · rename_i hblock
      simpa using hblock
    · exact ih (w :: granted)

/-! ## Addresses -/

/-- The addresses of a list of requests. -/
def addrs (l : List Req) : List ℕ := l.map (·.addr)

@[simp] theorem mem_addrs : a ∈ addrs l ↔ ∃ r ∈ l, r.addr = a := by
  simp [addrs]

theorem addrs_append (l l' : List Req) : addrs (l ++ l') = addrs l ++ addrs l' := map_append

@[simp] theorem addrs_without (a : ℕ) (l : List Req) :
    addrs (without a l) = (addrs l).filter (· ≠ a) := by
  simp only [addrs, filter_map]
  rfl

@[simp] theorem addrs_withMode (a mode : ℕ) (l : List Req) :
    addrs (withMode a mode l) = addrs l := by
  simp only [addrs, withMode, updateAt, map_map]
  refine map_congr_left fun r _ => ?_
  simp only [Function.comp]
  split <;> rfl

@[simp] theorem addrs_flagged (locker : ℕ) (l : List Req) : addrs (flagged locker l) = addrs l := by
  simp only [addrs, flagged, map_map]
  refine map_congr_left fun r _ => ?_
  simp only [Function.comp]
  split <;> rfl

/-- Replacing at an address that is not on the list. -/
theorem updateAt_of_not_mem (ha : a ∉ addrs l) : updateAt a u l = l := by
  refine (map_congr_left fun r hr => ?_).trans (map_id l)
  rw [if_neg]
  · rfl
  · rintro rfl
    exact ha (mem_addrs.mpr ⟨r, hr, rfl⟩)

/-- Replacing one request of a list without repetitions. -/
theorem updateAt_middle (hnodup : (addrs (l ++ w :: l')).Nodup) :
    updateAt w.addr u (l ++ w :: l') = l ++ u w :: l' := by
  rw [addrs, map_append, map_cons, nodup_middle, nodup_cons, mem_append, not_or] at hnodup
  have hl := updateAt_of_not_mem (u := u) hnodup.1.1
  have hl' := updateAt_of_not_mem (u := u) hnodup.1.2
  rw [updateAt] at hl hl' ⊢
  rw [map_append, map_cons, hl, hl', if_pos rfl]

/-- Removing one request of a list without repetitions. -/
theorem without_middle (hnodup : (addrs (l ++ w :: l')).Nodup) :
    without w.addr (l ++ w :: l') = l ++ l' := by
  rw [addrs, map_append, map_cons, nodup_middle, nodup_cons, ← map_append] at hnodup
  rw [without, filter_append, filter_cons, if_neg (by simp), ← filter_append, filter_eq_self]
  intro r hr
  have hne : r.addr ≠ w.addr := fun heq => hnodup.1 (heq ▸ mem_map_of_mem hr)
  simpa using hne

namespace ObjView

/-- The entries of an object. -/
def addresses (v : ObjView) : List ℕ := addrs v.granted ++ addrs v.waiting

variable {v : ObjView}

theorem mem_addresses : a ∈ v.addresses ↔ a ∈ addrs v.granted ∨ a ∈ addrs v.waiting := mem_append

/-- The entries that an operation takes off the object. -/
def freed (v : ObjView) : ObjOp → List ℕ
  | .leave addr | .release addr => [addr]
  | .drop locker => addrs (v.heldBy locker)
  | _ => []

/-- Promotion keeps the entries. -/
theorem mem_addresses_promoteList :
    a ∈ (promoteList m granted waiting).addresses ↔ a ∈ addrs granted ∨ a ∈ addrs waiting := by
  obtain ⟨taken, hwait, hgrant⟩ := promoteList_split granted waiting
  rw [mem_addresses, hgrant]
  conv_rhs => rw [hwait]
  simp only [addrs, map_append, map_reverse, mem_append, mem_reverse]
  tauto

/-- A release keeps the other entries. -/
theorem mem_addresses_release {b : ℕ} (ha : a ∈ v.addresses) (hab : a ≠ b) :
    a ∈ (v.release m b).addresses := by
  rw [release, mem_addresses_promoteList, addrs_without, mem_filter]
  rw [mem_addresses] at ha
  exact ha.imp_left fun hg => ⟨hg, by simpa using hab⟩

theorem mem_addresses_releaseEach {bs : List ℕ} (ha : a ∈ v.addresses) (hbs : a ∉ bs) :
    a ∈ (v.releaseEach m bs).addresses := by
  induction bs generalizing v with
  | nil => exact ha
  | cons b bs ih =>
    rw [mem_cons, not_or] at hbs
    exact ih (mem_addresses_release ha hbs.1) hbs.2

/-- An operation keeps the entries it does not free. -/
theorem mem_addresses_apply {op : ObjOp} (ha : a ∈ v.addresses) (hfreed : a ∉ v.freed op) :
    a ∈ (v.apply m op).addresses := by
  have hadd : a ∈ addrs v.granted ∨ a ∈ addrs v.waiting := mem_addresses.mp ha
  cases op with
  | raise addr mode =>
    rw [apply, mem_addresses]
    exact hadd.imp_left fun hg => by rwa [addrs_withMode]
  | grant r =>
    rw [apply, mem_addresses]
    exact hadd.imp_left (mem_cons_of_mem r.addr)
  | waitHead r =>
    rw [apply, mem_addresses]
    exact hadd.imp_right (mem_cons_of_mem r.addr)
  | waitTail r =>
    rw [apply, mem_addresses]
    exact hadd.imp_right fun hw => by
      rw [addrs, map_append]
      exact mem_append_left _ hw
  | leave addr =>
    rw [apply, mem_addresses, addrs_without, mem_filter]
    exact hadd.imp_right fun hw => ⟨hw, by simpa [freed] using hfreed⟩
  | release addr => exact mem_addresses_release ha (by simpa [freed] using hfreed)
  | lower addr mode =>
    rw [apply, mem_addresses_promoteList]
    exact hadd.imp_left fun hg => by rwa [addrs_withMode]
  | drop locker =>
    refine mem_addresses_releaseEach ?_ hfreed
    rw [mem_addresses, flag]
    refine hadd.imp_right fun hw => ?_
    rwa [addrs_flagged]

end ObjView

end LibXtc.LockMgr

import LibXtc.LockMgr.System
import LibXtc.LockMgr.Refinement

/-!
# Runs of the manager act on the lists

`Manager.view` reads the lists of an object off the pointers. `Sound` is the invariant of the
manager: the pointers represent the view, and every thread that waits does so on a live entry of
its own. A step that releases no granted entry whose waiter is still to run, and resumes no waiter
on an entry that is both granted and aborted, keeps the invariant, and changes each object by at
most one operation of `ObjView`.
-/

namespace LibXtc.LockMgr

open Foundations List

namespace Manager

/-- The lists of an object, as its pointers give them. -/
def view (s : Manager) (k : Key) : ObjView where
  granted := ((s.grantedList k).getD []).map s.req
  waiting := ((s.waitingList k).getD []).map s.req

/-- Some thread waits on the entry. -/
def pending (s : Manager) (a : ℕ) : Prop :=
  ∃ t ∈ range s.waits.size, ∃ w ∈ s.waits.get t, w.entry = a

instance (s : Manager) (a : ℕ) : Decidable (s.pending a) :=
  inferInstanceAs (Decidable (∃ t ∈ range s.waits.size, _))

end Manager

/-! ## The view is what is represented -/

theorem Manager.Stores.req_eq {s : Manager} {k : Key} {g : Bool} {r : Req} (h : s.Stores k g r) :
    s.req r.addr = r := by
  rw [req, h.locker, h.mode, h.aborted]

namespace Represents

variable {s : Manager} {A : Key → ObjView} {d : Option ℕ} {k : Key}

theorem grantedList_eq (h : Represents s A d) (k : Key) :
    s.grantedList k = some (addrs (A k).granted) :=
  (h.granted k).queue.path.walk_eq (h.length_le k true)

theorem waitingList_eq (h : Represents s A d) (k : Key) :
    s.waitingList k = some (addrs (A k).waiting) :=
  (h.waiting k).queue.path.walk_eq (h.length_le k false)

/-- Represented lists are the view. -/
theorem view_eq (h : Represents s A d) : s.view = A := by
  have hreq {l : List Req} {g : Bool} {k : Key} (hl : ∀ r ∈ l, s.Stores k g r) :
      (addrs l).map s.req = l := by
    rw [addrs, map_map]
    refine (map_congr_left fun r hr => ?_).trans (map_id l)
    exact (hl r hr).req_eq
  funext k
  rw [Manager.view, h.grantedList_eq, h.waitingList_eq]
  simp only [Option.getD_some]
  rw [hreq (h.stores_granted k), hreq (h.stores_waiting k)]

/-- The entry on no other list than the one it is on. -/
theorem live_iff (h : Represents s A none) (a : ℕ) :
    (s.entry a).live = true ↔ ∃ k, a ∈ addrs (A k).granted ∨ a ∈ addrs (A k).waiting := by
  constructor
  · exact fun ha => (h.live a ha).resolve_left (by simp)
  · rintro ⟨k, ha⟩
    obtain ⟨g, hg⟩ := exists_mem_side.mpr ha
    exact (h.of_mem hg).1

/-- The second granted entry of a locker is the second one it holds. -/
theorem findOlder_eq (h : Represents s A d) (k : Key) (locker : ℕ) :
    s.findOlder k locker = some (((A k).heldBy locker)[1]?.map (·.addr)) := by
  have hp : ∀ r ∈ (A k).granted,
      decide ((s.entry r.addr).locker = locker) = decide (r.locker = locker) :=
    fun r hr => by rw [(h.stores_granted k r hr).locker]
  rw [Manager.findOlder, h.findGranted_eq, Option.bind_some, ObjView.heldBy]
  cases hfind : (A k).granted.find? (·.locker = locker) with
  | none =>
    have hnil : (A k).granted.filter (·.locker = locker) = [] := by
      rw [find?_eq_none] at hfind
      exact filter_eq_nil_iff.mpr hfind
    simp [hnil, findFrom]
  | some r =>
    obtain ⟨hr, before, after, hsplit, hbefore⟩ := find?_eq_some_iff_append.mp hfind
    have haddrs : addrs (A k).granted = addrs before ++ r.addr :: addrs after := by
      simp [hsplit, addrs]
    have hpath := (h.granted k).queue.path
    rw [haddrs] at hpath
    have hlen : (addrs after).length ≤ s.fuel := by
      have hle : (addrs (A k).granted).length ≤ s.fuel := h.length_le k true
      rw [haddrs, length_append, length_cons] at hle
      omega
    have hfilter : (A k).granted.filter (·.locker = locker) =
        r :: after.filter (·.locker = locker) := by
      rw [hsplit, filter_append, filter_cons, if_pos hr,
        filter_eq_nil_iff.mpr fun x hx => by simpa using hbefore x hx, nil_append]
    simp only [Option.map_some, Option.bind_some]
    rw [hpath.of_append.findFrom_eq _ hlen, hfilter, getElem?_cons_succ, ← head?_eq_getElem?,
      head?_filter, addrs, find?_map]
    congr 2
    refine find?_congr fun x hx => hp x ?_
    rw [hsplit]
    exact mem_append_right _ (mem_cons_of_mem _ hx)

end Represents

/-! ## What a step does to the lists -/

/-- The operations that a critical section may perform, by the state in which it begins. Each
section performs at most one operation on each object. -/
inductive Performs (c : Config) (s : Manager) (A : Key → ObjView) : Act → Key → ObjOp → Prop
  | getRaise {t locker k mode timeout masked room slot} {r : Req} :
      Performs c s A (.get t locker k mode timeout masked room slot) k (.raise r.addr mode)
  | getGrant {t locker k mode timeout masked room a} :
      Performs c s A (.get t locker k mode timeout masked room (some a)) k
        (.grant ⟨a, locker, mode, false⟩)
  | getWait {t locker k mode timeout masked room a} {op : ObjOp} : c.accepts k mode → timeout ≠ 0 →
      op = .waitHead ⟨a, locker, mode, false⟩ ∨
        op = .waitTail ⟨a, locker, mode, false⟩ ∧ (A k).heldBy locker = [] →
      Performs c s A (.get t locker k mode timeout masked room (some a)) k op
  | put {locker k} {r : Req} : (A k).granted.find? (·.locker = locker) = some r →
      Performs c s A (.put locker k) k (.release r.addr)
  | part {locker i k} : k ∈ s.table c i → Performs c s A (.releasePart locker i) k (.drop locker)
  | upgradeRaise {t locker k mode now masked slot} {r : Req} :
      Performs c s A (.upgrade t locker k mode now masked slot) k (.raise r.addr mode)
  | upgradeWait {t locker k mode now masked a} {op : ObjOp} :
      blocked c.matrix (A k).granted locker mode = true →
      op = .waitHead ⟨a, locker, mode, false⟩ ∨ op = .waitTail ⟨a, locker, mode, false⟩ →
      Performs c s A (.upgrade t locker k mode now masked (some a)) k op
  | upgradeDrop {t locker k mode now masked slot} {newest older : Req} :
      ((A k).heldBy locker)[0]? = some newest → ((A k).heldBy locker)[1]? = some older →
      c.matrix.dominates newest.mode mode = true →
      Performs c s A (.upgrade t locker k mode now masked slot) k (.release older.addr)
  | downgrade {locker k mode} {r : Req} : (A k).granted.find? (·.locker = locker) = some r →
      c.matrix.dominates r.mode mode = true →
      Performs c s A (.downgrade locker k mode) k (.lower r.addr mode)
  | leave {t killed timedOut w} : s.waits.get t = some w →
      (s.waitOutcome w killed timedOut).isSome = true → (s.entry w.entry).granted = false →
      Performs c s A (.resume t killed timedOut) w.key (.leave w.entry)
  | killed {t killed timedOut w} : s.waits.get t = some w → (w.masked && killed) = true →
      (s.entry w.entry).granted = true →
      Performs c s A (.resume t killed timedOut) w.key (.release w.entry)
  | drop {t killed timedOut w} {older : Req} : s.waits.get t = some w →
      (s.waitOutcome w killed timedOut).isSome = true → (w.masked && killed) = false →
        (s.entry w.entry).granted = true → w.upgrade = true →
      ((A w.key).heldBy w.locker)[1]? = some older →
      Performs c s A (.resume t killed timedOut) w.key (.release older.addr)
  | victim {rand pick id k} : s.victimId c rand pick = some id → k ∈ s.keys →
      Performs c s A (.detectRound rand pick) k (.drop id)

/-- Each object is as it was, or has undergone one operation of the section. -/
def Changes (c : Config) (s : Manager) (A : Key → ObjView) (a : Act) (A' : Key → ObjView) : Prop :=
  ∀ k, A' k = A k ∨
    ∃ op, Performs c s A a k op ∧ (A k).Enabled c.matrix op ∧ A' k = (A k).apply c.matrix op

namespace Changes

variable {c : Config} {s : Manager} {A : Key → ObjView} {a : Act} {k : Key}

theorem refl : Changes c s A a A := fun _ => Or.inl rfl

theorem single {op : ObjOp} (hperf : Performs c s A a k op)
    (hen : (A k).Enabled c.matrix op) : Changes c s A a (applyAt c.matrix A k op) := by
  intro k'
  by_cases hk : k' = k
  · subst hk
    exact .inr ⟨op, hperf, hen, Function.update_self ..⟩
  · exact .inl (Function.update_of_ne hk ..)

/-- What a request may do does not depend on the state it begins in. -/
theorem of_get {s₁ : Manager} {A' : Key → ObjView} {t locker mode : ℕ} {timeout : ℤ}
    {masked room : Bool} {slot : Option ℕ}
    (h : Changes c s₁ A (.get t locker k mode timeout masked room slot) A') :
    Changes c s A (.get t locker k mode timeout masked room slot) A' := by
  intro k'
  refine (h k').imp_right ?_
  rintro ⟨op, hperf, hrest⟩
  refine ⟨op, ?_, hrest⟩
  cases hperf with
  | getRaise => exact .getRaise
  | getGrant => exact .getGrant
  | getWait hacc htimeout hop => exact .getWait hacc htimeout hop

end Changes

/-- The step releases no granted entry whose waiter has yet to run, and resumes no waiter, other
than a killed one, on an entry that is both granted and aborted. -/
def StepOk (c : Config) (s : Manager) : Act → Prop
  | .put locker k => ∀ r ∈ (s.view k).granted.find? (·.locker = locker), ¬s.pending r.addr
  | .releasePart locker i =>
    ∀ k ∈ s.table c i, ∀ r ∈ (s.view k).heldBy locker, ¬s.pending r.addr
  | .upgrade _ locker k mode _ _ _ =>
    ∀ newest ∈ ((s.view k).heldBy locker)[0]?, ∀ older ∈ ((s.view k).heldBy locker)[1]?,
      c.matrix.dominates newest.mode mode = true → ¬s.pending older.addr
  | .resume t killed _ =>
    ∀ w ∈ s.waits.get t, (w.masked && killed) = false → (s.entry w.entry).granted = true →
      (s.entry w.entry).aborted = false ∧
      (w.upgrade = true → ∀ older ∈ ((s.view w.key).heldBy w.locker)[1]?,
        older.addr ≠ w.entry → ¬s.pending older.addr)
  | .detectRound rand pick =>
    ∀ id ∈ s.victimId c rand pick, ∀ k ∈ s.keys, ∀ r ∈ (s.view k).heldBy id, ¬s.pending r.addr
  | _ => True

instance (c : Config) (s : Manager) (a : Act) : Decidable (StepOk c s a) := by
  cases a <;> unfold StepOk <;> infer_instance

/-! ## The threads -/

/-- Every waiting thread waits on a live entry of its own, entries have an identity, and a wait
that ended without a lock has left no entry. -/
structure Threads (s : Manager) : Prop where
  entry : ∀ t w, s.waits.get t = some w → (s.entry w.entry).live = true ∧
    (s.entry w.entry).serial = w.serial ∧ (s.entry w.entry).obj = w.key ∧
    (s.entry w.entry).locker = w.locker
  inj : ∀ t t' w w', s.waits.get t = some w → s.waits.get t' = some w' →
    w.entry = w'.entry → t = t'
  serial_lt : ∀ a, (s.entry a).live = true → (s.entry a).serial < s.serials
  serial_inj : ∀ a b, (s.entry a).live = true → (s.entry b).live = true →
    (s.entry a).serial = (s.entry b).serial → a = b
  finished_lt : ∀ p ∈ s.finished, p.1 < s.serials
  finished_gone : ∀ p ∈ s.finished, p.2 ≠ .ok → ∀ a, (s.entry a).live = true →
    (s.entry a).serial ≠ p.1

namespace Threads

variable {s s' : Manager} {t a locker : ℕ} {k : Key} {w : Wait}

section

variable (h : Threads s)
include h

/-- The invariant only reads the slab, the threads and the record of the waits. -/
theorem congr (hents : s'.ents = s.ents) (hwaits : s'.waits = s.waits)
    (hserials : s'.serials = s.serials) (hfin : s'.finished = s.finished) : Threads s' := by
  have hentry (a : ℕ) : s'.entry a = s.entry a := by rw [Manager.entry, Manager.entry, hents]
  constructor <;> simp only [hentry, hwaits, hserials, hfin]
  exacts [h.entry, h.inj, h.serial_lt, h.serial_inj, h.finished_lt, h.finished_gone]

/-- A section that allocates nothing and frees no entry of a waiter. -/
theorem of_quiet (hq : Quiet s s')
    (hlive : ∀ t w, s.waits.get t = some w → (s'.entry w.entry).live = true) : Threads s' where
  entry t w hw := by
    rw [hq.waits] at hw
    obtain ⟨-, hser, hobj, hlocker⟩ := h.entry t w hw
    exact ⟨hlive t w hw, (hq.serial _).trans hser, (hq.obj _).trans hobj,
      (hq.locker _).trans hlocker⟩
  inj := by
    rw [hq.waits]
    exact h.inj
  serial_lt a ha := by
    rw [hq.serial, hq.serials]
    exact h.serial_lt a (hq.live a ha)
  serial_inj a b ha hb heq := by
    rw [hq.serial, hq.serial] at heq
    exact h.serial_inj a b (hq.live a ha) (hq.live b hb) heq
  finished_lt := by
    rw [hq.finished, hq.serials]
    exact h.finished_lt
  finished_gone p hp hrc a ha := by
    rw [hq.finished] at hp
    rw [hq.serial]
    exact h.finished_gone p hp hrc a (hq.live a ha)

/-- A section that allocates an entry. -/
theorem of_alloc (ha : Allocates s s' a k locker)
    (hlive : ∀ t w, s.waits.get t = some w → (s'.entry w.entry).live = true) : Threads s' := by
  have hcases {b : ℕ} (hb : (s'.entry b).live = true) : (b = a ∧ (s'.entry b).serial = s.serials) ∨
        ((s.entry b).live = true ∧ (s'.entry b).serial = (s.entry b).serial) := by
    by_cases heq : b = a
    · exact .inl ⟨heq, heq ▸ ha.serial⟩
    · obtain ⟨hser, -, -, hl⟩ := ha.other b heq
      exact .inr ⟨hl hb, hser⟩
  have hne {t : ℕ} {w : Wait} (hw : s.waits.get t = some w) : w.entry ≠ a := by
    rintro rfl
    have hl := (h.entry t w hw).1
    rw [ha.fresh] at hl
    cases hl
  constructor
  · intro t w hw
    rw [ha.waits] at hw
    obtain ⟨-, hser, hobj, hlocker⟩ := h.entry t w hw
    obtain ⟨hserial', hobj', hlocker', -⟩ := ha.other w.entry (hne hw)
    exact ⟨hlive t w hw, hserial'.trans hser, hobj'.trans hobj, hlocker'.trans hlocker⟩
  · rw [ha.waits]
    exact h.inj
  · intro b hb
    rw [ha.serials]
    rcases hcases hb with ⟨-, hser⟩ | ⟨hl, hser⟩
    · omega
    · have := h.serial_lt b hl
      omega
  · intro b b' hb hb' heq
    rcases hcases hb with ⟨hba, hser⟩ | ⟨hl, hser⟩ <;>
      rcases hcases hb' with ⟨hba', hserial'⟩ | ⟨hl', hserial'⟩
    · rw [hba, hba']
    · have := h.serial_lt b' hl'
      omega
    · have := h.serial_lt b hl
      omega
    · exact h.serial_inj b b' hl hl' (by omega)
  · intro p hp
    rw [ha.finished] at hp
    have := h.finished_lt p hp
    rw [ha.serials]
    omega
  · intro p hp hrc b hb
    rw [ha.finished] at hp
    rcases hcases hb with ⟨-, hser⟩ | ⟨hl, hser⟩
    · have := h.finished_lt p hp
      omega
    · rw [hser]
      exact h.finished_gone p hp hrc b hl

/-- A thread begins to wait on an entry that no other thread waits on. -/
theorem of_wait (hlive : (s.entry w.entry).live = true)
    (hser : (s.entry w.entry).serial = w.serial) (hobj : (s.entry w.entry).obj = w.key)
    (hlocker : (s.entry w.entry).locker = w.locker)
    (hother : ∀ t w', s.waits.get t = some w' → w'.entry ≠ w.entry) :
    Threads { s with waits := s.waits.set t (some w) } := by
  have hget {t' : ℕ} {w' : Wait} (hw' : (s.waits.set t (some w)).get t' = some w') :
      (t' = t ∧ w' = w) ∨ s.waits.get t' = some w' := by
    rw [Heap.get_set] at hw'
    split at hw'
    · exact .inl ⟨‹_›, (Option.some.inj hw').symm⟩
    · exact .inr hw'
  refine { h with entry := ?_, inj := ?_ }
  · intro t' w' hw'
    rcases hget hw' with ⟨-, rfl⟩ | hw'
    · exact ⟨hlive, hser, hobj, hlocker⟩
    · exact h.entry t' w' hw'
  · intro t₁ t₂ w₁ w₂ h₁ h₂ heq
    rcases hget h₁ with ⟨rfl, rfl⟩ | g₁ <;> rcases hget h₂ with ⟨rfl, rfl⟩ | g₂
    · rfl
    · exact absurd heq.symm (hother t₂ w₂ g₂)
    · exact absurd heq (hother t₁ w₁ g₁)
    · exact h.inj t₁ t₂ w₁ w₂ g₁ g₂ heq

/-- A thread ends its wait. -/
theorem of_finish (hq : Quiet s s') (hw : s.waits.get t = some w)
    (hlive : ∀ t' w', t' ≠ t → s.waits.get t' = some w' → (s'.entry w'.entry).live = true)
    {rc : Rc} (hgone : rc ≠ .ok → (s'.entry w.entry).live = false) :
    Threads { s' with
      waits := s'.waits.set t none, finished := (w.serial, rc) :: s'.finished } := by
  have hget {t' : ℕ} {w' : Wait} (hw' : (s'.waits.set t none).get t' = some w') :
      t' ≠ t ∧ s.waits.get t' = some w' := by
    rw [Heap.get_set, hq.waits] at hw'
    split at hw'
    · cases hw'
    · exact ⟨‹_›, hw'⟩
  obtain ⟨hentlive, hser, -, -⟩ := h.entry t w hw
  constructor
  · intro t' w' hw'
    obtain ⟨hne, hw'⟩ := hget hw'
    obtain ⟨-, hserial', hobj', hlocker'⟩ := h.entry t' w' hw'
    exact ⟨hlive t' w' hne hw', (hq.serial _).trans hserial', (hq.obj _).trans hobj',
      (hq.locker _).trans hlocker'⟩
  · exact fun t₁ t₂ w₁ w₂ h₁ h₂ => h.inj t₁ t₂ w₁ w₂ (hget h₁).2 (hget h₂).2
  · intro b hb
    have := h.serial_lt b (hq.live b hb)
    have hs := hq.serial b
    have hn := hq.serials
    change (s'.entry b).serial < s'.serials
    omega
  · intro b b' hb hb' heq
    refine h.serial_inj b b' (hq.live b hb) (hq.live b' hb') ?_
    rw [← hq.serial, ← hq.serial]
    exact heq
  · intro p hp
    rw [hq.serials]
    rcases mem_cons.mp hp with rfl | hp
    · have := h.serial_lt w.entry hentlive
      omega
    · rw [hq.finished] at hp
      exact h.finished_lt p hp
  · intro p hp hrc b hb
    change (s'.entry b).serial ≠ p.1
    rw [hq.serial]
    rcases mem_cons.mp hp with rfl | hp
    · intro heq
      have hb' := h.serial_inj b w.entry (hq.live b hb) hentlive (heq.trans hser.symm)
      subst hb'
      change (s'.entry w.entry).live = true at hb
      rw [hgone hrc] at hb
      cases hb
    · rw [hq.finished] at hp
      exact h.finished_gone p hp hrc b (hq.live b hb)

end

end Threads

end LibXtc.LockMgr

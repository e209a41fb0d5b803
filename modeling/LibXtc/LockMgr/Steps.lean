import LibXtc.LockMgr.Simulation

/-!
# Every step keeps the manager sound

One lemma for each critical section: from a sound state, and under the condition `StepOk`, it
ends in a sound state and changes the lists by the operations it may perform.
-/

namespace LibXtc.LockMgr

open Foundations Manager Option List

/-- The invariant of the manager. -/
structure Sound (s : Manager) : Prop where
  represents : Represents s s.view none
  threads : Threads s
  keys : s.keys.Nodup

/-- What the sections establish: the lists after them, the threads, and the change. -/
structure Reaches (c : Config) (s : Manager) (a : Act) (s' : Manager) : Prop where
  sound : Sound s'
  changes : Changes c s s.view a s'.view
  detection : s'.detection = s.detection ∨ a.isDetect = true

variable {c : Config} {s s' : Manager} {a : Act} {A' : Key → ObjView} {t b : ℕ} {op : ObjOp}

theorem Reaches.of_represents (hrep : Represents s' A' none) (hth : Threads s')
    (hkeys : s'.keys.Nodup) (hch : Changes c s s.view a A')
    (hdet : s'.detection = s.detection ∨ a.isDetect = true) : Reaches c s a s' := by
  have hview := hrep.view_eq
  subst hview
  exact ⟨⟨hrep, hth, hkeys⟩, hch, hdet⟩

/-- What follows a section changes neither the slab nor the objects nor the threads. -/
theorem Reaches.same {t : Manager} (h : Reaches c s a t) (hents : s'.ents = t.ents)
    (hobjs : s'.objs = t.objs) (hwaits : s'.waits = t.waits) (hserials : s'.serials = t.serials)
    (hfin : s'.finished = t.finished)
    (hdet : s'.detection = t.detection ∨ a.isDetect = true) : Reaches c s a s' := by
  have hrep : Represents s' t.view none := by
    refine h.sound.represents.congr (fun b => ?_) fun k => ?_
    · rw [entry, entry, hents]
    · rw [objLookup, objLookup, hobjs]
  refine .of_represents hrep (h.sound.threads.congr hents hwaits hserials hfin) ?_ h.changes ?_
  · rw [Manager.keys, hobjs]
    exact h.sound.keys
  · exact hdet.elim (fun heq => h.detection.imp_left heq.trans) .inr

theorem Manager.pending_iff {s : Manager} {a : ℕ} :
    s.pending a ↔ ∃ t w, s.waits.get t = some w ∧ w.entry = a := by
  constructor
  · rintro ⟨t, -, w, hw, hentry⟩
    exact ⟨t, w, hw, hentry⟩
  · rintro ⟨t, w, hw, hentry⟩
    refine ⟨t, mem_range.mpr (Heap.lt_size_of_get_ne ?_), w, hw, hentry⟩
    rw [hw]
    simp

namespace Sound

variable {k : Key} {w : Wait} {locker mode : ℕ} {A : Key → ObjView} {slot : Option ℕ}
  {masked killed timedOut room : Bool} {timeout now : ℤ} {o : LockObj} {r : Req}

section

variable (h : Sound s)
include h

section

variable (hok : StepOk c s a)
include hok

/-- A section frees no entry of a thread other than the one that runs in it. -/
theorem not_mem_freed (hperf : Performs c s s.view a k op)
    (hw : s.waits.get t = some w) (hother : ∀ killed timedOut, a ≠ .resume t killed timedOut) :
    w.entry ∉ (s.view k).freed op := by
  have hpend {b : ℕ} (hb : w.entry = b) : s.pending b := pending_iff.mpr ⟨t, w, hw, hb⟩
  cases hperf with
  | getRaise | getGrant | upgradeRaise | downgrade => exact not_mem_nil
  | getWait _ _ hop =>
    rcases hop with rfl | ⟨rfl, -⟩
    · exact not_mem_nil
    · exact not_mem_nil
  | upgradeWait _ hop =>
    rcases hop with rfl | rfl
    · exact not_mem_nil
    · exact not_mem_nil
  | put hfind =>
    intro hmem
    exact hok _ hfind (hpend (mem_singleton.mp hmem))
  | part hk =>
    intro hmem
    obtain ⟨r, hr, hentry⟩ := mem_addrs.mp hmem
    exact hok _ hk r hr (hpend hentry.symm)
  | upgradeDrop hnewest holder hdom =>
    intro hmem
    exact hok _ hnewest _ holder hdom (hpend (mem_singleton.mp hmem))
  | leave hw' _ _ | killed hw' _ _ =>
    intro hmem
    have ht := h.threads.inj _ _ _ _ hw' hw (mem_singleton.mp hmem).symm
    subst ht
    exact hother _ _ rfl
  | drop hw' _ hkill hgrant hup holder =>
    intro hmem
    have hentry := mem_singleton.mp hmem
    refine (hok _ hw' hkill hgrant).2 hup _ holder ?_ (hpend hentry)
    intro heq
    have ht := h.threads.inj _ _ _ _ hw' hw (heq.symm.trans hentry.symm)
    subst ht
    exact hother _ _ rfl
  | victim hid hk =>
    intro hmem
    obtain ⟨r, hr, hentry⟩ := mem_addrs.mp hmem
    exact hok _ hid k hk r hr (hpend hentry.symm)

/-- The entry of a thread that does not run in the section stays live. -/
theorem live_of_changes (hrep : Represents s' A' none) (hch : Changes c s s.view a A')
    (hw : s.waits.get t = some w) (hother : ∀ killed timedOut, a ≠ .resume t killed timedOut) :
    (s'.entry w.entry).live = true := by
  obtain ⟨k, hk⟩ := (h.represents.live_iff _).mp (h.threads.entry t w hw).1
  refine (hrep.live_iff _).mpr ⟨k, ?_⟩
  rcases hch k with heq | ⟨op, hperf, -, heq⟩ <;> rw [heq]
  · exact hk
  · exact ObjView.mem_addresses.mp (ObjView.mem_addresses_apply (ObjView.mem_addresses.mpr hk)
      (h.not_mem_freed hok hperf hw hother))

variable (hrep : Represents s' A' none) (hch : Changes c s s.view a A')
  (hother : ∀ t killed timedOut, a ≠ .resume t killed timedOut)
include hrep hch hother

/-- A section that allocates nothing. -/
theorem of_quiet (hq : Quiet s s') : Reaches c s a s' :=
  .of_represents hrep (h.threads.of_quiet hq fun _ _ hw =>
    h.live_of_changes hok hrep hch hw (hother _)) (hq.keys.nodup h.keys) hch (.inl hq.detection)

/-- A section that allocates an entry. -/
theorem of_alloc (ha : Allocates s s' b k locker) : Reaches c s a s' :=
  .of_represents hrep (h.threads.of_alloc ha fun _ _ hw =>
    h.live_of_changes hok hrep hch hw (hother _)) (ha.keys.nodup h.keys) hch (.inl ha.detection)

/-- A section that allocates an entry and leaves its thread waiting on it. -/
theorem of_wait (ha : Allocates s s' b k locker) (hb : b ∈ addrs (A' k).waiting)
    (hentry : w.entry = b) (hser : w.serial = (s'.entry b).serial) (hkey : w.key = k)
    (hlocker : w.locker = locker) :
    Reaches c s a { s' with waits := s'.waits.set t (some w) } := by
  subst hentry
  have hreach := h.of_alloc hok hrep hch hother ha
  have hlive := (hrep.of_mem (g := false) hb).1
  refine .of_represents (hrep.congr (fun _ => rfl) fun _ => rfl) ?_ hreach.sound.keys hch
    (.inl ha.detection)
  refine hreach.sound.threads.of_wait hlive hser.symm (ha.obj.trans hkey.symm)
    (ha.locker.trans hlocker.symm) fun t' w' hw' heq => ?_
  -- the slab chose an address that no thread was waiting on
  rw [ha.waits] at hw'
  have hlive' := (h.threads.entry t' w' hw').1
  rw [heq, ha.fresh] at hlive'
  cases hlive'

end

/-- A section that changes nothing. -/
theorem of_self : Reaches c s a s := ⟨h, .refl, .inl rfl⟩

/-! ## Puts and releases -/

theorem lockPut (hok : StepOk c s (.put locker k)) :
    ∃ r, s.lockPut c locker k = some r ∧ Reaches c s (.put locker k) r.1 := by
  rw [Manager.lockPut, h.represents.findGranted_eq, bind_some]
  cases hfind : (s.view k).granted.find? (·.locker = locker) with
  | none => exact ⟨_, rfl, h.of_self⟩
  | some r =>
    have hr : r ∈ (s.view k).granted := mem_of_find?_eq_some hfind
    obtain ⟨t, ht, hq, -, hrep⟩ :=
      h.represents.releaseEntryLocked_spec (c := c) (mem_addrs.mpr ⟨r, hr, rfl⟩)
    refine ⟨(t, .ok), by simp [ht], h.of_quiet hok hrep ?_ (by simp) hq⟩
    exact Changes.single (.put hfind) ⟨r, hr, rfl⟩

/-- A locker is dropped from a set of objects. -/
theorem dropLockerOn (hok : StepOk c s a) {keys : List Key} (hkeys : keys.Nodup)
    (hperf : ∀ k ∈ keys, Performs c s s.view a k (.drop locker))
    (hother : ∀ t killed timedOut, a ≠ .resume t killed timedOut) :
    ∃ s', dropLockerOn c locker s keys = some s' ∧ Reaches c s a s' := by
  obtain ⟨t, ht, hq, hrep⟩ := h.represents.dropLockerOn_spec locker hkeys
  refine ⟨t, ht, h.of_quiet hok hrep (fun k => ?_) hother hq⟩
  split
  · rename_i hk
    exact .inr ⟨_, hperf k hk, trivial, rfl⟩
  · exact .inl rfl

theorem releasePart {i : ℕ} (hok : StepOk c s (.releasePart locker i)) :
    ∃ s', Manager.dropLockerOn c locker s (s.table c i) = some s' ∧
      Reaches c s (.releasePart locker i) s' :=
  h.dropLockerOn hok (h.keys.filter _) (fun _ hk => .part hk) (by simp)

theorem lockDowngrade : ∃ r, s.lockDowngrade c locker k mode = some r ∧
      Reaches c s (.downgrade locker k mode) r.1 := by
  unfold Manager.lockDowngrade
  split
  · exact ⟨_, rfl, h.of_self⟩
  · rw [h.represents.findGranted_eq, bind_some]
    cases hfind : (s.view k).granted.find? (·.locker = locker) with
    | none => exact ⟨_, rfl, h.of_self⟩
    | some r =>
      have hr : r ∈ (s.view k).granted := mem_of_find?_eq_some hfind
      have hmode := (h.represents.stores_granted k r hr).mode
      simp only [map_some, hmode]
      split
      · exact ⟨_, rfl, h.of_self⟩
      · rename_i hdom
        obtain ⟨hq, hrep⟩ := h.represents.lowerMode hr locker r.mode mode
        obtain ⟨t, ht, hq', hrep'⟩ := hrep.promote_spec k
        refine ⟨(t, .ok), by rw [ht]; rfl, h.of_quiet trivial hrep' ?_ (by simp) (hq.trans hq')⟩
        rw [Function.update_self, Function.update_idem]
        rw [Bool.not_eq_false] at hdom
        exact Changes.single (.downgrade hfind hdom) ⟨r, hr, rfl, hdom⟩

/-! ## Requests -/

/-- `__obj_get` keeps the lists. -/
theorem objGet (hget : s.objGet k room = some s') :
    Sound s' ∧ s'.view = s.view ∧ (∀ b, s'.entry b = s.entry b) ∧
      s'.detection = s.detection ∧ ∃ o, s'.objLookup k = some o := by
  unfold Manager.objGet at hget
  split at hget
  · rename_i o ho
    obtain rfl := some.inj hget
    exact ⟨h, rfl, fun _ => rfl, rfl, o, ho⟩
  · rename_i hnone
    split at hget
    · obtain rfl := some.inj hget
      set t : Manager := { s with
        objs := ⟨k, none, none, none⟩ :: s.objs
        stats := { s.stats with nObjects := s.stats.nObjects + 1 } } with ht
      have hlook (k' : Key) :
          t.objLookup k' = if k' = k then some ⟨k, none, none, none⟩ else s.objLookup k' := by
        rw [objLookup, ht, find?_cons]
        by_cases hk : k' = k
        · subst hk
          simp
        · have hk' : ¬k = k' := fun heq => hk heq.symm
          simp [hk, hk', objLookup]
      have hrep : Represents t s.view none := by
        refine h.represents.congr_heads (fun _ => rfl) fun k' f hf => ?_
        rw [hlook]
        split
        · rename_i heq
          rw [heq] at hf ⊢
          rw [hnone]
          exact hf
        · rfl
      have hview := hrep.view_eq
      refine ⟨⟨hview ▸ hrep, h.threads.congr rfl rfl rfl rfl, ?_⟩, hview, fun _ => rfl, rfl,
        ⟨k, none, none, none⟩, by rw [hlook, if_pos rfl]⟩
      refine nodup_cons.mpr ⟨fun hmem => ?_, h.keys⟩
      obtain ⟨o, ho, hkey⟩ := mem_map.mp hmem
      have hno := find?_eq_none.mp hnone o ho
      exact hno (by simpa using hkey)
    · cases hget

end

/-- A request that waits is on the queue. -/
theorem mem_waiting_of_wait (hop : op = .waitHead r ∨ op = .waitTail r) :
    r.addr ∈ addrs (applyAt c.matrix A k op k).waiting := by
  rcases hop with rfl | rfl <;> simp [applyAt, ObjView.apply]

/-- A request through `xtc_lock_get`, from the end of `__obj_get` on. -/
theorem acquire (h : Sound s) (ho : s.objLookup k = some o)
    (hslot : s.slotFree slot) (hacc : c.accepts k mode) (t locker : ℕ) (timeout : ℤ)
    (masked room : Bool) :
    ∃ r, (s.doAcquireLocked c k locker mode timeout slot).bind
        (settle c t k locker mode false masked (decide (0 ≤ timeout))) = some r ∧
      Reaches c s (.get t locker k mode timeout masked room slot) r.1 := by
  obtain ⟨s', r, heq, hspec⟩ :=
    h.represents.doAcquireLocked_spec ho hslot locker mode timeout
  have hok : StepOk c s (.get t locker k mode timeout masked room slot) := trivial
  rw [heq, bind_some]
  cases hspec with
  | same => exact ⟨_, rfl, h.of_self⟩
  | raise hfree hen hq hrep =>
    exact ⟨_, rfl, h.of_quiet hok hrep (.single .getRaise hen) (by simp) hq⟩
  | grant hslot' hen halloc hrep =>
    subst hslot'
    exact ⟨_, rfl, h.of_alloc hok hrep (.single .getGrant hen) (by simp) halloc⟩
  | wait hslot' htimeout hop hen halloc hrep =>
    subst hslot'
    refine ⟨_, rfl, h.of_wait hok hrep (.single (.getWait hacc htimeout hop) hen) (by simp)
      halloc ?_ rfl rfl rfl rfl⟩
    exact mem_waiting_of_wait (hop.imp_right And.left)

theorem lockGet (h : Sound s) (hslot : s.slotFree slot) :
    ∃ r, s.lockGet c t locker k mode timeout masked room slot = some r ∧
      Reaches c s (.get t locker k mode timeout masked room slot) r.1 := by
  unfold Manager.lockGet
  split
  · exact ⟨_, rfl, h.of_self⟩
  · rename_i hacc
    rw [not_not] at hacc
    cases hget : s.objGet k room with
    | none => exact ⟨_, rfl, h.of_self⟩
    | some s₁ =>
      obtain ⟨hsound, hview, hentry, hdet, o, ho⟩ := h.objGet hget
      have hslot₁ : s₁.slotFree slot := fun a ha => by rw [hentry]; exact hslot a ha
      obtain ⟨r, hr, hreach⟩ :=
        hsound.acquire ho hslot₁ hacc t locker timeout masked room
      refine ⟨r, hr, hreach.sound, ?_, .inl ?_⟩
      · rw [← hview]
        exact hreach.changes.of_get
      · exact (hreach.detection.resolve_right (by simp [Act.isDetect])).trans hdet

/-- The newest request of a locker is the first that it holds. -/
theorem heldBy_zero {v : ObjView} (hfind : v.granted.find? (·.locker = locker) = some r) :
    (v.heldBy locker)[0]? = some r := by
  rw [ObjView.heldBy, ← head?_eq_getElem?, head?_filter, hfind]

/-- The drop of the upgraded entry. -/
theorem dropOlder_spec (h : Represents s A none) (k : Key) (locker : ℕ) :
    ∃ s', s.dropOlder c k locker = some s' ∧ Quiet s s' ∧
      ((s' = s ∧ ((A k).heldBy locker)[1]? = none) ∨
        ∃ older, ((A k).heldBy locker)[1]? = some older ∧
          (A k).Enabled c.matrix (.release older.addr) ∧
          Represents s' (applyAt c.matrix A k (.release older.addr)) none) := by
  rw [dropOlder, h.findOlder_eq, bind_some]
  cases holder : ((A k).heldBy locker)[1]? with
  | none => exact ⟨s, rfl, Quiet.refl s, .inl ⟨rfl, rfl⟩⟩
  | some older =>
    have hmem : older ∈ (A k).granted := mem_of_mem_filter (mem_of_getElem? holder)
    obtain ⟨t, ht, hq, -, hrep⟩ :=
      h.releaseEntryLocked_spec (mem_addrs.mpr ⟨older, hmem, rfl⟩)
    exact ⟨t, ht, hq, .inr ⟨older, rfl, ⟨older, hmem, rfl⟩, hrep⟩⟩

/-- An upgrade that meets another holder. -/
theorem upgradeWait (h : Sound s) (ho : s.objLookup k = some o) (hslot : s.slotFree slot)
    (hok : StepOk c s (.upgrade t locker k mode now masked slot))
    (hblock : blocked c.matrix (s.view k).granted locker mode = true) :
    ∃ r, (s.doAcquireLocked c k locker mode timeout slot).bind
        (settle c t k locker mode true masked (decide (0 ≤ timeout))) = some r ∧
      Reaches c s (.upgrade t locker k mode now masked slot) r.1 := by
  obtain ⟨s', r, heq, hspec⟩ :=
    h.represents.doAcquireLocked_spec ho hslot locker mode timeout
  rw [heq, bind_some]
  cases hspec with
  | raise hfree => simp [hblock] at hfree
  | grant _ hfree => simp [ObjView.Enabled, hblock] at hfree
  | wait hslot' _ hop hen halloc hrep =>
    subst hslot'
    have hop' := hop.imp_right And.left
    exact ⟨_, rfl, h.of_wait hok hrep (.single (.upgradeWait hblock hop') hen) (by simp)
      halloc (mem_waiting_of_wait hop') rfl rfl rfl rfl⟩
  | same hdom =>
    rename_i rc
    by_cases hrc : rc = .ok
    · subst hrc
      obtain ⟨newest, hfind, hdom⟩ := hdom rfl
      obtain ⟨u, hu, hq, ⟨rfl, -⟩ | ⟨older, holder, hen, hrep⟩⟩ :=
        dropOlder_spec (c := c) h.represents k locker
      · exact ⟨(u, some .ok), by simp [settle, hu], h.of_self⟩
      · refine ⟨(u, some .ok), by simp [settle, hu], h.of_quiet hok hrep ?_ (by simp) hq⟩
        exact .single (.upgradeDrop (heldBy_zero hfind) holder hdom) hen
    · exact ⟨(s, some rc), by simp [settle, hrc], h.of_self⟩

theorem lockUpgrade (h : Sound s) (hslot : s.slotFree slot)
    (hok : StepOk c s (.upgrade t locker k mode now masked slot)) :
    ∃ r, s.lockUpgrade c t locker k mode now masked slot = some r ∧
      Reaches c s (.upgrade t locker k mode now masked slot) r.1 := by
  unfold Manager.lockUpgrade
  split
  · exact ⟨_, rfl, h.of_self⟩
  · rw [h.represents.findGranted_eq, bind_some]
    cases hfind : (s.view k).granted.find? (·.locker = locker) with
    | none => exact ⟨_, rfl, h.of_self⟩
    | some r =>
      have hr : r ∈ (s.view k).granted := mem_of_find?_eq_some hfind
      have hlocker : r.locker = locker := by simpa using find?_some hfind
      have hmode := (h.represents.stores_granted k r hr).mode
      simp only [map_some, hmode]
      split
      · exact ⟨_, rfl, h.of_self⟩
      · rename_i hvalid
        rw [not_or, Bool.not_eq_false] at hvalid
        rw [h.represents.hasConflictGranted_eq, bind_some]
        split
        · rename_i hblock
          obtain ⟨o, ho⟩ :=
            h.represents.objLookup_of_mem (g := true) (mem_addrs.mpr ⟨r, hr, rfl⟩)
          exact h.upgradeWait ho hslot hok hblock
        · rename_i hfree
          obtain ⟨hq, hrep⟩ := h.represents.changeMode hr locker r.mode mode
          refine ⟨_, rfl, h.of_quiet hok hrep (.single (.upgradeRaise) ?_) (by simp) hq⟩
          exact ⟨r, hr, rfl, hvalid.2, by rw [hlocker]; simpa using hfree⟩

/-! ## Waits -/

/-- Why a wait ends. -/
theorem waitOutcome_cases {rc : Rc} (hrc : s.waitOutcome w killed timedOut = some rc) :
    (rc = .aborted ∧ (w.masked && killed) = true) ∨ (w.masked && killed) = false ∧
        ((rc = .deadlk ∧ (s.entry w.entry).aborted = true) ∨
          (rc = .ok ∧ (s.entry w.entry).granted = true) ∨
          (rc = .again ∧ (s.entry w.entry).granted = false)) := by
  unfold waitOutcome at hrc
  split at hrc
  · rename_i hkill
    exact .inl ⟨(some.inj hrc).symm, hkill⟩
  · rename_i hkill
    refine .inr ⟨by simpa using hkill, ?_⟩
    split at hrc
    · rename_i habort
      exact .inl ⟨(some.inj hrc).symm, habort⟩
    · split at hrc
      · rename_i hgrant
        exact .inr (.inl ⟨(some.inj hrc).symm, hgrant⟩)
      · rename_i hgrant
        split at hrc
        · exact .inr (.inr ⟨(some.inj hrc).symm, by simpa using hgrant⟩)
        · cases hrc

/-- The entry of a waiting thread is on the list that its flag names. -/
theorem place (h : Sound s) (hw : s.waits.get t = some w) : w.entry ∈ addrs
      (if (s.entry w.entry).granted then (s.view w.key).granted else (s.view w.key).waiting) := by
  obtain ⟨hlive, -, hobj, -⟩ := h.threads.entry t w hw
  obtain ⟨k, hk⟩ := (h.represents.live_iff _).mp hlive
  obtain ⟨g, hg⟩ := exists_mem_side.mpr hk
  obtain ⟨-, hobj', hflag⟩ := h.represents.of_mem hg
  rw [hflag, ← hobj, hobj']
  cases g <;> exact hg

/-- A section that ends the wait of its thread. -/
theorem of_finish (h : Sound s) (hok : StepOk c s (.resume t killed timedOut))
    (hw : s.waits.get t = some w) (hq : Quiet s s') (hrep : Represents s' A' none)
    (hch : Changes c s s.view (.resume t killed timedOut) A') (rc : Rc)
    (hgone : rc ≠ .ok → (s'.entry w.entry).live = false) :
    Reaches c s (.resume t killed timedOut)
      { s' with waits := s'.waits.set t none, finished := (w.serial, rc) :: s'.finished } := by
  refine .of_represents (hrep.congr (fun _ => rfl) fun _ => rfl) ?_ (hq.keys.nodup h.keys) hch
    (.inl hq.detection)
  refine h.threads.of_finish hq hw (fun t' w' ht' hw' => ?_) hgone
  refine h.live_of_changes hok hrep hch hw' fun killed' timedOut' heq => ht' ?_
  injection heq with heq
  exact heq.symm

/-- The waiter leaves the queue. -/
theorem leaveQueue_spec (h : Represents s A none) (hw : w.entry ∈ addrs (A w.key).waiting) :
    Quiet s (s.leaveQueue w) ∧ ((s.leaveQueue w).entry w.entry).live = false ∧
      Represents (s.leaveQueue w) (applyAt c.matrix A w.key (.leave w.entry)) none := by
  have hunlink : Represents ((s.unlinkWaiting w.key w.entry).modStats fun t =>
      { t with nWaiting := t.nWaiting - 1 }) (applyAt c.matrix A w.key (.leave w.entry))
      (some w.entry) := (h.unlink (g := false) hw).congr (fun _ => rfl) fun _ => rfl
  have hfree := Quiet.objMaybeFree (((s.unlinkWaiting w.key w.entry).modStats fun t =>
      { t with nWaiting := t.nWaiting - 1 }).entryRelease w.entry) w.key
  refine ⟨?_, ?_, hunlink.entryRelease.objMaybeFree w.key⟩
  · refine Quiet.trans (Quiet.trans (Quiet.trans (Quiet.unlink s w.key w.entry false) ?_)
      (Quiet.entryRelease _ w.entry)) hfree
    exact Quiet.of_ents rfl rfl rfl rfl rfl (List.Sublist.refl _)
  · rw [← Bool.not_eq_true]
    intro hlive
    have hdead := hfree.live w.entry hlive
    simp [entryRelease] at hdead

theorem resume (h : Sound s) (hok : StepOk c s (.resume t killed timedOut))
    (hw : s.waits.get t = some w) :
    ∃ s', s.resume c t killed timedOut = some s' ∧ Reaches c s (.resume t killed timedOut) s' := by
  rw [Manager.resume, hw, bind_some]
  cases hrc : s.waitOutcome w killed timedOut with
  | none => exact ⟨s, rfl, h.of_self⟩
  | some rc =>
    have hcases := waitOutcome_cases hrc
    have hplace := h.place hw
    -- the counters of the wait change nothing else
    have hcnt (u : Manager) (hu : u = s.countTimeout rc ∨ u = (s.countTimeout rc).takeGrant w) :
        Quiet s u ∧ Represents u s.view none := by
      have hents : u.ents = s.ents ∧ u.objs = s.objs ∧ u.waits = s.waits ∧
          u.detection = s.detection ∧ u.serials = s.serials ∧ u.finished = s.finished := by
        rcases hu with rfl | rfl <;> unfold countTimeout <;> split <;>
          exact ⟨rfl, rfl, rfl, rfl, rfl, rfl⟩
      obtain ⟨hents, hobjs, hwaits, hdet, hserials, hfin⟩ := hents
      constructor
      · refine Quiet.of_ents hents hwaits hdet hserials hfin ?_
        rw [Manager.keys, hobjs]
        exact List.Sublist.refl _
      · refine h.represents.congr (fun b => ?_) fun k => ?_
        · rw [entry, entry, hents]
        · rw [objLookup, objLookup, hobjs]
    obtain ⟨hq, hrep⟩ := hcnt _ (.inl rfl)
    obtain ⟨hq', hrep'⟩ := hcnt _ (.inr rfl)
    have hflag : ((s.countTimeout rc).entry w.entry).granted = (s.entry w.entry).granted := by
      unfold countTimeout
      split <;> rfl
    cases hgrant : (s.entry w.entry).granted with
    | false =>
      -- no lock: the entry leaves the queue, whatever the reason
      rw [hgrant, if_neg (by simp)] at hplace
      obtain ⟨hql, hdead, hrepl⟩ := leaveQueue_spec hrep hplace
      refine ⟨_, ?_, h.of_finish hok hw (hq.trans hql) hrepl ?_ rc fun _ => hdead⟩
      · simp [finishWait, hflag, hgrant]
      · exact .single (.leave hw (by rw [hrc]; rfl) hgrant) (mem_addrs.mp hplace)
    | true =>
      rw [hgrant, if_pos rfl] at hplace
      rcases hcases with ⟨rfl, hkill⟩ | ⟨hkill, ⟨-, habort⟩ | ⟨rfl, -⟩ | ⟨-, hfree⟩⟩
      · obtain ⟨u, hu, hqu, hdead, hrepu⟩ := hrep'.releaseEntryLocked_spec (c := c) hplace
        refine ⟨_, ?_, h.of_finish hok hw (hq'.trans hqu) hrepu ?_ .aborted fun _ => hdead⟩
        · simp [finishWait, hflag, hgrant, hu]
        · exact .single (.killed hw hkill hgrant) (mem_addrs.mp hplace)
      · simp [(hok w hw hkill hgrant).1] at habort
      · by_cases hup : w.upgrade = true
        · obtain ⟨u, hu, hqu, hcase⟩ := dropOlder_spec (c := c) hrep' w.key w.locker
          rcases hcase with ⟨rfl, -⟩ | ⟨older, holder, hen, hrepu⟩
          · refine ⟨_, ?_, h.of_finish hok hw hq' hrep' .refl .ok (by simp)⟩
            simp [finishWait, hflag, hgrant, hu]
          · refine ⟨_, ?_, h.of_finish hok hw (hq'.trans hqu) hrepu ?_ .ok (by simp)⟩
            · simp [finishWait, hflag, hgrant, hup, hu]
            · exact .single (.drop hw (by rw [hrc]; rfl) hkill hgrant hup holder) hen
        · refine ⟨_, ?_, h.of_finish hok hw hq' hrep' .refl .ok (by simp)⟩
          simp [finishWait, hflag, hgrant, hup]
      · simp [hgrant] at hfree

/-! ## The detector -/

/-- The tables of the partitions hold distinct keys. -/
theorem nodup_tables (h : s.keys.Nodup) : ((range c.nParts).flatMap (s.table c)).Nodup := by
  rw [nodup_flatMap]
  refine ⟨fun i _ => h.filter _, nodup_range.imp fun {i j} hij => ?_⟩
  intro k hi hj
  have hki : c.part k = i := by simpa using (mem_filter.mp hi).2
  have hkj : c.part k = j := by simpa using (mem_filter.mp hj).2
  exact hij (hki.symm.trans hkj)

theorem round (h : Sound s) {d : Detection} (hd : s.detection = some d) {rand : ℕ → ℤ}
    {pick : Option (List ℕ → ℤ)} (hok : StepOk c s (.detectRound rand pick))
    (hstep : s.round c d rand pick = some s') : Reaches c s (.detectRound rand pick) s' := by
  unfold Manager.round at hstep
  split at hstep
  · obtain rfl := some.inj hstep
    exact h.of_self.same rfl rfl rfl rfl rfl (.inr rfl)
  · split at hstep
    · obtain rfl := some.inj hstep
      exact h.of_self.same rfl rfl rfl rfl rfl (.inr rfl)
    · rename_i v hv
      obtain ⟨node, hnode, hstep⟩ := bind_eq_some_iff.mp hstep
      have hid : s.victimId c rand pick = some node.id := by
        simp [victimId, hd, hv, hnode]
      have hkeys (k : Key) (hk : k ∈ (range c.nParts).flatMap (s.table c)) : k ∈ s.keys := by
        obtain ⟨i, -, hi⟩ := mem_flatMap.mp hk
        exact mem_of_mem_filter hi
      obtain ⟨t, ht, hreach⟩ := h.dropLockerOn hok (nodup_tables h.keys)
        (fun k hk => .victim hid (hkeys k hk)) (by simp)
      rw [abortVictim, ht, map_some] at hstep
      obtain rfl := some.inj hstep
      exact hreach.same rfl rfl rfl rfl rfl (.inr rfl)

/-- Every step that meets `StepOk` keeps the manager sound and performs the operations of its
section. -/
theorem step (h : Sound s) (hok : StepOk c s a) (hstep : s.step c a = some s') :
    Reaches c s a s' := by
  have hof {α : Type} {x : Option α} {f : α → Manager} (hx : x.map f = some s')
      (hreach : ∃ r, x = some r ∧ Reaches c s a (f r)) : Reaches c s a s' := by
    obtain ⟨r, hr, hreach⟩ := hreach
    rw [hr, map_some] at hx
    exact some.inj hx ▸ hreach
  cases a with
  | newLocker | setTimeout | markFailed =>
    obtain rfl := some.inj hstep
    exact h.of_self.same rfl rfl rfl rfl rfl (.inl rfl)
  | dropRecord id =>
    obtain rfl := some.inj hstep
    unfold lockerDrop
    split <;> exact h.of_self.same rfl rfl rfl rfl rfl (.inl rfl)
  | get t locker k mode timeout masked room slot =>
    obtain ⟨⟨-, -, hslot⟩, hstep⟩ := ite_none_right_eq_some.mp hstep
    exact hof hstep (h.lockGet hslot)
  | put locker k =>
    obtain ⟨-, hstep⟩ := ite_none_left_eq_some.mp hstep
    exact hof hstep (h.lockPut hok)
  | releasePart locker i =>
    obtain ⟨-, hstep⟩ := ite_none_right_eq_some.mp hstep
    obtain ⟨t, ht, hreach⟩ := h.releasePart hok
    exact some.inj (ht.symm.trans hstep) ▸ hreach
  | upgrade t locker k mode now masked slot =>
    obtain ⟨⟨-, -, hslot⟩, hstep⟩ := ite_none_right_eq_some.mp hstep
    exact hof hstep (h.lockUpgrade hslot hok)
  | downgrade locker k mode =>
    obtain ⟨-, hstep⟩ := ite_none_left_eq_some.mp hstep
    exact hof hstep h.lockDowngrade
  | resume t killed timedOut =>
    obtain ⟨-, hstep⟩ := ite_none_left_eq_some.mp hstep
    obtain ⟨w, hw, -⟩ := bind_eq_some_iff.mp hstep
    obtain ⟨u, hu, hreach⟩ := h.resume hok hw
    exact some.inj (hu.symm.trans hstep) ▸ hreach
  | detectBegin now =>
    obtain ⟨-, hstep⟩ := ite_none_right_eq_some.mp hstep
    obtain rfl := some.inj hstep
    exact h.of_self.same rfl rfl rfl rfl rfl (.inr rfl)
  | detectScan =>
    obtain ⟨d, -, hstep⟩ := bind_eq_some_iff.mp hstep
    obtain ⟨-, hstep⟩ := ite_none_right_eq_some.mp hstep
    obtain ⟨g, -, rfl⟩ := map_eq_some_iff.mp hstep
    exact h.of_self.same rfl rfl rfl rfl rfl (.inr rfl)
  | detectRound rand pick =>
    obtain ⟨d, hd, hstep⟩ := bind_eq_some_iff.mp hstep
    obtain ⟨-, hstep⟩ := ite_none_right_eq_some.mp hstep
    exact h.round hd hok hstep

/-- The pointers of a manager just created. -/
theorem represents_create : Represents create (fun _ => ObjView.empty) none :=
  ⟨fun _ => Linked.nil, fun _ => Linked.nil, fun _ => rfl, by simp [ObjView.empty],
    by simp [ObjView.empty], fun _ => nodup_nil, fun _ => nodup_nil,
    by simp [entry, create], by simp⟩

/-- The manager is created sound. -/
theorem create : Sound Manager.create := by
  refine ⟨represents_create.view_eq ▸ represents_create, ?_, nodup_nil⟩
  constructor <;> simp [entry, Manager.create]

end Sound

/-- The lists of a manager just created. -/
@[simp] theorem Manager.view_create (k : Key) : create.view k = ObjView.empty :=
  congrFun Sound.represents_create.view_eq k

/-- Every state of a run whose steps meet `StepOk` is sound. -/
theorem sound_of_reachable (h : (lockSystem c).ReachableUnder (StepOk c) s) : Sound s :=
  h.invariant (fun _ hinit => hinit ▸ Sound.create) fun _ _ _ hs hok ht =>
    (Sound.step hs hok ht).sound

end LibXtc.LockMgr

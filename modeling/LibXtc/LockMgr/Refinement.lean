import Mathlib.Data.List.Find
import LibXtc.LockMgr.Represents

/-!
# The critical sections act on the lists

For a manager whose pointers represent lists, each loop and each critical section of the source
ends, and changes the lists as the operations of `ObjView` say. `Quiet` collects what such a
section leaves alone.
-/

namespace LibXtc.LockMgr

open Foundations Manager List Function

/-- The threads, the detector and the identity of the entries are the same. -/
structure Quiet (s s' : Manager) : Prop where
  waits : s'.waits = s.waits
  detection : s'.detection = s.detection
  serials : s'.serials = s.serials
  finished : s'.finished = s.finished
  serial : ∀ a, (s'.entry a).serial = (s.entry a).serial
  obj : ∀ a, (s'.entry a).obj = (s.entry a).obj
  locker : ∀ a, (s'.entry a).locker = (s.entry a).locker
  live : ∀ a, (s'.entry a).live = true → (s.entry a).live = true
  keys : s'.keys.Sublist s.keys

namespace Quiet

variable {s t u : Manager} {k : Key} {a : ℕ} {f : LockObj → LockObj}

/-- A change outside the slab. -/
theorem of_ents {s s' : Manager} (hents : s'.ents = s.ents) (hwaits : s'.waits = s.waits)
    (hdet : s'.detection = s.detection) (hserials : s'.serials = s.serials)
    (hfin : s'.finished = s.finished) (hkeys : s'.keys.Sublist s.keys) : Quiet s s' := by
  have hentry (a : ℕ) : s'.entry a = s.entry a := by rw [entry, entry, hents]
  exact ⟨hwaits, hdet, hserials, hfin, fun a => by rw [hentry],
    fun a => by rw [hentry], fun a => by rw [hentry], fun a => by rw [hentry]; exact id, hkeys⟩

theorem refl (s : Manager) : Quiet s s := of_ents rfl rfl rfl rfl rfl (.refl _)

theorem trans (h : Quiet s t) (h' : Quiet t u) : Quiet s u where
  waits := h'.waits.trans h.waits
  detection := h'.detection.trans h.detection
  serials := h'.serials.trans h.serials
  finished := h'.finished.trans h.finished
  serial a := (h'.serial a).trans (h.serial a)
  obj a := (h'.obj a).trans (h.obj a)
  locker a := (h'.locker a).trans (h.locker a)
  live a ha := h.live a (h'.live a ha)
  keys := h'.keys.trans h.keys

section

variable (s)

/-- A store to the fields of an entry other than its identity. -/
theorem modEntry (a : ℕ) (f : LockEntry → LockEntry)
    (hf : ∀ e, (f e).serial = e.serial ∧ (f e).obj = e.obj ∧ (f e).locker = e.locker ∧
      ((f e).live = true → e.live = true)) : Quiet s (s.modEntry a f) := by
  have hentry (b : ℕ) : (s.modEntry a f).entry b = s.entry b ∨
      (s.modEntry a f).entry b = f (s.entry b) := by
    rw [entry_modEntry]
    split
    · rename_i heq
      exact .inr (by rw [heq])
    · exact .inl rfl
  refine ⟨rfl, rfl, rfl, rfl, fun b => ?_, fun b => ?_, fun b => ?_, fun b => ?_,
    List.Sublist.refl _⟩ <;> rcases hentry b with heq | heq <;> rw [heq]
  exacts [(hf _).1, (hf _).2.1, (hf _).2.2.1, id, (hf _).2.2.2]

theorem modObj (k : Key) (hf : ∀ o, (f o).key = o.key) : Quiet s (s.modObj k f) := by
  have hkeys : (s.modObj k f).keys = s.keys := by
    simp only [Manager.keys, Manager.modObj, map_map]
    refine map_congr_left fun o _ => ?_
    simp only [comp]
    split
    · exact hf o
    · rfl
  exact of_ents rfl rfl rfl rfl rfl (hkeys ▸ List.Sublist.refl _)

theorem linkNext (k : Key) (p v : Option ℕ) (hf : ∀ o, (f o).key = o.key) :
    Quiet s (s.linkNext k p v f) := by
  cases p with
  | none => exact modObj s k hf
  | some p => exact modEntry s p _ fun _ => ⟨rfl, rfl, rfl, id⟩

theorem linkPrev (k : Key) (n v : Option ℕ) (hf : ∀ o, (f o).key = o.key) :
    Quiet s (s.linkPrev k n v f) := by
  cases n with
  | none => exact modObj s k hf
  | some n => exact modEntry s n _ fun _ => ⟨rfl, rfl, rfl, id⟩

theorem unlink (k : Key) (a : ℕ) (g : Bool) : Quiet s (s.unlink k a g) := by
  cases g <;> refine (linkNext s k _ _ ?_).trans (linkPrev _ k _ _ ?_) <;> exact fun _ => rfl

theorem pushHead (k : Key) (a : ℕ) (g : Bool) : Quiet s (s.pushHead k a g) := by
  cases g <;> refine trans (trans (modEntry s a _ ?_) (linkPrev _ k _ _ ?_)) (modObj _ k ?_) <;>
    first | exact fun _ => ⟨rfl, rfl, rfl, id⟩ | exact fun _ => rfl

theorem moveToGranted (k : Key) (a : ℕ) : Quiet s (s.moveToGranted k a) := by
  refine trans (trans (unlink s k a false) ?_) (pushHead _ k a true)
  exact modEntry _ a _ fun _ => ⟨rfl, rfl, rfl, id⟩

theorem entryRelease (a : ℕ) : Quiet s (s.entryRelease a) :=
  modEntry s a _ fun _ => ⟨rfl, rfl, rfl, fun h => by cases h⟩

theorem objMaybeFree (k : Key) : Quiet s (s.objMaybeFree k) := by
  unfold Manager.objMaybeFree
  split
  · exact of_ents rfl rfl rfl rfl rfl (filter_sublist.map _)
  · exact refl s

theorem releaseUnlink (k : Key) (a : ℕ) : Quiet s (s.releaseUnlink k a) := by
  simp only [Manager.releaseUnlink]
  split
  · refine trans ?_ (unlink _ k a true)
    exact of_ents rfl rfl rfl rfl rfl (.refl _)
  · refine trans ?_ (unlink _ k a false)
    exact of_ents rfl rfl rfl rfl rfl (.refl _)

end

end Quiet

namespace Represents

variable {c : Config} {s : Manager} {A : Key → ObjView} {d : Option ℕ} {k : Key} {a : ℕ}

section

variable (h : Represents s A d)
include h

/-- A search of the granted list by a test of its requests. -/
theorem findFrom_granted {p : ℕ → Bool} {q : Req → Bool}
    (hpq : ∀ r ∈ (A k).granted, p r.addr = q r) :
    findFrom (fun a => (s.entry a).next) p s.fuel (s.grantedHead k) =
      some (((A k).granted.find? q).map (·.addr)) := by
  rw [(h.granted k).queue.path.findFrom_eq p (h.length_le k true), addrs, find?_map]
  congr 2
  exact find?_congr fun r hr => hpq r hr

/-- `__find_granted` finds the newest granted request of the locker. -/
theorem findGranted_eq (k : Key) (locker : ℕ) : s.findGranted k locker =
      some (((A k).granted.find? (·.locker = locker)).map (·.addr)) :=
  h.findFrom_granted fun r hr => by rw [(h.stores_granted k r hr).locker]

/-- `__has_conflict_granted` decides whether the request is blocked. -/
theorem hasConflictGranted_eq (k : Key) (locker mode : ℕ) : s.hasConflictGranted c k locker mode =
      some (blocked c.matrix (A k).granted locker mode) := by
  rw [hasConflictGranted, h.findFrom_granted (q := fun g =>
    decide (g.locker ≠ locker ∧ c.matrix.conflicts g.mode mode = true))]
  · rw [Option.map_some, Option.isSome_map, blocked]
    congr 1
    rw [Bool.eq_iff_iff]
    simp
  · intro r hr
    rw [(h.stores_granted k r hr).locker, (h.stores_granted k r hr).mode]

/-- An object may be dropped when both its lists are empty. -/
theorem objMaybeFree (k : Key) : Represents (s.objMaybeFree k) A d := by
  unfold Manager.objMaybeFree
  split
  · rename_i hnone
    have hlook (k' : Key) : (s.objs.filter (·.key ≠ k)).find? (·.key = k') =
        if k' = k then none else s.objLookup k' := by
      rw [objLookup, find?_filter]
      split
      · rename_i heq
        subst heq
        simp
      · rename_i hne
        congr 1
        funext o
        by_cases ho : o.key = k'
        · simp [ho, hne]
        · simp [ho]
    refine h.congr_heads (fun _ => rfl) fun k' f hf => ?_
    change ((s.objs.filter (·.key ≠ k)).find? (·.key = k')).bind f = _
    rw [hlook]
    split
    · rename_i heq
      subst heq
      cases ho : s.objLookup k' with
      | none => rfl
      | some o =>
        have htail := h.tail k'
        rw [head?_eq_none_iff.mp ((h.waiting k').head_eq_head?.symm.trans hnone.2)] at htail
        have hkey : o.key = k' := by simpa using find?_some ho
        rcases o with ⟨_, _, _, _⟩
        rw [grantedHead, waitingHead, ho] at hnone
        rw [waitingTail, ho] at htail
        obtain ⟨⟨⟩, ⟨⟩⟩ := hnone
        cases htail
        cases hkey
        exact hf.symm
    · rfl
  · exact h

end

section

variable (h : Represents s A none) {rest : List Req} {w : Req}
include h

/-- A waiter moves to the granted list. -/
theorem moveToGranted (hw : (A k).waiting = w :: rest) : Represents (s.moveToGranted k w.addr)
      (Function.update A k ⟨w :: (A k).granted, rest⟩) none := by
  have hmem : w ∈ (A k).waiting := by simp [hw]
  have haddr : w.addr ∈ addrs (A k).waiting := mem_addrs.mpr ⟨w, hmem, rfl⟩
  have hst := h.stores_waiting k w hmem
  have hprev := h.prev_ne_self (g := false) haddr
  have hent := s.entry_unlink k w.addr w.addr false hprev
  obtain ⟨o, ho⟩ := h.objLookup_of_mem (g := false) haddr
  obtain ⟨o', hlook⟩ : ∃ o', (s.unlink k w.addr false).objLookup k = some o' := by
    by_cases hp : (s.entry w.addr).prev = none <;> by_cases hn : (s.entry w.addr).next = none <;>
      simp [Manager.unlink, unlinkWaiting, objLookup_linkPrev, objLookup_linkNext, entry_linkNext,
        ho, hp, hn, hprev]
  have hrest : without w.addr ((A k).side false) = rest := by
    have hnodup := h.nodup_waiting k
    change without w.addr (A k).waiting = rest
    rw [hw, addrs, map_cons, nodup_cons] at hnodup
    rw [hw, without, filter_cons, if_neg (by simp), filter_eq_self]
    intro r hr
    have hne : r.addr ≠ w.addr := fun heq => hnodup.1 (heq ▸ mem_map_of_mem hr)
    simpa using hne
  have hdet := (h.unlink (g := false) haddr).modDetached
    (f := fun e => { e with prev := none, granted := true }) (by rw [hent]; exact hst.live)
  have hpush := hdet.pushHead (g := true) hlook ?_ ?_ fun _ => ?_
  · have hreq : ((s.unlink k w.addr false).modEntry w.addr fun e =>
        { e with prev := none, granted := true }).req w.addr = w := by
      simp only [req, entry_modEntry, if_true, hent, hst.locker, hst.mode, hst.aborted]
    rw [hreq, update_self, update_idem, hrest] at hpush
    exact hpush
  all_goals rw [entry_modEntry, if_pos rfl, hent]
  exact hst.obj

/-- One turn of the promotion loop. -/
theorem promoteOne_spec (hw : (A k).waiting = w :: rest) :
    promoteOne c k w.addr s = if blocked c.matrix (A k).granted w.locker w.mode then some (s, false)
      else some (s.moveToGranted k w.addr, true) := by
  have hst := h.stores_waiting k w (by simp [hw])
  rw [promoteOne, hst.locker, hst.mode, h.hasConflictGranted_eq, Option.map_some]
  split <;> rfl

/-- The promotion loop ends, and promotes the waiters of the object. -/
theorem promote_spec (k : Key) : ∃ s', s.promote c k = some s' ∧ Quiet s s' ∧
      Represents s' (Function.update A k (promoteList c.matrix (A k).granted (A k).waiting))
        none := by
  -- the loop is about to visit the waiters that are left
  let I (l : List ℕ) (s' : Manager) : Prop := ∃ v : ObjView, l = addrs v.waiting ∧ Quiet s s' ∧
    Represents s' (Function.update A k v) none ∧
    promoteList c.matrix v.granted v.waiting = promoteList c.matrix (A k).granted (A k).waiting
  have hI : I (addrs (A k).waiting) s :=
    ⟨A k, rfl, Quiet.refl s, by rwa [update_eq_self], rfl⟩
  rw [promote, (h.waiting k).head_eq_head?]
  refine loopFrom_spec ?_ ?_ ?_ hI (h.length_le k false)
  · rintro a l s' ⟨v, hl, -, hrep, -⟩
    have hlink := hrep.waiting k
    rw [update_self, ← hl] at hlink
    exact hlink.next_eq_head? []
  · rintro a l s' ⟨v, hl, hquiet, hrep, htarget⟩
    cases hv : v.waiting with
    | nil => simp [hv, addrs] at hl
    | cons w rest =>
      rw [hv] at hl htarget
      obtain ⟨rfl, rfl⟩ : a = w.addr ∧ l = addrs rest := by simpa [addrs] using hl
      have hwait : (Function.update A k v k).waiting = w :: rest := by
        rw [update_self, hv]
      have hgr : (Function.update A k v k).granted = v.granted := by rw [update_self]
      rw [hrep.promoteOne_spec hwait, hgr]
      rw [promoteList] at htarget
      split
      · rename_i hblock
        rw [if_pos hblock] at htarget
        refine ⟨s', false, rfl, hquiet, ?_⟩
        rw [← htarget, ← hv]
        exact hrep
      · rename_i hfree
        rw [if_neg hfree] at htarget
        have hmove := hrep.moveToGranted hwait
        rw [update_idem, hgr] at hmove
        exact ⟨_, true, rfl, ⟨w :: v.granted, rest⟩, rfl, hquiet.trans (Quiet.moveToGranted ..),
          hmove, htarget⟩
  · rintro s' ⟨v, hl, hquiet, hrep, htarget⟩
    have hv : v.waiting = [] := by simpa [addrs] using hl.symm
    refine ⟨hquiet, ?_⟩
    rw [hv, promoteList] at htarget
    rw [← htarget, ← hv]
    exact hrep

/-- The first half of a release takes the entry off the granted list. -/
theorem releaseUnlink (ha : a ∈ addrs (A k).granted) : Represents (s.releaseUnlink k a)
      (Function.update A k ⟨without a (A k).granted, (A k).waiting⟩) (some a) := by
  have hflag : (s.entry a).granted = true := (h.of_mem (g := true) ha).2.2
  simp only [Manager.releaseUnlink, if_pos hflag]
  have hcnt : Represents ((s.modStats fun t =>
      { t with nHeld := t.nHeld - 1, nReleases := t.nReleases + 1 }).countLocker
        (s.entry a).locker (s.entry a).mode (-1)) A none :=
    h.congr (fun _ => rfl) fun _ => rfl
  exact hcnt.unlink (g := true) ha

/-- `__release_entry_locked` releases a granted request and promotes. -/
theorem releaseEntryLocked_spec (ha : a ∈ addrs (A k).granted) :
    ∃ s', s.releaseEntryLocked c k a = some s' ∧ Quiet s s' ∧ (s'.entry a).live = false ∧
      Represents s' (Function.update A k ((A k).release c.matrix a)) none := by
  have hfree := (h.releaseUnlink ha).entryRelease
  obtain ⟨t, ht, hquiet, hrep⟩ := hfree.promote_spec k
  have hquiet' := hquiet.trans (Quiet.objMaybeFree t k)
  refine ⟨t.objMaybeFree k, by rw [releaseEntryLocked, ht, Option.map_some], ?_, ?_, ?_⟩
  · exact ((Quiet.releaseUnlink s k a).trans (Quiet.entryRelease ..)).trans hquiet'
  · rw [← Bool.not_eq_true]
    intro hlive
    have hdead := hquiet'.live a hlive
    simp [Manager.entryRelease] at hdead
  · rw [update_self, update_idem] at hrep
    exact hrep.objMaybeFree k

/-- Flagging the waiters of a locker. -/
theorem flagWaiters_spec (locker : ℕ) (k : Key) :
    ∃ s', s.flagWaiters locker k = some s' ∧ Quiet s s' ∧
      Represents s' (Function.update A k ((A k).flag locker)) none := by
  -- the waiters before `rest` are flagged, those of `rest` are still to be visited
  let I (l : List ℕ) (s' : Manager) : Prop := ∃ seen rest : List Req, l = addrs rest ∧
    (A k).waiting = seen ++ rest ∧ Quiet s s' ∧
    Represents s' (Function.update A k ⟨(A k).granted, flagged locker seen ++ rest⟩) none
  have hI : I (addrs (A k).waiting) s := by
    refine ⟨[], (A k).waiting, rfl, rfl, Quiet.refl s, ?_⟩
    rwa [flagged, map_nil, nil_append, update_eq_self]
  rw [flagWaiters, (h.waiting k).head_eq_head?]
  refine loopFrom_spec ?_ ?_ ?_ hI (h.length_le k false)
  · rintro a l s' ⟨seen, rest, hl, -, -, hrep⟩
    have hlink := hrep.waiting k
    rw [update_self, addrs_append, ← hl] at hlink
    exact hlink.next_eq_head? _
  · rintro a l s' ⟨seen, rest, hl, hsplit, hquiet, hrep⟩
    cases rest with
    | nil => simp [addrs] at hl
    | cons w rest =>
      obtain ⟨rfl, rfl⟩ : a = w.addr ∧ l = addrs rest := by simpa [addrs] using hl
      refine ⟨_, true, rfl, seen ++ [w], rest, rfl, by simp [hsplit], ?_, ?_⟩
      · split
        · exact hquiet.trans (Quiet.modEntry _ _ _ fun _ => ⟨rfl, rfl, rfl, id⟩)
        · exact hquiet
      · have hwait : (Function.update A k
            ⟨(A k).granted, flagged locker seen ++ w :: rest⟩ k).waiting =
            flagged locker seen ++ w :: rest := by rw [update_self]
        have hst := hrep.stores_waiting k w (by simp)
        have hflag : flagged locker (seen ++ [w]) ++ rest = flagged locker seen ++
            (if w.locker = locker then { w with aborted := true } else w) :: rest := by
          simp [flagged]
        rw [hflag, hst.locker]
        split
        · have hset := hrep.setAborted (mem_addrs.mpr ⟨w, by simp, rfl⟩ : w.addr ∈ addrs
            (Function.update A k ⟨(A k).granted, flagged locker seen ++ w :: rest⟩ k).waiting)
          have hnodup := hrep.nodup_waiting k
          rw [hwait] at hset hnodup
          rw [updateAt_middle hnodup] at hset
          rwa [update_self, update_idem] at hset
        · exact hrep
  · rintro s' ⟨seen, rest, hl, hsplit, hquiet, hrep⟩
    have hnil : rest = [] := by simpa [addrs] using hl.symm
    refine ⟨hquiet, ?_⟩
    rw [hnil, append_nil] at hsplit hrep
    rwa [ObjView.flag, hsplit]

/-- Releasing what a locker holds on an object, from the newest entry on. -/
theorem releaseGranted_spec (locker : ℕ) (k : Key) :
    ∃ s', s.releaseGranted c locker k = some s' ∧ Quiet s s' ∧ Represents s' (Function.update A k
        ((A k).releaseEach c.matrix (addrs ((A k).heldBy locker)))) none := by
  -- the holders of `rest` are still to be visited; promoted waiters are pushed before them
  let I (l : List ℕ) (s' : Manager) : Prop := ∃ (v : ObjView) (before rest : List Req),
    l = addrs rest ∧ v.granted = before ++ rest ∧ Quiet s s' ∧
    Represents s' (Function.update A k v) none ∧
    v.releaseEach c.matrix (addrs (rest.filter (·.locker = locker))) =
      (A k).releaseEach c.matrix (addrs ((A k).heldBy locker))
  have hI : I (addrs (A k).granted) s :=
    ⟨A k, [], (A k).granted, rfl, rfl, Quiet.refl s, by rwa [update_eq_self], rfl⟩
  rw [releaseGranted, (h.granted k).head_eq_head?]
  refine loopFrom_spec ?_ ?_ ?_ hI (h.length_le k true)
  · rintro a l s' ⟨v, before, rest, hl, hv, -, hrep, -⟩
    have hlink := hrep.granted k
    rw [update_self, hv, addrs_append, ← hl] at hlink
    exact hlink.next_eq_head? _
  · rintro a l s' ⟨v, before, rest, hl, hv, hquiet, hrep, htarget⟩
    cases rest with
    | nil => simp [addrs] at hl
    | cons r rest =>
      obtain ⟨rfl, rfl⟩ : a = r.addr ∧ l = addrs rest := by simpa [addrs] using hl
      have hmem : r ∈ (Function.update A k v k).granted := by simp [hv]
      have hst := hrep.stores_granted k r hmem
      rw [hst.locker]
      by_cases hlocker : r.locker = locker
      · obtain ⟨t, ht, hquiet', -, hrep'⟩ :=
          hrep.releaseEntryLocked_spec (mem_addrs.mpr ⟨r, hmem, rfl⟩)
        rw [update_self, update_idem] at hrep'
        rw [if_pos hlocker, ht]
        have hnodup := hrep.nodup_granted k
        rw [update_self, hv] at hnodup
        obtain ⟨taken, -, htaken⟩ :=
          promoteList_split (without r.addr v.granted) v.waiting
        refine ⟨t, true, rfl, v.release c.matrix r.addr, taken.reverse ++ before, rest, rfl, ?_,
          hquiet.trans hquiet', hrep', ?_⟩
        · rw [ObjView.release, htaken, hv, without_middle hnodup, append_assoc]
        · rw [← htarget, filter_cons, if_pos (by simpa using hlocker)]
          rfl
      · rw [if_neg hlocker]
        refine ⟨s', true, rfl, v, before ++ [r], rest, rfl, by simp [hv], hquiet, hrep, ?_⟩
        rw [← htarget, filter_cons, if_neg (by simpa using hlocker)]
  · rintro s' ⟨v, before, rest, hl, -, hquiet, hrep, htarget⟩
    have hnil : rest = [] := by simpa [addrs] using hl.symm
    refine ⟨hquiet, ?_⟩
    rw [hnil] at htarget
    rw [← htarget]
    exact hrep

/-- Flagging the waiters of a locker and releasing what it holds. -/
theorem dropLocker_spec (locker : ℕ) (k : Key) :
    ∃ s', s.dropLocker c locker k = some s' ∧ Quiet s s' ∧
      Represents s' (Function.update A k ((A k).apply c.matrix (.drop locker))) none := by
  obtain ⟨t, ht, hquiet, hrep⟩ := h.flagWaiters_spec locker k
  obtain ⟨u, hu, hquiet', hrep'⟩ := hrep.releaseGranted_spec locker k
  refine ⟨u, by rw [dropLocker, ht, Option.bind_some, hu], hquiet.trans hquiet', ?_⟩
  rwa [update_self, update_idem] at hrep'

/-- The objects of a table, one after the other. -/
theorem dropLockerOn_spec (locker : ℕ) {keys : List Key} (hkeys : keys.Nodup) :
    ∃ s', dropLockerOn c locker s keys = some s' ∧ Quiet s s' ∧
      Represents s' (fun k => if k ∈ keys then (A k).apply c.matrix (.drop locker) else A k)
        none := by
  induction keys generalizing s A with
  | nil => exact ⟨s, rfl, Quiet.refl s, by simpa using h⟩
  | cons k keys ih =>
    obtain ⟨hk, hkeys⟩ := nodup_cons.mp hkeys
    obtain ⟨t, ht, hq, hrep⟩ := h.dropLocker_spec locker k
    obtain ⟨u, hu, hq', hrep'⟩ := ih hrep hkeys
    refine ⟨u, by rw [dropLockerOn, ht, Option.bind_some, hu], hq.trans hq', ?_⟩
    convert hrep' using 1
    funext k'
    by_cases heq : k' = k
    · subst heq
      simp [hk]
    · simp [heq]

end

end Represents

/-! ## Requests -/

/-- The effect of an operation on one object of the table. -/
def applyAt (m : ConflictMatrix) (A : Key → ObjView) (k : Key) (op : ObjOp) : Key → ObjView :=
  Function.update A k ((A k).apply m op)

/-- A section that allocates the entry at `a` for a request of `locker` on `k`. -/
structure Allocates (s s' : Manager) (a : ℕ) (k : Key) (locker : ℕ) : Prop where
  waits : s'.waits = s.waits
  detection : s'.detection = s.detection
  finished : s'.finished = s.finished
  serials : s'.serials = s.serials + 1
  fresh : (s.entry a).live = false
  serial : (s'.entry a).serial = s.serials
  obj : (s'.entry a).obj = k
  locker : (s'.entry a).locker = locker
  other : ∀ b, b ≠ a → (s'.entry b).serial = (s.entry b).serial ∧
    (s'.entry b).obj = (s.entry b).obj ∧ (s'.entry b).locker = (s.entry b).locker ∧
    ((s'.entry b).live = true → (s.entry b).live = true)
  keys : s'.keys.Sublist s.keys

namespace Allocates

variable {s t u : Manager} {a locker : ℕ} {k : Key}

theorem entryAlloc (hfree : (s.entry a).live = false) (mode : ℕ) (granted : Bool) :
    Allocates s (s.entryAlloc a k locker mode granted) a k locker := by
  have hself : (s.entryAlloc a k locker mode granted).entry a = { (default : LockEntry) with
        locker := locker, mode := mode, granted := granted, obj := k
        live := true, serial := s.serials } := Heap.get_set_self ..
  have hother (b : ℕ) (hb : b ≠ a) :
      (s.entryAlloc a k locker mode granted).entry b = s.entry b := Heap.get_set_of_ne _ hb _
  refine ⟨rfl, rfl, rfl, rfl, hfree, ?_, ?_, ?_, fun b hb => ?_, List.Sublist.refl _⟩
  · rw [hself]
  · rw [hself]
  · rw [hself]
  · rw [hother b hb]
    exact ⟨rfl, rfl, rfl, id⟩

theorem trans_quiet (h : Allocates s t a k locker) (h' : Quiet t u) : Allocates s u a k locker where
  waits := h'.waits.trans h.waits
  detection := h'.detection.trans h.detection
  finished := h'.finished.trans h.finished
  serials := h'.serials.trans h.serials
  fresh := h.fresh
  serial := (h'.serial a).trans h.serial
  obj := (h'.obj a).trans h.obj
  locker := (h'.locker a).trans h.locker
  other b hb := ⟨(h'.serial b).trans (h.other b hb).1, (h'.obj b).trans (h.other b hb).2.1,
    (h'.locker b).trans (h.other b hb).2.2.1, fun hl => (h.other b hb).2.2.2 (h'.live b hl)⟩
  keys := h'.keys.trans h.keys

end Allocates

theorem Quiet.pushWaitingTail (s : Manager) (k : Key) (a : ℕ) :
    Quiet s (s.pushWaitingTail k a) := by
  refine Quiet.trans (Quiet.trans (modEntry s a _ ?_) (linkNext _ k _ _ ?_)) (modObj _ k ?_)
  exacts [fun _ => ⟨rfl, rfl, rfl, id⟩, fun _ => rfl, fun _ => rfl]

namespace Represents

variable {c : Config} {s : Manager} {A : Key → ObjView} {k : Key} {a locker mode : ℕ} {flag : Bool}

theorem entry_alloc : (s.entryAlloc a k locker mode flag).entry a = { (default : LockEntry) with
      locker := locker, mode := mode, granted := flag, obj := k
      live := true, serial := s.serials } := Heap.get_set_self ..

theorem req_alloc : (s.entryAlloc a k locker mode flag).req a = ⟨a, locker, mode, false⟩ := by
  rw [req, entry_alloc]
  rfl

section

variable (h : Represents s A none)
include h

variable {o : LockObj} {r : Req}

/-- A fresh grant. -/
theorem grantNew (ho : s.objLookup k = some o) (hfree : (s.entry a).live = false)
    (locker mode : ℕ) :
    Allocates s (s.grantNew k locker mode a) a k locker ∧ Represents (s.grantNew k locker mode a)
        (applyAt c.matrix A k (.grant ⟨a, locker, mode, false⟩)) none := by
  constructor
  · refine (Allocates.entryAlloc hfree mode true).trans_quiet ?_
    exact (Quiet.pushHead _ k a true).trans (Quiet.of_ents rfl rfl rfl rfl rfl (.refl _))
  · have hpush := (h.entryAlloc hfree locker mode true).pushHead (g := true) ho
      (by rw [entry_alloc]) (by rw [entry_alloc]) fun _ => by rw [entry_alloc]; rfl
    rw [req_alloc] at hpush
    exact hpush.congr (fun _ => rfl) fun _ => rfl

/-- A new waiter. -/
theorem enqueueNew (ho : s.objLookup k = some o) (hfree : (s.entry a).live = false)
    (locker mode : ℕ) (conversion : Bool) :
    Allocates s (s.enqueueNew k locker mode a conversion) a k locker ∧
      Represents (s.enqueueNew k locker mode a conversion)
        (applyAt c.matrix A k (if conversion then .waitHead ⟨a, locker, mode, false⟩
          else .waitTail ⟨a, locker, mode, false⟩)) none := by
  have halloc := h.entryAlloc (k := k) hfree locker mode false
  cases conversion with
  | true =>
    constructor
    · refine (Allocates.entryAlloc hfree mode false).trans_quiet ?_
      exact (Quiet.pushHead _ k a false).trans
        (Quiet.of_ents rfl rfl rfl rfl rfl (.refl _))
    · have hpush := halloc.pushHead (g := false) ho (by rw [entry_alloc])
        (by rw [entry_alloc]) nofun
      rw [req_alloc] at hpush
      exact hpush.congr (fun _ => rfl) fun _ => rfl
  | false =>
    constructor
    · refine (Allocates.entryAlloc hfree mode false).trans_quiet ?_
      exact (Quiet.pushWaitingTail ..).trans
        (Quiet.of_ents rfl rfl rfl rfl rfl (.refl _))
    · have hpush := halloc.pushWaitingTail ho (by rw [entry_alloc]) (by rw [entry_alloc])
        (by rw [entry_alloc]; rfl)
      rw [req_alloc] at hpush
      exact hpush.congr (fun _ => rfl) fun _ => rfl

/-- A mode changed in place, with its count. -/
theorem changeMode (hr : r ∈ (A k).granted) (locker before mode : ℕ) :
    Quiet s ((s.shiftWrite locker before mode).modEntry r.addr fun e => { e with mode := mode }) ∧
      Represents
        ((s.shiftWrite locker before mode).modEntry r.addr fun e => { e with mode := mode })
        (Function.update A k ⟨withMode r.addr mode (A k).granted, (A k).waiting⟩) none := by
  have hshift : Represents (s.shiftWrite locker before mode) A none :=
    h.congr (fun _ => rfl) fun _ => rfl
  constructor
  · refine Quiet.trans ?_ (Quiet.modEntry _ _ _ fun _ => ⟨rfl, rfl, rfl, id⟩)
    exact Quiet.of_ents rfl rfl rfl rfl rfl (.refl _)
  · exact hshift.setMode (mem_addrs.mpr ⟨r, hr, rfl⟩) mode

/-- A mode lowered in place, with its count. -/
theorem lowerMode (hr : r ∈ (A k).granted) (locker before mode : ℕ) :
    let s₁ := if Mode.isWrite before && !Mode.isWrite mode then s.shiftWrite locker before mode
      else s
    Quiet s (s₁.modEntry r.addr fun e => { e with mode := mode }) ∧
      Represents (s₁.modEntry r.addr fun e => { e with mode := mode })
        (Function.update A k ⟨withMode r.addr mode (A k).granted, (A k).waiting⟩) none := by
  intro s₁
  by_cases hshift : (Mode.isWrite before && !Mode.isWrite mode) = true
  · have heq : s₁ = s.shiftWrite locker before mode := if_pos hshift
    rw [heq]
    exact h.changeMode hr locker before mode
  · have heq : s₁ = s := if_neg hshift
    rw [heq]
    exact ⟨Quiet.modEntry _ _ _ fun _ => ⟨rfl, rfl, rfl, id⟩,
      h.setMode (mem_addrs.mpr ⟨r, hr, rfl⟩) mode⟩

end

end Represents

/-- What `__do_acquire_locked` does before it returns or begins to wait. -/
inductive AcquireSpec (c : Config) (s : Manager) (A : Key → ObjView) (k : Key)
    (locker mode : ℕ) (timeout : ℤ) (slot : Option ℕ) : Manager → Manager.Acquired → Prop
  | same {rc : Rc} : (rc = .ok → ∃ r, (A k).granted.find? (·.locker = locker) = some r ∧
        c.matrix.dominates r.mode mode = true) →
      AcquireSpec c s A k locker mode timeout slot s (.done rc)
  | raise {s' : Manager} {r : Req} : blocked c.matrix (A k).granted locker mode = false →
      (A k).Enabled c.matrix (.raise r.addr mode) → Quiet s s' →
      Represents s' (applyAt c.matrix A k (.raise r.addr mode)) none →
      AcquireSpec c s A k locker mode timeout slot s' (.done .ok)
  | grant {s' : Manager} {a : ℕ} : slot = some a →
      (A k).Enabled c.matrix (.grant ⟨a, locker, mode, false⟩) → Allocates s s' a k locker →
      Represents s' (applyAt c.matrix A k (.grant ⟨a, locker, mode, false⟩)) none →
      AcquireSpec c s A k locker mode timeout slot s' (.done .ok)
  | wait {s' : Manager} {a : ℕ} {op : ObjOp} : slot = some a → timeout ≠ 0 →
      op = .waitHead ⟨a, locker, mode, false⟩ ∨
        op = .waitTail ⟨a, locker, mode, false⟩ ∧ (A k).heldBy locker = [] →
      (A k).Enabled c.matrix op → Allocates s s' a k locker →
      Represents s' (applyAt c.matrix A k op) none →
      AcquireSpec c s A k locker mode timeout slot s' (.waits a)

namespace Represents

variable {c : Config} {s : Manager} {A : Key → ObjView} {k : Key}

/-- The two paths that allocate an entry, for a first request and for a conversion alike. -/
theorem allocate_spec (h : Represents s A none) (ho : s.objLookup k = some o) {slot : Option ℕ}
    (hslot : ∀ a ∈ slot, (s.entry a).live = false) (locker mode : ℕ) (timeout : ℤ)
    (conversion : Bool) (hconv : conversion = false → (A k).heldBy locker = []) :
    ∃ s' r, (if !blocked c.matrix (A k).granted locker mode &&
          (conversion || (s.waitingHead k).isNone) then
        (match slot with
          | none => some (s, .done .nomem)
          | some a => some (s.grantNew k locker mode a, .done .ok))
      else if timeout = 0 then some (s, .done .again)
      else
        match slot with
        | none => some (s, .done .nomem)
        | some a => some (s.enqueueNew k locker mode a conversion, .waits a)) =
          some (s', r) ∧ AcquireSpec c s A k locker mode timeout slot s' r := by
  have hempty : (s.waitingHead k).isNone = true ↔ (A k).waiting = [] := by
    rw [(h.waiting k).head_eq]
    cases (A k).waiting <;> simp [addrs]
  split
  · rename_i hgrant
    rw [Bool.and_eq_true, Bool.not_eq_true'] at hgrant
    cases slot with
    | none => exact ⟨s, _, rfl, .same fun h => by cases h⟩
    | some a =>
      obtain ⟨halloc, hrep⟩ := h.grantNew ho (hslot a rfl) locker mode
      exact ⟨_, _, rfl, .grant rfl hgrant.1 halloc hrep⟩
  · rename_i hwait
    split
    · exact ⟨s, _, rfl, .same fun h => by cases h⟩
    · rename_i htimeout
      cases slot with
      | none => exact ⟨s, _, rfl, .same fun h => by cases h⟩
      | some a =>
        obtain ⟨halloc, hrep⟩ := h.enqueueNew ho (hslot a rfl) locker mode conversion
        refine ⟨_, _, rfl, .wait rfl htimeout ?_ ?_ halloc hrep⟩
        · cases conversion
          · exact .inr ⟨rfl, hconv rfl⟩
          · exact .inl rfl
        · cases conversion with
          | true => exact ⟨rfl, by simpa using hwait⟩
          | false =>
            refine ⟨rfl, ?_⟩
            by_cases hb : blocked c.matrix (A k).granted locker mode = true
            · exact .inl hb
            · refine .inr fun hnil => hwait ?_
              simp [hempty.mpr hnil, hb]

/-- `__do_acquire_locked` up to its wait. -/
theorem doAcquireLocked_spec (h : Represents s A none)
    (ho : s.objLookup k = some o) {slot : Option ℕ}
    (hslot : ∀ a ∈ slot, (s.entry a).live = false) (locker mode : ℕ) (timeout : ℤ) :
    ∃ s' r, s.doAcquireLocked c k locker mode timeout slot = some (s', r) ∧
      AcquireSpec c s A k locker mode timeout slot s' r := by
  have hpaths := h.allocate_spec (c := c) ho hslot locker mode timeout
  unfold doAcquireLocked
  rw [h.findGranted_eq, Option.bind_some]
  cases hprior : (A k).granted.find? (·.locker = locker) with
  | none =>
    have hconf := h.hasConflictGranted_eq (c := c) k locker mode
    simp only [Option.map_none, Option.any_none, Bool.false_and, Bool.false_eq_true, hconf]
    refine hpaths false fun _ => ?_
    rw [find?_eq_none] at hprior
    exact filter_eq_nil_iff.mpr hprior
  | some r =>
    have hr : r ∈ (A k).granted := mem_of_find?_eq_some hprior
    have hlocker : r.locker = locker := by simpa using find?_some hprior
    have hmode : (s.entry r.addr).mode = r.mode := (h.stores_granted k r hr).mode
    have hconf := h.hasConflictGranted_eq (c := c) k locker mode
    simp only [Option.map_some, hmode, hconf, Option.bind_some, Option.elim_some]
    split
    · rename_i hsame
      rw [Bool.and_eq_true] at hsame
      exact ⟨s, _, rfl, .same fun _ => ⟨r, hprior, hsame.2⟩⟩
    · split
      · rename_i hraise
        simp only [Bool.and_eq_true, Bool.not_eq_true'] at hraise
        obtain ⟨hquiet, hrep⟩ := h.changeMode hr locker r.mode mode
        refine ⟨_, _, rfl, .raise hraise.2 ?_ hquiet hrep⟩
        exact ⟨r, hr, rfl, hraise.1.2, by rw [hlocker]; exact hraise.2⟩
      · exact hpaths true fun h => by cases h

end Represents

end LibXtc.LockMgr

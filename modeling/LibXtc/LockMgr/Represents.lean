import LibXtc.LockMgr.Sections
import LibXtc.LockMgr.ObjView

/-!
# The pointers represent the lists

`Represents s A d` says that the two linked lists of every object of the manager `s` are the two
lists of `A`, that every live entry is on one of them or is the detached entry `d`, and that the
entries store what the lists say. Each pointer operation of `State` keeps the relation, with the
change of the lists it stands for.
-/

namespace LibXtc.LockMgr

open Foundations Manager List Function

/-- The granted list of an object, or its wait queue. -/
def ObjView.side (v : ObjView) : Bool → List Req
  | true => v.granted
  | false => v.waiting

/-- The object with `l` in place of one of its lists. -/
def ObjView.setSide (v : ObjView) (l : List Req) : Bool → ObjView
  | true => ⟨l, v.waiting⟩
  | false => ⟨v.granted, l⟩

/-- An address on one of the lists of an object, and on none of them. -/
theorem exists_mem_side {v : ObjView} {a : ℕ} :
    (∃ g, a ∈ addrs (v.side g)) ↔ a ∈ addrs v.granted ∨ a ∈ addrs v.waiting :=
  Bool.exists_bool.trans or_comm

theorem forall_not_mem_side {v : ObjView} {a : ℕ} :
    (∀ g, a ∉ addrs (v.side g)) ↔ a ∉ addrs v.granted ∧ a ∉ addrs v.waiting :=
  Bool.forall_bool.trans and_comm

namespace Manager

section

variable (s : Manager) (k : Key) (a : ℕ)

def sideHead : Bool → Option ℕ
  | true => s.grantedHead k
  | false => s.waitingHead k

def unlink : Bool → Manager
  | true => s.unlinkGranted k a
  | false => s.unlinkWaiting k a

def pushHead : Bool → Manager
  | true => s.pushGranted k a
  | false => s.pushWaitingHead k a

end

/-! ## Effects of the stores -/

section Effects

variable (s : Manager) (k k' : Key) (a b : ℕ)

@[simp] theorem entry_modEntry (f : LockEntry → LockEntry) :
    (s.modEntry a f).entry b = if b = a then f (s.entry a) else s.entry b :=
  Heap.get_modify s.ents a b f

@[simp] theorem entry_modObj (f : LockObj → LockObj) : (s.modObj k f).entry b = s.entry b := rfl

section

variable (f : LockEntry → LockEntry)
include f

@[simp] theorem objLookup_modEntry : (s.modEntry a f).objLookup k = s.objLookup k := rfl

@[simp] theorem grantedHead_modEntry : (s.modEntry a f).grantedHead k = s.grantedHead k := rfl

@[simp] theorem waitingHead_modEntry : (s.modEntry a f).waitingHead k = s.waitingHead k := rfl

@[simp] theorem waitingTail_modEntry : (s.modEntry a f).waitingTail k = s.waitingTail k := rfl

end

/-- A store to an object is seen at its key. -/
theorem objLookup_modObj {f : LockObj → LockObj} (hf : ∀ o, (f o).key = o.key) :
    (s.modObj k f).objLookup k' = if k' = k then (s.objLookup k).map f else s.objLookup k' := by
  simp only [objLookup, modObj, find?_map]
  have hkey : ((fun o : LockObj => decide (o.key = k')) ∘ fun o => if o.key = k then f o else o) =
      fun o : LockObj => decide (o.key = k') := by
    funext o
    simp only [comp]
    split <;> simp [hf]
  rw [hkey]
  split
  · rename_i heq
    subst heq
    refine Option.map_congr fun o ho => ?_
    rw [if_pos (by simpa using find?_some ho)]
  · rename_i hne
    refine (Option.map_congr fun o ho => ?_).trans Option.map_id'
    rw [if_neg]
    rintro rfl
    have hkey : o.key = k' := by simpa using find?_some ho
    exact hne hkey.symm

theorem entry_linkNext (p v : Option ℕ) (f : LockObj → LockObj) : (s.linkNext k p v f).entry b =
      { s.entry b with next := if p = some b then v else (s.entry b).next } := by
  cases p with
  | none => simp [linkNext]
  | some p =>
    rw [linkNext, entry_modEntry]
    by_cases hb : b = p
    · subst hb
      simp
    · simp [hb, Ne.symm hb]

theorem entry_linkPrev (n v : Option ℕ) (f : LockObj → LockObj) : (s.linkPrev k n v f).entry b =
      { s.entry b with prev := if n = some b then v else (s.entry b).prev } := by
  cases n with
  | none => simp [linkPrev]
  | some n =>
    rw [linkPrev, entry_modEntry]
    by_cases hb : b = n
    · subst hb
      simp
    · simp [hb, Ne.symm hb]

/-- An unlink splices the node out of the links around it. -/
theorem entry_unlink (g : Bool) (hprev : (s.entry a).prev ≠ some a) : (s.unlink k a g).entry b =
      { s.entry b with
        next := if (s.entry a).prev = some b then (s.entry a).next else (s.entry b).next
        prev := if (s.entry a).next = some b then (s.entry a).prev else (s.entry b).prev } := by
  cases g <;> simp only [unlink, unlinkGranted, unlinkWaiting, entry_linkPrev, entry_linkNext,
    if_neg hprev]

theorem entry_pushHead (g : Bool) (hprev : g = true → (s.entry a).prev = none) :
    (s.pushHead k a g).entry b = { s.entry b with
        next := if b = a then s.sideHead k g else (s.entry b).next
        prev := if s.sideHead k g = some b then some a else
          if b = a then none else (s.entry b).prev } := by
  cases g <;> simp only [pushHead, pushGranted, pushWaitingHead, entry_modObj, entry_linkPrev] <;>
    by_cases hb : b = a
  · subst hb
    simp [sideHead]
  · simp [hb, sideHead]
  · subst hb
    simp [hprev rfl, sideHead]
  · simp [hb, sideHead]

theorem entry_pushWaitingTail : (s.pushWaitingTail k a).entry b = { s.entry b with
        next := if s.waitingTail k = some b then some a else (s.entry b).next
        prev := if b = a then s.waitingTail k else (s.entry b).prev } := by
  simp only [pushWaitingTail, entry_modObj, entry_linkNext]
  by_cases hb : b = a
  · subst hb
    simp
  · simp [hb]

theorem objLookup_linkNext (p v : Option ℕ) {f : LockObj → LockObj} (hf : ∀ o, (f o).key = o.key) :
    (s.linkNext k p v f).objLookup k' =
      if p = none ∧ k' = k then (s.objLookup k).map f else s.objLookup k' := by
  cases p with
  | none => simp [linkNext, objLookup_modObj s k k' hf]
  | some p => simp [linkNext]

theorem objLookup_linkPrev (n v : Option ℕ) {f : LockObj → LockObj} (hf : ∀ o, (f o).key = o.key) :
    (s.linkPrev k n v f).objLookup k' =
      if n = none ∧ k' = k then (s.objLookup k).map f else s.objLookup k' := by
  cases n with
  | none => simp [linkPrev, objLookup_modObj s k k' hf]
  | some p => simp [linkPrev]

variable {s k} in
theorem sideHead_congr {s' : Manager} {g : Bool} (h : s'.objLookup k = s.objLookup k) :
    s'.sideHead k g = s.sideHead k g := by
  cases g <;> simp only [sideHead, grantedHead, waitingHead, h]

end Effects

/-- The entry at `r.addr` stores the request `r`, on object `k`. -/
structure Stores (s : Manager) (k : Key) (granted : Bool) (r : Req) : Prop where
  live : (s.entry r.addr).live = true
  obj : (s.entry r.addr).obj = k
  flag : (s.entry r.addr).granted = granted
  locker : (s.entry r.addr).locker = r.locker
  mode : (s.entry r.addr).mode = r.mode
  aborted : (s.entry r.addr).aborted = r.aborted

/-- The request an entry stores. -/
def req (s : Manager) (a : ℕ) : Req :=
  ⟨a, (s.entry a).locker, (s.entry a).mode, (s.entry a).aborted⟩

/-- New links leave the stored request as it was. -/
theorem Stores.relink {s s' : Manager} {k : Key} {g : Bool} {r : Req} (h : s.Stores k g r)
    {p n : Option ℕ} (hent : s'.entry r.addr = { s.entry r.addr with prev := p, next := n }) :
    s'.Stores k g r := by
  constructor <;> rw [hent]
  exacts [h.live, h.obj, h.flag, h.locker, h.mode, h.aborted]

end Manager

/-- The linked lists of `s` are the lists of `A`; `d` is a live entry on no list. -/
structure Represents (s : Manager) (A : Key → ObjView) (d : Option ℕ) : Prop where
  granted : ∀ k, Linked (fun a => (s.entry a).prev) (fun a => (s.entry a).next) (s.grantedHead k)
    (addrs (A k).granted)
  waiting : ∀ k, Linked (fun a => (s.entry a).prev) (fun a => (s.entry a).next) (s.waitingHead k)
    (addrs (A k).waiting)
  tail : ∀ k, s.waitingTail k = (addrs (A k).waiting).getLast?
  stores_granted : ∀ k, ∀ r ∈ (A k).granted, s.Stores k true r
  stores_waiting : ∀ k, ∀ r ∈ (A k).waiting, s.Stores k false r
  nodup_granted : ∀ k, (addrs (A k).granted).Nodup
  nodup_waiting : ∀ k, (addrs (A k).waiting).Nodup
  live : ∀ a, (s.entry a).live = true → d = some a ∨
    ∃ k, a ∈ addrs (A k).granted ∨ a ∈ addrs (A k).waiting
  detached : ∀ a, d = some a → (s.entry a).live = true ∧
    ∀ k, a ∉ addrs (A k).granted ∧ a ∉ addrs (A k).waiting

namespace Represents

variable {s s' : Manager} {A : Key → ObjView} {d : Option ℕ} {k k' : Key} {a b : ℕ} {g g' : Bool}
  {o : LockObj} {f : LockEntry → LockEntry}

section

variable (h : Represents s A d)
include h

theorem linked (k : Key) (g : Bool) : Linked (fun a => (s.entry a).prev) (fun a => (s.entry a).next)
    (s.sideHead k g) (addrs ((A k).side g)) := by
  cases g
  exacts [h.waiting k, h.granted k]

theorem stores (k : Key) (g : Bool) : ∀ r ∈ (A k).side g, s.Stores k g r := by
  cases g
  exacts [h.stores_waiting k, h.stores_granted k]

theorem nodup (k : Key) (g : Bool) : (addrs ((A k).side g)).Nodup := by
  cases g
  exacts [h.nodup_waiting k, h.nodup_granted k]

/-- An address on a list stores a request of that list. -/
theorem of_mem (ha : a ∈ addrs ((A k).side g)) :
    (s.entry a).live = true ∧ (s.entry a).obj = k ∧ (s.entry a).granted = g := by
  obtain ⟨r, hr, rfl⟩ := mem_addrs.mp ha
  have hst := h.stores k g r hr
  exact ⟨hst.live, hst.obj, hst.flag⟩

/-- No address is on two lists. -/
theorem side_unique (ha : a ∈ addrs ((A k).side g)) (ha' : a ∈ addrs ((A k').side g')) :
    k' = k ∧ g' = g := by
  obtain ⟨-, rfl, rfl⟩ := h.of_mem ha
  obtain ⟨-, hobj, hflag⟩ := h.of_mem ha'
  exact ⟨hobj.symm, hflag.symm⟩

theorem not_waiting_of_granted (ha : a ∈ addrs (A k).granted) : a ∉ addrs (A k').waiting := by
  intro ha'
  cases (h.of_mem (g := true) ha).2.2.symm.trans (h.of_mem (g := false) ha').2.2

theorem not_detached (ha : a ∈ addrs ((A k).side g)) : d ≠ some a := by
  intro hd
  have hfar := (h.detached a hd).2 k
  cases g
  exacts [hfar.2 ha, hfar.1 ha]

/-- A list is no longer than the slab. -/
theorem length_le (k : Key) (g : Bool) : (addrs ((A k).side g)).length ≤ s.fuel := by
  refine length_le_of_nodup_lt (h.nodup k g) fun a ha => Heap.lt_size_of_get_ne fun heq => ?_
  have hlive := (h.of_mem ha).1
  rw [entry, heq] at hlive
  cases hlive

/-- The relation only reads the slab and the heads of the lists. -/
theorem congr_heads (hents : ∀ b, s'.entry b = s.entry b)
    (hheads : ∀ k (f : LockObj → Option ℕ), f ⟨k, none, none, none⟩ = none →
      (s'.objLookup k).bind f = (s.objLookup k).bind f) : Represents s' A d := by
  have hstores {k : Key} {g : Bool} {r : Req} (hr : s.Stores k g r) : s'.Stores k g r := by
    exact hr.relink (hents _)
  have hg (k : Key) : s'.grantedHead k = s.grantedHead k := hheads k _ rfl
  have hw (k : Key) : s'.waitingHead k = s.waitingHead k := hheads k _ rfl
  have ht (k : Key) : s'.waitingTail k = s.waitingTail k := hheads k _ rfl
  constructor
  · simpa only [hents, hg] using h.granted
  · simpa only [hents, hw] using h.waiting
  · simpa only [ht] using h.tail
  · exact fun k r hr => hstores (h.stores_granted k r hr)
  · exact fun k r hr => hstores (h.stores_waiting k r hr)
  · exact h.nodup_granted
  · exact h.nodup_waiting
  · simpa only [hents] using h.live
  · simpa only [hents] using h.detached

/-- The relation only reads the slab and the objects. -/
theorem congr (hents : ∀ b, s'.entry b = s.entry b) (hobjs : ∀ k, s'.objLookup k = s.objLookup k) :
    Represents s' A d :=
  h.congr_heads hents fun k _ _ => by rw [hobjs k]

/-- A change of one object and of the entries on its lists. -/
theorem update {d' : Option ℕ} {v : ObjView} (g : Bool)
    (hents : ∀ b, (∀ g, b ∉ addrs ((A k).side g)) → d ≠ some b → s'.entry b = s.entry b)
    (hobjs : ∀ k', k' ≠ k → s'.objLookup k' = s.objLookup k')
    (hlink : ∀ g, Linked (fun a => (s'.entry a).prev) (fun a => (s'.entry a).next)
      (s'.sideHead k g) (addrs (v.side g))) (htail : s'.waitingTail k = (addrs v.waiting).getLast?)
    (hst : ∀ g, ∀ r ∈ v.side g, s'.Stores k g r)
    (hlive : ∀ a, d' = some a → (s'.entry a).live = true)
    (hperm : (addrs (v.side !g) ++ (addrs (v.side g) ++ d'.toList)).Perm
      (addrs ((A k).side !g) ++ (addrs ((A k).side g) ++ d.toList))) :
    Represents s' (Function.update A k v) d' := by
  -- no entry is in two places, before and so after
  have hnodup : (addrs ((A k).side !g) ++ (addrs ((A k).side g) ++ d.toList)).Nodup := by
    refine (h.nodup k _).append ((h.nodup k g).append (by cases d <;> simp) fun b hb hd =>
      h.not_detached hb (Option.mem_toList.mp hd)) fun b hb hd => ?_
    rcases mem_append.mp hd with hd | hd
    · exact (Bool.not_eq_self g).mp (h.side_unique hd hb).2
    · exact h.not_detached hb (Option.mem_toList.mp hd)
  obtain ⟨hng, hlists, hfar⟩ := nodup_append'.mp (hperm.nodup_iff.mpr hnodup)
  obtain ⟨hnw, -, hfar'⟩ := nodup_append'.mp hlists
  have hnodup' : ∀ g, (addrs (v.side g)).Nodup := (Bool.forall_bool' g).mpr ⟨hnw, hng⟩
  have hmem (a : ℕ) : (d' = some a ∨ ∃ g, a ∈ addrs (v.side g)) ↔
      d = some a ∨ ∃ g, a ∈ addrs ((A k).side g) := by
    have hiff := hperm.mem_iff (a := a)
    simp only [mem_append, Option.mem_toList] at hiff
    rw [Bool.exists_bool' g, Bool.exists_bool' g]
    tauto
  -- an entry on a list of another object keeps its contents
  have hkeep {k' : Key} (hk : k' ≠ k) {g : Bool} {b : ℕ} (hb : b ∈ addrs ((A k').side g)) :
      s'.entry b = s.entry b :=
    hents b (fun _ hb' => hk (h.side_unique hb' hb).1) (h.not_detached hb)
  have hother {P : Key → ObjView → Prop} (hk : P k v) (hne : ∀ k', k' ≠ k → P k' (A k')) :
      ∀ k', P k' (Function.update A k v k') := (forall_update_iff A P).mpr ⟨hk, hne⟩
  have hlinks (g : Bool) := hother (P := fun k' v => Linked (fun a => (s'.entry a).prev)
      (fun a => (s'.entry a).next) (s'.sideHead k' g) (addrs (v.side g))) (hlink g) fun k' hk => by
    rw [sideHead_congr (hobjs k' hk)]
    exact (h.linked k' g).congr (fun b hb => by rw [hkeep hk hb]) fun b hb => by rw [hkeep hk hb]
  have hstores (g : Bool) := hother (P := fun k' v => ∀ r ∈ v.side g, s'.Stores k' g r) (hst g)
    fun k' hk r hr => (h.stores k' g r hr).relink (hkeep hk (mem_addrs.mpr ⟨r, hr, rfl⟩))
  have hnodups (g : Bool) := hother (P := fun _ v => (addrs (v.side g)).Nodup) (hnodup' g)
    fun k' _ => h.nodup k' g
  refine ⟨hlinks true, hlinks false, ?_, hstores true, hstores false, hnodups true, hnodups false,
    ?_, ?_⟩
  · refine hother (P := fun k' v => s'.waitingTail k' = (addrs v.waiting).getLast?) htail ?_
    intro k' hk
    rw [waitingTail, hobjs k' hk]
    exact h.tail k'
  · intro a ha
    by_cases htouch : d = some a ∨ ∃ g, a ∈ addrs ((A k).side g)
    · refine ((hmem a).mpr htouch).imp_right fun hv => ⟨k, ?_⟩
      rwa [update_self, ← exists_mem_side]
    · rw [not_or, not_exists] at htouch
      rw [hents a htouch.2 htouch.1] at ha
      obtain ⟨k', hk'⟩ := (h.live a ha).resolve_left htouch.1
      have hne : k' ≠ k := by
        rintro rfl
        exact not_exists.mpr htouch.2 (exists_mem_side.mpr hk')
      exact .inr ⟨k', by rwa [update_of_ne hne]⟩
  · intro a ha
    have hd' := Option.mem_toList.mpr ha
    have hnew : ∀ g, a ∉ addrs (v.side g) := (Bool.forall_bool' g).mpr
      ⟨fun hg => hfar' hg hd', fun hg => hfar hg (mem_append_right _ hd')⟩
    refine ⟨hlive a ha, fun k' => forall_not_mem_side.mp ?_⟩
    refine hother (P := fun _ v => ∀ g, a ∉ addrs (v.side g)) hnew (fun k' hk g' hb => ?_) k'
    rcases (hmem a).mp (.inl ha) with hd | ⟨g, hg⟩
    · exact h.not_detached hb hd
    · exact hk (h.side_unique hg hb).1

/-- New links for the entries of one list. -/
theorem relink {d' : Option ℕ} {l : List Req}
    (hent : ∀ b, ∃ p n, s'.entry b = { s.entry b with prev := p, next := n })
    (hkeep : ∀ b, b ∉ addrs ((A k).side g) → d ≠ some b → s'.entry b = s.entry b)
    (hobjs : ∀ k', k' ≠ k → s'.objLookup k' = s.objLookup k')
    (hhead : s'.sideHead k (!g) = s.sideHead k (!g))
    (hlink : Linked (fun a => (s'.entry a).prev) (fun a => (s'.entry a).next) (s'.sideHead k g)
      (addrs l)) (htail : s'.waitingTail k = (addrs ((A k).setSide l g).waiting).getLast?)
    (hst : ∀ r ∈ l, s.Stores k g r)
    (hperm : (addrs l ++ d'.toList).Perm (addrs ((A k).side g) ++ d.toList)) :
    Represents s' (Function.update A k ((A k).setSide l g)) d' := by
  have hself : ((A k).setSide l g).side g = l := by cases g <;> rfl
  have hnot : ((A k).setSide l g).side (!g) = (A k).side (!g) := by cases g <;> rfl
  have hstores {g : Bool} {r : Req} (hr : s.Stores k g r) : s'.Stores k g r := by
    obtain ⟨p, n, heq⟩ := hent r.addr
    exact hr.relink heq
  have hfar {b : ℕ} (hb : b ∈ addrs ((A k).side !g)) : s'.entry b = s.entry b :=
    hkeep b (fun hb' => (Bool.not_eq_self g).mp (h.side_unique hb' hb).2) (h.not_detached hb)
  refine h.update g (fun b hb => hkeep b (hb g)) hobjs ?_ htail ?_ ?_ ?_
  · refine (Bool.forall_bool' g).mpr ⟨by rwa [hself], ?_⟩
    rw [hnot, hhead]
    exact (h.linked k _).congr (fun b hb => by rw [hfar hb]) fun b hb => by rw [hfar hb]
  · refine (Bool.forall_bool' g).mpr ⟨fun r hr => hstores (hst r (hself ▸ hr)), fun r hr => ?_⟩
    exact hstores (h.stores k _ r (hnot ▸ hr))
  · intro a ha
    obtain ⟨p, n, heq⟩ := hent a
    rw [heq]
    have hmem := hperm.subset (mem_append_right _ (Option.mem_toList.mpr ha))
    rcases mem_append.mp hmem with hmem | hd
    · exact (h.of_mem hmem).1
    · exact (h.detached a (Option.mem_toList.mp hd)).1
  · rw [hself, hnot]
    exact hperm.append_left _

/-- The object of a nonempty list exists. -/
theorem objLookup_of_mem (ha : a ∈ addrs ((A k).side g)) : ∃ o, s.objLookup k = some o := by
  cases ho : s.objLookup k with
  | some o => exact ⟨o, rfl⟩
  | none =>
    have hhead := (h.linked k g).head_eq
    have hnone : s.sideHead k g = none := by
      cases g <;> simp [sideHead, grantedHead, waitingHead, ho]
    rw [hnone] at hhead
    cases hl : addrs ((A k).side g) with
    | nil =>
      rw [hl] at ha
      cases ha
    | cons c l => simp [hl] at hhead

/-- A node of a list is not its own neighbour. -/
theorem prev_ne_self (ha : a ∈ addrs ((A k).side g)) : (s.entry a).prev ≠ some a :=
  (h.linked k g).prev_ne_self (h.nodup k g) ha

end

/-- A node taken from a list is the detached one. -/
theorem perm_filter_ne {l : List ℕ} (hl : l.Nodup) (ha : a ∈ l) :
    (l.filter (· ≠ a) ++ [a]).Perm l := by
  obtain ⟨front, back, rfl⟩ := append_of_mem ha
  rw [filter_ne_append hl]
  exact (perm_append_singleton a _).trans perm_middle.symm

/-- Unlinking an entry detaches it. -/
theorem unlink (h : Represents s A none) (ha : a ∈ addrs ((A k).side g)) :
    Represents (s.unlink k a g)
      (Function.update A k ((A k).setSide (without a ((A k).side g)) g)) (some a) := by
  have hprev := h.prev_ne_self ha
  have hent (b : ℕ) := s.entry_unlink k a b g hprev
  have hlinked := h.linked k g
  obtain ⟨o, ho⟩ := h.objLookup_of_mem ha
  have hheads : (s.unlink k a g).sideHead k (!g) = s.sideHead k (!g) ∧
      (s.unlink k a g).sideHead k g =
        (if (s.entry a).prev = none then (s.entry a).next else s.sideHead k g) ∧
      (s.unlink k a g).waitingTail k =
        if g = false ∧ (s.entry a).next = none then (s.entry a).prev else s.waitingTail k := by
    cases g <;> by_cases hp : (s.entry a).prev = none <;>
      by_cases hn : (s.entry a).next = none <;>
      simp [Manager.unlink, unlinkGranted, unlinkWaiting, sideHead, grantedHead, waitingHead,
        waitingTail, objLookup_linkPrev, objLookup_linkNext, entry_linkNext, ho, hp, hn, hprev]
  refine h.relink (fun b => ⟨_, _, hent b⟩) ?_ ?_ hheads.1 ?_ ?_ ?_ ?_
  · intro b hb _
    rw [hent, if_neg fun hp => hb (hlinked.mem_of_prev ha hp),
      if_neg fun hn => hb (hlinked.mem_of_next ha hn)]
  · intro k' hk
    cases g <;> simp [Manager.unlink, unlinkGranted, unlinkWaiting, objLookup_linkPrev,
      objLookup_linkNext, hk]
  · rw [addrs_without, hheads.2.1]
    exact hlinked.remove (h.nodup k g) ha (fun b _ _ => by simp only [hent])
      fun b _ _ => by simp only [hent]
  · rw [hheads.2.2, h.tail k]
    cases g with
    | true => exact if_neg nofun
    | false =>
      change _ = (addrs (without a (A k).waiting)).getLast?
      rw [addrs_without, (h.waiting k).getLast?_remove (h.nodup_waiting k) ha]
      simp
  · exact fun r hr => h.stores k g r (mem_of_mem_filter hr)
  · rw [addrs_without, Option.toList_none, append_nil]
    exact perm_filter_ne (h.nodup k g) ha

section

variable (h : Represents s A (some a)) (ho : s.objLookup k = some o) (hobj : (s.entry a).obj = k)
include h ho hobj

/-- Pushing the detached entry at the head of a list. -/
theorem pushHead (hflag : (s.entry a).granted = g) (hprev : g = true → (s.entry a).prev = none) :
    Represents (s.pushHead k a g)
      (Function.update A k ((A k).setSide (s.req a :: (A k).side g) g)) none := by
  have hent (b : ℕ) := s.entry_pushHead k a b g hprev
  have hhead {b : ℕ} (hb : s.sideHead k g = some b) : b ∈ addrs ((A k).side g) := by
    rw [(h.linked k g).head_eq] at hb
    exact mem_of_getElem? hb
  have hne {b : ℕ} (hb : b ∈ addrs ((A k).side g)) : b ≠ a := by
    rintro rfl
    exact h.not_detached hb rfl
  have hheads : (s.pushHead k a g).sideHead k (!g) = s.sideHead k (!g) ∧
      (s.pushHead k a g).sideHead k g = some a ∧ (s.pushHead k a g).waitingTail k =
        if g = false ∧ s.waitingHead k = none then some a else s.waitingTail k := by
    cases g <;> by_cases hw : o.waiting = none <;>
      simp [Manager.pushHead, pushGranted, pushWaitingHead, sideHead, grantedHead, waitingHead,
        waitingTail, objLookup_modObj, objLookup_linkPrev, ho, hw]
  refine h.relink (fun b => ⟨_, _, hent b⟩) ?_ ?_ hheads.1 ?_ ?_ ?_ ?_
  · intro b hb hd
    have hba : b ≠ a := fun heq => hd (by rw [heq])
    rw [hent, if_neg hba, if_neg hba, if_neg fun hh => hb (hhead hh)]
  · intro k' hk
    cases g <;> simp [Manager.pushHead, pushGranted, pushWaitingHead, objLookup_modObj,
      objLookup_linkPrev, hk]
  · rw [hheads.2.1]
    refine (h.linked k g).pushFront (h.nodup k g) ?_ ?_ ?_ ?_ ?_
    · simp only [hent]
      rw [if_neg fun hh => hne (hhead hh) rfl, if_pos trivial]
    · simp only [hent]
      simp
    · intro b _ hb
      simp only [hent, if_pos hb]
    · intro b hmem hb
      simp only [hent, if_neg hb, if_neg (hne hmem)]
    · intro b hb
      simp only [hent, if_neg (hne hb)]
  · rw [hheads.2.2, h.tail k]
    cases g with
    | true => exact if_neg nofun
    | false =>
      change _ = (a :: addrs (A k).waiting).getLast?
      rw [(h.waiting k).head_eq]
      cases addrs (A k).waiting with
      | nil | cons c l => simp
  · exact forall_mem_cons.mpr
      ⟨⟨(h.detached a rfl).1, hobj, hflag, rfl, rfl, rfl⟩, h.stores k g⟩
  · rw [Option.toList_none, append_nil]
    exact (perm_append_singleton a _).symm

/-- Pushing the detached entry at the tail of the wait queue. -/
theorem pushWaitingTail (hflag : (s.entry a).granted = false) (hnext : (s.entry a).next = none) :
    Represents (s.pushWaitingTail k a)
      (Function.update A k ⟨(A k).granted, (A k).waiting ++ [s.req a]⟩) none := by
  have hent (b : ℕ) := s.entry_pushWaitingTail k a b
  have htail {b : ℕ} (hb : s.waitingTail k = some b) : b ∈ addrs (A k).waiting := by
    rw [h.tail k] at hb
    exact mem_of_getLast? hb
  have hne {b : ℕ} (hb : b ∈ addrs (A k).waiting) : b ≠ a := by
    rintro rfl
    exact h.not_detached (g := false) hb rfl
  have hsnoc : addrs ((A k).waiting ++ [s.req a]) = addrs (A k).waiting ++ [a] := by
    simp [addrs, req]
  have hheads : (s.pushWaitingTail k a).grantedHead k = s.grantedHead k ∧
      (s.pushWaitingTail k a).waitingHead k =
        (if s.waitingTail k = none then some a else s.waitingHead k) ∧
      (s.pushWaitingTail k a).waitingTail k = some a := by
    by_cases hw : o.waitingTail = none <;>
      simp [Manager.pushWaitingTail, grantedHead, waitingHead, waitingTail, objLookup_modObj,
        objLookup_linkNext, ho, hw]
  refine h.relink (g := false) (fun b => ⟨_, _, hent b⟩) ?_ ?_ ?_ ?_ ?_ ?_ ?_
  · intro b hb hd
    have hba : b ≠ a := fun heq => hd (by rw [heq])
    rw [hent, if_neg hba, if_neg fun hh => hb (htail hh)]
  · intro k' hk
    simp [Manager.pushWaitingTail, objLookup_modObj, objLookup_linkNext, hk]
  · exact hheads.1
  · rw [sideHead, hheads.2.1, hsnoc, h.tail k]
    simp only [getLast?_eq_none_iff]
    refine (h.waiting k).pushBack (h.nodup_waiting k) ?_ ?_ ?_ ?_ ?_
    · simp only [hent, if_true, h.tail k]
    · simp only [hent, hnext]
      rw [if_neg fun hh => hne (htail hh) rfl]
    · intro b hb
      simp only [hent, if_neg (hne hb)]
    · intro b _ hb
      simp only [hent, h.tail k, if_pos hb]
    · intro b _ hb
      simp only [hent, h.tail k, if_neg hb]
  · change _ = (addrs ((A k).waiting ++ [s.req a])).getLast?
    rw [hheads.2.2, hsnoc, getLast?_append]
    rfl
  · intro r hr
    rcases mem_append.mp hr with hr | hr
    · exact h.stores_waiting k r hr
    · obtain rfl := mem_singleton.mp hr
      exact ⟨(h.detached a rfl).1, hobj, hflag, rfl, rfl, rfl⟩
  · rw [hsnoc, Option.toList_none, append_nil]
    exact .refl _

end

/-- A store to an entry on no list changes no list. -/
theorem offList (h : Represents s A d) (hd : ∀ b, d = some b → b = a)
    (hfar : ∀ k g, a ∉ addrs ((A k).side g))
    (hents : ∀ b, b ≠ a → s'.entry b = s.entry b) (hobjs : ∀ k, s'.objLookup k = s.objLookup k) :
    Represents s' A (if (s'.entry a).live then some a else none) := by
  have hkeep {k : Key} {g : Bool} {b : ℕ} (hb : b ∈ addrs ((A k).side g)) :
      s'.entry b = s.entry b := by
    refine hents b ?_
    rintro rfl
    exact hfar k g hb
  have hlinks (g : Bool) (k : Key) : Linked (fun a => (s'.entry a).prev)
      (fun a => (s'.entry a).next) (s'.sideHead k g) (addrs ((A k).side g)) := by
    rw [sideHead_congr (hobjs k)]
    exact (h.linked k g).congr (fun b hb => by rw [hkeep hb]) fun b hb => by rw [hkeep hb]
  have hstores (g : Bool) (k : Key) (r : Req) (hr : r ∈ (A k).side g) : s'.Stores k g r :=
    (h.stores k g r hr).relink (hkeep (mem_addrs.mpr ⟨r, hr, rfl⟩))
  refine ⟨hlinks true, hlinks false, ?_, hstores true, hstores false, h.nodup_granted,
    h.nodup_waiting, ?_, ?_⟩
  · intro k
    rw [waitingTail, hobjs]
    exact h.tail k
  · intro b hb
    by_cases heq : b = a
    · subst heq
      exact .inl (if_pos hb)
    · rw [hents b heq] at hb
      exact .inr ((h.live b hb).resolve_left fun hb => heq (hd b hb))
  · intro b hb
    split at hb
    · cases hb
      exact ⟨‹_›, fun k => forall_not_mem_side.mp (hfar k)⟩
    · cases hb

/-- A fresh allocation is a detached entry. -/
theorem entryAlloc (h : Represents s A none) (hfree : (s.entry a).live = false) (locker mode : ℕ)
    (granted : Bool) : Represents (s.entryAlloc a k locker mode granted) A (some a) := by
  have hself : ((s.entryAlloc a k locker mode granted).entry a).live = true := by
    simp [entry, Manager.entryAlloc]
  have hent (b : ℕ) (hb : b ≠ a) : (s.entryAlloc a k locker mode granted).entry b = s.entry b :=
    Heap.get_set_of_ne s.ents hb _
  have hoff := h.offList (by simp) ?_ hent fun _ => rfl
  · rwa [hself] at hoff
  · intro k' g ha
    rw [(h.of_mem ha).1] at hfree
    cases hfree

/-- A store to the detached entry keeps it detached. -/
theorem modDetached (h : Represents s A (some a))
    (hf : (f (s.entry a)).live = true) : Represents (s.modEntry a f) A (some a) := by
  have hent (b : ℕ) (hb : b ≠ a) : (s.modEntry a f).entry b = s.entry b := by
    rw [entry_modEntry, if_neg hb]
  have hoff := h.offList (by simp) (fun _ _ hb => h.not_detached hb rfl) hent fun _ => rfl
  rwa [entry_modEntry, if_pos rfl, if_pos hf] at hoff

/-- Freeing the detached entry. -/
theorem entryRelease (h : Represents s A (some a)) : Represents (s.entryRelease a) A none := by
  have hent (b : ℕ) : (s.entryRelease a).entry b =
      if b = a then { s.entry a with live := false } else s.entry b :=
    entry_modEntry s a b _
  have hoff := h.offList (by simp) (fun _ _ hb => h.not_detached hb rfl)
    (fun b hb => (hent b).trans (if_neg hb)) fun _ => rfl
  rw [hent, if_pos rfl] at hoff
  exact hoff

section

variable (h : Represents s A d)
include h

/-- A change of the data that the entries of one object store. -/
theorem mapData {u : Req → Req} (hu : ∀ r, (u r).addr = r.addr)
    (hents : ∀ b, (∀ g, b ∉ addrs ((A k).side g)) → s'.entry b = s.entry b)
    (hlinks : ∀ b, (s'.entry b).prev = (s.entry b).prev ∧ (s'.entry b).next = (s.entry b).next ∧
      (s'.entry b).live = (s.entry b).live) (hobjs : ∀ k, s'.objLookup k = s.objLookup k)
    (hst : ∀ g, ∀ r ∈ (A k).side g, s'.Stores k g (u r)) :
    Represents s' (Function.update A k ⟨(A k).granted.map u, (A k).waiting.map u⟩) d := by
  have hside (g : Bool) : addrs (ObjView.side ⟨(A k).granted.map u, (A k).waiting.map u⟩ g) =
      addrs ((A k).side g) := by
    cases g <;> simp [ObjView.side, addrs, hu]
  refine h.update true (fun b hb _ => hents b hb) (fun k' _ => hobjs k') ?_ ?_ ?_ ?_ ?_
  · intro g
    rw [hside, sideHead_congr (hobjs k)]
    exact (h.linked k g).congr (fun b _ => (hlinks b).1) fun b _ => (hlinks b).2.1
  · rw [waitingTail, hobjs]
    exact (h.tail k).trans (congrArg _ (hside false).symm)
  · exact Bool.forall_bool.mpr ⟨forall_mem_map.mpr (hst false), forall_mem_map.mpr (hst true)⟩
  · intro b hb
    rw [(hlinks b).2.2]
    exact (h.detached b hb).1
  · rw [hside, hside]

/-- A store to the data of one entry changes the request it stores. -/
theorem modRequest (ha : a ∈ addrs ((A k).side g)) {u : Req → Req} (hu : ∀ r, (u r).addr = r.addr)
    (hkeep : ∀ e, (f e).prev = e.prev ∧ (f e).next = e.next ∧ (f e).live = e.live ∧
      (f e).obj = e.obj ∧ (f e).granted = e.granted)
    (hdata : ∀ e r, e.locker = r.locker → e.mode = r.mode → e.aborted = r.aborted →
      (f e).locker = (u r).locker ∧ (f e).mode = (u r).mode ∧ (f e).aborted = (u r).aborted) :
    Represents (s.modEntry a f)
      (Function.update A k ⟨updateAt a u (A k).granted, updateAt a u (A k).waiting⟩) d := by
  have hstores {g : Bool} {r : Req} (hst : s.Stores k g r) :
      (s.modEntry a f).Stores k g (if r.addr = a then u r else r) := by
    split
    · rename_i heq
      obtain ⟨-, -, hlive, hobj, hflag⟩ := hkeep (s.entry a)
      obtain ⟨hlocker, hmode, habort⟩ :=
        hdata (s.entry a) r (heq ▸ hst.locker) (heq ▸ hst.mode) (heq ▸ hst.aborted)
      subst heq
      constructor <;> rw [hu, entry_modEntry, if_pos rfl]
      exacts [hlive.trans hst.live, hobj.trans hst.obj, hflag.trans hst.flag, hlocker, hmode,
        habort]
    · rename_i hne
      exact hst.relink (by rw [entry_modEntry, if_neg hne])
  refine h.mapData ?_ ?_ ?_ (fun _ => rfl) fun g r hr => hstores (h.stores k g r hr)
  · intro r
    split
    · exact hu r
    · rfl
  · intro b hb
    rw [entry_modEntry, if_neg]
    rintro rfl
    exact hb g ha
  · intro b
    rw [entry_modEntry]
    split
    · rename_i heq
      obtain ⟨hprev, hnext, hlive, -, -⟩ := hkeep (s.entry a)
      rw [heq]
      exact ⟨hprev, hnext, hlive⟩
    · exact ⟨rfl, rfl, rfl⟩

/-- A granted request changes its mode. -/
theorem setMode (ha : a ∈ addrs (A k).granted) (mode : ℕ) :
    Represents (s.modEntry a fun e => { e with mode := mode })
      (Function.update A k ⟨withMode a mode (A k).granted, (A k).waiting⟩) d := by
  have hmod := h.modRequest (g := true) ha (f := fun e => { e with mode := mode })
    (u := fun r => { r with mode := mode }) (fun _ => rfl) (fun _ => ⟨rfl, rfl, rfl, rfl, rfl⟩)
    fun _ _ hlocker _ habort => ⟨hlocker, rfl, habort⟩
  rwa [updateAt_of_not_mem (h.not_waiting_of_granted ha)] at hmod

/-- A waiter is flagged aborted. -/
theorem setAborted (ha : a ∈ addrs (A k).waiting) :
    Represents (s.modEntry a fun e => { e with aborted := true })
      (Function.update A k ⟨(A k).granted,
        updateAt a (fun r => { r with aborted := true }) (A k).waiting⟩) d := by
  have hmod := h.modRequest (g := false) ha (f := fun e => { e with aborted := true })
    (u := fun r => { r with aborted := true }) (fun _ => rfl) (fun _ => ⟨rfl, rfl, rfl, rfl, rfl⟩)
    fun _ _ hlocker hmode _ => ⟨hlocker, hmode, rfl⟩
  rwa [updateAt_of_not_mem fun hg => h.not_waiting_of_granted hg ha] at hmod

end

end Represents

end LibXtc.LockMgr

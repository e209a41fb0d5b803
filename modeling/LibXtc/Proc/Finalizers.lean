import LibXtc.Foundations.Lists
import LibXtc.Proc.Unwind

/-!
# The accounts of the recovery registry

A registration that was accepted is started or still waits: as a callback in the registry, in a
scope whose marker is there, or in a scope that the recovery walk is running. Each operation on the
registry moves registrations between these places, and keeps their order.
-/

namespace LibXtc.Unwind

open Foundations Registry List Function

/-! ### The control stack -/

/-- The scope that the walk runs, if the instruction ends such a run. -/
def Ins.walks : Ins → Option ℕ
  | .recoverEnd sc => some sc
  | _ => none

/-- The scopes that the recovery walk is running. -/
def walked (ctl : List Ins) : List ℕ := ctl.filterMap Ins.walks

theorem walked_append (l l' : List Ins) : walked (l ++ l') = walked l ++ walked l' :=
  filterMap_append ..

theorem walked_cons {i : Ins} (hi : i.walks = none) (ctl : List Ins) :
    walked (i :: ctl) = walked ctl :=
  filterMap_cons_none hi

theorem walked_ops (ops : List Op) (ctl : List Ins) : walked (ops.map .op ++ ctl) = walked ctl := by
  induction ops with
  | nil => rfl
  | cons o ops ih => exact ih

/-- A stack begins with calls of one procedure. -/
theorem exists_ops (ctl : List Ins) : ∃ ops : List Op, ctl = ops.map .op ++ under ctl := by
  induction ctl with
  | nil => exact ⟨[], rfl⟩
  | cons i ctl ih =>
    cases i with
    | op o =>
      obtain ⟨ops, hops⟩ := ih
      exact ⟨o :: ops, congrArg (.op o :: ·) hops⟩
    | _ => exact ⟨[], rfl⟩

/-- An instruction that only follows a loop of the library. -/
def Ins.follows : Ins → Bool
  | .closeEnd _ | .recoverEnd _ | .notify => true
  | _ => false

/-- An instruction that may be put on any stack that does not begin with one that follows. -/
def Ins.plain : Ins → Bool
  | .op _ | .maskLeave | .restore _ | .acquired .. | .closeScope _ | .cleanupEnd => true
  | _ => false

theorem Ins.of_plain {i : Ins} (hi : i.plain = true ∨ i = .recovRelease) :
    i.walks = none ∧ i.follows = false ∧ ∀ sc, i ≠ .scopeRun sc := by
  rcases hi with hi | rfl
  · cases i <;> cases hi <;> exact ⟨rfl, rfl, nofun⟩
  · exact ⟨rfl, rfl, nofun⟩

/-- What may stand before what: the end of a scope follows its loop, the notification follows the
walk, and nothing follows the end of a function. -/
def Ins.Before : Ins → Ins → Prop
  | .scopeRun sc, j => j = .closeEnd sc ∨ j = .recoverEnd sc
  | .recovRelease, j => j.follows = true → j = .notify
  | .closeEnd _, j | .recoverEnd _, j => j.follows = false
  | i, j => i.plain = true ∧ j.follows = false

/-- A control stack in which every instruction is followed by what belongs to it. -/
def Shaped : List Ins → Prop
  | [] => True
  | [i] => ∀ sc, i ≠ .scopeRun sc
  | i :: j :: ctl => i.Before j ∧ Shaped (j :: ctl)

/-- The stack does not begin with an instruction that only follows another one. -/
def Free (ctl : List Ins) : Prop := ∀ j, ctl.head? = some j → j.follows = false

theorem Free.cons {i : Ins} {ctl : List Ins} (hi : i.follows = false) : Free (i :: ctl) := by
  rintro j ⟨⟩
  exact hi

theorem Free.ops {ctl : List Ins} (h : Free ctl) (ops : List Op) : Free (ops.map .op ++ ctl) := by
  cases ops with
  | nil => exact h
  | cons o ops => exact .cons rfl

namespace Shaped

variable {i j : Ins} {ctl ctl' : List Ins}

theorem tail (h : Shaped (i :: ctl)) : Shaped ctl := by
  cases ctl with
  | nil => trivial
  | cons j ctl => exact h.2

theorem of_suffix (h : Shaped ctl) (hsuffix : ctl' <:+ ctl) : Shaped ctl' := by
  obtain ⟨l, rfl⟩ := hsuffix
  induction l with
  | nil => exact h
  | cons i l ih => exact ih h.tail

theorem before (h : Shaped (i :: ctl)) (hj : ctl.head? = some j) : i.Before j := by
  cases ctl with
  | nil => cases hj
  | cons j' ctl =>
    cases hj
    exact h.1

/-- A plain instruction is not followed by one that follows a loop. -/
theorem free (h : Shaped (i :: ctl)) (hi : i.plain = true) : Free ctl := by
  intro j hj
  have hbefore := h.before hj
  cases i <;> first | exact hbefore.2 | cases hi

/-- Nothing stands after the end of a function. -/
theorem eq_nil (h : Shaped (i :: ctl)) (hi : ∀ j, ¬i.Before j) : ctl = [] := by
  cases ctl with
  | nil => rfl
  | cons j ctl => exact absurd h.1 (hi j)

section

variable (h : Shaped ctl) (hfree : Free ctl)
include h hfree

theorem cons (hi : i.plain = true ∨ i = .recovRelease) : Shaped (i :: ctl) := by
  cases ctl with
  | nil =>
    exact (Ins.of_plain hi).2.2
  | cons j ctl =>
    refine ⟨?_, h⟩
    have hj : j.follows = false := hfree j rfl
    rcases hi with hi | rfl
    · cases i <;> first | exact ⟨rfl, hj⟩ | cases hi
    · intro hfollows
      rw [hj] at hfollows
      cases hfollows

/-- The loop of a scope and its end. -/
theorem scope {sc : ℕ}
    (hj : j = .closeEnd sc ∨ j = .recoverEnd sc) : Shaped (.scopeRun sc :: j :: ctl) := by
  refine ⟨hj, ?_⟩
  cases ctl with
  | nil =>
    rintro sc' rfl
    rcases hj with hj | hj <;> cases hj
  | cons j' ctl =>
    refine ⟨?_, h⟩
    have hj' : j'.follows = false := hfree j' rfl
    rcases hj with rfl | rfl <;> exact hj'

theorem free_under : Free (under ctl) := by
  induction ctl with
  | nil => exact hfree
  | cons i ctl ih =>
    cases i with
    | op o => exact ih h.tail (h.free rfl)
    | _ => exact hfree

theorem ops (ops : List Op) : Shaped (ops.map .op ++ ctl) := by
  induction ops with
  | nil => exact h
  | cons o ops ih => exact cons ih (hfree.ops ops) (.inl rfl)

end

end Shaped

/-! ### Accounts -/

/-- The registration of a tracked record. -/
def Rec.ids : Rec → List ℕ
  | .callback id _ => [id]
  | .scope _ => []

namespace Registry

variable (r : Registry)

/-- The registrations of the tracked records. -/
def tracked : List ℕ := r.recov.flatMap Rec.ids

/-- The scopes with a marker in the registry. -/
def marked : List ℕ := r.recov.flatMap Rec.scopes

/-- The scopes whose finalizers will be run by the walk. -/
def located (ctl : List Ins) : List ℕ := r.marked ++ walked ctl

/-- The registrations that wait in a scope. -/
def finIds (sc : ℕ) : List ℕ := (r.scopes sc).fins.map Fin.id

/-- The registrations that wait to be started. -/
def pending (ctl : List Ins) : List ℕ := r.tracked ++ (r.located ctl).flatMap r.finIds

variable {r} {sc x : ℕ} {v : Scope}

theorem finIds_setScope_self : (r.setScope sc v).finIds sc = v.fins.map Fin.id := by
  simp only [finIds, setScope, update_self]

theorem finIds_setScope_of_ne (hx : x ≠ sc) : (r.setScope sc v).finIds x = r.finIds x := by
  simp only [finIds, setScope, update_of_ne hx]

theorem finIds_setScope (hfins : v.fins = (r.scopes sc).fins) :
    (r.setScope sc v).finIds = r.finIds := by
  funext x
  by_cases hx : x = sc
  · subst hx
    rw [finIds_setScope_self, hfins]
    rfl
  · exact finIds_setScope_of_ne hx

theorem fins_free (r : Registry) (sc x : ℕ) : ((r.free sc).scopes x).fins = (r.scopes x).fins := by
  by_cases hx : x = sc
  · subst hx
    simp only [free, setScope, update_self]
  · simp only [free, setScope, update_of_ne hx]

end Registry

/-- An open scope has its marker, and one with finalizers is known to the walk. -/
def Scope.Placed (v : Scope) (marked located : Prop) : Prop :=
  v.live = true → (v.closed = false → marked) ∧ (v.fins ≠ [] → located)

/-- Every accepted registration was started once or waits in one place. -/
structure Accounted (r : Registry) (ctl : List Ins) : Prop where
  perm : (r.started ++ r.pending ctl).Perm (r.accepted.map Prod.fst)
  keys : (r.accepted.map Prod.fst).Nodup
  lt_next : ∀ a ∈ r.accepted, a.1 < r.next
  nodup : (r.located ctl).Nodup
  scope_lt : ∀ sc ∈ r.located ctl, sc < r.next
  live : ∀ sc ∈ r.marked, (r.scopes sc).live = true
  placed : ∀ sc, (r.scopes sc).Placed (sc ∈ r.marked) (sc ∈ r.located ctl)

namespace Accounted

variable {r r' : Registry} {ctl ctl' : List Ins} {sc f : ℕ}

section

variable (h : Accounted r ctl)
include h

/-- The control stack changes while the walk is where it was. -/
theorem control (hwalk : walked ctl' = walked ctl) : Accounted r ctl' := by
  have hloc : r.located ctl' = r.located ctl := by rw [located, hwalk]; rfl
  obtain ⟨h1, h2, h3, h4, h5, h6, h7⟩ := h
  rw [pending, ← hloc] at h1
  rw [← hloc] at h4 h5 h7
  exact ⟨h1, h2, h3, h4, h5, h6, h7⟩

/-- Scopes that the walk was running are dropped; none had a finalizer left. -/
theorem drop {l : List ℕ} (hwalk : walked ctl = l ++ walked ctl')
    (hempty : ∀ sc ∈ l, (r.scopes sc).fins = []) : Accounted r ctl' := by
  have hsub : (r.located ctl').Sublist (r.located ctl) := by
    rw [located, located, hwalk]
    exact (sublist_append_right l _).append_left r.marked
  have hnil : l.flatMap r.finIds = [] := by
    refine flatMap_eq_nil_iff.mpr fun sc hsc => ?_
    rw [finIds, hempty sc hsc]
    rfl
  have hpend : r.pending ctl' = r.pending ctl := by
    simp only [pending, located, hwalk, flatMap_append, hnil, nil_append]
  refine { h with perm := ?_, nodup := hsub.nodup h.nodup, scope_lt := ?_, placed := ?_ }
  · rw [hpend]
    exact h.perm
  · exact fun sc hsc => h.scope_lt sc (hsub.subset hsc)
  · refine fun sc hlive => ⟨(h.placed sc hlive).1, fun hfins => ?_⟩
    have hold := (h.placed sc hlive).2 hfins
    rw [located, hwalk] at hold
    rcases mem_append.mp hold with hm | hw
    · exact mem_append_left _ hm
    rcases mem_append.mp hw with hl | hw
    · exact absurd (hempty sc hl) hfins
    · exact mem_append_right _ hw

theorem keys_accept (o : Option ℕ) : ((r.accept o).accepted.map Prod.fst).Nodup := by
  refine nodup_cons.mpr ⟨fun hmem => ?_, h.keys⟩
  obtain ⟨a, ha, heq⟩ := mem_map.mp hmem
  exact absurd heq (Nat.ne_of_lt (h.lt_next a ha))

theorem lt_next_accept (o : Option ℕ) : ∀ a ∈ (r.accept o).accepted, a.1 < r.next + 1 := by
  exact forall_mem_cons.mpr
    ⟨Nat.lt_succ_self _, fun a ha => Nat.lt_succ_of_lt (h.lt_next a ha)⟩

/-- A release that cannot be registered is run at once. -/
theorem acceptStart : Accounted ((r.accept none).start r.next) ctl where
  perm := h.perm.cons r.next
  keys := h.keys_accept none
  lt_next := h.lt_next_accept none
  nodup := h.nodup
  scope_lt sc hsc := Nat.lt_succ_of_lt (h.scope_lt sc hsc)
  live := h.live
  placed := h.placed

theorem recoveryTrack (f : ℕ) : Accounted (r.recoveryTrack f) ctl := by
  unfold Registry.recoveryTrack
  split
  · exact {
      perm := perm_middle.trans (h.perm.cons r.next)
      keys := h.keys_accept none
      lt_next := h.lt_next_accept none
      nodup := h.nodup
      scope_lt := fun sc hsc => Nat.lt_succ_of_lt (h.scope_lt sc hsc)
      live := h.live
      placed := h.placed }
  · exact h

variable {v : Scope}

/-- The flags of a scope change. -/
theorem setScope (hfins : v.fins = (r.scopes sc).fins) (hlive : sc ∈ r.marked → v.live = true)
    (hplaced : v.Placed (sc ∈ r.marked) (sc ∈ r.located ctl)) :
    Accounted (r.setScope sc v) ctl := by
  refine { h with perm := ?_, live := ?_, placed := ?_ }
  · rw [pending, finIds_setScope hfins]
    exact h.perm
  · exact (forall_update_iff r.scopes
      fun x v => x ∈ r.marked → v.live = true).mpr ⟨hlive, fun x _ => h.live x⟩
  · exact (forall_update_iff r.scopes
      fun x v => v.Placed (x ∈ r.marked) (x ∈ r.located ctl)).mpr ⟨hplaced, fun x _ => h.placed x⟩

theorem scopeOpen : Accounted r.scopeOpen ctl := by
  have hnew : r.next ∉ r.located ctl := fun hmem => lt_irrefl _ (h.scope_lt _ hmem)
  have hpend : r.scopeOpen.pending ctl = r.pending ctl := by
    have hfirst : r.scopeOpen.finIds r.next = [] := finIds_setScope_self
    have hrest : (r.located ctl).flatMap r.scopeOpen.finIds = (r.located ctl).flatMap r.finIds := by
      refine flatMap_congr fun x hx => finIds_setScope_of_ne ?_
      exact fun heq => hnew (heq ▸ hx)
    change r.tracked ++ (r.next :: r.located ctl).flatMap r.scopeOpen.finIds = _
    rw [flatMap_cons, hfirst, nil_append, hrest]
    rfl
  refine ⟨?_, h.keys, ?_, nodup_cons.mpr ⟨hnew, h.nodup⟩, ?_, ?_, ?_⟩
  · rw [hpend]
    exact h.perm
  · exact fun a ha => Nat.lt_succ_of_lt (h.lt_next a ha)
  · exact forall_mem_cons.mpr
      ⟨Nat.lt_succ_self _, fun x hx => Nat.lt_succ_of_lt (h.scope_lt x hx)⟩
  · refine (forall_update_iff r.scopes
      fun x v => x ∈ r.scopeOpen.marked → v.live = true).mpr ⟨fun _ => rfl, fun x hx hmem => ?_⟩
    exact h.live x ((mem_cons.mp hmem).resolve_left hx)
  · refine (forall_update_iff r.scopes fun x v =>
      v.Placed (x ∈ r.scopeOpen.marked) (x ∈ r.scopeOpen.located ctl)).mpr ⟨?_, fun x _ hlive => ?_⟩
    · exact fun _ => ⟨fun _ => mem_cons_self, fun _ => mem_cons_self⟩
    · have hold := h.placed x hlive
      exact ⟨fun hx => mem_cons_of_mem _ (hold.1 hx), fun hx => mem_cons_of_mem _ (hold.2 hx)⟩

/-- A finalizer is deferred to an open scope. -/
theorem deferred (hlive : (r.scopes sc).live = true) (hopen : (r.scopes sc).closed = false)
    (f : ℕ) : Accounted (r.deferred sc f) ctl := by
  have hmark := (h.placed sc hlive).1 hopen
  have hloc : sc ∈ r.located ctl := mem_append_left _ hmark
  have hgain : ((r.located ctl).flatMap (r.deferred sc f).finIds).Perm
      ([r.next] ++ (r.located ctl).flatMap r.finIds) :=
    flatMap_perm_of_gain h.nodup hloc (fun x hx => finIds_setScope_of_ne hx) (finIds_setScope_self)
  refine ⟨?_, h.keys_accept _, h.lt_next_accept _, h.nodup, ?_, ?_, ?_⟩
  · have hmiddle := ((hgain.append_left r.tracked).trans perm_middle).append_left r.started
    exact (hmiddle.trans perm_middle).trans (h.perm.cons r.next)
  · exact fun x hx => Nat.lt_succ_of_lt (h.scope_lt x hx)
  · exact (forall_update_iff r.scopes
      fun x v => x ∈ r.marked → v.live = true).mpr ⟨fun _ => hlive, fun x _ => h.live x⟩
  · refine (forall_update_iff r.scopes fun x v =>
      v.Placed (x ∈ r.marked) (x ∈ r.located ctl)).mpr ⟨?_, fun x _ => h.placed x⟩
    exact fun _ => ⟨fun _ => hmark, fun _ => hloc⟩

/-- The last finalizer of a scope is popped and started. -/
theorem popFin (hlive : (r.scopes sc).live = true) {fin : Fin} {fins : List Fin}
    (hfins : (r.scopes sc).fins = fin :: fins) :
    Accounted ((r.setScope sc { r.scopes sc with fins := fins }).start fin.id) ctl := by
  have hloc := (h.placed sc hlive).2 (by rw [hfins]; nofun)
  have hgain : ((r.located ctl).flatMap r.finIds).Perm ([fin.id] ++
      (r.located ctl).flatMap (r.setScope sc { r.scopes sc with fins := fins }).finIds) := by
    refine flatMap_perm_of_gain h.nodup hloc (fun x hx => (finIds_setScope_of_ne hx).symm) ?_
    rw [finIds_setScope_self, finIds, hfins]
    rfl
  refine { h with perm := ?_, live := ?_, placed := ?_ }
  · have hmiddle := ((hgain.append_left r.tracked).trans perm_middle).append_left r.started
    exact (hmiddle.trans perm_middle).symm.trans h.perm
  · exact (forall_update_iff r.scopes
      fun x v => x ∈ r.marked → v.live = true).mpr ⟨fun _ => hlive, fun x _ => h.live x⟩
  · refine (forall_update_iff r.scopes fun x v =>
      v.Placed (x ∈ r.marked) (x ∈ r.located ctl)).mpr ⟨?_, fun x _ => h.placed x⟩
    exact fun _ => ⟨(h.placed sc hlive).1, fun _ => hloc⟩

variable {rest : List Rec}

/-- The last record of the registry is a callback: it is popped and started. -/
theorem popCallback {id : ℕ} (hrecov : r.recov = .callback id f :: rest) :
    Accounted ({ r with recov := rest }.start id) ctl := by
  obtain ⟨recov, scopes, vars, next, accepted, started⟩ := r
  subst hrecov
  exact { h with perm := perm_middle.symm.trans h.perm }

/-- A marker leaves the registry for the walk, and its scope is closed. -/
theorem unmark (hrecov : r.recov.Perm (.scope sc :: rest))
    (hwalk : walked ctl' = sc :: walked ctl) (hfins : v.fins = (r.scopes sc).fins)
    (hcl : v.live = true → v.closed = true) :
    Accounted ({ r with recov := rest }.setScope sc v) ctl' := by
  set r' : Registry := { r with recov := rest }
  have htracked : r.tracked.Perm r'.tracked := hrecov.flatMap_right Rec.ids
  have hmark : r.marked.Perm (sc :: r'.marked) := hrecov.flatMap_right Rec.scopes
  have hloc : (r.located ctl).Perm (r'.located ctl') := by
    rw [located, located, hwalk]
    exact (hmark.append_right _).trans perm_middle.symm
  have hpend : (r.pending ctl).Perm ((r'.setScope sc v).pending ctl') := by
    rw [pending, pending, finIds_setScope (r := r') hfins]
    exact htracked.append (hloc.flatMap_right r.finIds)
  have hin : sc ∈ r'.located ctl' := by
    rw [located, hwalk]
    exact mem_append_right _ mem_cons_self
  refine ⟨(hpend.append_left _).symm.trans h.perm, h.keys, h.lt_next,
    hloc.nodup_iff.mp h.nodup, fun x hx => h.scope_lt x (hloc.mem_iff.mpr hx), ?_, ?_⟩
  · have hnot : sc ∉ r'.marked := by
      have hnodup := hmark.nodup_iff.mp (nodup_append.mp h.nodup).1
      exact (nodup_cons.mp hnodup).1
    refine (forall_update_iff r.scopes
      fun x v => x ∈ r'.marked → v.live = true).mpr ⟨fun hsc => absurd hsc hnot, fun x _ hx => ?_⟩
    exact h.live x (hmark.mem_iff.mpr (.tail _ hx))
  · refine (forall_update_iff r.scopes fun x v =>
      v.Placed (x ∈ r'.marked) (x ∈ r'.located ctl')).mpr ⟨fun hlive => ?_, fun x hx hlive => ?_⟩
    · rw [hcl hlive]
      exact ⟨nofun, fun _ => hin⟩
    · have hold := h.placed x hlive
      exact ⟨fun hopen => (mem_cons.mp (hmark.mem_iff.mp (hold.1 hopen))).resolve_left hx,
        fun hfins => hloc.mem_iff.mp (hold.2 hfins)⟩

/-- A scope without a marker is freed. -/
theorem free (hsc : sc ∉ r.marked) : Accounted (r.free sc) ctl :=
  h.setScope rfl (fun hmem => absurd hmem hsc) nofun

/-- A scope that was run is freed with its marker. -/
theorem close (hfins : (r.scopes sc).fins = []) :
    Accounted ((r.scopeDropMarker sc).free sc) ctl := by
  by_cases hmem : .scope sc ∈ r.recov
  · have hwalk : Accounted ((r.scopeDropMarker sc).free sc) (.recoverEnd sc :: ctl) :=
      h.unmark (perm_cons_erase hmem) rfl rfl nofun
    refine hwalk.drop (l := [sc]) rfl fun x hx => ?_
    obtain rfl := mem_singleton.mp hx
    rw [fins_free]
    exact hfins
  · have hsame : r.scopeDropMarker sc = r := by
      rw [scopeDropMarker, erase_of_not_mem hmem]
    rw [hsame]
    refine h.free fun hmark => hmem ?_
    obtain ⟨a, ha, hsc⟩ := mem_flatMap.mp hmark
    cases a with
    | callback id f => cases hsc
    | scope sc' =>
      obtain rfl := mem_singleton.mp hsc
      exact ha

theorem lt_of_started {x : ℕ} (hx : x ∈ r.started) : x < r.next := by
  obtain ⟨a, ha, rfl⟩ := mem_map.mp (h.perm.mem_iff.mp (mem_append_left _ hx))
  exact h.lt_next a ha

end

end Accounted

/-- A registration was made in one place. -/
theorem Registry.accepted_inj {r : Registry} (hkeys : (r.accepted.map Prod.fst).Nodup) {x : ℕ}
    {o o' : Option ℕ} (ho : (x, o) ∈ r.accepted) (ho' : (x, o') ∈ r.accepted) : o = o' :=
  congrArg Prod.snd (inj_on_of_nodup_map hkeys ho ho' rfl)

/-! ### Order -/

/-- Finalizers of one scope are started in the reverse order of their registration: when one is
started, all that were registered after it have been. -/
def Registry.Lifo (r : Registry) : Prop :=
  ∀ x l, x :: l <:+ r.started → ∀ y sc, (x, some sc) ∈ r.accepted → (y, some sc) ∈ r.accepted →
    x < y → y ∈ l

/-- The registry and the scopes list their entries last first. -/
structure Ordered (r : Registry) : Prop where
  tracked : ∀ id ∈ r.tracked, (id, none) ∈ r.accepted
  deferred : ∀ sc, ∀ fin ∈ (r.scopes sc).fins, (fin.id, some sc) ∈ r.accepted
  scope_lt : ∀ x sc, (x, some sc) ∈ r.accepted → sc < r.next
  seq_lt : ∀ a ∈ r.recov, a.seq < r.next
  recov : r.recov.Pairwise fun a b => b.seq < a.seq
  fins : ∀ sc, (r.scopes sc).fins.Pairwise fun a b => b.id < a.id
  closed : ∀ sc x, (x, some sc) ∈ r.accepted → x ∈ r.started → (r.scopes sc).closed = true
  lifo : r.Lifo

namespace Ordered

variable {r : Registry} {ctl : List Ins} {sc f id : ℕ}

section

variable (h : Ordered r)
include h

/-- The next registration is accepted, in an open scope or in none. -/
theorem accept (ha : Accounted r ctl) {o : Option ℕ}
    (ho : ∀ sc, o = some sc → sc < r.next ∧ (r.scopes sc).closed = false) :
    Ordered (r.accept o) := by
  refine ⟨fun id hid => .tail _ (h.tracked id hid), fun sc fin hfin => .tail _
    (h.deferred sc fin hfin),
    ?_, fun a ha => Nat.lt_succ_of_lt (h.seq_lt a ha), h.recov, h.fins, ?_, ?_⟩
  · intro x sc hx
    rcases mem_cons.mp hx with heq | hx
    · cases heq
      exact Nat.lt_succ_of_lt (ho sc rfl).1
    · exact Nat.lt_succ_of_lt (h.scope_lt x sc hx)
  · intro sc x hx hstart
    rcases mem_cons.mp hx with heq | hx
    · cases heq
      exact absurd (ha.lt_of_started hstart) (lt_irrefl _)
    · exact h.closed sc x hx hstart
  · intro x l hl y sc hx hy hxy
    have hstart : x ∈ r.started := hl.subset mem_cons_self
    rcases mem_cons.mp hx with heq | hxold
    · cases heq
      exact absurd (ha.lt_of_started hstart) (lt_irrefl _)
    rcases mem_cons.mp hy with heq | hyold
    · -- the scope is open, so none of its finalizers was started
      cases heq
      have hcl := h.closed sc x hxold hstart
      rw [(ho sc rfl).2] at hcl
      cases hcl
    · exact h.lifo x l hl y sc hxold hyold hxy

/-- A callback is started. If it was deferred to a scope, the scope is closed and the later
finalizers have been started. -/
theorem start (hid : ∀ sc, (id, some sc) ∈ r.accepted → (r.scopes sc).closed = true ∧
      ∀ y, (y, some sc) ∈ r.accepted → id < y → y ∈ r.started) : Ordered (r.start id) := by
  refine { h with closed := ?_, lifo := ?_ }
  · intro sc x hx hstart
    rcases mem_cons.mp hstart with rfl | hstart
    · exact (hid sc hx).1
    · exact h.closed sc x hx hstart
  · intro x l hl y sc hx hy hxy
    rcases suffix_cons_iff.mp hl with heq | hl
    · cases heq
      exact (hid sc hx).2 y hy hxy
    · exact h.lifo x l hl y sc hx hy hxy

theorem startTracked (hkeys : (r.accepted.map Prod.fst).Nodup) (hid : (id, none) ∈ r.accepted) :
    Ordered (r.start id) := by
  refine h.start fun sc hsc => ?_
  cases accepted_inj hkeys hid hsc

theorem acceptStart (ha : Accounted r ctl) : Ordered ((r.accept none).start r.next) :=
  (h.accept ha (o := none) nofun).startTracked (ha.keys_accept none) mem_cons_self

/-- A record is pushed. -/
theorem push {a : Rec} (hids : ∀ id ∈ a.ids, (id, none) ∈ r.accepted) (hlt : a.seq < r.next)
    (hnew : ∀ b ∈ r.recov, b.seq < a.seq) : Ordered { r with recov := a :: r.recov } := by
  refine { h with tracked := ?_, seq_lt := ?_, recov := pairwise_cons.mpr ⟨hnew, h.recov⟩ }
  · intro id hid
    rcases mem_append.mp hid with hid | hid
    · exact hids id hid
    · exact h.tracked id hid
  · exact forall_mem_cons.mpr ⟨hlt, h.seq_lt⟩

/-- Records are removed. -/
theorem sublist (hsub : rest.Sublist r.recov) : Ordered { r with recov := rest } := by
  refine { h with
    tracked := fun id hid => h.tracked id ?_
    seq_lt := fun a ha => h.seq_lt a (hsub.subset ha)
    recov := h.recov.sublist hsub }
  obtain ⟨a, ha, hid⟩ := mem_flatMap.mp hid
  exact mem_flatMap.mpr ⟨a, hsub.subset ha, hid⟩

/-- A scope changes: it is not opened again, and its finalizers are in order. -/
theorem setScope (hfins : v.fins.Pairwise fun a b => b.id < a.id)
    (hdeferred : ∀ fin ∈ v.fins, (fin.id, some sc) ∈ r.accepted)
    (hcl : ∀ x, (x, some sc) ∈ r.accepted → x ∈ r.started → v.closed = true) :
    Ordered (r.setScope sc v) := by
  refine { h with deferred := ?_, fins := ?_, closed := ?_ }
  · exact (forall_update_iff r.scopes fun x v => ∀ fin ∈ v.fins, (fin.id, some x) ∈ r.accepted).mpr
        ⟨hdeferred, fun x _ => h.deferred x⟩
  · exact (forall_update_iff r.scopes
      fun _ v => v.fins.Pairwise fun a b => b.id < a.id).mpr ⟨hfins, fun x _ => h.fins x⟩
  · exact (forall_update_iff r.scopes
      fun sc v => ∀ x, (x, some sc) ∈ r.accepted → x ∈ r.started → v.closed = true).mpr
        ⟨hcl, fun sc _ => h.closed sc⟩

/-- The flags of a scope change. -/
theorem setFlags (hfins : v.fins = (r.scopes sc).fins)
    (hcl : (r.scopes sc).closed = true → v.closed = true) : Ordered (r.setScope sc v) :=
  h.setScope (hfins ▸ h.fins sc) (hfins ▸ h.deferred sc) fun x hx hstart =>
    hcl (h.closed sc x hx hstart)

theorem free (sc : ℕ) : Ordered (r.free sc) := h.setFlags rfl id

theorem recoveryTrack (ha : Accounted r ctl) (f : ℕ) : Ordered (r.recoveryTrack f) := by
  unfold Registry.recoveryTrack
  split
  · refine (h.accept ha (o := none) nofun).push ?_ (Nat.lt_succ_self _) h.seq_lt
    intro id hid
    obtain rfl := mem_singleton.mp hid
    exact mem_cons_self
  · exact h

theorem scopeOpen : Ordered r.scopeOpen := by
  have hnext : Ordered { r with next := r.next + 1 } :=
    { h with
      scope_lt := fun x sc hx => Nat.lt_succ_of_lt (h.scope_lt x sc hx)
      seq_lt := fun a ha => Nat.lt_succ_of_lt (h.seq_lt a ha) }
  have hpush := hnext.push (a := .scope r.next) nofun (Nat.lt_succ_self _) h.seq_lt
  refine hpush.setScope (v := ⟨[], false, false, true⟩) .nil nofun fun x hx => ?_
  exact absurd (h.scope_lt x r.next hx) (lt_irrefl _)

theorem deferred_open (ha : Accounted r ctl) (hlive : (r.scopes sc).live = true)
    (hopen : (r.scopes sc).closed = false) (f : ℕ) : Ordered (r.deferred sc f) := by
  have hlt : sc < r.next := ha.scope_lt sc (mem_append_left _ ((ha.placed sc hlive).1 hopen))
  have haccept : Ordered (r.accept (some sc)) := by
    refine h.accept ha ?_
    rintro _ ⟨⟩
    exact ⟨hlt, hopen⟩
  refine haccept.setScope (pairwise_cons.mpr ⟨?_, h.fins sc⟩) ?_ (haccept.closed sc)
  · exact fun fin hfin => ha.lt_next _ (h.deferred sc fin hfin)
  · intro fin hfin
    rcases mem_cons.mp hfin with rfl | hfin
    · exact mem_cons_self
    · exact .tail _ (h.deferred sc fin hfin)

theorem popFin (ha : Accounted r ctl) (hcl : (r.scopes sc).closed = true) {fin : Fin}
    {fins : List Fin} (hfins : (r.scopes sc).fins = fin :: fins) :
    Ordered ((r.setScope sc { r.scopes sc with fins := fins }).start fin.id) := by
  have hsorted := pairwise_cons.mp (hfins ▸ h.fins sc)
  have hall : ∀ g ∈ fin :: fins, (g.id, some sc) ∈ r.accepted := hfins ▸ h.deferred sc
  have hset : Ordered (r.setScope sc { r.scopes sc with fins := fins }) :=
    h.setScope hsorted.2 (fun g hg => hall g (.tail _ hg)) (h.closed sc)
  refine hset.start fun sc' hsc' => ?_
  cases accepted_inj ha.keys (hall fin mem_cons_self) hsc'
  refine ⟨?_, fun y hy hlt => ?_⟩
  · simpa only [Registry.setScope, update_self] using hcl
  · -- a later finalizer of the scope does not wait anywhere
    have hmem := ha.perm.mem_iff.mpr (mem_map_of_mem hy)
    rcases mem_append.mp hmem with hstart | hpend
    · exact hstart
    rcases mem_append.mp hpend with htracked | hscope
    · cases accepted_inj ha.keys hy (h.tracked y htracked)
    · obtain ⟨sc', -, hin⟩ := mem_flatMap.mp hscope
      obtain ⟨g, hg, rfl⟩ := mem_map.mp hin
      cases accepted_inj ha.keys hy (h.deferred sc' g hg)
      rw [hfins] at hg
      rcases mem_cons.mp hg with rfl | hg
      · exact absurd hlt (lt_irrefl _)
      · exact absurd hlt (Nat.lt_asymm (hsorted.1 g hg))

theorem popCallback (ha : Accounted r ctl)
    (hrecov : r.recov = .callback id f :: rest) : Ordered ({ r with recov := rest }.start id) := by
  have hmem : id ∈ r.tracked := by
    rw [Registry.tracked, hrecov]
    exact mem_cons_self
  refine (h.sublist ?_).startTracked ha.keys (h.tracked id hmem)
  rw [hrecov]
  exact sublist_cons_self ..

end

end Ordered

end LibXtc.Unwind

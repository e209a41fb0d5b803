import LibXtc.Proc.Finalizers

/-!
# The depth that the open regions give

Every region that raises the mask leaves an instruction on the control stack that lowers it again,
so the stack tells which depth the mask should have: one for each such instruction down to the
innermost poll. Below a recovery walk the depth is that of the walk. A close that a fault cut off
leaves its mask to the walk, which finds the scope in the registry: such a scope is an orphan.
-/

namespace LibXtc.Unwind

open Registry List Function

/-! ### The depth of a control stack -/

/-- The instructions at which a walk or the exit path goes on. -/
def Ins.base : Ins → Bool
  | .recovRelease | .faultExit _ | .procExit | .notify => true
  | _ => false

/-- The instructions below which the mask does not count. -/
def Ins.resets : Ins → Bool
  | .bodyReturned | .restore _ => true
  | _ => false

/-- How far an instruction lowers the mask. -/
def Ins.weight : Ins → ℕ
  | .maskLeave | .acquired .. | .closeEnd _ | .cleanupEnd => 1
  | _ => 0

/-- The instructions without which the mask is left at another depth, but for the end of a close,
which the walk makes up for. -/
def Ins.owes : Ins → Bool
  | .maskLeave | .restore _ | .acquired .. | .cleanupEnd | .bodyReturned => true
  | _ => false

/-- The depth of the mask above a stack, where it is `B` at the innermost walk. -/
def level (B : ℕ) : List Ins → ℕ
  | [] => 0
  | i :: k => if i.base then B else if i.resets then 0 else level B k + i.weight

/-- The scopes that the program is closing. -/
def closes (ctl : List Ins) : List ℕ :=
  ctl.filterMap fun
    | .closeEnd sc => some sc
    | _ => none

/-- Every poll restores the depth that belongs to the stack below it. -/
def Restores (B : ℕ) : List Ins → Prop
  | [] => True
  | i :: k => (∀ d, i = .restore d → 0 < d ∧ d = level B k) ∧ Restores B k

/-- Instructions that are pushed and popped without further ado. -/
def Ins.simple : Ins → Bool
  | .op _ | .maskLeave | .acquired .. | .closeScope _ | .scopeRun _ | .recoverEnd _
  | .cleanupEnd => true
  | _ => false

section Stack

variable {B B' sc : ℕ} {i : Ins} {k l : List Ins}

theorem level_simple (hi : i.simple = true) : level B (i :: k) = level B k + i.weight := by
  cases i <;> first | rfl | cases hi

theorem level_ops (ops : List Op) : level B (ops.map .op ++ k) = level B k := by
  induction ops with
  | nil => rfl
  | cons o ops ih => exact ih

/-- A fault that cuts off only closes leaves the mask raised once for each. -/
theorem level_append (hbase : ∀ i ∈ l, i.base = false) (howes : ∀ i ∈ l, i.owes = false) :
    level B (l ++ k) = level B k + (closes l).length := by
  induction l with
  | nil => rfl
  | cons i l ih =>
    have hrest := ih (fun j hj => hbase j (.tail _ hj)) (fun j hj => howes j (.tail _ hj))
    have hb := hbase i mem_cons_self
    have ho := howes i mem_cons_self
    cases i with
    | closeEnd sc =>
      change level B (l ++ k) + 1 = level B k + ((closes l).length + 1)
      rw [hrest, Nat.add_assoc]
    | op | closeScope | scopeRun | recoverEnd => exact hrest
    | maskLeave | restore | acquired | cleanupEnd | bodyReturned => cases ho
    | recovRelease | faultExit | procExit | notify => cases hb

theorem level_congr (hk : ∀ i ∈ k, i.base = false) : level B k = level B' k := by
  induction k with
  | nil => rfl
  | cons i k ih =>
    simp only [level, hk i mem_cons_self, ih fun j hj => hk j (.tail _ hj),
      Bool.false_eq_true, if_false]

theorem closes_append : closes (l ++ k) = closes l ++ closes k :=
  filterMap_append ..

theorem closes_simple (hi : i.simple = true) : closes (i :: k) = closes k := by
  cases i <;> first | rfl | cases hi

theorem closes_ops (ops : List Op) : closes (ops.map .op ++ k) = closes k := by
  induction ops with
  | nil => rfl
  | cons o ops ih => exact ih

namespace Restores

theorem tail (h : Restores B (i :: k)) : Restores B k := h.2

theorem simple (h : Restores B k) (hi : i.simple = true) : Restores B (i :: k) := by
  refine ⟨?_, h⟩
  rintro d rfl
  cases hi

theorem ops (h : Restores B k) (ops : List Op) : Restores B (ops.map .op ++ k) := by
  induction ops with
  | nil => exact h
  | cons o ops ih => exact ih.simple rfl

theorem of_append (h : Restores B (l ++ k)) : Restores B k := by
  induction l with
  | nil => exact h
  | cons i l ih => exact ih h.tail

theorem congr (h : Restores B k) (hk : ∀ i ∈ k, i.base = false) : Restores B' k := by
  induction k with
  | nil => trivial
  | cons i k ih =>
    have htail : ∀ j ∈ k, j.base = false := fun j hj => hk j (.tail _ hj)
    refine ⟨fun d hd => ⟨(h.1 d hd).1, ?_⟩, ih h.2 htail⟩
    rw [(h.1 d hd).2]
    exact level_congr htail

end Restores

end Stack

/-! ### Markers and orphans -/

/-- The markers in the registry, and the scopes that the program is closing. -/
structure Markers (r : Registry) (ctl : List Ins) : Prop where
  nodup : r.marked.Nodup
  lt : ∀ sc ∈ r.marked, sc < r.next
  unclosed : ∀ sc, (r.scopes sc).live = true → (r.scopes sc).closed = false → sc ∈ r.marked
  closed : ∀ sc, (r.scopes sc).closing = true → (r.scopes sc).closed = true
  ends : ∀ sc ∈ closes ctl, sc ∈ r.marked ∧ (r.scopes sc).closing = true
  once : (closes ctl).Nodup

/-- The scopes whose close raised the mask and was cut off. -/
def orphans (r : Registry) (ctl : List Ins) : List ℕ :=
  r.marked.filter fun sc => (r.scopes sc).closing && !decide (sc ∈ closes ctl)

/-- The registries agree on the markers and on the flags of the scopes. -/
structure Registry.Like (r r' : Registry) : Prop where
  marked : r'.marked = r.marked
  next : r.next ≤ r'.next
  flags : ∀ sc, (r'.scopes sc).closed = (r.scopes sc).closed ∧
    (r'.scopes sc).closing = (r.scopes sc).closing ∧
    ((r'.scopes sc).live = true → (r.scopes sc).live = true)

namespace Registry.Like

variable {r r' : Registry} {sc f : ℕ}

theorem refl (r : Registry) : r.Like r := ⟨rfl, le_rfl, fun _ => ⟨rfl, rfl, id⟩⟩

theorem setScope {v : Scope} (hclosed : v.closed = (r.scopes sc).closed)
    (hcl : v.closing = (r.scopes sc).closing)
    (hlive : v.live = true → (r.scopes sc).live = true) : r.Like (r.setScope sc v) := by
  refine ⟨rfl, le_rfl, ?_⟩
  exact (forall_update_iff r.scopes fun x v => v.closed = (r.scopes x).closed ∧
    v.closing = (r.scopes x).closing ∧ (v.live = true → (r.scopes x).live = true)).mpr
      ⟨⟨hclosed, hcl, hlive⟩, fun _ _ => ⟨rfl, rfl, id⟩⟩

theorem accept (h : r.Like r') (o : Option ℕ) : r.Like (r'.accept o) :=
  { h with next := Nat.le_succ_of_le h.next }

theorem start (h : r.Like r') (id : ℕ) : r.Like (r'.start id) := { h with }

theorem recoveryTrack (r : Registry) (f : ℕ) : r.Like (r.recoveryTrack f) := by
  unfold Registry.recoveryTrack
  split
  · exact { accept (refl r) none with }
  · exact refl r

theorem scopeDefer (r : Registry) (sc f : ℕ) : r.Like (r.scopeDefer sc f) := by
  unfold Registry.scopeDefer
  split
  · exact refl r
  · exact accept (setScope (v := { r.scopes sc with fins := ⟨r.next, f⟩ :: (r.scopes sc).fins })
      rfl rfl id) (some sc)

theorem free (r : Registry) (sc : ℕ) : r.Like (r.free sc) := setScope rfl rfl nofun

theorem orphans_eq (h : r.Like r') (ctl : List Ins) : orphans r' ctl = orphans r ctl := by
  rw [orphans, orphans, h.marked]
  refine filter_congr fun sc _ => ?_
  rw [(h.flags sc).2.1]

end Registry.Like

theorem Registry.marked_scopeDropMarker (r : Registry) (sc : ℕ) :
    (r.scopeDropMarker sc).marked = r.marked.erase sc := by
  rw [marked, marked, scopeDropMarker]
  induction r.recov with
  | nil => rfl
  | cons a l ih =>
    cases a with
    | callback id f =>
      exact ih
    | scope x =>
      by_cases hx : x = sc
      · subst hx
        simp [Rec.scopes]
      · rw [erase_cons_tail (by simpa using hx)]
        simp only [flatMap_cons, Rec.scopes, singleton_append]
        rw [erase_cons_tail (by simpa using hx), ih]

namespace Markers

variable {r r' : Registry} {ctl ctl' : List Ins} {sc : ℕ}

section

variable (h : Markers r ctl)
include h

theorem control (hcloses : closes ctl' = closes ctl) : Markers r ctl' := by
  obtain ⟨h1, h2, h3, h4, h5, h6⟩ := h
  rw [← hcloses] at h5 h6
  exact ⟨h1, h2, h3, h4, h5, h6⟩

theorem of_sublist (hcloses : (closes ctl').Sublist (closes ctl)) : Markers r ctl' :=
  { h with
    ends := fun sc hsc => h.ends sc (hcloses.subset hsc)
    once := hcloses.nodup h.once }

theorem like (hlike : r.Like r') : Markers r' ctl := by
  refine ⟨?_, ?_, ?_, ?_, ?_, h.once⟩
  · rw [hlike.marked]
    exact h.nodup
  · rw [hlike.marked]
    exact fun sc hsc => lt_of_lt_of_le (h.lt sc hsc) hlike.next
  · intro sc hlive hclosed
    rw [hlike.marked]
    exact h.unclosed sc ((hlike.flags sc).2.2 hlive) ((hlike.flags sc).1 ▸ hclosed)
  · intro sc hcl
    rw [(hlike.flags sc).1]
    exact h.closed sc ((hlike.flags sc).2.1 ▸ hcl)
  · intro sc hsc
    rw [hlike.marked, (hlike.flags sc).2.1]
    exact h.ends sc hsc

theorem scopeOpen : Markers r.scopeOpen ctl ∧ orphans r.scopeOpen ctl = orphans r ctl := by
  have hnew : r.next ∉ r.marked := fun hmem => lt_irrefl _ (h.lt _ hmem)
  have hother : ∀ x ∈ r.marked, r.scopeOpen.scopes x = r.scopes x := fun x hx =>
    update_of_ne (Nat.ne_of_lt (h.lt x hx)) ..
  refine ⟨⟨nodup_cons.mpr ⟨hnew, h.nodup⟩, ?_, ?_, ?_, ?_, h.once⟩, ?_⟩
  · exact forall_mem_cons.mpr ⟨Nat.lt_succ_self _, fun x hx => Nat.lt_succ_of_lt (h.lt x hx)⟩
  · refine (forall_update_iff r.scopes fun x v => v.live = true → v.closed = false →
      x ∈ r.scopeOpen.marked).mpr ⟨fun _ _ => mem_cons_self, fun x _ hlive hcl => ?_⟩
    exact mem_cons_of_mem _ (h.unclosed x hlive hcl)
  · exact (forall_update_iff r.scopes fun _ v => v.closing = true →
      v.closed = true).mpr ⟨nofun, fun x _ => h.closed x⟩
  · intro x hx
    rw [hother x (h.ends x hx).1]
    exact ⟨mem_cons_of_mem _ (h.ends x hx).1, (h.ends x hx).2⟩
  · have hself : r.scopeOpen.scopes r.next = ⟨[], false, false, true⟩ := update_self ..
    change (r.next :: r.marked).filter _ = _
    rw [filter_cons_of_neg (by rw [hself]; simp)]
    exact filter_congr fun x hx => by rw [hother x hx]

/-- The program closes a scope: it is no orphan, before and after. -/
theorem scopeClose (hlive : (r.scopes sc).live = true) (hclosed : (r.scopes sc).closed = false)
    {v : Scope} (hv : v.closed = true ∧ v.closing = true)
    (hcloses : closes ctl' = sc :: closes ctl) :
    Markers (r.setScope sc v) ctl' ∧ orphans (r.setScope sc v) ctl' = orphans r ctl := by
  have hmark := h.unclosed sc hlive hclosed
  have hcl : (r.scopes sc).closing = false := by
    cases hc : (r.scopes sc).closing with
    | false => rfl
    | true => exact (Bool.false_ne_true (hclosed ▸ h.closed sc hc)).elim
  have hnot : sc ∉ closes ctl := fun hmem => by
    rw [(h.ends sc hmem).2] at hcl
    cases hcl
  have hself : (r.setScope sc v).scopes sc = v := update_self ..
  have hother : ∀ x, x ≠ sc → (r.setScope sc v).scopes x = r.scopes x := fun x hx =>
    update_of_ne hx ..
  refine ⟨⟨h.nodup, h.lt, ?_, ?_, ?_, ?_⟩, ?_⟩
  · exact (forall_update_iff r.scopes fun x v => v.live = true → v.closed = false →
      x ∈ r.marked).mpr ⟨fun _ _ => hmark, fun x _ => h.unclosed x⟩
  · exact (forall_update_iff r.scopes fun _ v => v.closing = true →
      v.closed = true).mpr ⟨fun _ => hv.1, fun x _ => h.closed x⟩
  · intro x hx
    rw [hcloses] at hx
    by_cases heq : x = sc
    · subst heq
      rw [hself]
      exact ⟨hmark, hv.2⟩
    · rw [hother x heq]
      exact h.ends x ((mem_cons.mp hx).resolve_left heq)
  · rw [hcloses]
    exact nodup_cons.mpr ⟨hnot, h.once⟩
  · refine filter_congr fun x _ => ?_
    by_cases heq : x = sc
    · subst heq
      simp [hcloses, hcl]
    · simp [hcloses, heq, hother x heq]

/-- The marker of a scope is dropped and the scope freed. -/
theorem dropMarker (hsc : sc ∉ closes ctl) : Markers ((r.scopeDropMarker sc).free sc) ctl ∧
      orphans ((r.scopeDropMarker sc).free sc) ctl = (orphans r ctl).filter (· != sc) := by
  have hmark : ((r.scopeDropMarker sc).free sc).marked = r.marked.filter (· != sc) := by
    rw [← h.nodup.erase_eq_filter sc, ← marked_scopeDropMarker]
    rfl
  have hflags := (Registry.Like.free (r.scopeDropMarker sc) sc).flags
  refine ⟨⟨?_, ?_, ?_, ?_, ?_, h.once⟩, ?_⟩
  · rw [hmark]
    exact h.nodup.filter _
  · rw [hmark]
    exact fun x hx => h.lt x (mem_of_mem_filter hx)
  · intro x hlive hclosed
    have hne : x ≠ sc := by
      rintro rfl
      simp [free, setScope] at hlive
    rw [hmark]
    refine mem_filter.mpr ⟨h.unclosed x ((hflags x).2.2 hlive) ?_, by simpa using hne⟩
    rwa [(hflags x).1] at hclosed
  · intro x hcl
    rw [(hflags x).2.1] at hcl
    rw [(hflags x).1]
    exact h.closed x hcl
  · intro x hx
    have hne : x ≠ sc := fun heq => hsc (heq ▸ hx)
    rw [hmark, (hflags x).2.1]
    exact ⟨mem_filter.mpr ⟨(h.ends x hx).1, by simpa using hne⟩, (h.ends x hx).2⟩
  · rw [orphans, hmark, filter_filter, orphans, filter_filter]
    refine filter_congr fun x _ => ?_
    rw [(hflags x).2.1, Bool.and_comm]
    rfl

end

/-- The close ends. -/
theorem closeEnd (h : Markers r (.closeEnd sc :: ctl)) :
    Markers ((r.scopeDropMarker sc).free sc) ctl ∧
      orphans ((r.scopeDropMarker sc).free sc) ctl = orphans r (.closeEnd sc :: ctl) := by
  have honce : sc ∉ closes ctl ∧ (closes ctl).Nodup := nodup_cons.mp h.once
  have hctl : Markers r ctl := h.of_sublist (sublist_cons_self sc (closes ctl))
  refine ⟨(hctl.dropMarker honce.1).1, (hctl.dropMarker honce.1).2.trans ?_⟩
  rw [orphans, filter_filter, orphans]
  refine filter_congr fun x _ => ?_
  by_cases heq : x = sc
  · simp [heq, closes]
  · simp [heq, closes]

/-- A scope is opened and closed again at once. -/
theorem openFree (h : Markers r ctl) :
    Markers ((r.scopeOpen.scopeDropMarker r.next).free r.next) ctl ∧
      orphans ((r.scopeOpen.scopeDropMarker r.next).free r.next) ctl = orphans r ctl := by
  have hnew : r.next ∉ r.marked := fun hmem => lt_irrefl _ (h.lt _ hmem)
  have hdrop := h.scopeOpen.1.dropMarker fun hmem => hnew (h.ends r.next hmem).1
  refine ⟨hdrop.1, hdrop.2.trans ?_⟩
  rw [h.scopeOpen.2, filter_eq_self]
  intro x hx
  simpa using Nat.ne_of_lt (h.lt x (mem_of_mem_filter hx))

/-- The walk takes the marker of a scope. If it is an orphan, there is one less. -/
theorem unmark (h : Markers r ctl) {rest : List Rec} (hrecov : r.recov = .scope sc :: rest)
    (hcloses : closes ctl = []) {r' : Registry}
    (hr' : r' = { r with recov := rest }.setScope sc { r.scopes sc with closed := true }) :
    Markers r' ctl ∧ (orphans r ctl).length =
      (orphans r' ctl).length + if (r.scopes sc).closing then 1 else 0 := by
  have hmark : r.marked = sc :: r'.marked := by
    rw [marked, hrecov, hr']
    rfl
  have hnodup := h.nodup
  rw [hmark] at hnodup
  obtain ⟨hnot, hrest⟩ := nodup_cons.mp hnodup
  have hother : ∀ x, x ≠ sc → r'.scopes x = r.scopes x := fun x hx => by
    rw [hr']
    exact update_of_ne hx ..
  have hself : r'.scopes sc = { r.scopes sc with closed := true } := by
    rw [hr']
    exact update_self ..
  refine ⟨⟨hrest, ?_, ?_, ?_, ?_, ?_⟩, ?_⟩
  · intro x hx
    have hlt := h.lt x (hmark ▸ .tail _ hx)
    rw [hr']
    exact hlt
  · intro x hlive hclosed
    by_cases hx : x = sc
    · subst hx
      rw [hself] at hclosed
      cases hclosed
    · rw [hother x hx] at hlive hclosed
      have hold := h.unclosed x hlive hclosed
      rw [hmark] at hold
      exact (mem_cons.mp hold).resolve_left hx
  · intro x hcl
    by_cases hx : x = sc
    · subst hx
      rw [hself]
    · rw [hother x hx] at hcl ⊢
      exact h.closed x hcl
  · rw [hcloses]
    exact nofun
  · rw [hcloses]
    exact .nil
  · have hsame : r'.marked.filter (fun x => (r.scopes x).closing && !decide (x ∈ closes ctl)) =
        orphans r' ctl :=
      filter_congr fun x hx => by rw [hother x fun heq => hnot (heq ▸ hx)]
    rw [orphans, hmark, filter_cons, hsame]
    cases hcl : (r.scopes sc).closing <;> simp [hcloses]

end Markers

end LibXtc.Unwind

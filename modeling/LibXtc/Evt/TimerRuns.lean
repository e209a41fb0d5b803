import LibXtc.Evt.TimerSafety

/-!
# What the loop and the pushes keep

The steps of the drain move the heap's reference of a due timer into the loop's hand, and let go of
it after the fire; a push adds a timer; a sweep drops the cancelled ones and orders the rest again.
-/

namespace LibXtc.Timers

open Foundations Option State List Function

variable {s s' : State} {t u i created : ℕ} {f : Fiber} {r : Timer} {now : ℤ} {d drain : Drain}
  {timer : ℕ → Timer} {ok : Bool}

/-! ## Steps of the loop -/

theorem view_setDrain (h : drain.hasSlot t = s.drain.hasSlot t) : view { s with drain := drain } t =
    { s.view t with inHand := drain.inHand t, isPopped := drain.isPopped t } := by
  unfold view held
  rw [h]

/-- Nothing of a timer is in the hand of the drain. -/
theorem view_of_not_inHand (h : s.drain.inHand t = false) :
    { s.view t with inHand := false, isPopped := false } = s.view t := by
  have hpop : s.drain.isPopped t = false :=
    Bool.eq_false_iff.mpr fun hpop => Bool.eq_false_iff.mp h (Drain.inHand_of_isPopped hpop)
  unfold view
  rw [h, hpop]

section

variable (h : Ok s)
include h

/-- The loop goes on, with the references that it has. -/
theorem Ok.setDrain {drained : List ℤ} {armedEarly : Bool}
    (hhand : ∀ t, drain.inHand t = s.drain.inHand t)
    (hpop : ∀ t, drain.isPopped t = s.drain.isPopped t)
    (hslot : ∀ t, drain.hasSlot t = s.drain.hasSlot t)
    (hwake : ∀ now t w, drain = .wake now t w → (s.timer t).waiter = some w)
    (horder : OrderOk s.heap s.timer drain s.sweep drained armedEarly) :
    Ok { s with drain := drain, drained := drained, armedEarly := armedEarly } := by
  refine { h with
      views := fun t ht => ?_, drain := ⟨fun t ht => ?_, hwake, fun t ht => ?_⟩, order := horder }
  · have hview := view_setDrain (hslot t)
    rw [hhand, hpop] at hview
    exact hview ▸ h.views t ht
  · rw [hhand] at ht
    exact h.drain.known t ht
  · rw [hslot] at ht
    exact h.drain.slot t ht

theorem Ok.sweep_eq_none (hdr : s.drain = d) (hidle : d ≠ .idle := by rintro ⟨⟩)
    (hcb : ∀ now t, d ≠ .callback now t := by rintro _ _ ⟨⟩) : s.sweep = none := by
  cases hsw : s.sweep with
  | none => rfl
  | some w =>
    rcases h.order.alone (by rw [hsw]; rfl) with hquiet | ⟨now, t, hquiet⟩
    · exact absurd (hdr.symm.trans hquiet) hidle
    · exact absurd (hdr.symm.trans hquiet) (hcb now t)

/-- The root is in the heap, with the smallest deadline. -/
theorem Ok.root (hsw : s.sweep = none) (hsize : s.heap.size ≠ 0) :
    s.heap.find s.root = some (s.heap.slots 0).1 ∧
      ∀ t k, s.heap.find t = some k → (s.heap.slots 0).1 ≤ k := by
  have hvalid := h.valid hsw
  have hpos : 0 < s.heap.size := Nat.pos_of_ne_zero hsize
  refine ⟨?_, fun t k hk => ?_⟩
  · unfold IndexedHeap.find State.root
    rw [hvalid.index_item 0 hpos]
    rfl
  · obtain ⟨j, hj, rfl⟩ := map_eq_some_iff.mp hk
    exact hvalid.root_le (hvalid.item_index t j hj).1

theorem Ok.pop_spec (hsw : s.sweep = none) (hsize : s.heap.size ≠ 0) :
    s.heap.popRoot.Valid ∧ s.heap.popRoot.size = s.heap.size - 1 ∧
      ∀ t, s.heap.popRoot.find t = s.heap.findWithout s.root t := by
  rw [IndexedHeap.popRoot_eq]
  exact IndexedHeap.removeAt_spec (h.valid hsw) (Nat.pos_of_ne_zero hsize)

/-- The loop drops a cancelled timer from the root. -/
theorem Ok.dropRoot (hdr : s.drain = d) (hsw : s.sweep = none) (hsize : s.heap.size ≠ 0)
    (hcan : (s.timer s.root).fired = .cancelled)
    (hclaim : ∀ now, d ≠ .claim now := by rintro _ ⟨⟩)
    (hpop : ∀ now u, d ≠ .popped now u := by rintro _ _ ⟨⟩) : Ok (s.pop.release s.root) := by
  obtain ⟨hvalid, -, hfind⟩ := h.pop_spec hsw hsize
  refine h.drop hfind ?_ hcan (fun _ => hvalid) (fun w hw => absurd (hsw.symm.trans hw) nofun) id
    (by rwa [hdr]) (by rwa [hdr])
  rw [(h.root hsw hsize).1]
  rfl

/-- The loop claims the due timer at the root and pops it. -/
theorem Ok.claim (hdr : s.drain = .claim now) (hsw : s.sweep = none)
    (hfired : (s.timer s.root).fired = .pending) :
    Ok { (s.modify s.root fun r => { r with fired := .fired }).pop with
      drain := .popped now s.root } := by
  obtain ⟨hpos, hdue⟩ := h.order.claim now hdr
  have hsize : s.heap.size ≠ 0 := Nat.ne_of_gt hpos
  obtain ⟨hroot, hmin⟩ := h.root hsw hsize
  obtain ⟨hvalid, -, hfind⟩ := h.pop_spec hsw hsize
  obtain ⟨ht, hdl⟩ := h.key _ _ hroot
  have hsub (u : ℕ) (k : ℤ) (hu : s.heap.popRoot.find u = some k) : s.heap.find u = some k := by
    rw [hfind] at hu
    exact IndexedHeap.find_of_findWithout hu
  have hsame {α : Type} (p : Timer → α)
      (hp : p { s.timer s.root with fired := .fired } = p (s.timer s.root)) :
      p ((s.modify s.root fun r => { r with fired := .fired }).timer s.root) =
        p (s.timer s.root) := modify_same p hp s.root
  have hview (u : ℕ) : view { (s.modify s.root fun r => { r with fired := .fired }).pop with
      drain := .popped now s.root } u =
      { (s.modify s.root fun r => { r with fired := .fired }).pop.view u with
        inHand := decide (s.root = u), isPopped := decide (s.root = u) } :=
    view_setDrain (congrArg (Drain.hasSlot u) hdr).symm
  have ho : Only s.root s { (s.modify s.root fun r => { r with fired := .fired }).pop with
      drain := .popped now s.root } := by
    refine ⟨rfl, rfl, fun u hut => ?_, hsame Timer.waiter rfl, hsame Timer.deadline rfl,
      fun hold => ?_, hsub⟩
    · have hsame : (s.modify s.root fun r => { r with fired := .fired }).pop.view u = s.view u :=
        (view_unqueue_ne (s := s.modify s.root _) hfind hut).trans (view_modify_ne hut)
      rw [hview, hsame, decide_eq_false (Ne.symm hut), view_of_not_inHand (by rw [hdr]; rfl)]
    · rw [hfired] at hold
      cases hold
  refine h.only ho ht ?_ (fun _ => hvalid) (fun w hw => absurd (hsw.symm.trans hw) nofun)
    (fun i f hf => ho.fiberOk (h.fibers i f hf) fun _ => hsame Timer.handle rfl)
    ⟨fun u hu => ?_, nofun, nofun⟩ ⟨?_, h.order.sorted, ?_, nofun, ?_, fun hsome => ?_⟩
  · have hself : (s.modify s.root fun r => { r with fired := .fired }).pop.view s.root =
        { (s.modify s.root fun r => { r with fired := .fired }).view s.root with
          queued := false, left := (s.view s.root).left + 1 } := view_unqueue_self hfind
    rw [hview, hself, view_modify_self rfl rfl, decide_eq_true rfl]
    exact (h.views _ ht).claim hfired
  · have hu : s.root = u := of_decide_eq_true hu
    rw [← hu]
    exact ht
  · intro now' hnow
    cases hnow
    exact h.order.le_now now (by rw [hdr]; rfl)
  · intro hearly _ d hd u k hu
    exact h.order.above hearly (by rw [hdr]; rfl) d hd u k (hsub u k hu)
  · intro now' t ht'
    cases ht'
    refine ⟨?_, fun hearly d hd => ?_, fun u k hu => ?_⟩
    · refine le_of_eq_of_le (hsame Timer.deadline rfl) ?_
      rw [← hdl]
      exact hdue
    · refine le_of_le_of_eq ?_ (hsame Timer.deadline rfl).symm
      rw [← hdl]
      exact h.order.above hearly (by rw [hdr]; rfl) d hd _ _ hroot
    · refine le_of_eq_of_le (hsame Timer.deadline rfl) ?_
      rw [← hdl]
      exact hmin u k (hsub u k hu)
  · have hsome : s.sweep.isSome = true := hsome
    rw [hsw] at hsome
    cases hsome

/-- The claimed timer fires. -/
theorem Ok.fire (hdr : s.drain = .popped now t) :
    Ok { s.modify t fun r => { r with fired := .fired } with
      drain := .callback now t
      fires := s.fires ++ [t]
      drained := s.drained ++ [(s.timer t).deadline] } := by
  obtain ⟨hdue, hlast, hnext⟩ := h.order.popped now t hdr
  have hpop : s.drain.isPopped t = true := by
    rw [hdr]
    exact decide_eq_true rfl
  have ht : t < s.created := h.drain.known t (Drain.inHand_of_isPopped hpop)
  have hfired : (s.timer t).fired = .fired :=
    (h.views t ht).inHand (Drain.inHand_of_isPopped hpop)
  have hrecord : ({ s.timer t with fired := .fired } : Timer) = s.timer t := by
    rw [← hfired]
  rw [show (s.modify t fun r => { r with fired := .fired }) = s by
    rw [State.modify, hrecord, update_eq_self]]
  have hhand (u : ℕ) : Drain.inHand u (.callback now t) = s.drain.inHand u := by
    rw [hdr]
    rfl
  have hview (u : ℕ) : view { s with
      drain := .callback now t
      fires := s.fires ++ [t]
      drained := s.drained ++ [(s.timer t).deadline] } u =
      { s.view u with isPopped := false, fires := (s.fires ++ [t]).count u } := by
    unfold view held
    rw [hdr]
    rfl
  have ho : Only t s { s with
      drain := .callback now t
      fires := s.fires ++ [t]
      drained := s.drained ++ [(s.timer t).deadline] } := by
    refine ⟨rfl, rfl, fun u hut => ?_, rfl, rfl, id, fun _ _ hd => hd⟩
    rw [hview]
    simp [view, hdr, Drain.isPopped, Ne.symm hut]
  refine h.only ho ht ?_ h.valid h.sweep h.fibers ⟨fun u hu => ?_, nofun, nofun⟩
    ⟨?_, fun hearly => ?_, ?_, nofun, nofun, fun _ => .inr ⟨now, t, rfl⟩⟩
  · have hok := (h.views t ht).fire hpop
    rw [show ({ (s.view t).timer with fired := .fired } : Timer) = (s.view t).timer from
      hrecord] at hok
    rw [hview, count_concat_self]
    exact hok
  · exact h.drain.known u ((hhand u).symm.trans hu)
  · intro now' hnow d hd
    cases hnow
    rcases mem_append.mp hd with hd | hd
    · exact h.order.le_now now (by rw [hdr]; rfl) d hd
    · rw [mem_singleton.mp hd]
      exact hdue
  · refine pairwise_append.mpr ⟨h.order.sorted hearly, pairwise_singleton _ _, ?_⟩
    intro d hd d' hd'
    rw [mem_singleton.mp hd']
    exact hlast hearly d hd
  · intro hearly _ d hd u k hu
    rcases mem_append.mp hd with hd | hd
    · exact h.order.above hearly (by rw [hdr]; rfl) d hd u k hu
    · rw [mem_singleton.mp hd]
      exact hnext u k hu

/-- The drain lets go of the heap's reference. -/
theorem Ok.letGo (hdr : s.drain = .letGo now t) : Ok { s.release t with drain := .top now } := by
  have hhand : s.drain.inHand t = true := by
    rw [hdr]
    exact decide_eq_true rfl
  have ht : t < s.created := h.drain.known t hhand
  have hpop (u : ℕ) : (s.view u).isPopped = false := by
    show s.drain.isPopped u = false
    rw [hdr]
    rfl
  have hview (u : ℕ) : view { s.release t with drain := .top now } u =
      { (s.release t).view u with inHand := false, isPopped := false } := by
    exact view_setDrain (congrArg (Drain.hasSlot u) hdr).symm
  have ho : Only t s { s.release t with drain := .top now } := by
    refine only_release rfl rfl rfl (fun _ _ hd => hd) fun u hut => ?_
    rw [hview, view_release_ne hut, view_of_not_inHand]
    rw [hdr]
    exact decide_eq_false (Ne.symm hut)
  refine h.only ho ht ?_ h.valid h.sweep
    (fun i f hf => ho.fiberOk_release rfl (h.fibers i f hf)) ⟨nofun, nofun, nofun⟩
    ((h.order.move (.top now) (h.sweep_eq_none hdr nofun nofun) (.inr (by rw [hdr]; rfl))
      nofun nofun).retime (ho.same ho.deadline))
  · have hok := (h.views t ht).letGo hhand (hpop t)
    rw [hview, view_release_self]
    rw [View.release, hpop] at hok
    exact hok

/-- The drain takes the timer out of the waiter's slot. -/
theorem Ok.takeSlot {w : ℕ} (hdr : s.drain = .wake now t w) (hf : s.fibers[w]? = some f)
    (hslot : f.parkTimer = some t) :
    Ok { s.put w { f with parkTimer := none } with drain := .releaseSlot now t } := by
  have hhand (u : ℕ) : Drain.inHand u (.releaseSlot now t) = s.drain.inHand u := by
    rw [hdr]
    rfl
  have hw : (s.timer t).waiter = some w := h.drain.wake now t w hdr
  have hfiber := h.fibers w f hf
  have hpc (u : ℕ) : f.pc.holds u = false := by
    cases hu : f.pc.holds u with
    | false => rfl
    | true =>
      have hnone := hfiber.slot u hu
      rw [hslot] at hnone
      cases hnone
  have hnothing (u : ℕ) : Fiber.holds { f with parkTimer := none } u = false := by
    simp [hpc]
  have hsweep : s.sweep = none := h.sweep_eq_none hdr nofun nofun
  refine ⟨h.valid, fun _ hsw => absurd (hsweep.symm.trans hsw) nofun, h.key, h.pushed, h.old,
    fun u hu => ?_,
    forall_put ⟨fun _ _ => rfl, fun u hu => ?_, hfiber.handle, hfiber.cancelled⟩
      fun j g _ hg => h.fibers j g hg,
    ⟨fun u hu => h.drain.known u ((hhand u).symm.trans hu), nofun, fun u hu => ?_⟩,
    h.order.move _ hsweep (.inr (by rw [hdr]; rfl)) nofun nofun⟩
  · have hheld : held { s.put w { f with parkTimer := none } with
        drain := .releaseSlot now t } u = s.held u := by
      by_cases hut : u = t
      · subst hut
        have hbefore : s.held u = true := by
          unfold held
          simp only [hw, hf, any_some, Fiber.holds, hslot, decide_true, Bool.true_or]
        have hafter : Drain.hasSlot u (.releaseSlot now u) = true := decide_eq_true rfl
        rw [hbefore]
        unfold held
        dsimp only [State.put]
        simp only [hw, hafter, Bool.or_true]
      · have hslotu : Drain.hasSlot u (.releaseSlot now t) = s.drain.hasSlot u := by
          rw [hdr]
          exact decide_eq_false (Ne.symm hut)
        have hholds : Fiber.holds { f with parkTimer := none } u = f.holds u := by
          simp [hslot, Ne.symm hut]
        have hview := view_put hf hholds
        exact (congrArg View.held (view_setDrain (s := s.put w _) hslotu)).trans
          (congrArg View.held hview)
    have hpop : Drain.isPopped u (.releaseSlot now t) = s.drain.isPopped u := by
      rw [hdr]
      rfl
    unfold view
    rw [hheld]
    rw [hhand, hpop]
    exact h.views u hu
  · rw [hnothing u] at hu
    cases hu
  · have hu : t = u := of_decide_eq_true hu
    subst hu
    refine ⟨w, hw, fun g hg => ?_⟩
    cases (getElem?_put_self hf).symm.trans hg
    exact hnothing t

/-- The drain drops the slot's reference that it has taken. -/
theorem Ok.releaseSlot (hdr : s.drain = .releaseSlot now t) :
    Ok { s.release t with drain := .letGo now t } := by
  have hhasSlot : s.drain.hasSlot t = true := by
    rw [hdr]
    exact decide_eq_true rfl
  have ht : t < s.created := h.drain.known t (Drain.inHand_of_hasSlot hhasSlot)
  obtain ⟨w, hw, hnot⟩ := h.drain.slot t hhasSlot
  have hhand (u : ℕ) : Drain.inHand u (.letGo now t) = s.drain.inHand u := by
    rw [hdr]
    rfl
  have hview (u : ℕ) : view { s.release t with drain := .letGo now t } u =
      { (s.release t).view u with
        held := held { s.release t with drain := .letGo now t } u } := by
    have hpop : Drain.isPopped u (.letGo now t) = s.drain.isPopped u := by
      rw [hdr]
      rfl
    unfold view
    rw [hhand, hpop]
    rfl
  have ho : Only t s { s.release t with drain := .letGo now t } := by
    refine only_release rfl rfl rfl (fun _ _ hd => hd) fun u hut => ?_
    have hslot : Drain.hasSlot u (.letGo now t) = s.drain.hasSlot u := by
      rw [hdr]
      exact (decide_eq_false (Ne.symm hut)).symm
    rw [hview, show held { s.release t with drain := .letGo now t } u = _ from
      congrArg View.held (view_setDrain (s := s.release t) hslot)]
    exact view_release_ne hut
  refine h.only ho ht ?_ h.valid h.sweep (fun i f hf => ho.fiberOk_release rfl (h.fibers i f hf))
    ⟨fun u hu => h.drain.known u ((hhand u).symm.trans hu), nofun, nofun⟩
    ((h.order.move (.letGo now t) (h.sweep_eq_none hdr nofun nofun) (.inr (by rw [hdr]; rfl))
      nofun nofun).retime (ho.same ho.deadline))
  · have hheld : s.held t = true := by
      unfold held
      simp only [hw, hhasSlot, Bool.or_true]
    have hgone : held { s.release t with drain := .letGo now t } t = false := by
      have hany : s.fibers[w]?.any (fun f => f.holds t) = false := by
        cases hf : s.fibers[w]? with
        | none => rfl
        | some f => exact hnot f hf
      have hwaiter' : ((s.release t).timer t).waiter = some w := ho.waiter.trans hw
      have hfibers : (s.release t).fibers = s.fibers := rfl
      unfold held
      simp only [hwaiter', hfibers, hany]
      rfl
    rw [hview, hgone, view_release_self]
    exact (h.views t ht).unhold hheld

/-- Nothing depends on the timeout of the poll. -/
theorem Ok.setTimeout {timeout : Option ℤ} : Ok { s with timeout := timeout } :=
  { h with }

theorem Ok.setNow : Ok { s with now := now } :=
  { h with }

/-- The loop goes from one place to another with no timer in its hand, or with the same. -/
theorem Ok.moveDrain (e : Drain) (hdr : s.drain = d) (hsw : s.sweep = none)
    (htime : e.time = none ∨ e.time = d.time)
    (hwake : ∀ now t w, e = .wake now t w → (s.timer t).waiter = some w := by rintro _ _ _ ⟨⟩)
    (hclaim : ∀ now, e = .claim now → 0 < s.heap.size ∧ (s.heap.slots 0).1 ≤ now := by rintro _ ⟨⟩)
    (hnot : ∀ now t, e ≠ .popped now t := by rintro _ _ ⟨⟩)
    (hhand : ∀ t, e.inHand t = d.inHand t := by exact fun _ => rfl)
    (hpop : ∀ t, e.isPopped t = d.isPopped t := by exact fun _ => rfl)
    (hslot : ∀ t, e.hasSlot t = d.hasSlot t := by exact fun _ => rfl) :
    Ok { s with drain := e } := by
  subst hdr
  exact h.setDrain hhand hpop hslot hwake (h.order.move e hsw htime hclaim hnot)

theorem Ok.drainStep (hs' : s.drainStep = some s') : Ok s' := by
  unfold State.drainStep at hs'
  cases hdr : s.drain with
  | idle =>
    rw [hdr] at hs'
    cases hs'
  | top now =>
    have hsw : s.sweep = none := h.sweep_eq_none hdr
    simp only [hdr] at hs'
    split at hs'
    · cases hs'
      exact h.moveDrain .idle hdr hsw (.inl rfl)
    · rename_i hsize
      split at hs'
      · rename_i hcan
        cases hs'
        exact h.dropRoot hdr hsw hsize hcan
      · split at hs' <;> cases hs'
        · exact h.moveDrain .idle hdr hsw (.inl rfl)
        · rename_i hdue
          refine h.moveDrain (.claim now) hdr hsw (.inr rfl) nofun fun now' hnow => ?_
          cases hnow
          exact ⟨Nat.pos_of_ne_zero hsize, Int.not_lt.mp hdue⟩
  | claim now =>
    have hsw : s.sweep = none := h.sweep_eq_none hdr
    have hsize : s.heap.size ≠ 0 := Nat.ne_of_gt (h.order.claim now hdr).1
    simp only [hdr] at hs'
    split at hs' <;> cases hs'
    · rename_i hpend
      exact h.claim hdr hsw hpend
    · rename_i hpend
      -- A cancel came first: the timer is still queued, so it has not fired.
      have hroot := (h.root hsw hsize).1
      have hview := h.views _ (h.key _ _ hroot).1
      have hcan : (s.timer s.root).fired = .cancelled := by
        cases hfired : (s.timer s.root).fired with
        | pending => exact absurd hfired hpend
        | cancelled => rfl
        | fired =>
          have hqueue : (s.heap.find s.root).isSome = false := hview.fired hfired
          rw [hroot] at hqueue
          cases hqueue
      have htop : Ok { s with drain := .top now } := h.moveDrain (.top now) hdr hsw (.inr rfl)
      exact htop.dropRoot rfl hsw hsize hcan
  | popped now t =>
    have hpop : s.drain.isPopped t = true := by
      rw [hdr]
      exact decide_eq_true rfl
    have hhand := Drain.inHand_of_isPopped hpop
    have hview := h.views t (h.drain.known t hhand)
    simp only [hdr] at hs'
    split at hs' <;> cases hs'
    · rename_i hcan
      have hfired : (s.timer t).fired = .fired := hview.inHand hhand
      have hmark : (s.timer t).fired = .cancelled := hview.marked hcan
      rw [hfired] at hmark
      cases hmark
    · exact h.fire hdr
  | callback now t =>
    simp only [hdr] at hs'
    split at hs'
    case isFalse => cases hs'
    rename_i hnone
    have hsw : s.sweep = none := isNone_iff_eq_none.mp hnone
    split at hs' <;> cases hs'
    · rename_i w hwaiter
      refine h.moveDrain (.wake now t w) hdr hsw (.inr rfl) fun now' u w' hw => ?_
      cases hw
      exact hwaiter
    · exact h.moveDrain (.letGo now t) hdr hsw (.inr rfl)
  | wake now t w =>
    have hsw : s.sweep = none := h.sweep_eq_none hdr
    have hgo : Ok { s with drain := .letGo now t } :=
      h.moveDrain (.letGo now t) hdr hsw (.inr rfl)
    simp only [hdr] at hs'
    split at hs'
    · rename_i f hf
      split at hs' <;> cases hs'
      · rename_i hslot
        exact h.takeSlot hdr hf hslot
      · exact hgo
    · cases hs'
      exact hgo
  | releaseSlot now t =>
    simp only [hdr] at hs'
    cases hs'
    exact h.releaseSlot hdr
  | letGo now t =>
    simp only [hdr] at hs'
    cases hs'
    exact h.letGo hdr
  | peek now =>
    have hsw : s.sweep = none := h.sweep_eq_none hdr
    have hidle : Ok { s with drain := .idle } := h.moveDrain .idle hdr hsw (.inl rfl)
    simp only [hdr] at hs'
    split at hs'
    · cases hs'
      exact hidle.setTimeout
    · rename_i hsize
      split at hs' <;> cases hs'
      · rename_i hcan
        exact h.dropRoot hdr hsw hsize hcan
      · exact hidle.setTimeout

end

/-! ## Arming -/

/-- The loop is not in its drain, or in a callback of it. -/
def Drain.Quiet (d : Drain) : Prop := d = .idle ∨ ∃ now t, d = .callback now t

theorem Drain.Quiet.ne_claim (h : d.Quiet) (now : ℤ) : d ≠ .claim now := by
  rcases h with rfl | ⟨_, _, rfl⟩ <;> nofun

theorem Drain.Quiet.ne_popped (h : d.Quiet) (now : ℤ) (t : ℕ) : d ≠ .popped now t := by
  rcases h with rfl | ⟨_, _, rfl⟩ <;> nofun

theorem Drain.Quiet.ne_wake (h : d.Quiet) (now : ℤ) (t w : ℕ) : d ≠ .wake now t w := by
  rcases h with rfl | ⟨_, _, rfl⟩ <;> nofun

theorem Drain.Quiet.hasSlot (h : d.Quiet) : d.hasSlot t = false := by
  rcases h with rfl | ⟨_, _, rfl⟩ <;> rfl

/-- A fiber outside of the timer calls, or in its own push. -/
def Fiber.ready (f : Fiber) : Prop := f.pc = .idle ∨ f.pc = .arming

theorem Fiber.ready.holds (h : f.ready) : f.holds t = decide (f.parkTimer = some t) := by
  rcases h with h | h <;> simp [h, Pc.holds]

/-- What a fiber holds after a push: what it held before, and the new timer if it parks on it. -/
theorem holds_afterPush (h : f.ready) (hu : u ≠ t) : (afterPush f r t).holds u = f.holds u := by
  rw [h.holds]
  unfold afterPush
  split <;> simp [Pc.holds, Ne.symm hu]

/-- A fiber does not see the timer that is made. -/
theorem FiberOk.create (h : FiberOk created timer i f) :
    FiberOk (created + 1) (update timer created r) i f := by
  have hold {u : ℕ} (hu : u < created) : update timer created r u = timer u :=
    update_of_ne (Nat.ne_of_lt hu) _ _
  refine h.later ⟨Nat.le_succ _, fun u hu => ?_, fun u hu hfired => ?_⟩ fun u hu _ => ?_
  · rw [hold hu]
  · rw [hold hu]
    exact hfired
  · rw [hold hu]

theorem FiberOk.afterPush (h : FiberOk created timer i f) (hready : f.ready)
    (hfresh : Fresh r i f) :
    FiberOk (created + 1) (update timer created r) i (afterPush f r created) := by
  have hpark {u : ℕ} (hu : (Timers.afterPush f r created).pc.holds u = true) :
      u = created ∧ r.waiter = some i ∧ f.parkTimer = none := by
    unfold Timers.afterPush at hu
    rcases hfresh.owner with ⟨hw, -, -, hslot⟩ | ⟨hw, -⟩
    · have hu : created = u := by simpa [hw, Pc.holds] using hu
      exact ⟨hu.symm, hw, hslot⟩
    · simp [hw, Pc.holds] at hu
  have hpc : (Timers.afterPush f r created).pc = .store created ∨
      (Timers.afterPush f r created).pc = .idle := by
    unfold Timers.afterPush
    split
    · exact .inl rfl
    · exact .inr rfl
  refine ⟨fun u hu => (hpark hu).2.2, fun u hu => ?_, fun u hu => ?_, fun u park hu => ?_⟩
  · by_cases huc : u = created
    · subst huc
      refine ⟨Nat.lt_succ_self _, ?_⟩
      rw [update_self]
      have hnot : f.parkTimer ≠ some u := by
        intro hslot
        have hholds : f.holds u = true := by
          rw [hready.holds]
          exact decide_eq_true hslot
        exact Nat.lt_irrefl _ (h.mine u hholds).1
      have hholds : (Timers.afterPush f r u).pc.holds u = true := by
        have hslot : (Timers.afterPush f r u).parkTimer = f.parkTimer := rfl
        unfold Fiber.holds at hu
        rw [hslot] at hu
        simpa [hnot] using hu
      exact (hpark hholds).2.1
    · rw [holds_afterPush hready huc] at hu
      exact h.create.mine u hu
  · unfold Fiber.usesHandle at hu
    rcases hpc with hpc | hpc <;> simp [hpc] at hu
  · rcases hpc with hpc | hpc <;> simp [hpc] at hu

/-- A timer that was pushed just now. -/
theorem Fresh.view (h : Fresh r i f) :
    View.Ok ⟨r, true, false, false, r.waiter.isSome || r.handle, 0, 0, 0, 0⟩ := by
  refine ⟨?_, rfl, ?_, fun _ => rfl, fun hfired => ?_, nofun, nofun, ?_, ?_, fun hmark => ?_,
    fun hhandle => ?_⟩
  · rcases h.owner with ⟨hw, hrefs, hhandle, -⟩ | ⟨hw, hrefs⟩
    · simp [hw, hrefs]
    · simp [hw, hrefs]
  · rcases h.owner with ⟨-, hrefs, -, -⟩ | ⟨-, hrefs⟩
    · simp [hrefs]
    · simp [hrefs]
  · exact absurd (h.fired.symm.trans hfired) nofun
  · simp [h.fired]
  · simp [h.fired]
  · exact absurd (h.cancelled.symm.trans hmark) nofun
  · rcases h.owner with ⟨-, -, hno, -⟩ | ⟨hw, -⟩
    · exact absurd (hno.symm.trans hhandle) nofun
    · exact hw

theorem Ok.insert (h : Ok s) (hf : s.fibers[i]? = some f) (hready : f.ready) (hfresh : Fresh r i f)
    (hsw : s.sweep = none) (hdr : s.drain.Quiet) :
    Ok (s.insert i f r) := by
  have hfiber := h.fibers i f hf
  have hnew : s.heap.find s.created = none := by
    cases hfind : s.heap.find s.created with
    | none => rfl
    | some d => exact absurd (h.key _ d hfind).1 (Nat.lt_irrefl _)
  have hindex : s.heap.index s.created = none := by
    exact map_eq_none_iff.mp hnew
  obtain ⟨hvalid, -, hfind⟩ :=
    IndexedHeap.push_spec (x := (r.deadline, s.created)) (h.valid hsw) hindex
  have hself : (s.heap.push (r.deadline, s.created)).find s.created = some r.deadline := by
    rw [hfind, IndexedHeap.findWith, if_pos rfl]
  have hfindOld {u : ℕ} (hu : u ≠ s.created) :
      (s.heap.push (r.deadline, s.created)).find u = s.heap.find u := by
    rw [hfind, IndexedHeap.findWith, if_neg hu]
  have htimer : (s.insert i f r).timer s.created = r := update_self _ _ _
  have htimerOld {u : ℕ} (hu : u ≠ s.created) :
      update s.timer s.created r u = s.timer u := update_of_ne hu _ _
  have hfresh_count {l : List ℕ} (hl : ∀ t ∈ l, t < s.created) : l.count s.created = 0 :=
    count_eq_zero.mpr fun hmem => Nat.lt_irrefl _ (hl _ hmem)
  refine ⟨fun _ => hvalid, fun w hw => absurd (hsw.symm.trans hw) nofun, fun u d hu => ?_, ?_,
    fun u hu => ?_, fun u hu => ?_,
    forall_put (hfiber.afterPush hready hfresh) fun j g _ hg => (h.fibers j g hg).create,
    ⟨fun u hu => ?_, fun now u w hw => ?_, fun u hu => ?_⟩,
    ⟨h.order.le_now, fun hearly => ?_, fun hearly hsome d hd u k hu => ?_, fun now hnow => ?_,
      fun now u hu => ?_, fun _ => hdr⟩⟩
  · by_cases huc : u = s.created
    · subst huc
      cases hself.symm.trans hu
      exact ⟨Nat.lt_succ_self _, congrArg Timer.deadline htimer.symm⟩
    · obtain ⟨hlt, hd⟩ := h.key u d ((hfindOld huc).symm.trans hu)
      exact ⟨Nat.lt_succ_of_lt hlt, hd.trans (congrArg Timer.deadline (htimerOld huc).symm)⟩
  · show s.pushed ++ [s.created] = range (s.created + 1)
    rw [h.pushed, range_succ]
  · exact Nat.lt_succ_of_lt (h.old u hu)
  · by_cases huc : u = s.created
    · subst huc
      have hheld : (s.insert i f r).held s.created = (r.waiter.isSome || r.handle) := by
        have hput : (s.insert i f r).fibers[i]? = some (afterPush f r s.created) :=
          getElem?_put_self hf
        unfold held
        rw [htimer]
        rcases hfresh.owner with ⟨hwaiter, -, hhandle, -⟩ | ⟨hwaiter, -⟩
        · simp only [hwaiter, hput]
          simp [afterPush, hwaiter, Pc.holds]
        · simp only [hwaiter]
          rfl
      have hhand : s.drain.inHand s.created = false := by
        cases hhand : s.drain.inHand s.created with
        | false => rfl
        | true => exact absurd (h.drain.known _ hhand) (Nat.lt_irrefl _)
      have hpop : s.drain.isPopped s.created = false := by
        rw [← Bool.not_eq_true] at hhand ⊢
        exact mt Drain.inHand_of_isPopped hhand
      have hview : (s.insert i f r).view s.created =
          ⟨r, true, false, false, r.waiter.isSome || r.handle, 0, 0, 0, 0⟩ := by
        unfold view
        rw [hheld]
        dsimp only [State.insert, State.put]
        rw [update_self, hself, hhand, hpop, hfresh_count fun t ht => h.old t (.inl ht),
          hfresh_count fun t ht => h.old t (.inr (.inl ht)),
          hfresh_count fun t ht => h.old t (.inr (.inr (.inl ht))),
          hfresh_count fun t ht => h.old t (.inr (.inr (.inr ht)))]
        rfl
      rw [hview]
      exact hfresh.view
    · have hlt : u < s.created := by
        have hu : u < s.created + 1 := hu
        omega
      have hheld : (s.insert i f r).held u = s.held u := by
        have htimer : (s.insert i f r).timer u = s.timer u := htimerOld huc
        have hview := congrArg View.held (view_put hf (holds_afterPush (r := r) hready huc))
        rw [← show _ = s.held u from hview]
        unfold held
        rw [htimer]
        rfl
      have hview : (s.insert i f r).view u = s.view u := by
        unfold view
        rw [hheld]
        dsimp only [State.insert, State.put]
        rw [hfindOld huc, htimerOld huc]
      rw [hview]
      exact h.views u hlt
  · exact Nat.lt_succ_of_lt (h.drain.known u hu)
  · exact absurd hw (hdr.ne_wake now u w)
  · have hu : s.drain.hasSlot u = true := hu
    rw [hdr.hasSlot] at hu
    cases hu
  · exact h.order.sorted (Bool.or_eq_false_iff.mp hearly).1
  · obtain ⟨hold, hnot⟩ := Bool.or_eq_false_iff.mp hearly
    by_cases huc : u = s.created
    · subst huc
      cases hself.symm.trans hu
      rcases hdr with hidle | ⟨now, t, hcb⟩
      · have hsome : s.drain.time.isSome = true := hsome
        rw [hidle] at hsome
        cases hsome
      · have hnow : ¬ r.deadline < now := by
          rw [hcb] at hnot
          simpa [Drain.callbackTime] using hnot
        have hle := h.order.le_now now (by rw [hcb]; rfl) d hd
        exact Int.le_trans hle (Int.not_lt.mp hnow)
    · exact h.order.above hold hsome d hd u k ((hfindOld huc).symm.trans hu)
  · exact absurd hnow (hdr.ne_claim now)
  · exact absurd hu (hdr.ne_popped now u)

theorem Ok.setCap {capTimers : ℕ} (h : Ok s) : Ok { s with capTimers := capTimers } :=
  { h with }

theorem Ok.growAndInsert (h : Ok s) (hf : s.fibers[i]? = some f) (hready : f.ready)
    (hfresh : Fresh r i f) (hsw : s.sweep = none) (hdr : s.drain.Quiet) :
    Ok (s.growAndInsert i f r ok) := by
  unfold State.growAndInsert
  split
  · split
    · exact h.setCap.insert hf hready hfresh hsw hdr
    · have hholds (u : ℕ) : Fiber.holds { f with pc := .idle } u = f.holds u := by
        rw [hready.holds]
        simp [Pc.holds]
      exact h.put hf (.inr hsw) hholds
  · exact h.insert hf hready hfresh hsw hdr

theorem Ok.push (h : Ok s) (hf : s.fibers[i]? = some f) (hidle : f.pc = .idle)
    (hfresh : Fresh r i f) (hsw : s.sweep = none) (hdr : s.drain.Quiet) :
    Ok (s.push i f r ok) := by
  unfold State.push
  split
  · split
    · have hholds (u : ℕ) : Fiber.holds { f with pc := .arming } u = f.holds u := by
        simp [Pc.holds, hidle]
      have hput : Ok (s.put i { f with pc := .arming }) := h.put hf (.inr hsw) hholds
      refine ⟨by rintro ⟨⟩, fun w hw => ?_, hput.key, hput.pushed, hput.old, hput.views, hput.fibers,
        hput.drain, { hput.order with alone := fun _ => hdr }⟩
      cases hw
      refine ⟨(h.valid hsw).toIndexed.compacting (Nat.zero_le _), _, getElem?_put_self hf, rfl, ?_⟩
      exact { hfresh with }
    · exact h.growAndInsert hf (.inl hidle) hfresh hsw hdr
  · exact h.insert hf (.inl hidle) hfresh hsw hdr

/-- The slots are moved, and the same timers are in the heap. -/
theorem Ok.reorder {heap : IndexedHeap ℤ ℕ} {sweep : Option Sweep} (h : Ok s)
    (hfind : ∀ t, heap.find t = s.heap.find t) (hvalid : sweep = none → heap.Valid)
    (hsw : ∀ w, sweep = some w → heap.Compacting w.next w.kept ∧ SweepOk s.fibers w)
    (hdr : s.drain.Quiet) :
    Ok { s with heap := heap, sweep := sweep } := by
  refine ⟨hvalid, hsw, fun t d hd => h.key t d ((hfind t).symm.trans hd), h.pushed, h.old,
    fun t ht => ?_, h.fibers, h.drain, ⟨h.order.le_now, h.order.sorted,
      fun hearly hsome d hd t k hk => h.order.above hearly hsome d hd t k ((hfind t).symm.trans hk),
      fun now hnow => ?_, fun now t ht => ?_, fun _ => hdr⟩⟩
  · have hview : view { s with heap := heap, sweep := sweep } t = s.view t := by
      unfold view held
      rw [hfind]
    rw [hview]
    exact h.views t ht
  · exact absurd hnow (hdr.ne_claim now)
  · exact absurd ht (hdr.ne_popped now t)

theorem Ok.sweepStep {w : Sweep} (h : Ok s) (hw : s.sweep = some w)
    (hs' : s.sweepStep w ok = some s') : Ok s' := by
  obtain ⟨hcomp, f, hf, harming, hfresh⟩ := h.sweep w hw
  have hsw : SweepOk s.fibers w := ⟨f, hf, harming, hfresh⟩
  have hdr : s.drain.Quiet := h.order.alone (by rw [hw]; rfl)
  unfold State.sweepStep at hs'
  split at hs'
  · rename_i hlt
    have hindex := hcomp.index_item w.next hlt (.inr (Nat.le_refl _))
    have hqueue : (s.heap.find (s.heap.slots w.next).2).isSome = true := by
      unfold IndexedHeap.find
      rw [hindex]
      rfl
    dsimp only at hs'
    split at hs' <;> cases hs'
    · rename_i hcan
      obtain ⟨hdropped, hfind⟩ := hcomp.drop hlt
      refine h.drop hfind hqueue hcan nofun (fun w' hw' => ?_)
        (fun _ => by rw [hw]; rfl) hdr.ne_claim hdr.ne_popped
      cases hw'
      exact ⟨hdropped, hsw⟩
    · obtain ⟨hkept, hfind⟩ := hcomp.keep hlt
      refine h.reorder hfind nofun (fun w' hw' => ?_) hdr
      cases hw'
      exact ⟨hkept, hsw⟩
  · rename_i hend
    have hsize : w.next = s.heap.size := Nat.le_antisymm hcomp.le_size (Nat.le_of_not_lt hend)
    rw [hsize] at hcomp
    have hidx := hcomp.finish
    obtain ⟨hvalid, hfind⟩ := IndexedHeap.heapify_spec hidx (Nat.div_le_self _ 2)
      IndexedHeap.orderedFrom_half
    rw [hf] at hs'
    cases hs'
    have hok : Ok { s with
        heap := { s.heap with size := w.kept }.heapify (w.kept / 2), sweep := none } :=
      h.reorder hfind (fun _ => hvalid) nofun hdr
    exact hok.growAndInsert hf (.inr harming) hfresh rfl hdr

/-! ## Fibers -/

theorem ownerFree_iff : s.ownerFree = true ↔ s.sweep = none ∧ s.drain.Quiet := by
  unfold ownerFree Drain.Quiet
  cases hdr : s.drain <;> simp

section

variable (h : Ok s) (hf : s.fibers[i]? = some f)
include h hf

/-- A fiber in a call goes on with the reference and the handle that it has. -/
theorem Ok.goOn {pc : Pc} (harming : f.pc ≠ .arming) (hpc : ∀ u, pc.holds u = f.pc.holds u)
    (huses : ∀ u, Fiber.usesHandle { f with pc := pc } u = true → f.usesHandle u = true)
    (hcan : ∀ u park, pc = .mark u park ∨ pc = .remove u park →
      (s.timer u).fired = .cancelled) : Ok (s.put i { f with pc := pc }) := by
  have hfiber := h.fibers i f hf
  refine h.put hf (.inl harming) (fun u => ?_) (fun u hu => ?_) (fun u hu => ?_) hcan
  · unfold Fiber.holds
    rw [← hpc]
  · exact hfiber.slot u ((hpc u).symm.trans hu)
  · exact hfiber.handle u (huses u hu)

/-- After a cancel the fiber holds what it held. -/
theorem Ok.afterCancel {park : Bool}
    (hpc : f.pc = .cas t park ∨ f.pc = .remove t park) : Ok (s.put i (afterCancel f t park)) := by
  refine h.goOn hf ?_ (fun u => ?_) (fun u hu => ?_) fun u park' hu => ?_
  · rcases hpc with hpc | hpc <;> rw [hpc] <;> nofun
  · cases park <;> rcases hpc with hpc | hpc <;> rw [hpc] <;> rfl
  · cases park <;> cases hu
  · cases park <;> rcases hu with hu | hu <;> cases hu

theorem Ok.fiberStep {onOwner : Bool} (hs' : s.fiberStep i onOwner f = some s') : Ok s' := by
  have hfiber := h.fibers i f hf
  unfold State.fiberStep at hs'
  cases hpc : f.pc with
  | idle | arming =>
    rw [hpc] at hs'
    cases hs'
  | store t =>
    simp only [hpc] at hs'
    cases hs'
    have hslot : f.parkTimer = none := hfiber.slot t (by rw [hpc]; exact decide_eq_true rfl)
    have hholds (u : ℕ) : Fiber.holds ⟨.idle, some t⟩ u = f.holds u := by
      simp [hslot, hpc, Pc.holds]
    exact h.put hf (.inl (by rw [hpc]; rintro ⟨⟩)) hholds
  | cas t park =>
    have ht : t < s.created := by
      cases park with
      | true => exact (hfiber.mine t (by simp [hpc, Pc.holds])).1
      | false => exact (hfiber.handle t (by simp [Fiber.usesHandle, hpc])).1
    simp only [hpc] at hs'
    split at hs' <;> cases hs'
    · rename_i hpend
      refine (h.cancel ht hpend).goOn hf (by rw [hpc]; rintro ⟨⟩) (fun u => ?_) (fun u hu => ?_)
        fun u park' hu => ?_
      · rw [hpc]
        cases park <;> rfl
      · unfold Fiber.usesHandle at hu ⊢
        rw [hpc]
        simpa using hu
      · rcases hu with hu | hu <;> cases hu
        rw [timer_modify_self]
    · exact h.afterCancel hf (.inl hpc)
  | mark t park =>
    have ht : t < s.created := (holds_or_usesHandle park (.inl hpc)).elim
      (fun hholds => (hfiber.mine t hholds).1) (fun hhandle => (hfiber.handle t hhandle).1)
    have hcan := hfiber.cancelled t park (.inl hpc)
    simp only [hpc] at hs'
    cases hs'
    have hmark := h.mark ht hcan
    refine hmark.goOn hf (by rw [hpc]; rintro ⟨⟩) (fun u => ?_) (fun u hu => ?_) fun u park' hu => ?_
    · rw [hpc]
      cases park <;> rfl
    · unfold Fiber.usesHandle at hu ⊢
      rw [hpc]
      simpa using hu
    · rcases hu with hu | hu <;> cases hu
      exact (hmark.fibers i f hf).cancelled t park (.inl hpc)
  | remove t park =>
    have hcan := hfiber.cancelled t park (.inr hpc)
    simp only [hpc] at hs'
    split at hs'
    · split at hs'
      · rename_i hfree
        obtain ⟨hsw, hdr⟩ := ownerFree_iff.mp hfree
        have hvalid := h.valid hsw
        split at hs' <;> cases hs'
        · rename_i j hj
          obtain ⟨hlt, hitem⟩ := hvalid.item_index t j hj
          obtain ⟨hremoved, -, hfind⟩ := IndexedHeap.removeAt_spec hvalid hlt
          have hdrop : Ok (s.remove t j) := by
            rw [hitem] at hfind
            refine h.drop hfind ?_ hcan (fun _ => hremoved)
              (fun w hw => by cases hsw.symm.trans hw) id hdr.ne_claim hdr.ne_popped
            unfold IndexedHeap.find
            rw [hj]
            rfl
          exact hdrop.afterCancel hf (.inr hpc)
        · exact h.afterCancel hf (.inr hpc)
      · cases hs'
    · cases hs'
      exact h.afterCancel hf (.inr hpc)
  | release t =>
    simp only [hpc] at hs'
    cases hs'
    exact h.releasePark hf hpc

end

end LibXtc.Timers

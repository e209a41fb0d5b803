import LibXtc.Batch.Bookkeeping

/-!
# The tenants of a group

Requests enter slots, wait in the queue of held ones, are cancelled and are delivered. This file
says what every such function does to the requests the group owes: for each handle, how many
requests under it are in a slot without delivery or held. `Coherent` is what holds inside a
bracket, `Sound` what holds between brackets.
-/

namespace LibXtc.Batch

open Foundations SlotState Table Slot List

/-- Whether the slot holds the request `h` without delivery, as a number. -/
@[simp] def Slot.pendingFor (h : ℕ) (s : Slot) : ℕ :=
  if s.state.phase = .pending ∧ s.handle = h then 1 else 0

namespace Group

variable {g g' g'' : Group} {i j h charge capacity maxActive resourceCapacity : ℕ} {α : Type*}

/-- How many requests `h` are not yet delivered. -/
def owed (g : Group) (h : ℕ) : ℕ :=
  g.total (pendingFor h) + g.held.countP fun r => r.handle = h

/-- Who is in the slots. -/
structure Tenancy (g : Group) : Prop where
  live : g.live = g.total taken
  map_slot : ∀ h i, g.mapGet h = some (.slot i) →
    i < g.capacity ∧ (g.slots i).state.phase ≠ .free ∧ (g.slots i).handle = h
  free_cancel : ∀ i, (g.slots i).state.phase = .free → (g.slots i).cancel = false
  delivering : ∀ i, g.delivering = some i ↔
    i < g.capacity ∧ (g.slots i).state.phase = .delivering

/-- What holds inside a bracket. -/
structure Coherent (g : Group) : Prop where
  balanced : g.Balanced
  tenancy : Tenancy g
  pending : ∃ C, Pending g g.clist C

/-- Requests are held only while every slot is taken. -/
def HeldFull (g : Group) : Prop := g.held ≠ [] → g.live = g.capacity

/-- What holds between brackets. -/
structure Sound (g : Group) : Prop extends Coherent g where
  heldFull : g.HeldFull

/-- What all functions that take requests in keep. -/
structure Keeps (g g' : Group) : Prop where
  capacity : g'.capacity = g.capacity
  closed : g'.closed = g.closed
  cancelling : g'.cancelling = g.cancelling
  delivering : g'.delivering = g.delivering
  inflight : ∀ i, (g.slots i).state = .inflight → (g'.slots i).state = .inflight
  active : ∀ i, (g.slots i).state.isActive = true → (g'.slots i).state.isActive = true

/-- The group stays coherent and owes `n h` more requests `h`. -/
structure Takes (g g' : Group) (n : ℕ → ℕ) : Prop where
  coherent : Coherent g'
  keeps : Keeps g g'
  owed : ∀ h, g'.owed h = g.owed h + n h

theorem Keeps.refl (g : Group) : Keeps g g :=
  ⟨rfl, rfl, rfl, rfl, fun _ hi => hi, fun _ hi => hi⟩

theorem Keeps.trans (h : Keeps g g') (h' : Keeps g' g'') : Keeps g g'' where
  capacity := h'.capacity.trans h.capacity
  closed := h'.closed.trans h.closed
  cancelling := h'.cancelling.trans h.cancelling
  delivering := h'.delivering.trans h.delivering
  inflight i hi := h'.inflight i (h.inflight i hi)
  active i hi := h'.active i (h.active i hi)

theorem Takes.refl (hc : Coherent g) : Takes g g fun _ => 0 := ⟨hc, .refl g, fun _ => rfl⟩

theorem Takes.trans {n n' : ℕ → ℕ} (h : Takes g g' n) (h' : Takes g' g'' n') :
    Takes g g'' fun a => n a + n' a where
  coherent := h'.coherent
  keeps := h.keeps.trans h'.keeps
  owed a := by rw [h'.owed, h.owed, Nat.add_assoc]

/-! ## Quiet functions -/

theorem Tenancy.quiet (ht : Tenancy g) (hq : Quiet g g') : Tenancy g' where
  live := by
    rw [hq.live, ht.live, total_congr hq.capacity fun j => ?_]
    simp only [taken, hq.phase]
  map_slot h i hmap := by
    have hold := ht.map_slot h i (by simpa only [mapGet, hq.map] using hmap)
    rw [hq.capacity, hq.phase, hq.handle]
    exact hold
  free_cancel i hfree := by
    rw [hq.phase] at hfree
    rw [hq.cancel]
    exact ht.free_cancel i hfree
  delivering i := by rw [hq.delivering, hq.capacity, hq.phase, ht.delivering]

theorem Quiet.owed_eq (hq : Quiet g g') : g'.owed h = g.owed h := by
  have hpend : g'.total (pendingFor h) = g.total (pendingFor h) :=
    total_congr hq.capacity fun j => by simp only [pendingFor, hq.phase, hq.handle]
  rw [owed, owed, hpend, hq.held]

/-- Where a function leaves the number of held requests and of taken slots, requests are still
held only while every slot is taken. -/
theorem HeldFull.congr (hfull : g.HeldFull) (hheld : g'.held = [] ↔ g.held = [])
    (hlive : g'.live = g.live) (hcap : g'.capacity = g.capacity) : g'.HeldFull := by
  intro hne
  rw [hlive, hcap]
  exact hfull fun hnil => hne (hheld.mpr hnil)

theorem Sound.of_steady (hs : Sound g) (hb : g'.Balanced) (hq : Steady g g') : Sound g' where
  balanced := hb
  tenancy := hs.tenancy.quiet hq.toQuiet
  pending := by
    obtain ⟨C, hC⟩ := hs.pending
    exact ⟨C, hq.clist ▸ hC.congr hq.capacity hq.cnext hq.onClist⟩
  heldFull := hs.heldFull.congr (by rw [hq.held]) hq.live hq.capacity

theorem Sound.of_consumed (hs : Sound g) (hc : Consumed g g') : Sound g' where
  balanced := hc.balanced
  tenancy := hs.tenancy.quiet hc.quiet
  pending := ⟨[], hc.clist ▸ hc.pending⟩
  heldFull := hs.heldFull.congr (by rw [hc.quiet.held]) hc.quiet.live hc.quiet.capacity

theorem Sound.consumeCancels (hs : Sound g) :
    Sound g.consumeCancels ∧ Quiet g g.consumeCancels := by
  obtain ⟨C, hC⟩ := hs.pending
  have hc := consumeCancels_spec hs.balanced hC
  exact ⟨hs.of_consumed hc, hc.quiet⟩

theorem Sound.vector (hs : Sound g) : Sound g.vector ∧ Quiet g g.vector := by
  obtain ⟨hs', hq⟩ := hs.consumeCancels
  obtain ⟨hb, hsteady⟩ := admission_spec hs'.balanced
  exact ⟨hs'.of_steady hb hsteady, hq.trans hsteady.toQuiet⟩

/-! ## One slot changes -/

section

variable {s : Slot} (hset : Sets g g' i s)
include hset

theorem Sets.owed (hheld : g'.held = g.held) (hi : i < g.capacity) :
    g'.owed h + (g.slots i).pendingFor h = g.owed h + s.pendingFor h := by
  have htotal := hset.total (w := pendingFor h) (fun _ => rfl) hi
  rw [Group.owed, Group.owed, hheld]
  omega

theorem Sets.pending (hp : ∃ C, Pending g g.clist C) (hclist : g'.clist = g.clist)
    (hcnext : s.cnext = (g.slots i).cnext) (honClist : s.onClist = (g.slots i).onClist) :
    ∃ C, Pending g' g'.clist C := by
  obtain ⟨C, hC⟩ := hp
  exact ⟨C, hclist ▸ hC.congr hset.capacity (hset.keeps cnext (fun _ => rfl) hcnext)
    (hset.keeps onClist (fun _ => rfl) honClist)⟩

theorem Sets.tenancy (ht : Tenancy g) (hi : i < g.capacity)
    (hlive : g'.live + (g.slots i).taken = g.live + s.taken)
    (hmap : ∀ h j, g'.mapGet h = some (.slot j) →
      if j = i then s.state.phase ≠ .free ∧ s.handle = h else g.mapGet h = some (.slot j))
    (hcancel : s.state.phase = .free → s.cancel = false)
    (hdelivering : ∀ j, g'.delivering = some j ↔
      if j = i then s.state.phase = .delivering else g.delivering = some j) : Tenancy g' := by
  have hph := hset.slot (fun s => s.state.phase) fun _ => rfl
  refine ⟨?_, fun h j hj => ?_, fun j hj => ?_, fun j => ?_⟩
  · have htotal := hset.total (w := taken) (fun _ => rfl) hi
    have hold := ht.live
    omega
  · have hnew := hmap h j hj
    rw [hset.capacity, hph, hset.slot handle fun _ => rfl]
    split
    · rename_i hji
      rw [if_pos hji] at hnew
      exact ⟨hji ▸ hi, hnew⟩
    · rename_i hji
      rw [if_neg hji] at hnew
      exact ht.map_slot h j hnew
  · rw [hph] at hj
    rw [hset.slot cancel fun _ => rfl]
    split at hj
    · rename_i hji
      rw [if_pos hji]
      exact hcancel hj
    · rename_i hji
      rw [if_neg hji]
      exact ht.free_cancel j hj
  · rw [hdelivering, hset.capacity, hph]
    split
    · rename_i hji
      rw [hji, and_iff_right hi]
    · exact ht.delivering j

end

theorem Sets.modify (f : Slot → Slot) : Sets g (g.modify i f) i (f (g.slots i)) where
  capacity := rfl
  content j := by
    by_cases hj : j = i
    · rw [hj, modify_slots_self, if_pos rfl]
    · rw [modify_slots_ne hj, if_neg hj]

/-- A slot that is not active is written to and moved. -/
theorem Balanced.modify_move {f : Slot → Slot} (st : SlotState) (hb : g.Balanced)
    (hi : i < g.capacity) (hprev : ∀ s, (f s).prev = s.prev) (hnext : ∀ s, (f s).next = s.next)
    (hstate : ∀ s, (f s).state = s.state) (hidle : (g.slots i).state.isActive = false)
    (hst : st.isActive = false) : ((g.modify i f).move i st).Balanced := by
  obtain ⟨L, hL⟩ := hb
  have hidle' : ((g.modify i f).slots i).state.isActive = false := by
    rw [modify_slots_self, hstate]
    exact hidle
  have hbooks := hL.modify (i := i) hprev hnext hstate (by simp [reservation, hstate, hidle])
  have hmoved := hbooks.move st (u := g.reservedUnits) hi (by simp [reservation, hidle', hst]; rfl)
    hL.reserved_le (by simp [hst])
  exact ⟨_, { hmoved with }⟩

/-! ## A request enters a slot -/

theorem occupy_sets (h charge : ℕ) : Sets g (g.occupy i h charge) i
      { g.slots i with handle := h, charge := charge, state := .waiting } :=
  ⟨rfl, ((Sets.modify _).move .waiting).content⟩

theorem occupy_balanced (hb : g.Balanced) (hi : i < g.capacity)
    (hfree : (g.slots i).state = .free) : (g.occupy i h charge).Balanced := by
  obtain ⟨L, hL⟩ := hb.modify_move (f := fun s => { s with handle := h, charge := charge }) .waiting
    hi (fun _ => rfl) (fun _ => rfl) (fun _ => rfl) (by rw [hfree]; rfl) rfl
  exact ⟨L, { hL with }⟩

theorem occupy_tenancy (ht : Tenancy g) (hi : i < g.capacity)
    (hfree : (g.slots i).state = .free) : Tenancy (g.occupy i h charge) := by
  have hph : (g.slots i).state.phase = .free := by rw [hfree]; rfl
  refine (occupy_sets h charge).tenancy ht hi ?_ (fun a j hmap => ?_) nofun fun j => ?_
  · have hwas : (g.slots i).taken = 0 := if_pos hph
    rw [hwas]
    rfl
  · simp only [mapGet, occupy, mapPut] at hmap
    split at hmap
    · cases hmap
    rename_i hzero
    split at hmap
    · rename_i hah
      cases hmap
      rw [if_pos rfl]
      exact ⟨Phase.noConfusion, hah.symm⟩
    · have hold : g.mapGet a = some (.slot j) := by
        rw [mapGet, if_neg hzero]
        exact hmap
      rw [if_neg]
      · exact hold
      · rintro rfl
        exact (ht.map_slot a j hold).2.1 hph
  · split
    · rename_i hji
      rw [hji]
      refine iff_of_false (fun hd => ?_) nofun
      cases hph.symm.trans ((ht.delivering i).mp hd).2
    · rfl

theorem occupy_takes (h charge : ℕ) (hc : Coherent g) (hi : i < g.capacity)
    (hfree : (g.slots i).state = .free) :
    Takes g (g.occupy i h charge) fun a => if h = a then 1 else 0 where
  coherent := ⟨occupy_balanced hc.balanced hi hfree, occupy_tenancy hc.tenancy hi hfree,
    (occupy_sets h charge).pending hc.pending rfl rfl rfl⟩
  keeps := by
    have hstate {b : ℕ} (hb : (g.slots b).state ≠ .free) :
        ((g.occupy i h charge).slots b).state = (g.slots b).state := by
      rw [(occupy_sets h charge).slot state (fun _ => rfl), if_neg]
      rintro rfl
      exact hb hfree
    refine ⟨rfl, rfl, rfl, rfl, fun b hb => ?_, fun b hb => ?_⟩
    · rw [hstate (by simp [hb])]
      exact hb
    · rw [hstate fun hf => by simp [hf, isActive] at hb]
      exact hb
  owed a := by simpa [hfree, phase] using (occupy_sets h charge).owed (h := a) rfl hi

/-- While a slot is free, the list of free slots is not empty. -/
theorem exists_free (hc : Coherent g) (hlive : g.live < g.capacity) :
    ∃ i, (g.lists .free).head = some i ∧ i < g.capacity ∧ (g.slots i).state = .free := by
  obtain ⟨L, hL⟩ := hc.balanced
  cases hhead : (g.lists .free).head with
  | some i =>
    obtain ⟨hi, hlist⟩ := hL.tidy.head_mem hhead
    refine ⟨i, rfl, hi, ?_⟩
    cases hst : (g.slots i).state <;> rw [hst] at hlist <;> first | rfl | cases hlist
  | none =>
    exfalso
    have hnone := hL.tidy.head_eq_none_iff.mp hhead
    have hall : g.total taken = g.capacity := by
      have hone : ∀ j ∈ Finset.range g.capacity, (g.slots j).taken = 1 := by
        intro j hj
        have hlist := hnone j (Finset.mem_range.mp hj)
        cases hst : (g.slots j).state <;> rw [hst] at hlist <;>
          first
          | exact absurd rfl hlist
          | simp [taken, hst, phase]
      rw [total, Finset.sum_congr rfl hone]
      simp
    have := hc.tenancy.live
    omega

theorem submit_takes (h charge : ℕ) (hc : Coherent g) (hlive : g.live < g.capacity) :
    Takes g (g.submit h charge) (fun a => if h = a then 1 else 0) ∧
      (g.submit h charge).held = g.held := by
  obtain ⟨i, hhead, hi, hfree⟩ := exists_free hc hlive
  unfold submit
  rw [hhead]
  exact ⟨occupy_takes h charge hc hi hfree, rfl⟩

/-! ## Cancels -/

theorem markCancel_slot (p : Slot → α)
    (hp : ∀ s c o n, p { s with cancel := c, onClist := o, cnext := n } = p s) (j : ℕ) :
    p ((g.markCancel i).slots j) = p (g.slots j) := by
  have hmark := Table.modify_keeps (t := g.toTable) (i := i) p fun s => hp s true s.onClist s.cnext
  unfold markCancel
  dsimp only
  split
  · exact (Table.modify_keeps p (fun s => hp s s.cancel true g.clist) j).trans (hmark j)
  · exact hmark j

theorem modify_cancel : ((g.modify i fun s => { s with cancel := true }).slots j).cancel =
    if j = i then true else (g.slots j).cancel := by
  by_cases hj : j = i
  · rw [hj, modify_slots_self, if_pos rfl]
  · rw [modify_slots_ne hj, if_neg hj]

theorem markCancel_cancel : ((g.markCancel i).slots j).cancel =
    if j = i then true else (g.slots j).cancel := by
  unfold markCancel
  dsimp only
  split
  · exact (modify_keeps (f := fun s => { s with onClist := true, cnext := g.clist })
      cancel (fun _ => rfl) j).trans modify_cancel
  · exact modify_cancel

theorem markCancel_balanced (hb : g.Balanced) : (g.markCancel i).Balanced := by
  obtain ⟨L, hL⟩ := hb
  have hmark : Books (g.modify i fun s => { s with cancel := true }) L :=
    hL.modify (fun _ => rfl) (fun _ => rfl) (fun _ => rfl) rfl
  refine ⟨L, ?_⟩
  unfold markCancel
  dsimp only
  split
  · have hlink := hmark.modify (i := i) (f := fun s => { s with onClist := true, cnext := g.clist })
      (fun _ => rfl) (fun _ => rfl) (fun _ => rfl) rfl
    exact { hlink with }
  · exact hmark

/-- A slot that is not on the list of pending cancels goes to its front. -/
theorem Pending.push {C : List ℕ} (hp : Pending g g.clist C) (hi : i < g.capacity)
    (hnot : (g.slots i).onClist = false) :
    Pending (g.modify i fun s => { s with onClist := true, cnext := g.clist }) (some i)
      (i :: C) := by
  have hmem : i ∉ C := by
    rw [hp.mem_iff, hnot]
    simp
  constructor
  · refine ⟨rfl, ?_⟩
    simp only [modify_slots_self]
    refine hp.path.congr fun j hj => ?_
    have hne : j ≠ i := fun hji => hmem (hji ▸ hj)
    rw [modify_slots_ne hne]
  · exact nodup_cons.mpr ⟨hmem, hp.nodup⟩
  · intro j
    by_cases hj : j = i
    · subst hj
      rw [modify_slots_self]
      exact iff_of_true mem_cons_self ⟨hi, rfl⟩
    · rw [modify_slots_ne hj, mem_cons, or_iff_right hj]
      exact hp.mem_iff j

theorem markCancel_pending (hp : ∃ C, Pending g g.clist C) (hi : i < g.capacity) :
    ∃ C, Pending (g.markCancel i) (g.markCancel i).clist C := by
  obtain ⟨C, hC⟩ := hp
  have hmark : Pending (g.modify i fun s => { s with cancel := true }) g.clist C :=
    hC.congr rfl (modify_keeps cnext fun _ => rfl) (modify_keeps onClist fun _ => rfl)
  unfold markCancel
  dsimp only
  split
  · rename_i hcond
    rw [Bool.and_eq_true, Bool.not_eq_true'] at hcond
    have hpush := Pending.push hmark hi hcond.1
    exact ⟨i :: C, hpush.path, hpush.nodup, hpush.mem_iff⟩
  · exact ⟨C, hmark⟩

theorem markCancel_frame : (g.markCancel i).capacity = g.capacity ∧
    (g.markCancel i).map = g.map ∧ (g.markCancel i).held = g.held ∧
    (g.markCancel i).live = g.live ∧ (g.markCancel i).delivering = g.delivering ∧
    (g.markCancel i).closed = g.closed ∧ (g.markCancel i).cancelling = g.cancelling := by
  unfold markCancel
  dsimp only
  split <;> exact ⟨rfl, rfl, rfl, rfl, rfl, rfl, rfl⟩

section

variable (hc : Coherent g)
include hc

/-- Slot `i`, which is not free, is marked as cancelled and nothing else is seen. -/
theorem Takes.of_mark (hb : g'.Balanced) (hp : ∃ C, Pending g' g'.clist C)
    (hph : (g.slots i).state.phase ≠ .free)
    (hframe : g'.capacity = g.capacity ∧ g'.map = g.map ∧ g'.held = g.held ∧ g'.live = g.live ∧
      g'.delivering = g.delivering ∧ g'.closed = g.closed ∧ g'.cancelling = g.cancelling)
    (hstate : ∀ j, (g'.slots j).state = (g.slots j).state)
    (hhandle : ∀ j, (g'.slots j).handle = (g.slots j).handle)
    (hcancel : ∀ j, (g'.slots j).cancel = if j = i then true else (g.slots j).cancel) :
    Takes g g' fun _ => 0 := by
  obtain ⟨hcap, hmap, hheld, hlive, hdeliv, hcl, hcancelling⟩ := hframe
  refine ⟨⟨hb, ⟨?_, ?_, ?_, ?_⟩, hp⟩,
    ⟨hcap, hcl, hcancelling, hdeliv, fun b hb => (hstate b).trans hb,
      fun b hb => (congrArg isActive (hstate b)).trans hb⟩, fun a => ?_⟩
  · rw [hlive, hc.tenancy.live, total_congr hcap fun j => ?_]
    simp only [taken, hstate]
  · intro a b hb
    rw [hcap, hstate, hhandle]
    exact hc.tenancy.map_slot a b (by simpa only [mapGet, hmap] using hb)
  · intro b hb
    rw [hstate] at hb
    have hne : b ≠ i := by
      rintro rfl
      exact hph hb
    rw [hcancel, if_neg hne]
    exact hc.tenancy.free_cancel b hb
  · intro b
    rw [hdeliv, hcap, hstate]
    exact hc.tenancy.delivering b
  · have hpend : g'.total (pendingFor a) = g.total (pendingFor a) :=
      total_congr hcap fun j => by simp only [pendingFor, hstate, hhandle]
    rw [Group.owed, Group.owed, hpend, hheld, Nat.add_zero]

theorem markCancel_takes (hi : i < g.capacity) (hph : (g.slots i).state.phase ≠ .free) :
    Takes g (g.markCancel i) fun _ => 0 :=
  .of_mark hc (markCancel_balanced hc.balanced) (markCancel_pending hc.pending hi) hph
    markCancel_frame (markCancel_slot (fun s => s.state) fun _ _ _ _ => rfl)
    (markCancel_slot handle fun _ _ _ _ => rfl) fun _ => markCancel_cancel

theorem Takes.of_steady (hb : g'.Balanced) (hs : Steady g g')
    (hfly : ∀ i, (g.slots i).state = .inflight → (g'.slots i).state = .inflight)
    (hact : ∀ i, (g.slots i).state.isActive = true → (g'.slots i).state.isActive = true) :
    Takes g g' fun _ => 0 where
  coherent := by
    obtain ⟨C, hC⟩ := hc.pending
    exact ⟨hb, hc.tenancy.quiet hs.toQuiet, C, hs.clist ▸ hC.congr hs.capacity hs.cnext hs.onClist⟩
  keeps := { hs with inflight := hfly, active := hact }
  owed _ := hs.toQuiet.owed_eq

/-- The resumption of a blocked or ready request. -/
theorem resume_takes (hi : i < g.capacity)
    (hstate : (g.slots i).state = .blocked ∨ (g.slots i).state = .ready) :
    Takes g (g.move i .ready) fun _ => 0 := by
  have hact : (g.slots i).state.isActive = true := by
    rcases hstate with hst | hst <;> rw [hst] <;> rfl
  obtain ⟨hb, hs, -⟩ := move_spec .ready hc.balanced hi hact rfl
  refine Takes.of_steady hc hb hs (fun j hj => ?_) fun j hj => ?_
  · have hne : j ≠ i := by
      rintro rfl
      rw [hj] at hstate
      rcases hstate with hst | hst <;> cases hst
    rw [move_state, if_neg hne]
    exact hj
  · rw [move_state]
    split
    · rfl
    · exact hj

/-! ## Held requests -/

/-- Only what is owed depends on the queue of held requests. -/
theorem Coherent.setHeld (held : List Held) : Coherent { g with held := held } := by
  obtain ⟨⟨L, hL⟩, ht, C, hC⟩ := hc
  exact ⟨⟨L, { hL with }⟩, { ht with }, C, { hC with }⟩

theorem cancelHeld_takes : Takes g (g.cancelHeld h) fun _ => 0 where
  coherent := hc.setHeld _
  keeps := ⟨rfl, rfl, rfl, rfl, fun _ hi => hi, fun _ hi => hi⟩
  owed a := by
    have hcnt : (g.held.map fun r => if r.handle = h then { r with cancel := true } else r).countP
        (fun r => r.handle = a) = g.held.countP fun r => r.handle = a := by
      rw [countP_map]
      refine countP_congr fun r _ => ?_
      simp only [Function.comp_apply]
      split <;> exact Iff.rfl
    change g.total _ + _ = _
    rw [cancelHeld, hcnt, owed, Nat.add_zero]

/-- A held request joins the queue. -/
theorem hold_takes (r : Held) : Takes g (mapPut { g with held := g.held ++ [r] } r.handle .held)
      fun a => if r.handle = a then 1 else 0 where
  coherent := by
    obtain ⟨⟨L, hL⟩, ht, C, hC⟩ := hc
    refine ⟨⟨L, { hL with }⟩, { ht with map_slot := fun a b hmap => ?_ }, C, hC.path, hC.nodup,
      hC.mem_iff⟩
    refine ht.map_slot a b ?_
    simp only [mapGet, mapPut] at hmap ⊢
    split at hmap
    · cases hmap
    · rename_i hzero
      rw [if_neg hzero]
      split at hmap
      · cases hmap
      · exact hmap
  keeps := ⟨rfl, rfl, rfl, rfl, fun _ hi => hi, fun _ hi => hi⟩
  owed a := by
    have hcnt : (g.held ++ [r]).countP (fun r => r.handle = a) =
        g.held.countP (fun r => r.handle = a) + if r.handle = a then 1 else 0 := by
      simp
    change g.total _ + (g.held ++ [r]).countP _ = _
    rw [hcnt, owed, Nat.add_assoc]

end

/-- A free slot is not cancelled, so clearing the flag does nothing. -/
theorem clear_cancel_eq (ht : Tenancy g) (hfree : (g.slots i).state = .free) :
    (g.modify i fun s => { s with cancel := false }) = g := by
  have hcancel := ht.free_cancel i (by rw [hfree]; rfl)
  have hslots : (g.modify i fun s => { s with cancel := false }).slots = g.slots := by
    funext j
    by_cases hj : j = i
    · subst hj
      rw [modify_slots_self, ← hcancel]
    · rw [modify_slots_ne hj]
  change { g with toTable := { g.toTable with
    slots := (g.modify i fun s => { s with cancel := false }).slots } } = g
  rw [hslots]

theorem mtPlace_eq (hc : Coherent g) (hlive : g.live < g.capacity) (r : Held) :
    ∃ i, i < g.capacity ∧ (g.slots i).state = .free ∧
      g.mtPlace r = if r.cancel then (g.occupy i r.handle r.charge).markCancel i
        else g.occupy i r.handle r.charge := by
  obtain ⟨i, hhead, hi, hfree⟩ := exists_free hc hlive
  refine ⟨i, hi, hfree, ?_⟩
  simp only [mtPlace, hhead, clear_cancel_eq hc.tenancy hfree]

theorem mtPlace_takes (hc : Coherent g) (hlive : g.live < g.capacity) (r : Held) :
    Takes g (g.mtPlace r) (fun a => if r.handle = a then 1 else 0) ∧
      (g.mtPlace r).held = g.held := by
  obtain ⟨i, hi, hfree, heq⟩ := mtPlace_eq hc hlive r
  have htakes := occupy_takes r.handle r.charge hc hi hfree
  rw [heq]
  split
  · have hph : ((g.occupy i r.handle r.charge).slots i).state.phase ≠ .free := by
      rw [(occupy_sets _ _).slot (fun s => s.state.phase) (fun _ => rfl), if_pos rfl]
      exact Phase.noConfusion
    exact ⟨htakes.trans (markCancel_takes htakes.coherent hi hph), markCancel_frame.2.2.1⟩
  · exact ⟨htakes, rfl⟩

theorem admitHeldNext_spec (hc : Coherent g) (hnext : g.admitHeldNext = some g') :
    Takes g g' (fun _ => 0) ∧ g'.held.length < g.held.length := by
  unfold admitHeldNext at hnext
  split at hnext
  · rename_i r held hheld
    split at hnext
    · rename_i hlive
      cases hnext
      obtain ⟨htakes, hrest⟩ := mtPlace_takes (hc.setHeld held) hlive r
      refine ⟨⟨htakes.coherent, ?_, fun a => ?_⟩, ?_⟩
      · exact { htakes.keeps with }
      · rw [htakes.owed a]
        change g.total _ + held.countP _ + _ = g.total _ + g.held.countP _ + 0
        rw [hheld, countP_cons]
        simp only [decide_eq_true_eq]
        omega
      · rw [hrest, hheld]
        simp
    · cases hnext
  · cases hnext

theorem live_le (ht : Tenancy g) : g.live ≤ g.capacity := by
  rw [ht.live]
  have hle : ∑ j ∈ Finset.range g.capacity, (g.slots j).taken ≤ ∑ _j ∈ Finset.range g.capacity, 1 :=
    Finset.sum_le_sum fun j _ => by
      unfold taken
      split <;> omega
  simpa [total] using hle

/-- Held requests take the free slots, so that afterwards none is held or all slots are taken. -/
theorem mtAdmitHeld_spec (hc : Coherent g) :
    Takes g g.mtAdmitHeld (fun _ => 0) ∧ g.mtAdmitHeld.HeldFull := by
  have htakes : Takes g g.mtAdmitHeld fun _ => 0 :=
    loopWhile_invariant (I := fun g' => Takes g g' fun _ => 0)
      (fun _ _ ht hnext => ht.trans (admitHeldNext_spec ht.coherent hnext).1) g.held.length
      (.refl hc)
  have hdone : g.mtAdmitHeld.admitHeldNext = none :=
    loopWhile_done (fun g' => g'.held.length)
      (fun _ _ hc hnext => (admitHeldNext_spec hc hnext).1.coherent)
      (fun _ _ hc hnext => (admitHeldNext_spec hc hnext).2) hc le_rfl
  refine ⟨htakes, fun hheld => ?_⟩
  have hle := live_le htakes.coherent.tenancy
  unfold admitHeldNext at hdone
  split at hdone
  · split at hdone
    · cases hdone
    · omega
  · exact absurd ‹_› hheld

/-! ## Delivery -/

/-- What `batch_retire` clears. -/
@[simp] abbrev cleared (s : Slot) : Slot :=
  { s with handle := 0, charge := 0, outcome := 0, cancel := false, hinted := false }

theorem vacate_eq (hd : g.delivering = some i) : g.vacate i = { (Group.modify { g.mapDel
      (g.slots i).handle with delivering := none } i cleared).move i .free with
        live := g.live - 1 } := by
  have hcond : (g.mapDel (g.slots i).handle).delivering = some i := hd
  simp only [vacate, if_pos hcond]
  rfl

theorem vacate_sets (hd : g.delivering = some i) :
    Sets g (g.vacate i) i { cleared (g.slots i) with state := .free } := by
  rw [vacate_eq hd]
  exact ⟨rfl, ((Sets.modify cleared).move .free).content⟩

theorem vacate_frame (hd : g.delivering = some i) :
    (g.vacate i).live = g.live - 1 ∧ (g.vacate i).held = g.held ∧
      (g.vacate i).closed = g.closed ∧ (g.vacate i).clist = g.clist ∧
      (g.vacate i).delivering = none ∧
      (g.vacate i).map = fun h => if h = (g.slots i).handle then none else g.map h := by
  rw [vacate_eq hd]
  exact ⟨rfl, rfl, rfl, rfl, rfl, rfl⟩

theorem vacate_balanced (hb : g.Balanced) (hd : g.delivering = some i) (hi : i < g.capacity)
    (hstate : (g.slots i).state = .delivering) : (g.vacate i).Balanced := by
  obtain ⟨L, hL⟩ := hb
  have hdel : Balanced { g.mapDel (g.slots i).handle with delivering := none } := ⟨L, { hL with }⟩
  obtain ⟨L', hL'⟩ := hdel.modify_move (f := cleared) .free hi (fun _ => rfl)
    (fun _ => rfl) (fun _ => rfl) (by simp [mapDel, hstate, isActive]) rfl
  rw [vacate_eq hd]
  exact ⟨L', { hL' with }⟩

theorem vacate_tenancy (ht : Tenancy g) (hd : g.delivering = some i) : Tenancy (g.vacate i) := by
  obtain ⟨hi, hphase⟩ := (ht.delivering i).mp hd
  obtain ⟨hlive, -, -, -, hdeliv, hmap⟩ := vacate_frame hd
  have hwas : (g.slots i).taken = 1 := by simp [taken, hphase]
  have hset := vacate_sets hd
  refine hset.tenancy ht hi ?_ (fun a j hget => ?_) (fun _ => rfl) fun j => ?_
  · have htotal := hset.total (w := taken) (fun _ => rfl) hi
    have hold := ht.live
    have hnow : taken { cleared (g.slots i) with state := .free } = 0 := rfl
    omega
  · simp only [mapGet, hmap] at hget
    split at hget
    · cases hget
    rename_i hzero
    split at hget
    · cases hget
    rename_i hah
    have hold : g.mapGet a = some (.slot j) := by
      rw [mapGet, if_neg hzero]
      exact hget
    rw [if_neg]
    · exact hold
    · rintro rfl
      exact hah (ht.map_slot a j hold).2.2.symm
  · rw [hdeliv, hd]
    split
    · exact iff_of_false nofun nofun
    · rename_i hji
      exact iff_of_false nofun fun heq => hji (Option.some.inj heq).symm

/-- The slot in delivery is given up; nothing owed is lost. -/
theorem vacate_spec (hc : Coherent g) (hd : g.delivering = some i) :
    Coherent (g.vacate i) ∧ ∀ h, (g.vacate i).owed h = g.owed h := by
  obtain ⟨hi, hph⟩ := (hc.tenancy.delivering i).mp hd
  have hstate : (g.slots i).state = .delivering := by
    cases hst : (g.slots i).state <;> rw [hst] at hph <;> first | rfl | cases hph
  obtain ⟨-, hheld, -, hclist, -, -⟩ := vacate_frame hd
  have hset := vacate_sets hd
  refine ⟨⟨vacate_balanced hc.balanced hd hi hstate, vacate_tenancy hc.tenancy hd,
    hset.pending hc.pending hclist rfl rfl⟩, fun a => ?_⟩
  simpa [hstate, phase] using hset.owed (h := a) hheld hi

/-- After a delivery the slot is free or taken by a held request. -/
theorem retire_spec (hc : Coherent g) (hd : g.delivering = some i) :
    Sound (g.retire i) ∧ (∀ h, (g.retire i).owed h = g.owed h) ∧
      (g.retire i).delivering = none ∧ (g.retire i).closed = g.closed := by
  obtain ⟨hc', howed⟩ := vacate_spec hc hd
  obtain ⟨-, -, hcl, -, hdeliv, -⟩ := vacate_frame hd
  obtain ⟨htakes, hfull⟩ := mtAdmitHeld_spec hc'
  exact ⟨⟨htakes.coherent, hfull⟩, fun a => (htakes.owed a).trans (howed a),
    htakes.keeps.delivering.trans hdeliv, htakes.keeps.closed.trans hcl⟩

theorem retireDelivering_spec (hs : Sound g) :
    Sound g.retireDelivering ∧ (∀ h, g.retireDelivering.owed h = g.owed h) ∧
      g.retireDelivering.delivering = none ∧ g.retireDelivering.closed = g.closed := by
  unfold retireDelivering
  split
  · rename_i i hd
    exact retire_spec hs.toCoherent hd
  · rename_i hd
    exact ⟨hs, fun _ => rfl, hd, rfl⟩

/-- The slot that is delivered next holds a request with an outcome. -/
theorem claimTerminal_spec (hs : Sound g) (hd : g.delivering = none)
    (hclaim : g.claimTerminal = some (i, g')) :
    Sound g' ∧ g'.delivering = some i ∧ g'.closed = g.closed ∧
      ∀ h, g'.owed h + (if (g'.slots i).handle = h then 1 else 0) = g.owed h := by
  obtain ⟨⟨⟨L, hL⟩, ht, hp⟩, hfull⟩ := hs
  unfold claimTerminal at hclaim
  split at hclaim
  · rename_i a hhead
    cases hclaim
    obtain ⟨hi, hlist⟩ := hL.tidy.head_mem hhead
    have hstate : (g.slots i).state = .terminal := by
      cases hst : (g.slots i).state <;> rw [hst] at hlist <;> first | rfl | cases hlist
    have hset : Sets g { g.move i .delivering with delivering := some i } i
        { g.slots i with state := .delivering } :=
      ⟨rfl, (Sets.refl.move .delivering).content⟩
    refine ⟨⟨⟨?_, ?_, hset.pending hp rfl rfl rfl⟩, hfull⟩, rfl, rfl, fun a => ?_⟩
    · have hmoved := hL.move .delivering hi (by simp [reservation, hstate, isActive]) hL.reserved_le
        (by simp [isActive])
      exact ⟨_, { hmoved with }⟩
    · refine hset.tenancy ht hi ?_ (fun a j hget => ?_) (by rintro ⟨⟩) fun j => ?_
      · simp [taken, hstate, phase, move]
      · split
        · rename_i hji
          exact ⟨by rintro ⟨⟩, hji ▸ (ht.map_slot a j hget).2.2⟩
        · exact hget
      · split
        · rename_i hji
          exact iff_of_true (congrArg some hji.symm) rfl
        · rename_i hji
          rw [hd]
          exact iff_of_false (fun heq => hji (Option.some.inj heq).symm) (by rintro ⟨⟩)
    · have howed := hset.owed (h := a) rfl hi
      rw [hset.slot handle (fun _ => rfl), if_pos rfl]
      simpa [hstate, phase] using howed
  · cases hclaim

/-! ## Records from other threads -/

theorem markCancel_heldFull (hfull : g.HeldFull) : (g.markCancel i).HeldFull := by
  obtain ⟨hcap, -, hheld, hlive, -⟩ := markCancel_frame
  exact hfull.congr (by rw [hheld]) hlive hcap

theorem cancelHeld_heldFull (hfull : g.HeldFull) : (g.cancelHeld h).HeldFull :=
  hfull.congr map_eq_nil_iff rfl rfl

theorem mtControl_takes (hs : Sound g) (op : MtOp) :
    Takes g (g.mtControl h op) (fun _ => 0) ∧ (g.mtControl h op).HeldFull := by
  have hc := hs.toCoherent
  unfold mtControl
  split
  · exact ⟨.refl hc, hs.heldFull⟩
  · split
    · exact ⟨cancelHeld_takes hc, cancelHeld_heldFull hs.heldFull⟩
    · exact ⟨.refl hc, hs.heldFull⟩
  · rename_i i hmap
    obtain ⟨hi, hph, -⟩ := hc.tenancy.map_slot h i hmap
    split
    · split
      · exact ⟨markCancel_takes hc hi hph, markCancel_heldFull hs.heldFull⟩
      · exact ⟨.refl hc, hs.heldFull⟩
    · split
      · rename_i hcond
        exact ⟨resume_takes hc hi hcond.2, hs.heldFull.congr Iff.rfl rfl rfl⟩
      · exact ⟨.refl hc, hs.heldFull⟩

/-- A drained submit is owed from then on; a drained control changes nothing that is owed. -/
theorem mtDrainOne_spec (hs : Sound g) (r : Rec) : Takes g (g.mtDrainOne r)
        (fun a => if r.op = .submit ∧ r.handle = a then 1 else 0) ∧
      (g.mtDrainOne r).HeldFull := by
  have hc := hs.toCoherent
  unfold mtDrainOne
  split
  · rename_i hop
    have hnone : (fun a => if r.op = .submit ∧ r.handle = a then 1 else 0) = fun _ => 0 :=
      funext fun a => if_neg fun hand => hop hand.1
    rw [hnone]
    exact mtControl_takes hs r.op
  · rename_i hop
    rw [not_not] at hop
    have hone : (fun a => if r.op = .submit ∧ r.handle = a then 1 else 0) =
        fun a => if r.handle = a then 1 else 0 := by
      simp only [hop, true_and]
    rw [hone]
    split
    · rename_i hfull
      refine ⟨hold_takes hc ⟨r.handle, r.charge, false⟩, fun _ => ?_⟩
      rcases hfull with hheld | hlive
      · exact hs.heldFull hheld
      · exact hlive
    · rename_i hroom
      rw [not_or, not_not] at hroom
      have hle := live_le hc.tenancy
      obtain ⟨htakes, hheld⟩ := mtPlace_takes hc (by have := hroom.2; omega)
        ⟨r.handle, r.charge, false⟩
      exact ⟨htakes, fun hne => absurd (hheld.trans hroom.1) hne⟩

theorem cancelSlot_takes (hs : Sound g) (hi : i < g.capacity)
    (hph : (g.slots i).state.phase ≠ .free) :
    Takes g (g.cancelSlot i) (fun _ => 0) ∧ (g.cancelSlot i).HeldFull := by
  have hc := hs.toCoherent
  unfold cancelSlot
  split
  · exact ⟨markCancel_takes hc hi hph, markCancel_heldFull hs.heldFull⟩
  · obtain ⟨L, hL⟩ := hc.balanced
    obtain ⟨C, hC⟩ := hc.pending
    refine ⟨.of_mark hc ⟨L, hL.modify (fun _ => rfl) (fun _ => rfl) (fun _ => rfl) rfl⟩
      ⟨C, hC.congr rfl (modify_keeps cnext fun _ => rfl)
        (modify_keeps onClist fun _ => rfl)⟩ hph ⟨rfl, rfl, rfl, rfl, rfl, rfl, rfl⟩
      (modify_keeps state fun _ => rfl) (modify_keeps handle fun _ => rfl)
      fun j => modify_cancel, hs.heldFull⟩

theorem find_spec (ht : Tenancy g) (hfind : g.find h = some i) :
    i < g.capacity ∧ (g.slots i).state.phase ≠ .free ∧ (g.slots i).handle = h := by
  unfold find at hfind
  split at hfind
  · rename_i a hmap
    split at hfind
    · cases hfind
      exact ht.map_slot h i hmap
    · cases hfind
  · cases hfind

theorem resume_spec (hs : Sound g) : Takes g (g.resume h) (fun _ => 0) ∧ (g.resume h).HeldFull := by
  unfold resume
  split
  · rename_i i hfind
    obtain ⟨hi, -, -⟩ := find_spec hs.tenancy hfind
    split
    · rename_i hstate
      exact ⟨resume_takes hs.toCoherent hi hstate, hs.heldFull.congr Iff.rfl rfl rfl⟩
    · exact ⟨.refl hs.toCoherent, hs.heldFull⟩
  · exact ⟨.refl hs.toCoherent, hs.heldFull⟩

/-! ## Who asked for a cancel -/

/-- Whoever is marked as cancelled satisfies `P`. -/
structure Asked (g : Group) (P : ℕ → Prop) : Prop where
  slot : ∀ i, (g.slots i).cancel = true → P (g.slots i).handle
  held : ∀ r ∈ g.held, r.cancel = true → P r.handle

section Asked

variable {P : ℕ → Prop}

theorem Asked.mono {Q : ℕ → Prop} (ha : Asked g P) (hPQ : ∀ h, P h → Q h) : Asked g Q :=
  ⟨fun i hi => hPQ _ (ha.slot i hi), fun r hr hcancel => hPQ _ (ha.held r hr hcancel)⟩

theorem Asked.quiet (ha : Asked g P) (hq : Quiet g g') : Asked g' P where
  slot i hi := by
    rw [hq.cancel] at hi
    rw [hq.handle]
    exact ha.slot i hi
  held := hq.held ▸ ha.held

theorem Asked.markCancel (ha : Asked g P) (hP : P (g.slots i).handle) :
    Asked (g.markCancel i) P where
  slot j hj := by
    rw [markCancel_slot handle fun _ _ _ _ => rfl]
    rw [markCancel_cancel] at hj
    split at hj
    · rename_i hji
      rw [hji]
      exact hP
    · exact ha.slot j hj
  held := by
    rw [markCancel_frame.2.2.1]
    exact ha.held

theorem Asked.set {s : Slot} (ha : Asked g P) (hset : Sets g g' i s) (hheld : g'.held = g.held)
    (hs : s.cancel = true → P s.handle) : Asked g' P where
  slot j hj := by
    rw [hset.slot cancel fun _ => rfl] at hj
    rw [hset.slot handle fun _ => rfl]
    split
    · rename_i hji
      rw [if_pos hji] at hj
      exact hs hj
    · rename_i hji
      rw [if_neg hji] at hj
      exact ha.slot j hj
  held := hheld ▸ ha.held

/-- A new tenant is not cancelled. -/
theorem Asked.occupy (h charge : ℕ) (ha : Asked g P) (ht : Tenancy g)
    (hfree : (g.slots i).state = .free) : Asked (g.occupy i h charge) P := by
  refine ha.set (occupy_sets h charge) rfl fun hcancel => ?_
  cases (ht.free_cancel i (by rw [hfree]; rfl)).symm.trans hcancel

section

variable (ha : Asked g P)
include ha

section

variable (hc : Coherent g)
include hc

theorem Asked.submit (hlive : g.live < g.capacity) : Asked (g.submit h charge) P := by
  obtain ⟨i, hhead, -, hfree⟩ := exists_free hc hlive
  unfold Group.submit
  rw [hhead]
  exact ha.occupy _ _ hc.tenancy hfree

theorem Asked.mtPlace (hlive : g.live < g.capacity) {r : Held} (hr : r.cancel = true → P r.handle) :
    Asked (g.mtPlace r) P := by
  obtain ⟨i, -, hfree, heq⟩ := mtPlace_eq hc hlive r
  have hocc := ha.occupy r.handle r.charge hc.tenancy hfree
  rw [heq]
  split
  · rename_i hcancel
    refine hocc.markCancel ?_
    rw [(occupy_sets _ _).slot handle (fun _ => rfl), if_pos rfl]
    exact hr hcancel
  · exact hocc

theorem Asked.mtAdmitHeld : Asked g.mtAdmitHeld P := by
  refine (loopWhile_invariant (I := fun g' => Asked g' P ∧ Coherent g') (fun g₁ g₂ ⟨ha, hc⟩ hnext =>
    ⟨?_, (admitHeldNext_spec hc hnext).1.coherent⟩) g.held.length ⟨ha, hc⟩).1
  unfold admitHeldNext at hnext
  split at hnext
  · rename_i r held hheld
    split at hnext
    · rename_i hlive
      cases hnext
      have hrest : Asked { g₁ with held := held } P :=
        ⟨ha.slot, fun r' hr' => ha.held r' (hheld ▸ mem_cons_of_mem r hr')⟩
      exact hrest.mtPlace (hc.setHeld held) hlive (ha.held r (hheld ▸ mem_cons_self))
    · cases hnext
  · cases hnext

theorem Asked.retire (hd : g.delivering = some i) : Asked (g.retire i) P :=
  (ha.set (vacate_sets hd) (vacate_frame hd).2.1 nofun).mtAdmitHeld (vacate_spec hc hd).1

theorem Asked.retireDelivering : Asked g.retireDelivering P := by
  unfold Group.retireDelivering
  split
  · rename_i i hd
    exact ha.retire hc hd
  · exact ha

end

/-- A resumption changes neither handles nor cancels. -/
theorem Asked.move {st : SlotState} : Asked (g.move i st) P :=
  ha.set (Sets.refl.move st) rfl (ha.slot i)

theorem Asked.claimTerminal (hclaim : g.claimTerminal = some (i, g')) : Asked g' P := by
  unfold Group.claimTerminal at hclaim
  split at hclaim
  · cases hclaim
    exact ⟨ha.move.slot, ha.held⟩
  · cases hclaim

theorem Asked.cancelHeld (hP : P h) : Asked (g.cancelHeld h) P where
  slot := ha.slot
  held r hr hcancel := by
    obtain ⟨r', hr', rfl⟩ := mem_map.mp hr
    split at hcancel
    · rename_i hh
      rw [if_pos hh]
      exact hh ▸ hP
    · rename_i hh
      rw [if_neg hh]
      exact ha.held r' hr' hcancel

theorem Asked.mtDrainOne (hs : Sound g) {r : Rec} (hr : r.op = .cancel → P r.handle) :
    Asked (g.mtDrainOne r) P := by
  unfold Group.mtDrainOne
  split
  · unfold mtControl
    split
    · exact ha
    · split
      · rename_i hop
        exact ha.cancelHeld (hr hop)
      · exact ha
    · rename_i i hmap
      split
      · rename_i hop
        split
        · refine ha.markCancel ?_
          rw [(hs.tenancy.map_slot _ i hmap).2.2]
          exact hr hop
        · exact ha
      · split
        · exact ha.move
        · exact ha
  · split
    · refine ⟨ha.slot, fun r' hr' hcancel => ?_⟩
      rcases mem_append.mp hr' with hr' | hr'
      · exact ha.held r' hr' hcancel
      · rw [mem_singleton.mp hr'] at hcancel
        cases hcancel
    · rename_i hroom
      rw [not_or, not_not] at hroom
      have hle := live_le hs.tenancy
      exact ha.mtPlace hs.toCoherent (by have := hroom.2; omega) (by simp)

theorem Asked.cancelSlot (hP : P (g.slots i).handle) : Asked (g.cancelSlot i) P := by
  unfold Group.cancelSlot
  split
  · exact ha.markCancel hP
  · exact ha.set (.modify _) rfl fun _ => hP

theorem Asked.resume : Asked (g.resume h) P := by
  unfold Group.resume
  split
  · split
    · exact ha.move
    · exact ha
  · exact ha

end

end Asked

/-! ## Creation -/

/-- Pushing the slots one by one onto an empty list. -/
theorem pushAll_woven {t : Table} (hnil : ∀ k, t.lists k = ⟨none, none⟩) (n : ℕ) :
    Table.Woven ((range n).foldl (fun t i => t.listPush .free i) t)
        (fun k => if k = .free then range n else []) ∧
      (∀ j, (((range n).foldl (fun t i => t.listPush .free i) t).slots j).content =
        (t.slots j).content) ∧
      ((range n).foldl (fun t i => t.listPush .free i) t).nState = t.nState := by
  induction n with
  | zero =>
    refine ⟨⟨fun k => ?_, fun k => ?_, fun k => ?_, fun k k' i hi => ?_⟩, fun _ => rfl, rfl⟩
    · simpa [hnil] using Linked.nil
    · simp [hnil]
    · simp
    · simp at hi
  | succ n ih =>
    obtain ⟨hwoven, hcontent, hcnt⟩ := ih
    rw [range_succ, foldl_append]
    simp only [foldl_cons, foldl_nil]
    refine ⟨?_, fun j => listPush_content.trans (hcontent j), ?_⟩
    · have hpush := hwoven.push (k := .free) (i := n) fun k => by
        by_cases hk : k = .free <;> simp
      have hL : (fun k => if k = ListId.free then range n ++ [n] else []) = fun k' =>
          if k' = ListId.free then (if k' = ListId.free then range n else []) ++ [n]
          else if k' = ListId.free then range n else [] := by
        funext k
        by_cases hk : k = .free <;> simp [hk]
      rw [hL]
      exact hpush
    · rw [listPush_nState]
      exact hcnt

theorem create_content (j : ℕ) : ((create capacity maxActive resourceCapacity).slots j).content =
      emptySlot :=
  (pushAll_woven (fun _ => rfl) capacity).2.1 j

theorem create_slot (capacity maxActive resourceCapacity : ℕ) (p : Slot → α)
    (hp : ∀ s, p s.content = p s) (j : ℕ) :
    p ((create capacity maxActive resourceCapacity).slots j) =
      p emptySlot :=
  (hp _).symm.trans (congrArg p (create_content j))

theorem create_tidy : (create capacity maxActive resourceCapacity).toTable.Tidy capacity
      (fun k => if k = .free then range capacity else []) := by
  have hstate := create_slot capacity maxActive resourceCapacity state fun _ => rfl
  refine ⟨(pushAll_woven (fun _ => rfl) capacity).1, fun k i => ?_, fun st => ?_⟩
  · rw [hstate]
    by_cases hk : k = .free
    · simp [hk, listOf, emptySlot]
    · simp [hk, listOf, emptySlot, Ne.symm hk]
  · refine (congrFun (pushAll_woven (fun _ => rfl) capacity).2.2 st).trans ?_
    simp only [stateCount, hstate]
    by_cases hst : st = .free
    · simp [hst, blankTable, emptySlot]
    · simp [hst, blankTable, emptySlot, Ne.symm hst]

/-- A new group. -/
theorem create_sound : (create capacity maxActive resourceCapacity).Sound := by
  have hslot {α : Type} (p : Slot → α) (hp : ∀ s, p s.content = p s) :=
    create_slot capacity maxActive resourceCapacity p hp
  have htotal (w : Slot → ℕ) (hw : ∀ s, w s.content = w s) (hzero : w emptySlot = 0) :
      (create capacity maxActive resourceCapacity).total w = 0 :=
    Finset.sum_eq_zero fun j _ => (hslot w hw j).trans hzero
  have hcnt : (create capacity maxActive resourceCapacity).nState = (blankTable capacity).nState :=
    (pushAll_woven (fun _ => rfl) capacity).2.2
  have hact : (create capacity maxActive resourceCapacity).active = 0 := by
    unfold active
    rw [hcnt]
    rfl
  refine ⟨⟨⟨_, create_tidy, (htotal _ (fun _ => rfl) rfl).symm, Nat.zero_le _, ?_⟩,
    ⟨(htotal _ (fun _ => rfl) rfl).symm, fun h i hmap => ?_, fun i _ => ?_, fun i => ?_⟩, [], rfl,
    nodup_nil, fun i => ?_⟩, fun hne => absurd rfl hne⟩
  · rw [hact]
    exact Nat.zero_le _
  · unfold mapGet at hmap
    split at hmap <;> cases hmap
  · exact hslot cancel (fun _ => rfl) i
  · rw [hslot (fun s => s.state.phase) (fun _ => rfl)]
    exact iff_of_false nofun fun hand => Phase.noConfusion hand.2
  · rw [hslot onClist (fun _ => rfl)]
    simp [emptySlot]

theorem create_owed : (create capacity maxActive resourceCapacity).owed h = 0 := by
  have hzero : (create capacity maxActive resourceCapacity).total (pendingFor h) = 0 :=
    Finset.sum_eq_zero fun j _ => create_slot _ _ _ (pendingFor h) (fun _ => rfl) j
  rw [owed, hzero]
  rfl

theorem create_asked {P : ℕ → Prop} : Asked (create capacity maxActive resourceCapacity) P where
  slot i hi := by
    rw [create_slot _ _ _ cancel fun _ => rfl] at hi
    cases hi
  held r hr := by cases hr

end Group

end LibXtc.Batch

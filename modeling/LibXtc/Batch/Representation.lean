import LibXtc.Batch.Engine
import LibXtc.Batch.Tenancy
import Mathlib.Algebra.BigOperators.Group.Finset.Piecewise

/-!
# The representation invariant of the engine

In every reachable state the lists of a group are those of the states of its slots, its counters
are exact, its reservations fit, and whoever is marked as cancelled was named by a cancel. The
invariant behind it also says, for each place of the driver, which vector is frozen and which slot
is in delivery.
-/

namespace LibXtc.Batch

open Foundations State List

/-- The members of the vector in flight are distinct slots in flight. -/
structure Frozen (g : Group) (inflight : Option (List ℕ)) : Prop where
  nodup : ∀ v, inflight = some v → v.Nodup
  state : ∀ v, inflight = some v → ∀ i ∈ v, i < g.capacity ∧ (g.slots i).state = .inflight

/-- What the driver may rely on where it is. -/
def PcOk (g : Group) (inflight : Option (List ℕ)) : Pc → Prop
  | .completing _ i => g.delivering = some i ∧ inflight = none
  | .stepping members | .submitting members =>
    g.delivering = none ∧ inflight = none ∧ g.Members members
  | .awaiting | .hinting _ _ | .collecting _ _ | .enter .await | .drain .await =>
    g.delivering = none ∧ inflight ≠ none
  | .exiting => g.delivering = none ∨ inflight = none
  | .closing => inflight = none
  | _ => g.delivering = none ∧ inflight = none

/-- The handle of the cancel that a producer carries. -/
def Producer.cancels : Producer → Option ℕ
  | .tested (.cancel h) | .announced (.cancel h) | .entered (.cancel h) | .claimed (.cancel h) =>
    some h
  | .filled r | .reserved r _ | .pushed r => if r.op = .cancel then some r.handle else none
  | _ => none

/-- The invariant of the engine's own data. -/
structure Ok (s : State) : Prop where
  sound : s.group.Sound
  asked : s.group.Asked (· ∈ s.cancelled)
  frozen : Frozen s.group s.inflight
  ring : ∀ c ∈ s.ring, c.record.op = .cancel → c.record.handle ∈ s.cancelled
  producers : ∀ p ∈ s.producers, ∀ h, p.cancels = some h → h ∈ s.cancelled
  pc : PcOk s.group s.inflight s.pc

/-- The cell holds the submit of `h`. -/
def Cell.submits (h : ℕ) (c : Cell) : Bool := c.record.op = .submit && c.record.handle = h

/-- The submits of `h` that are completed, or on their way. -/
def State.handled (s : State) (h : ℕ) : ℕ :=
  s.completed.count h + s.group.owed h + s.ring.countP (Cell.submits h)

/-- What a step of the driver keeps. It moves requests along and loses none, and leaves the
producers, their counters and the other fibers alone. -/
structure Moves (s s' : State) : Prop extends Ok s' where
  handled : ∀ a, s'.handled a = s.handled a
  closed : s.group.closed = true → s'.group.closed = true
  frame : s'.peer = s.peer ∧ s'.producers = s.producers ∧ s'.returned = s.returned ∧
    s'.handleCtr = s.handleCtr ∧ s'.mtInflight = s.mtInflight ∧ s'.mt = s.mt ∧
    (s.ring = [] → s'.ring = [])

section Keeps

variable {g g' : Group} {inflight : Option (List ℕ)} {pc : Pc}

theorem Frozen.none (g : Group) : Frozen g none := ⟨nofun, nofun⟩

theorem Frozen.keeps (h : Frozen g inflight) (hk : Group.Keeps g g') : Frozen g' inflight where
  nodup := h.nodup
  state v hv i hi := by
    obtain ⟨hlt, hst⟩ := h.state v hv i hi
    rw [hk.capacity]
    exact ⟨hlt, hk.inflight i hst⟩

theorem Frozen.members (h : Frozen g inflight) : g.Members (inflight.getD []) := by
  cases hv : inflight with
  | none => exact ⟨nodup_nil, nofun⟩
  | some v =>
    refine ⟨h.nodup v hv, fun i hi => ?_⟩
    obtain ⟨hlt, hst⟩ := h.state v hv i hi
    rw [hst]
    exact ⟨hlt, rfl⟩

variable {members : List ℕ}

theorem Group.Members.keeps (h : g.Members members) (hk : Group.Keeps g g') :
    g'.Members members where
  nodup := h.nodup
  active i hi := by
    obtain ⟨hlt, hst⟩ := h.active i hi
    rw [hk.capacity]
    exact ⟨hlt, hk.active i hst⟩

/-- Taking requests in changes nothing that the driver relies on. -/
theorem PcOk.keeps (h : PcOk g inflight pc) (hk : Group.Keeps g g') : PcOk g' inflight pc := by
  have hd := hk.delivering
  unfold PcOk at h ⊢
  split at h
  case h_2 | h_3 => exact ⟨hd.trans h.1, h.2.1, h.2.2.keeps hk⟩
  case h_9 => exact h.imp_left hd.trans
  case h_10 => exact h
  case h_11 =>
    simp only [hd]
    exact h
  all_goals exact ⟨hd.trans h.1, h.2⟩

end Keeps

/-- `batch_mt_drain_one` takes the first cell. -/
theorem eq_of_drainOne {s s' : State} (hs' : s.drainOne = some s') : ∃ c ring, s.ring = c :: ring ∧
    s' = { s with ring := ring, group := s.group.mtDrainOne c.record } := by
  unfold drainOne at hs'
  split at hs'
  · split at hs' <;> cases hs'
    exact ⟨_, _, ‹_›, rfl⟩
  · cases hs'

namespace Ok

variable {s s' : State} {i a : ℕ} {o : Outcome} {cleanup cancelling : Bool} {g : Group} {pc : Pc}

/-- A change of the group that keeps what everybody relies on. -/
theorem setGroup {n : ℕ → ℕ} (h : Ok s) (ht : Group.Takes s.group g n)
    (hfull : g.HeldFull) (ha : g.Asked (· ∈ s.cancelled)) : Ok { s with group := g } :=
  ⟨⟨ht.coherent, hfull⟩, ha, h.frozen.keeps ht.keeps, h.ring, h.producers, h.pc.keeps ht.keeps⟩

theorem drainOne (h : Ok s) (hs' : s.drainOne = some s') : Moves s s' := by
  obtain ⟨c, ring, hring, rfl⟩ := eq_of_drainOne hs'
  have hcell := h.ring c (hring ▸ mem_cons_self)
  obtain ⟨htakes, hfull⟩ := Group.mtDrainOne_spec h.sound c.record
  have hnew := h.setGroup htakes hfull (h.asked.mtDrainOne h.sound hcell)
  refine { hnew with
    ring := fun c' hc' => h.ring c' (hring ▸ mem_cons_of_mem c hc')
    handled := fun a => ?_
    closed := htakes.keeps.closed.trans
    frame := ⟨rfl, rfl, rfl, rfl, rfl, rfl, fun hnil => nomatch hring.symm.trans hnil⟩ }
  have howed := htakes.owed a
  unfold handled
  rw [hring, countP_cons, howed]
  simp only [Cell.submits, Bool.and_eq_true, decide_eq_true_eq]
  omega

/-! ## Producers -/

/-- A step of a producer that carries no new cancel. -/
theorem setProducer {p : Producer} {returned : List ℕ} {ring : List Cell} {n ctr places : ℕ}
    (h : Ok s) (hp : ∀ a, p.cancels = some a → a ∈ s.cancelled)
    (hring : ∀ c ∈ ring, c.record.op = .cancel → c.record.handle ∈ s.cancelled := by exact h.ring) :
    Ok { s.setProducer i p with
      mtInflight := n, handleCtr := ctr, returned := returned, ring := ring, places := places } :=
  { h with ring := hring, producers := forall_mem_set h.producers hp }

/-- A cancel names `a`. -/
theorem ask (h : Ok s) (a : ℕ) : Ok { s with cancelled := s.cancelled ++ [a] } := by
  have hmem {b : ℕ} (hb : b ∈ s.cancelled) : b ∈ s.cancelled ++ [a] := mem_append_left _ hb
  exact ⟨h.sound, h.asked.mono fun _ => hmem, h.frozen, fun c hc hop => hmem (h.ring c hc hop),
    fun p hp b hb => hmem (h.producers p hp b hb), h.pc⟩

theorem call {c : Call} (h : Ok s) (hs' : s.call i c = some s') : Ok s' := by
  unfold State.call at hs'
  split at hs'
  · cases c with
    | submit charge | resume a =>
      dsimp only at hs'
      split at hs' <;> cases hs'
      exact h.setProducer nofun
    | cancel a =>
      dsimp only at hs'
      split at hs' <;> cases hs'
      refine (h.ask a).setProducer (fun b hb => ?_) (h.ask a).ring
      cases hb
      exact mem_append_right _ (mem_singleton.mpr rfl)
  · cases hs'

theorem produce {ok : Bool} (h : Ok s) (hs' : s.produce i ok = some s') : Ok s' := by
  unfold State.produce at hs'
  have hold {p : Producer} (hp : s.producers[i]? = some p) :
      ∀ a, p.cancels = some a → a ∈ s.cancelled := h.producers p (mem_of_getElem? hp)
  split at hs'
  · cases hs'
  · cases hs'
  · rename_i c hp
    cases hs'
    exact h.setProducer fun a ha => hold hp a (by cases c <;> exact ha)
  · rename_i c hp
    cases hs'
    refine h.setProducer fun a ha => hold hp a ?_
    split at ha
    · cases ha
    · cases c <;> exact ha
  · cases hs'
    exact h.setProducer nofun
  · rename_i c hp
    cases hs'
    refine h.setProducer fun a ha => hold hp a ?_
    split at ha
    · cases c <;> exact ha
    · cases ha
  · split at hs' <;> cases hs' <;> exact h.setProducer nofun
  · rename_i a hp
    cases hs'
    exact h.setProducer fun b hb => hold hp b hb
  · cases hs'
    exact h.setProducer nofun
  · rename_i r hp
    split at hs' <;> cases hs'
    · refine h.setProducer (fun a ha => hold hp a ha) fun c hc hop => ?_
      rcases mem_append.mp hc with hc | hc
      · exact h.ring c hc hop
      · rw [mem_singleton.mp hc] at hop ⊢
        exact hold hp r.handle (if_pos hop)
    · exact h.setProducer nofun
  · rename_i r n hp
    cases hs'
    refine h.setProducer (fun a ha => hold hp a ha) fun c hc hop => ?_
    obtain ⟨c', hc', rfl⟩ := mem_map.mp hc
    have hrecord : (if c'.place = n then { c' with written := true } else c').record =
        c'.record := by
      split <;> rfl
    rw [hrecord] at hop ⊢
    exact h.ring c' hc' hop
  · cases hs'
    exact h.setProducer nofun
  · cases hs'
    exact h.setProducer nofun

/-! ## The driver -/

/-- The driver goes on to a place that relies on what is there. -/
theorem setPc {callback : Bool} {gate : ℕ} (h : Ok s) (hpc : PcOk s.group s.inflight pc) :
    Moves s { s with callback := callback, gate := gate, pc := pc } :=
  { h with
    pc := hpc
    handled := fun _ => rfl
    closed := id
    frame := ⟨rfl, rfl, rfl, rfl, rfl, rfl, id⟩ }

/-- A step of the driver that only does bookkeeping. -/
theorem quiet (callback : Bool) {inflight : Option (List ℕ)} (h : Ok s)
    (hsound : g.Sound) (hq : Group.Quiet s.group g) (hfrozen : Frozen g inflight)
    (hpc : PcOk g inflight pc) :
    Moves s { s with group := g, callback := callback, inflight := inflight, pc := pc } where
  sound := hsound
  asked := h.asked.quiet hq
  frozen := hfrozen
  ring := h.ring
  producers := h.producers
  pc := hpc
  handled a := by rw [handled, hq.owed_eq, handled]
  closed := hq.closed.trans
  frame := ⟨rfl, rfl, rfl, rfl, rfl, rfl, id⟩

section

variable (h : Ok s)
include h

theorem afterVector (hd : s.group.delivering = none) (hv : s.inflight = none) :
    Moves s s.afterVector := by
  obtain ⟨hsound, hq⟩ := h.sound.vector
  have hd' : s.group.vector.delivering = none := hq.delivering.trans hd
  have hfrozen : Frozen s.group.vector s.inflight := hv ▸ Frozen.none _
  obtain ⟨hnodup, hready⟩ := Group.readyMembers_spec hsound.balanced
  have hmembers : s.group.vector.Members s.group.vector.readyMembers :=
    ⟨hnodup, fun i hi => ⟨(hready i hi).1, by rw [(hready i hi).2]; rfl⟩⟩
  unfold State.afterVector
  dsimp only
  split
  · exact h.quiet s.callback hsound hq hfrozen ⟨hd', hv⟩
  · split
    · exact h.quiet s.callback hsound hq hfrozen ⟨hd', hv⟩
    · refine h.quiet _ hsound hq hfrozen ?_
      split
      · exact ⟨hd', hv, hmembers⟩
      · exact ⟨hd', hv, hmembers⟩

theorem drained {k : Drain} (hpc : s.pc = .drain k) : Moves s (s.drained k) := by
  have hp := h.pc
  rw [hpc] at hp
  cases k with
  | top =>
    obtain ⟨hsound, hq⟩ := h.sound.consumeCancels
    exact h.quiet s.callback hsound hq (hp.2 ▸ Frozen.none _) ⟨hq.delivering.trans hp.1, hp.2⟩
  | vector => exact h.afterVector hp.1 hp.2
  | await => exact h.setPc hp
  | cleanup =>
    unfold State.drained
    dsimp only
    split
    · exact h.setPc hp
    · obtain ⟨hb, hsteady⟩ := Group.failAll_spec h.sound.balanced
      exact h.quiet s.callback (h.sound.of_steady hb hsteady) hsteady.toQuiet
        (hp.2 ▸ Frozen.none _) ⟨hsteady.delivering.trans hp.1, hp.2⟩

theorem stepped (hpc : s.pc = .stepping members) : Moves s (s.stepped members o) := by
  have hp := h.pc
  rw [hpc] at hp
  obtain ⟨hb, hsteady⟩ := Group.forMembers_spec _
    (fun i g hb hi hact => Group.stepResult_spec o.rc (o.results i) hb hi hact)
    h.sound.balanced hp.2.2
  exact h.quiet _ (h.sound.of_steady hb hsteady) hsteady.toQuiet (hp.2.1 ▸ Frozen.none _)
    ⟨hsteady.delivering.trans hp.1, hp.2.1⟩

theorem submitted (hpc : s.pc = .submitting members) : Moves s (s.submitted members o) := by
  have hp := h.pc
  rw [hpc] at hp
  unfold State.submitted
  split
  · obtain ⟨hb, hsteady⟩ := Group.forMembers_spec (fun i g => g.terminal i (batchExecError o.rc))
      (fun i g hb hi hact => Group.terminal_spec hb hi (SlotState.phase_of_active hact))
      h.sound.balanced hp.2.2
    exact h.quiet _ (h.sound.of_steady hb hsteady) hsteady.toQuiet (hp.2.1 ▸ Frozen.none _)
      ⟨hsteady.delivering.trans hp.1, hp.2.1⟩
  · obtain ⟨hb, hsteady⟩ := Group.forMembers_spec (fun i g => g.move i .inflight)
      (fun i g hb hi hact => Group.move_spec _ hb hi hact rfl) h.sound.balanced hp.2.2
    refine h.quiet _ (h.sound.of_steady hb hsteady) hsteady.toQuiet ⟨?_, ?_⟩ ?_
    · rintro v hv
      cases hv
      exact hp.2.2.nodup
    · rintro v hv i hi
      cases hv
      rw [hsteady.capacity]
      exact ⟨(hp.2.2.active i hi).1, Group.launch_state (.inl hi)⟩
    · have hd := hsteady.delivering.trans hp.1
      split
      · exact ⟨hd, nofun⟩
      · exact ⟨hd, nofun⟩

theorem hinted {j : ℕ} {k : Hinting} (hpc : s.pc = .hinting j k) : Moves s (s.hinted j k) := by
  have hp := h.pc
  rw [hpc] at hp
  unfold State.hinted
  dsimp only
  split
  · rename_i i hi
    split
    · obtain ⟨hb, hsteady, hstate⟩ := Group.fireHint_spec _ h.sound.balanced
      refine h.quiet s.callback (h.sound.of_steady hb hsteady) hsteady.toQuiet
        ⟨h.frozen.nodup, fun v hv a ha => ?_⟩ ⟨hsteady.delivering.trans hp.1, hp.2⟩
      rw [hsteady.capacity, hstate]
      exact h.frozen.state v hv a ha
    · exact h.setPc hp
  · cases k with
    | await =>
      refine h.setPc ?_
      split
      · exact hp
      · exact hp
    | collect status cleanup =>
      exact h.setPc hp

theorem collected {status : ℤ} (hpc : s.pc = .collecting status cleanup) :
    Moves s (s.collected status cleanup o) := by
  have hp := h.pc
  rw [hpc] at hp
  obtain ⟨hb, hsteady⟩ := Group.forMembers_spec _ (fun i g hb hi hact =>
    Group.collectResult_spec status o.rc (o.results i) hb hi hact)
    h.sound.balanced h.frozen.members
  refine h.quiet _ (h.sound.of_steady hb hsteady) hsteady.toQuiet (Frozen.none _) ?_
  split
  · exact rfl
  · exact ⟨hsteady.delivering.trans hp.1, rfl⟩

theorem quiesced {idle : Bool} (hd : s.group.delivering = none) (hv : s.inflight = none) :
    Moves s (s.quiesced cleanup idle) := by
  refine h.setPc ?_
  cases idle <;> cases cleanup
  · exact ⟨hd, hv⟩
  · exact ⟨hd, hv⟩
  · exact .inl hd
  · exact ⟨hd, hv⟩

theorem quiesce {q : Quiesce} (hpc : s.pc = .quiesce q cleanup) :
    Moves s (s.quiesce cleanup q) := by
  have hp := h.pc
  rw [hpc] at hp
  -- no branch touches the group; only the place of the driver and the gate change
  have hgate (gate : ℕ) (q' : Quiesce) :
      Moves s { s with gate := gate, pc := .quiesce q' cleanup } :=
    h.setPc hp
  have hreturn (idle : Bool) : Moves s (s.quiesced cleanup idle) := h.quiesced hp.1 hp.2
  cases q with
  | shut =>
    unfold State.quiesce
    dsimp only
    split
    · exact hreturn true
    · exact hgate _ _
  | inflight | length | inflightAgain =>
    unfold State.quiesce
    dsimp only
    split
    · exact hgate s.gate _
    · exact hreturn false
  | finish => exact hgate _ _
  | lengthAgain => exact hreturn _

end

/-- Closing the group is outside everything else. -/
theorem setClosed (h : g.Sound) :
    Group.Sound { g with closed := true, cancelling := cancelling } := by
  obtain ⟨⟨⟨L, hL⟩, ht, C, hC⟩, hfull⟩ := h
  exact ⟨⟨⟨L, { hL with }⟩, { ht with }, C, { hC with }⟩, hfull⟩

section

variable (h : Ok s) {charge : ℕ}
include h

theorem closeDown (hpc : s.pc = .closing) : Moves s s.closeDown := by
  have hp := h.pc
  rw [hpc] at hp
  have hv : s.inflight = none := hp
  have hcl : Group.Sound { s.group with closed := true } := setClosed h.sound
  have hasked : Group.Asked { s.group with closed := true } (· ∈ s.cancelled) :=
    ⟨h.asked.slot, h.asked.held⟩
  obtain ⟨hsound, howed, hd, hclosed⟩ := Group.retireDelivering_spec hcl
  refine ⟨⟨hsound, hasked.retireDelivering hcl.toCoherent, hv ▸ Frozen.none _, h.ring,
    h.producers, ⟨hd, hv⟩⟩, fun a => ?_, fun _ => hclosed, ⟨rfl, rfl, rfl, rfl, rfl, rfl, id⟩⟩
  unfold handled State.closeDown
  rw [howed]
  rfl

theorem driver (hs' : s.driver o = some s') : Moves s s' := by
  have hp := h.pc
  unfold State.driver at hs'
  split at hs' <;> rename_i hpc <;> rw [hpc] at hp
  · cases hs'
    refine h.setPc ?_
    split
    · exact hp
    · exact .inl hp.1
  · rename_i k
    cases hs'
    refine h.setPc ?_
    cases k <;> exact hp
  · split at hs' <;> cases hs'
    · rename_i hdr
      exact h.drainOne hdr
    · exact h.drained hpc
  · rename_i k
    have hpn : s.group.delivering = none ∧ s.inflight = none := by cases k <;> exact hp
    split at hs' <;> cases hs'
    · rename_i i g hclaim
      obtain ⟨hsound, hd, hcl, howed⟩ := Group.claimTerminal_spec h.sound hpn.1 hclaim
      refine ⟨⟨hsound, h.asked.claimTerminal hclaim, hpn.2 ▸ Frozen.none _, h.ring, h.producers,
        ⟨hd, hpn.2⟩⟩, fun a => ?_, hcl.trans, ⟨rfl, rfl, rfl, rfl, rfl, rfl, id⟩⟩
      have := howed a
      simp only [handled, count_append, count_singleton, beq_iff_eq]
      omega
    · refine h.setPc ?_
      cases k <;> exact hpn
  · rename_i k i
    cases hs'
    obtain ⟨hsound, howed, hd, hcl⟩ := Group.retire_spec h.sound.toCoherent hp.1
    exact ⟨⟨hsound, h.asked.retire h.sound.toCoherent hp.1, hp.2 ▸ Frozen.none _, h.ring,
      h.producers, by cases k <;> exact ⟨hd, hp.2⟩⟩, fun a => by rw [handled, howed, handled],
      hcl.trans, ⟨rfl, rfl, rfl, rfl, rfl, rfl, id⟩⟩
  · cases hs'
    exact h.stepped hpc
  · cases hs'
    exact h.submitted hpc
  · cases hs'
    refine h.setPc ?_
    split
    · exact hp
    · exact hp
  · cases hs'
    exact h.hinted hpc
  · cases hs'
    exact h.collected hpc
  · cases hs'
    exact h.quiesce hpc
  · cases hs'
    refine h.setPc ?_
    split
    · rename_i hsome
      have hne : s.inflight ≠ none := Option.isSome_iff_ne_none.mp hsome
      exact ⟨hp.resolve_right hne, hne⟩
    · rename_i hnone
      exact Option.not_isSome_iff_eq_none.mp hnone
  · cases hs'
    exact h.closeDown hpc
  · cases hs'

/-- A kill may come while a slot is in delivery or while a vector is in flight, never both. -/
theorem kill : Ok { s with pc := .exiting } := by
  refine (h.setPc ?_).toOk
  have hp := h.pc
  unfold PcOk at hp
  split at hp
  case h_1 => exact .inr hp.2
  case h_9 => exact hp
  case h_10 => exact .inr hp
  all_goals exact .inl hp.1

/-! ## Other fibers -/

theorem submitBegin (hs' : s.submitBegin charge = some s') : Ok s' := by
  unfold State.submitBegin at hs'
  split at hs' <;> cases hs'
  exact { h with }

theorem submitEnd (hlive : s.group.live < s.group.capacity)
    (hheld : s.group.held = []) : Ok (s.submitEnd charge) := by
  obtain ⟨htakes, hheld'⟩ := Group.submit_takes s.nextHandle charge h.sound.toCoherent hlive
  have hnew := h.setGroup htakes (fun hne => absurd (hheld'.trans hheld) hne)
    (h.asked.submit h.sound.toCoherent hlive)
  exact { hnew with }

/-- A cancel that finds a slot. -/
theorem cancelSlot (hfind : s.group.find a = some i) (hasked : a ∈ s.cancelled) :
    Ok { s with group := s.group.cancelSlot i } := by
  obtain ⟨hi, hph, hhandle⟩ := Group.find_spec h.sound.tenancy hfind
  obtain ⟨htakes, hfull⟩ := Group.cancelSlot_takes h.sound hi hph
  exact h.setGroup htakes hfull (h.asked.cancelSlot (hhandle ▸ hasked))

theorem cancelBegin : Ok (s.cancelBegin a) := by
  unfold State.cancelBegin
  dsimp only
  split
  · rename_i i hfind
    exact (h.ask a).cancelSlot hfind (mem_append_right _ (mem_singleton.mpr rfl))
  · exact { h.ask a with }

theorem cancelEnd (hasked : a ∈ s.cancelled) : Ok (s.cancelEnd a) := by
  have hnone : Ok { s with peer := .none } :=
    { h with }
  unfold State.cancelEnd
  dsimp only
  split
  · rename_i i hfind
    exact hnone.cancelSlot hfind hasked
  · split
    · exact hnone.setGroup (Group.cancelHeld_takes h.sound.toCoherent)
        (Group.cancelHeld_heldFull h.sound.heldFull) (h.asked.cancelHeld hasked)
    · exact hnone

theorem resume : Ok { s with group := s.group.resume a } := by
  obtain ⟨htakes, hfull⟩ := Group.resume_spec h.sound
  exact h.setGroup htakes hfull h.asked.resume

theorem close : Ok (s.close cancelling) := by
  refine ⟨setClosed h.sound, ⟨h.asked.slot, h.asked.held⟩, ⟨h.frozen.nodup, h.frozen.state⟩, h.ring,
    h.producers, ?_⟩
  have hp := h.pc
  change PcOk _ s.inflight s.pc
  unfold PcOk at hp ⊢
  split at hp
  case h_2 | h_3 => exact ⟨hp.1, hp.2.1, hp.2.2.nodup, hp.2.2.active⟩
  all_goals exact hp

end

end Ok

/-! ## Runs -/

/-- What a fiber inside its bracket relies on. -/
def PeerOk (g : Group) (cancelled : List ℕ) : Peer → Prop
  | .none => True
  | .submitting _ => g.live < g.capacity ∧ g.held = []
  | .cancelling h => h ∈ cancelled

section Frames

variable {s s' : State} {i : ℕ}

/-- Producers do not touch what belongs to the owner loop. -/
theorem produce_frame {ok : Bool} (hs' : s.produce i ok = some s') :
    s'.group = s.group ∧ s'.peer = s.peer ∧ s'.cancelled = s.cancelled := by
  unfold produce at hs'
  split at hs'
  all_goals first
    | (cases hs'; exact ⟨rfl, rfl, rfl⟩)
    | (split at hs' <;> cases hs' <;> exact ⟨rfl, rfl, rfl⟩)
    | cases hs'

theorem call_frame {c : Call} (hs' : s.call i c = some s') :
    s'.group = s.group ∧ s'.peer = s.peer ∧ s.cancelled ⊆ s'.cancelled := by
  unfold call at hs'
  split at hs'
  · cases c <;> dsimp only at hs' <;> split at hs' <;> cases hs'
    · exact ⟨rfl, rfl, fun _ ha => ha⟩
    · exact ⟨rfl, rfl, fun _ ha => mem_append_left _ ha⟩
    · exact ⟨rfl, rfl, fun _ ha => ha⟩
  · cases hs'

end Frames

/-- The invariant of a run. -/
structure Inv (s : State) : Prop extends Ok s where
  peer : PeerOk s.group s.cancelled s.peer

theorem Inv.peerStep {s s' : State} (h : Inv s) (hs' : s.peerStep = some s') : Inv s' := by
  have hpeer := h.peer
  unfold State.peerStep at hs'
  split at hs' <;> rename_i hp <;> rw [hp] at hpeer
  · cases hs'
  · cases hs'
    exact ⟨h.toOk.submitEnd hpeer.1 hpeer.2, trivial⟩
  · split at hs' <;> cases hs'
    · rename_i hdr
      refine ⟨(h.toOk.drainOne hdr).toOk, ?_⟩
      obtain ⟨c, ring, -, rfl⟩ := eq_of_drainOne hdr
      rw [hp]
      exact hpeer
    · refine ⟨h.toOk.cancelEnd hpeer, ?_⟩
      unfold State.cancelEnd
      dsimp only
      split
      · trivial
      · split <;> trivial

theorem Inv.act {s s' : State} {a : Act} (h : Inv s) (hs' : s.act a = some s') : Inv s' := by
  have hpeer := h.peer
  have hlocked (hopen : s.unlocked = true) : s.peer = .none := by
    simp only [unlocked, Bool.and_eq_true, decide_eq_true_eq] at hopen
    exact hopen.1.1
  unfold State.act at hs'
  split at hs'
  · split at hs'
    · rename_i hnone
      have hmoves := h.toOk.driver hs'
      refine ⟨hmoves.toOk, ?_⟩
      rw [hmoves.frame.1, hnone]
      trivial
    · cases hs'
  · split at hs' <;> cases hs'
    exact ⟨h.toOk.kill, h.peer⟩
  · obtain ⟨hgroup, hpeer', hsub⟩ := call_frame hs'
    refine ⟨h.toOk.call hs', ?_⟩
    rw [hgroup, hpeer']
    revert hpeer
    cases s.peer with
    | none => exact fun _ => trivial
    | submitting charge => exact id
    | cancelling b => exact fun hb => hsub hb
  · obtain ⟨hgroup, hpeer', hcan⟩ := produce_frame hs'
    refine ⟨h.toOk.produce hs', ?_⟩
    rw [hgroup, hpeer', hcan]
    exact hpeer
  · split at hs'
    · refine ⟨h.toOk.submitBegin hs', ?_⟩
      unfold State.submitBegin at hs'
      split at hs'
      · cases hs'
      · rename_i hcond
        cases hs'
        simp only [not_or, not_not] at hcond
        have hle := Group.live_le h.sound.tenancy
        exact ⟨by change s.group.live < s.group.capacity; omega, hcond.2.2.2.2.2⟩
    · cases hs'
  · split at hs' <;> cases hs'
    rename_i a hopen
    refine ⟨h.toOk.cancelBegin, ?_⟩
    have hnone := hlocked hopen
    unfold State.cancelBegin
    dsimp only
    split
    · rw [hnone]
      trivial
    · exact mem_append_right _ (mem_singleton.mpr rfl)
  · split at hs' <;> cases hs'
    rename_i a hopen
    refine ⟨h.toOk.resume, ?_⟩
    have hnone := hlocked hopen
    rw [hnone]
    trivial
  · split at hs' <;> cases hs'
    refine ⟨h.toOk.close, ?_⟩
    trivial
  · exact h.peerStep hs'

theorem Inv.create {capacity maxActive resourceCapacity n : ℕ} {async mt hints : Bool} :
    Inv (create capacity maxActive resourceCapacity async mt hints n) where
  sound := Group.create_sound
  asked := Group.create_asked
  frozen := Frozen.none _
  ring := nofun
  producers p hp a ha := by
    rw [eq_of_mem_replicate hp] at ha
    cases ha
  pc := ⟨rfl, rfl⟩
  peer := trivial

theorem Inv.of_reachable {s : State} (hs : system.Reachable s) : Inv s := by
  refine hs.invariant ?_ ?_
  · rintro s ⟨capacity, maxActive, resourceCapacity, async, mt, hints, n, -, -, -, rfl⟩
    exact Inv.create
  · intro s a s' h _ hstep
    exact h.act hstep

/-! ## The representation -/

/-- Each list is well linked, holds every slot of its class once, and no other. -/
def Group.ListsExact (g : Group) : Prop :=
  ∃ L : ListId → List ℕ, ∀ k,
    Linked (fun i => (g.slots i).prev) (fun i => (g.slots i).next) (g.lists k).head (L k) ∧
      (g.lists k).tail = (L k).getLast? ∧ (L k).Nodup ∧
      ∀ i, i ∈ L k ↔ i < g.capacity ∧ listOf (g.slots i).state = some k

/-- The representation invariant. Every slot is on the list of its state class and on no other;
the counters of the states are exact; the reserved units are the charges of the active slots and
fit; no more than `max_active` slots are active; requests are held only while every slot is taken;
a slot is marked cancelled only if a cancel named its present request; and without a cancel-close,
consuming the list of pending cancels leaves every slot alone whose present request is not marked,
whether or not the slot is still on that list. -/
theorem group_representation {s : State} (hs : system.Reachable s) : s.group.ListsExact ∧
      (∀ st, s.group.nState st =
        ((Finset.range s.group.capacity).filter fun i => (s.group.slots i).state = st).card) ∧
      (s.group.reservedUnits =
        ∑ i ∈ (Finset.range s.group.capacity).filter fun i => (s.group.slots i).state.isActive,
          (s.group.slots i).charge) ∧
      s.group.reservedUnits ≤ s.group.resourceCapacity ∧
      s.group.nState .ready + s.group.nState .blocked + s.group.nState .inflight ≤
        s.group.maxActive ∧
      (s.group.held ≠ [] → s.group.live = s.group.capacity) ∧
      (∀ i, (s.group.slots i).cancel → (s.group.slots i).handle ∈ s.cancelled) ∧
      ∀ i, (s.group.slots i).cancel = false → s.group.cancelling = false →
        (s.group.consumeCancels.slots i).state = (s.group.slots i).state := by
  have h := Inv.of_reachable hs
  obtain ⟨L, hL⟩ := h.sound.balanced
  obtain ⟨C, hC⟩ := h.sound.pending
  refine ⟨⟨L, fun k => ⟨hL.tidy.woven.linked k, hL.tidy.woven.tail_eq k, hL.tidy.woven.nodup k,
    hL.tidy.mem_iff k⟩⟩, fun st => ?_, ?_, hL.reserved_le, hL.active_le, h.sound.heldFull,
    h.asked.slot, fun i hcancel hopen =>
      Group.consumeCancels_state h.sound.balanced hC hopen hcancel⟩
  · rw [hL.tidy.count, Table.stateCount, Finset.card_filter]
  · rw [hL.reserved, Group.total, Finset.sum_filter]
    rfl

/-- A group of two slots whose driver has admitted one request into its first vector. -/
theorem group_representation_firstVector :
    ∃ s, system.Reachable s ∧ s.group.nState .ready = 1 ∧ s.group.reservedUnits = 3 ∧
      s.group.ListsExact := by
  let o : Outcome := ⟨true, 0, false, 0, fun _ => ⟨.done, 0⟩⟩
  have hrun := System.exists_reachable (M := system)
    [.driver o, .submit 3, .peer, .driver o, .driver o, .driver o, .driver o, .driver o]
    ⟨2, 1, 5, false, false, false, 0, by decide, by decide, by decide, rfl⟩
    (P := fun s => s.group.nState .ready = 1 ∧ s.group.reservedUnits = 3) (by decide)
    fun s hs _ => (group_representation hs).1
  simpa only [and_assoc] using hrun

end LibXtc.Batch

import LibXtc.Batch.Representation

/-!
# Exactly-once completion

Every handle that a submit returned is in one place at a time: with a producer, in the ring, in
the queue of held requests, in a slot, or completed. The driver exits only when no producer is
between the gate and its push and nothing is left in the ring, so by then the handles completed are
those returned.
-/

namespace LibXtc.Batch

open Foundations Producer State List

/-- The producer has a place of the ring for its submit of `h` and will return `h`. -/
def Producer.holds (h : ℕ) : Producer → Bool
  | .reserved r _ | .pushed r => r.op = .submit && r.handle = h
  | _ => false

/-- The producer has drawn `h` and not pushed it. -/
def Producer.draws (h : ℕ) : Producer → Bool
  | .filled r => r.op = .submit && r.handle = h
  | _ => false

/-- The producer is counted in `inflight`. -/
def Producer.announces : Producer → Bool
  | .idle | .tested _ => false
  | _ => true

/-- The producer is past the gate. -/
def Producer.past : Producer → Bool
  | .idle | .tested _ | .announced _ | .refused => false
  | _ => true

/-- The submits of `h` that were accepted. -/
def State.accepted (s : State) (h : ℕ) : ℕ :=
  s.returned.count h + s.producers.countP (holds h)

/-- A closed group without requests. -/
structure Group.Idle (g : Group) : Prop where
  closed : g.closed = true
  live : g.live = 0
  held : g.held = []

/-- What the driver relies on while it ends. -/
def PcClosed (s : State) : Pc → Prop
  | .enter .cleanup | .drain .cleanup | .deliver .cleanup | .completing .cleanup _ =>
    s.group.closed = true
  | .quiesce q _ =>
    s.group.Idle ∧ (q = .inflightAgain → s.gate = 2) ∧
      (q = .lengthAgain → s.gate = 2 ∧ ∀ p ∈ s.producers, p.past = false)
  | .exited =>
    s.group.Idle ∧ s.ring = [] ∧ (s.mt = true → s.gate = 2) ∧ ∀ p ∈ s.producers, p.past = false
  | _ => True

/-- The books of the whole engine. -/
structure Ledger (s : State) : Prop where
  balance : ∀ h, s.accepted h = s.handled h
  /-- A handle is drawn once, and no later than the counter says. -/
  unique : ∀ h, s.accepted h + s.producers.countP (draws h) ≤
    if h ≤ s.handleCtr then 1 else 0
  /-- The handle `0` comes from a draw that found the counter exhausted. -/
  zero : s.accepted 0 + s.producers.countP (draws 0) = 0 ∨
    (s.handleCtr = handleMax ∧ ∀ charge, s.peer ≠ .submitting charge)
  inflight : s.mtInflight = s.producers.countP announces
  noRing : s.mt = false → s.ring = [] ∧ ∀ p ∈ s.producers, p = .idle
  peerOpen : ∀ charge, s.peer = .submitting charge → s.group.closed = false
  bracket : s.pc.outside = false → s.peer = .none
  pc : PcClosed s s.pc

/-! ## Producers -/

section Producers

variable {s s' : State} {i n : ℕ} {old p : Producer}

theorem setProducer_accepted (hold : s.producers[i]? = some old) (a : ℕ) :
    (s.setProducer i p).accepted a + (old.holds a).toNat = s.accepted a + (p.holds a).toNat := by
  have hcnt := countP_set_add (p := holds a) (b := p) hold
  unfold accepted setProducer
  dsimp only
  omega

/-- A step of a producer after which no handle is drawn or accepted more often than before. -/
theorem Ledger.move {ring : List Cell} {places : ℕ} {returned : List ℕ} (hl : Ledger s)
    (hold : s.producers[i]? = some old) (hmt : s.mt = true) (hs' : s' = { s.setProducer i p with
      mtInflight := n, ring := ring, places := places, returned := returned })
    (hn : n + old.announces.toNat = s.mtInflight + p.announces.toNat)
    (hbalance : ∀ a, s'.accepted a = s'.handled a)
    (hle : ∀ a, s'.accepted a + (s.producers.set i p).countP (draws a) ≤
      s.accepted a + s.producers.countP (draws a)) (hpc : PcClosed s' s.pc) : Ledger s' := by
  subst hs'
  refine { hl with
    balance := hbalance
    unique := fun a => (hle a).trans (hl.unique a)
    zero := hl.zero.imp_left fun hzero => Nat.le_zero.mp ((hle 0).trans_eq hzero)
    inflight := ?_
    noRing := fun hfalse => absurd (hfalse.symm.trans hmt) nofun
    pc := hpc }
  have := countP_set_add (p := announces) (b := p) hold
  have := hl.inflight
  change n = (s.producers.set i p).countP announces
  omega

/-- A step of a producer that neither draws, pushes nor returns a submit. -/
theorem Ledger.setProducer (p : Producer) (hl : Ledger s) (hold : s.producers[i]? = some old)
    (hmt : s.mt = true) (hn : n + old.announces.toNat = s.mtInflight + p.announces.toNat := by rfl)
    (hholds : ∀ a, p.holds a = old.holds a := by exact fun _ => rfl)
    (hdraws : ∀ a, p.draws a = true → old.draws a = true := by rintro _ ⟨⟩)
    (hpast : p.past = true → old.past = true ∨ s.gate ≠ 2 := by exact fun _ => .inl rfl) :
    Ledger { s.setProducer i p with mtInflight := n } := by
  have hacc (a : ℕ) : (s.setProducer i p).accepted a = s.accepted a := by
    have := setProducer_accepted (p := p) hold a
    rw [hholds a] at this
    omega
  have hcnt (a : ℕ) : (s.producers.set i p).countP (draws a) ≤ s.producers.countP (draws a) := by
    have := countP_set_add (p := draws a) (b := p) hold
    cases hp : p.draws a with
    | false =>
      rw [hp] at this
      simp only [Bool.toNat_false] at this
      omega
    | true =>
      rw [hp, hdraws a hp] at this
      omega
  refine hl.move hold hmt rfl hn (fun a => (hacc a).trans (hl.balance a))
    (fun a => Nat.add_le_add (hacc a).le (hcnt a)) ?_
  have hpc := hl.pc
  have hkeep (hgate : s.gate = 2) (hall : ∀ q ∈ s.producers, q.past = false) :
      ∀ q ∈ s.producers.set i p, q.past = false := by
    refine forall_mem_set hall ?_
    by_contra hne
    rcases hpast (by simpa using hne) with hwas | hopen
    · rw [hall old (mem_of_getElem? hold)] at hwas
      cases hwas
    · exact hopen hgate
  revert hpc
  unfold PcClosed
  split
  · exact id
  · exact id
  · exact id
  · exact id
  · exact fun ⟨hidle, hgate, hlast⟩ => ⟨hidle, hgate, fun hq =>
      ⟨(hlast hq).1, hkeep (hlast hq).1 (hlast hq).2⟩⟩
  · exact fun ⟨hidle, hring, hgate, hall⟩ => ⟨hidle, hring, hgate, hkeep (hgate hmt) hall⟩
  · exact id

/-- While a producer is past the gate the driver has not finished its second look. -/
theorem PcClosed.of_past (hpc : PcClosed s s.pc) (hold : s.producers[i]? = some old)
    (hpast : old.past = true) (hgroup : s'.group = s.group) (hgate : s'.gate = s.gate)
    (hsame : s'.pc = s.pc) : PcClosed s' s'.pc := by
  have hmem := mem_of_getElem? hold
  rw [hsame]
  revert hpc
  unfold PcClosed
  rw [hgroup, hgate]
  split
  · exact id
  · exact id
  · exact id
  · exact id
  · refine fun ⟨hidle, hfinal, hlast⟩ => ⟨hidle, hfinal, fun hq => ?_⟩
    cases hpast.symm.trans ((hlast hq).2 old hmem)
  · rintro ⟨-, -, -, hall⟩
    cases hpast.symm.trans (hall old hmem)
  · exact id

section

variable (hl : Ledger s) {r : Rec}
include hl

variable {charge : ℕ}

theorem Ledger.draw (hold : s.producers[i]? = some (.claimed (.submit charge)))
    (hmt : s.mt = true) (hne : s.nextHandle ≠ 0) :
    Ledger { s.setProducer i (.filled ⟨.submit, s.nextHandle, charge⟩) with
      handleCtr := s.nextCtr } := by
  have hctr : s.handleCtr ≠ handleMax := by
    intro heq
    exact hne (if_pos heq)
  have hnext : s.nextHandle = s.handleCtr + 1 := if_neg hctr
  have hnextCtr : s.nextCtr = s.handleCtr + 1 := if_neg hctr
  rw [hnext, hnextCtr]
  have hacc (a : ℕ) : (s.setProducer i
      (.filled ⟨.submit, s.handleCtr + 1, charge⟩)).accepted a = s.accepted a :=
    setProducer_accepted hold a
  have hdraws (a : ℕ) : (s.producers.set i
        (.filled ⟨.submit, s.handleCtr + 1, charge⟩)).countP (draws a) =
      s.producers.countP (draws a) + if a = s.handleCtr + 1 then 1 else 0 := by
    have hcnt := countP_set_add (p := draws a)
      (b := .filled ⟨.submit, s.handleCtr + 1, charge⟩) hold
    by_cases ha : a = s.handleCtr + 1
    · simp_all [draws]
    · simp_all [draws, Ne.symm ha]
  constructor
  · exact fun a => (hacc a).trans (hl.balance a)
  · intro a
    have hunique := hl.unique a
    change (s.setProducer i _).accepted a + (s.producers.set i _).countP (draws a) ≤
      if a ≤ s.handleCtr + 1 then 1 else 0
    rw [hacc, hdraws]
    split_ifs at hunique ⊢ <;> omega
  · rcases hl.zero with hzero | ⟨hmax, -⟩
    · left
      change (s.setProducer i _).accepted 0 + (s.producers.set i _).countP (draws 0) = 0
      rw [hacc, hdraws, if_neg (Nat.succ_ne_zero _).symm]
      exact hzero
    · exact absurd hmax hctr
  · have := countP_set_add (p := announces) (b := .filled ⟨.submit, s.handleCtr + 1, charge⟩) hold
    exact hl.inflight.trans (Nat.add_right_cancel this).symm
  · intro hfalse
    cases hfalse.symm.trans hmt
  · exact hl.peerOpen
  · exact hl.bracket
  · exact hl.pc.of_past hold rfl rfl rfl rfl

theorem Ledger.reserve (hold : s.producers[i]? = some (.filled r)) (hmt : s.mt = true) :
    Ledger { s.setProducer i (.reserved r s.places) with
      ring := s.ring ++ [⟨s.places, r, false⟩], places := s.places + 1 } := by
  have hacc (a : ℕ) : (s.setProducer i (.reserved r s.places)).accepted a =
      s.accepted a + (draws a (.filled r)).toNat :=
    setProducer_accepted hold a
  refine hl.move hold hmt rfl rfl (fun a => ?_) (fun a => ?_) (hl.pc.of_past hold rfl rfl rfl rfl)
  · have hring : (s.ring ++ [(⟨s.places, r, false⟩ : Cell)]).countP (Cell.submits a) =
        s.ring.countP (Cell.submits a) + (draws a (.filled r)).toNat := by
      rw [countP_append, countP_singleton]
      change _ + (if draws a (.filled r) then 1 else 0) = _
      cases draws a (.filled r) <;> rfl
    have hbalance := hl.balance a
    change (s.setProducer i (.reserved r s.places)).accepted a =
      s.completed.count a + s.group.owed a +
        (s.ring ++ [(⟨s.places, r, false⟩ : Cell)]).countP (Cell.submits a)
    rw [hacc, hring, hbalance, handled, Nat.add_assoc]
  · have hdraws : (s.producers.set i (.reserved r s.places)).countP (draws a) +
        (draws a (.filled r)).toNat = s.producers.countP (draws a) :=
      countP_set_add hold
    change (s.setProducer i (.reserved r s.places)).accepted a + _ ≤ _
    rw [hacc]
    omega

theorem Ledger.push (hold : s.producers[i]? = some (.reserved r n)) (hmt : s.mt = true) :
    Ledger { s.setProducer i (.pushed r) with
      ring := s.ring.map fun c => if c.place = n then { c with written := true } else c } := by
  have hset : Ledger { s.setProducer i (.pushed r) with mtInflight := s.mtInflight } :=
    hl.setProducer (.pushed r) hold hmt
  have hring (a : ℕ) : (s.ring.map fun c => if c.place = n then { c with written := true }
      else c).countP (Cell.submits a) = s.ring.countP (Cell.submits a) := by
    rw [countP_map]
    refine countP_congr fun c _ => ?_
    change Cell.submits a (if c.place = n then { c with written := true } else c) = true ↔ _
    split <;> rfl
  refine { hset with
    balance := fun a => (hset.balance a).trans ?_
    noRing := fun hfalse => absurd (hfalse.symm.trans hmt) nofun
    pc := hl.pc.of_past hold rfl rfl rfl rfl }
  unfold handled
  dsimp only [State.setProducer]
  rw [hring]

theorem Ledger.answer (hold : s.producers[i]? = some (.pushed r)) (hop : r.op = .submit)
    (hmt : s.mt = true) :
    Ledger { s.setProducer i .idle with
      mtInflight := s.mtInflight - 1, returned := s.returned ++ [r.handle] } := by
  have hacc (a : ℕ) : accepted { s.setProducer i .idle with
      mtInflight := s.mtInflight - 1, returned := s.returned ++ [r.handle] } a =
      s.accepted a := by
    have hcnt := countP_set_add (p := holds a) (b := .idle) hold
    have hone : (holds a (.pushed r)).toNat = [r.handle].count a := by
      by_cases ha : r.handle = a <;> simp [holds, hop, ha]
    unfold accepted
    dsimp only [State.setProducer]
    rw [count_append]
    change _ = _ + 0 at hcnt
    omega
  have hdraws (a : ℕ) : (s.producers.set i .idle).countP (draws a) = s.producers.countP (draws a) :=
    countP_set_add (p := draws a) hold
  refine hl.move hold hmt rfl ?_ (fun a => (hacc a).trans (hl.balance a))
    (fun a => Nat.add_le_add (hacc a).le (hdraws a).le) (hl.pc.of_past hold rfl rfl rfl rfl)
  have := countP_set_add (p := announces) (b := .idle) hold
  have hfly := hl.inflight
  change _ + 1 = _ + 0 at this
  change s.mtInflight - 1 + 1 = s.mtInflight + 0
  omega

theorem Ledger.produce {ok : Bool} (hs' : s.produce i ok = some s') : Ledger s' := by
  have hmt : s.mt = true := by
    by_contra hfalse
    obtain ⟨-, hidle⟩ := hl.noRing (by simpa using hfalse)
    unfold State.produce at hs'
    split at hs' <;> rename_i hold <;> first
      | cases hs'
        done
      | cases hidle _ (mem_of_getElem? hold)
  -- a producer that is counted can be taken off the count
  have hcounted {old : Producer} (hold : s.producers[i]? = some old) (ha : old.announces = true) :
      s.mtInflight - 1 + 1 = s.mtInflight := by
    have hpos : 0 < s.producers.countP announces :=
      countP_pos_iff.mpr ⟨old, mem_of_getElem? hold, ha⟩
    have := hl.inflight
    omega
  unfold State.produce at hs'
  split at hs' <;> rename_i hold
  · cases hs'
  · cases hs'
  · cases hs'
    exact hl.setProducer (.announced _) hold hmt rfl (fun _ => rfl) nofun nofun
  · rename_i c
    cases hs'
    split
    · exact hl.setProducer .refused hold hmt rfl (fun _ => rfl) nofun nofun
    · rename_i hgate
      refine hl.setProducer (.entered c) hold hmt rfl (fun _ => rfl) nofun fun _ => .inr ?_
      rintro heq
      refine hgate ?_
      rw [heq]
      cases c <;> simp [Call.limit]
  · cases hs'
    exact hl.setProducer .idle hold hmt (hcounted hold rfl) (fun _ => rfl) nofun nofun
  · cases hs'
    split
    · exact hl.setProducer (.claimed _) hold hmt
    · exact hl.setProducer .rejected hold hmt
  · split at hs' <;> cases hs'
    · exact hl.setProducer .rejected hold hmt
    · rename_i hne
      exact hl.draw hold hmt hne
  · cases hs'
    refine hl.setProducer (.filled _) hold hmt rfl (fun _ => rfl) fun a ha => ?_
    simp [draws] at ha
  · cases hs'
    refine hl.setProducer (.filled _) hold hmt rfl (fun _ => rfl) fun a ha => ?_
    simp [draws] at ha
  · split at hs' <;> cases hs'
    · exact hl.reserve hold hmt
    · exact hl.setProducer .rejected hold hmt
  · cases hs'
    exact hl.push hold hmt
  · rename_i r
    cases hs'
    by_cases hop : r.op = .submit
    · rw [if_pos hop]
      exact hl.answer hold hop hmt
    · rw [if_neg hop]
      refine hl.setProducer .idle hold hmt (hcounted hold rfl) (fun a => ?_) nofun nofun
      simp [holds, hop]
  · cases hs'
    exact hl.setProducer .idle hold hmt (hcounted hold rfl) (fun _ => rfl) nofun nofun

theorem Ledger.call {c : Call} (hs' : s.call i c = some s') : Ledger s' := by
  unfold State.call at hs'
  split at hs'
  · rename_i hcond
    obtain ⟨hmt, hold, -⟩ := hcond
    have hset : Ledger { s.setProducer i (.tested c) with mtInflight := s.mtInflight } :=
      hl.setProducer (.tested c) hold hmt rfl (fun _ => rfl) nofun nofun
    split at hs' <;> split at hs' <;> cases hs' <;> exact { hset with }
  · cases hs'

end

end Producers

/-! ## The driver -/

section Driver

variable {s s' : State} {o : Outcome}

/-- If nobody is counted, nobody is past the gate. -/
theorem Ledger.not_past (hl : Ledger s) (hzero : s.mtInflight = 0) :
    ∀ p ∈ s.producers, p.past = false := by
  intro p hp
  have hnone := countP_eq_zero.mp (hl.inflight.symm.trans hzero) p hp
  cases p <;> first | rfl | exact absurd rfl hnone

theorem quiesce_closed {q : Quiesce} {cleanup : Bool} (hl : Ledger s)
    (hpc : s.pc = .quiesce q cleanup) :
    PcClosed (s.quiesce cleanup q) (s.quiesce cleanup q).pc := by
  have hp := hl.pc
  rw [hpc] at hp
  obtain ⟨hidle, hgate, hpast⟩ := hp
  -- a driver that is not done goes back to a drain
  have hback : PcClosed (s.quiesced cleanup false) (s.quiesced cleanup false).pc := by
    cases cleanup
    · trivial
    · exact hidle.closed
  cases q with
  | shut =>
    unfold quiesce
    dsimp only
    split
    · rename_i hmt
      cases cleanup
      · trivial
      · have hmt' : s.mt = false := by simpa using hmt
        obtain ⟨hring, hprod⟩ := hl.noRing hmt'
        refine ⟨hidle, hring, fun htrue => ?_, fun p hp => ?_⟩
        · cases hmt'.symm.trans htrue
        · rw [hprod p hp]
          rfl
    · exact ⟨hidle, nofun, nofun⟩
  | inflight | length =>
    unfold quiesce
    dsimp only
    split
    · exact ⟨hidle, nofun, nofun⟩
    · exact hback
  | finish => exact ⟨hidle, fun _ => rfl, nofun⟩
  | inflightAgain =>
    unfold quiesce
    dsimp only
    split
    · rename_i hzero
      exact ⟨hidle, nofun, fun _ => ⟨hgate rfl, hl.not_past hzero⟩⟩
    · exact hback
  | lengthAgain =>
    unfold quiesce
    by_cases hring : s.ring = []
    · rw [decide_eq_true hring]
      cases cleanup
      · trivial
      · exact ⟨hidle, hring, fun _ => (hpast rfl).1, (hpast rfl).2⟩
    · rw [decide_eq_false hring]
      exact hback

theorem driver_closed (h : Ok s) (hl : Ledger s) (hs' : s.driver o = some s') :
    PcClosed s' s'.pc := by
  have hcl := (h.driver hs').closed
  have hc := hl.pc
  unfold driver at hs'
  split at hs' <;> rename_i hpc <;> rw [hpc] at hc
  · cases hs'
    split <;> trivial
  · rename_i k
    cases hs'
    cases k <;> trivial
  · rename_i k
    split at hs' <;> cases hs'
    · rename_i hdr
      obtain ⟨_, _, -, rfl⟩ := eq_of_drainOne hdr
      rw [hpc]
      cases k <;> first | trivial | exact hcl hc
    · cases k with
      | top | await => trivial
      | vector =>
        unfold drained afterVector
        dsimp only
        split
        · rename_i hcond
          exact ⟨⟨hcond.1, hcond.2.1, hcond.2.2⟩, nofun, nofun⟩
        · split
          · trivial
          · split <;> trivial
      | cleanup =>
        unfold drained
        dsimp only
        split
        · rename_i hcond
          exact ⟨⟨hc, hcond.1, hcond.2⟩, nofun, nofun⟩
        · rename_i hcond
          have hcl := hcl hc
          simp only [drained, if_neg hcond] at hcl
          exact hcl
  · rename_i k
    split at hs' <;> cases hs'
    · cases k <;> first | trivial | exact hcl hc
    · cases k <;> trivial
  · rename_i k i
    cases hs'
    cases k <;> first | trivial | exact hcl hc
  · cases hs'
    trivial
  · cases hs'
    unfold submitted
    split
    · trivial
    · split <;> trivial
  · cases hs'
    split <;> trivial
  · rename_i j k
    cases hs'
    unfold hinted
    dsimp only
    split
    · trivial
    · cases k
      · dsimp only
        split <;> trivial
      · trivial
  · cases hs'
    unfold collected
    split <;> trivial
  · cases hs'
    exact quiesce_closed hl hpc
  · cases hs'
    split <;> trivial
  · cases hs'
    have hcl : Group.Sound { s.group with closed := true } := Ok.setClosed h.sound
    exact (Group.retireDelivering_spec hcl).2.2.2
  · cases hs'

theorem Ledger.driver (h : Ok s) (hl : Ledger s) (hnone : s.peer = .none)
    (hs' : s.driver o = some s') : Ledger s' := by
  have hmoves := h.driver hs'
  obtain ⟨hpeer, hprods, hret, hctr, hfly, hmt, hring⟩ := hmoves.frame
  have hacc (a : ℕ) : s'.accepted a = s.accepted a := by
    rw [accepted, accepted, hprods, hret]
  constructor
  · intro a
    rw [hacc, hmoves.handled, hl.balance]
  · intro a
    rw [hacc, hprods, hctr]
    exact hl.unique a
  · rw [hacc, hprods, hctr, hpeer]
    exact hl.zero
  · rw [hfly, hprods]
    exact hl.inflight
  · intro hfalse
    rw [hmt] at hfalse
    obtain ⟨hnil, hprod⟩ := hl.noRing hfalse
    rw [hprods]
    exact ⟨hring hnil, hprod⟩
  · intro charge hc
    rw [hpeer, hnone] at hc
    cases hc
  · exact fun _ => hpeer.trans hnone
  · exact driver_closed h hl hs'

end Driver

/-! ## Other fibers -/

section Fibers

variable {s s' : State} {g : Group} {cancelled : List ℕ} {peer : Peer} {i : ℕ}

theorem Group.Idle.taken (hi : g.Idle) (ht : g.Tenancy) (hlt : i < g.capacity) :
    (g.slots i).state.phase = .free := by
  have hzero : ∑ j ∈ Finset.range g.capacity, (g.slots j).taken = 0 := ht.live.symm.trans hi.live
  have hnone := Finset.sum_eq_zero_iff.mp hzero i (Finset.mem_range.mpr hlt)
  unfold Slot.taken at hnone
  split at hnone
  · assumption
  · cases hnone

theorem Group.Idle.find_eq_none (hi : g.Idle) (ht : g.Tenancy) (h : ℕ) : g.find h = none := by
  cases hfind : g.find h with
  | none => rfl
  | some i =>
    obtain ⟨hlt, hph, -⟩ := Group.find_spec ht hfind
    exact absurd (hi.taken ht hlt) hph

theorem Group.Idle.owed_eq_zero (hi : g.Idle) (ht : g.Tenancy) (h : ℕ) : g.owed h = 0 := by
  have hzero : g.total (Slot.pendingFor h) = 0 := by
    refine Finset.sum_eq_zero fun i hmem => ?_
    have hfree := hi.taken ht (Finset.mem_range.mp hmem)
    unfold Slot.pendingFor
    rw [hfree]
    exact if_neg fun hp => Phase.noConfusion hp.1
  rw [Group.owed, hzero, hi.held]
  rfl

theorem PcClosed.outside (hpc : PcClosed s s.pc) (hout : s.pc.outside = true)
    (hcl : s.group.closed = true → s'.group.closed = true)
    (hexit : s.pc = .exited → PcClosed s' .exited) (hsame : s'.pc = s.pc) :
    PcClosed s' s'.pc := by
  rw [hsame]
  generalize s.pc = pc at hpc hout hexit
  revert hpc hout hexit
  unfold PcClosed
  split
  · exact fun hpc _ _ => hcl hpc
  · exact fun hpc _ _ => hcl hpc
  · exact fun hpc _ _ => hcl hpc
  · exact fun hpc _ _ => hcl hpc
  · exact fun _ hout => Bool.noConfusion hout
  · exact fun _ _ hexit => hexit rfl
  · exact fun hpc _ _ => hpc

/-- A call that changes only the group, and takes in no request. -/
theorem Ledger.setGroup (hl : Ledger s) (ht : Group.Takes s.group g fun _ => 0)
    (hout : s.pc.outside = true) (hidle : s.group.Idle → g.Idle)
    (hpeer : ∀ charge, peer ≠ .submitting charge) :
    Ledger { s with group := g, peer := peer, cancelled := cancelled } := by
  refine { hl with
    balance := fun a => (hl.balance a).trans ?_
    zero := hl.zero.imp id fun hmax => ⟨hmax.1, hpeer⟩
    peerOpen := fun charge hc => absurd hc (hpeer charge)
    bracket := fun hfalse => Bool.noConfusion (hout.symm.trans hfalse)
    pc := ?_ }
  · unfold handled
    rw [ht.owed a, Nat.add_zero]
  · refine hl.pc.outside hout (fun hcl => ht.keeps.closed.trans hcl) (fun hexit => ?_) rfl
    have hpc := hl.pc
    rw [hexit] at hpc
    exact ⟨hidle hpc.1, hpc.2⟩

section

variable (hok : Ok s) (hl : Ledger s) (hout : s.pc.outside = true) {a : ℕ}
include hok hl hout

theorem Ledger.cancelSlot (hfind : s.group.find a = some i)
    (hpeer : ∀ charge, peer ≠ .submitting charge) :
    Ledger { s with group := s.group.cancelSlot i, peer := peer, cancelled := cancelled } := by
  obtain ⟨hi, hph, -⟩ := Group.find_spec hok.sound.tenancy hfind
  obtain ⟨htakes, -⟩ := Group.cancelSlot_takes hok.sound hi hph
  refine hl.setGroup htakes hout (fun hidle => ?_) hpeer
  cases (hidle.find_eq_none hok.sound.tenancy a).symm.trans hfind

theorem Ledger.cancelBegin (hnone : s.peer = .none) : Ledger (s.cancelBegin a) := by
  unfold State.cancelBegin
  dsimp only
  split
  · rename_i i hfind
    exact hl.cancelSlot hok hout hfind (by rw [hnone]; nofun)
  · exact hl.setGroup (.refl hok.sound.toCoherent) hout id nofun

theorem Ledger.cancelEnd : Ledger (s.cancelEnd a) := by
  unfold State.cancelEnd
  dsimp only
  split
  · rename_i i hfind
    exact hl.cancelSlot hok hout hfind nofun
  · split
    · refine hl.setGroup (Group.cancelHeld_takes hok.sound.toCoherent) hout (fun hidle => ?_) nofun
      refine ⟨hidle.closed, hidle.live, ?_⟩
      unfold Group.cancelHeld
      rw [hidle.held]
      rfl
    · exact hl.setGroup (.refl hok.sound.toCoherent) hout id nofun

theorem Ledger.resume (hnone : s.peer = .none) : Ledger { s with group := s.group.resume a } := by
  obtain ⟨htakes, -⟩ := Group.resume_spec hok.sound
  refine hl.setGroup htakes hout (fun hidle => ?_) (by rw [hnone]; nofun)
  unfold Group.resume
  rw [hidle.find_eq_none hok.sound.tenancy a]
  exact hidle

end

theorem Ledger.close {cancelling : Bool} (hl : Ledger s) (hout : s.pc.outside = true)
    (hnone : s.peer = .none) : Ledger (s.close cancelling) := by
  refine { hl with peerOpen := fun charge hc => ?_, pc := ?_ }
  · cases hnone.symm.trans hc
  · refine hl.pc.outside hout (fun _ => rfl) (fun hexit => ?_) rfl
    have hpc := hl.pc
    rw [hexit] at hpc
    obtain ⟨hidle, hring, hgate, hall⟩ := hpc
    refine ⟨⟨rfl, hidle.live, hidle.held⟩, hring, fun hmt => ?_, hall⟩
    have hfinal := hgate hmt
    change (if s.mt ∧ s.gate = 0 then 1 else s.gate) = 2
    rw [hfinal, if_neg (by omega)]

theorem Ledger.submitBegin (hl : Ledger s) (hout : s.pc.outside = true)
    (hs' : s.submitBegin charge = some s') : Ledger s' := by
  unfold State.submitBegin at hs'
  split at hs'
  · cases hs'
  · rename_i hcond
    cases hs'
    simp only [not_or, Bool.not_eq_true] at hcond
    obtain ⟨-, -, hctr, hopen, -⟩ := hcond
    exact { hl with
      zero := hl.zero.imp id fun hmax => absurd hmax.1 hctr
      peerOpen := fun _ _ => hopen
      bracket := fun hfalse => Bool.noConfusion (hout.symm.trans hfalse) }

/-- A draw is of the next handle, or of `0` by a submit that found the counter exhausted. -/
theorem Ledger.submitEnd (hok : Inv s) (hl : Ledger s)
    (hp : s.peer = .submitting charge) : Ledger (s.submitEnd charge) := by
  have hpeer := hok.peer
  rw [hp] at hpeer
  have hout : s.pc.outside = true := by
    by_contra hfalse
    cases hp.symm.trans (hl.bracket (by simpa using hfalse))
  have hopen := hl.peerOpen charge hp
  obtain ⟨htakes, -⟩ := Group.submit_takes s.nextHandle charge hok.sound.toCoherent hpeer.1
  have hzero : s.accepted 0 + s.producers.countP (draws 0) = 0 :=
    hl.zero.resolve_right fun hmax => hmax.2 charge hp
  have hacc (a : ℕ) : (s.submitEnd charge).accepted a =
      s.accepted a + if s.nextHandle = a then 1 else 0 := by
    unfold accepted State.submitEnd
    rw [count_append, count_singleton]
    simp only [beq_iff_eq]
    omega
  constructor
  · intro a
    rw [hacc, hl.balance a]
    change s.handled a + _ = s.completed.count a + (s.group.submit s.nextHandle charge).owed a +
        s.ring.countP (Cell.submits a)
    rw [htakes.owed a, handled]
    omega
  · intro a
    have hunique := hl.unique a
    rw [hacc]
    change s.accepted a + (if s.nextHandle = a then 1 else 0) +
      s.producers.countP (draws a) ≤ if a ≤ s.nextCtr then 1 else 0
    unfold nextHandle nextCtr
    by_cases hmax : s.handleCtr = handleMax
    · rw [if_pos hmax, if_pos hmax]
      by_cases ha : 0 = a
      · subst ha
        rw [if_pos rfl, if_pos (Nat.zero_le _)]
        omega
      · rw [if_neg ha, Nat.add_zero]
        exact hunique
    · split_ifs at hunique ⊢ <;> omega
  · by_cases hmax : s.handleCtr = handleMax
    · right
      refine ⟨?_, by rintro _ ⟨⟩⟩
      change s.nextCtr = handleMax
      rw [nextCtr, if_pos hmax]
      exact hmax
    · left
      rw [hacc, nextHandle, if_neg hmax, if_neg (Nat.succ_ne_zero _)]
      exact hzero
  · exact hl.inflight
  · exact hl.noRing
  · rintro _ ⟨⟩
  · exact fun hfalse => Bool.noConfusion (hout.symm.trans hfalse)
  · refine hl.pc.outside hout (fun hcl => ?_) (fun hexit => ?_) rfl
    · cases hcl.symm.trans hopen
    · have hpc := hl.pc
      rw [hexit] at hpc
      cases hpc.1.closed.symm.trans hopen

theorem Ledger.drainOne (hok : Ok s) (hl : Ledger s) (hout : s.pc.outside = true)
    (hpeer : ∀ charge, s.peer ≠ .submitting charge) (hs' : s.drainOne = some s') : Ledger s' := by
  have hmoves := hok.drainOne hs'
  obtain ⟨c, ring, hring, rfl⟩ := eq_of_drainOne hs'
  refine { hl with
    balance := fun a => (hl.balance a).trans (hmoves.handled a).symm
    noRing := fun hfalse => ?_
    peerOpen := fun charge hc => absurd hc (hpeer charge)
    pc := hl.pc.outside hout hmoves.closed (fun hexit => ?_) rfl }
  · cases hring.symm.trans (hl.noRing hfalse).1
  · have hpc := hl.pc
    rw [hexit] at hpc
    cases hring.symm.trans hpc.2.1

theorem Ledger.peerStep (hok : Inv s) (hl : Ledger s) (hs' : s.peerStep = some s') : Ledger s' := by
  unfold State.peerStep at hs'
  split at hs' <;> rename_i hp
  · cases hs'
  · cases hs'
    exact hl.submitEnd hok hp
  · have hout : s.pc.outside = true := by
      by_contra hfalse
      cases hp.symm.trans (hl.bracket (by simpa using hfalse))
    split at hs' <;> cases hs'
    · rename_i hdr
      exact hl.drainOne hok.toOk hout (by rw [hp]; nofun) hdr
    · exact hl.cancelEnd hok.toOk hout

end Fibers

/-! ## Runs -/

theorem Ledger.act {s s' : State} {a : Act} (hok : Inv s) (hl : Ledger s)
    (hs' : s.act a = some s') : Ledger s' := by
  have hlocked (hopen : s.unlocked = true) : s.peer = .none ∧ s.pc.outside = true := by
    simp only [unlocked, Bool.and_eq_true, decide_eq_true_eq] at hopen
    exact hopen.1
  unfold State.act at hs'
  split at hs'
  · split at hs'
    · rename_i hnone
      exact hl.driver hok.toOk hnone hs'
    · cases hs'
  · split at hs' <;> cases hs'
    rename_i hcond
    exact { hl with bracket := fun _ => hcond.1, pc := trivial }
  · exact hl.call hs'
  · exact hl.produce hs'
  · split at hs'
    · rename_i hopen
      exact hl.submitBegin (hlocked hopen).2 hs'
    · cases hs'
  · split at hs' <;> cases hs'
    rename_i hopen
    exact hl.cancelBegin hok.toOk (hlocked hopen).2 (hlocked hopen).1
  · split at hs' <;> cases hs'
    rename_i hopen
    exact hl.resume hok.toOk (hlocked hopen).2 (hlocked hopen).1
  · split at hs' <;> cases hs'
    rename_i hopen
    exact hl.close (hlocked hopen).2 (hlocked hopen).1
  · exact hl.peerStep hok hs'

theorem Ledger.create {capacity maxActive resourceCapacity n : ℕ} {async mt hints : Bool} :
    Ledger (State.create capacity maxActive resourceCapacity async mt hints n) := by
  have hnone (f : Producer → Bool) (hf : f .idle = false) : (replicate n idle).countP f = 0 := by
    refine countP_eq_zero.mpr fun p hp => ?_
    rw [eq_of_mem_replicate hp, hf]
    exact Bool.false_ne_true
  have hacc (a : ℕ) :
      (State.create capacity maxActive resourceCapacity async mt hints n).accepted a = 0 :=
    (Nat.zero_add _).trans (hnone (holds a) rfl)
  constructor
  · intro a
    rw [hacc, handled]
    change 0 = 0 + (Group.create capacity maxActive resourceCapacity).owed a + 0
    rw [Group.create_owed]
  · intro a
    rw [hacc, Nat.zero_add]
    exact (hnone (draws a) rfl).trans_le (Nat.zero_le _)
  · left
    rw [hacc, Nat.zero_add]
    exact hnone (draws 0) rfl
  · exact (hnone announces rfl).symm
  · exact fun _ => ⟨rfl, fun p hp => eq_of_mem_replicate hp⟩
  · rintro _ ⟨⟩
  · exact fun _ => rfl
  · trivial

theorem Ledger.of_reachable {s : State} (hs : system.Reachable s) : Inv s ∧ Ledger s := by
  refine hs.invariant (I := fun s => Inv s ∧ Ledger s) ?_ ?_
  · rintro s ⟨capacity, maxActive, resourceCapacity, async, mt, hints, n, -, -, -, rfl⟩
    exact ⟨Inv.create, Ledger.create⟩
  · intro s a s' h _ ht
    exact ⟨h.1.act ht, h.2.act h.1 ht⟩

theorem Producer.past_of_holds {p : Producer} {h : ℕ} (hp : p.holds h = true) : p.past = true := by
  cases p <;> first | rfl | cases hp

/-- Every completion is of one accepted submit, returned or about to return. When the driver has
exited, the completed handles are exactly those returned, and no request is left in a slot, in the
held queue, in the ring or with a producer. -/
theorem requests_completed_exactly_once {s : State} (hs : system.Reachable s) : s.completed.Nodup ∧
      (∀ h ∈ s.completed, h ∈ s.returned ∨ ∃ p ∈ s.producers, p.holds h) ∧
      (s.pc = .exited → s.completed.Perm s.returned ∧
        (∀ i < s.group.capacity, (s.group.slots i).state = .free) ∧ s.group.held = [] ∧
        s.ring = [] ∧ ∀ p ∈ s.producers, ∀ h, p.holds h = false) := by
  obtain ⟨hok, hl⟩ := Ledger.of_reachable hs
  have hle (h : ℕ) : s.completed.count h ≤ s.accepted h := by
    rw [hl.balance h, handled]
    omega
  refine ⟨nodup_iff_count_le_one.mpr fun h => ?_, fun h hmem => ?_, fun hexited => ?_⟩
  · have hunique := hl.unique h
    have := hle h
    split_ifs at hunique <;> omega
  · have hpos : 0 < s.accepted h := lt_of_lt_of_le (count_pos_iff.mpr hmem) (hle h)
    rcases Nat.add_pos_iff_pos_or_pos.mp hpos with hret | hheld
    · exact .inl (count_pos_iff.mp hret)
    · exact .inr (countP_pos_iff.mp hheld)
  · have hpc := hl.pc
    rw [hexited] at hpc
    obtain ⟨hidle, hring, -, hall⟩ := hpc
    have hholds (p : Producer) (hp : p ∈ s.producers) (h : ℕ) : p.holds h = false := by
      by_contra hne
      cases (hall p hp).symm.trans (past_of_holds (by simpa using hne))
    refine ⟨perm_iff_count.mpr fun h => ?_, fun i hi => ?_, hidle.held, hring, hholds⟩
    · have hbalance := hl.balance h
      have hnone : s.producers.countP (holds h) = 0 :=
        countP_eq_zero.mpr fun p hp => by rw [hholds p hp h]; exact Bool.false_ne_true
      rw [accepted, handled, hnone, hring, hidle.owed_eq_zero hok.sound.tenancy h] at hbalance
      exact hbalance.symm
    · have hfree := hidle.taken hok.sound.tenancy hi
      revert hfree
      cases (s.group.slots i).state <;> first | exact fun _ => rfl | exact Phase.noConfusion

/-- A producer submits through the ring, the driver completes the request, and the group closes. -/
theorem requests_completed_exactly_once_producer :
    ∃ s, system.Reachable s ∧ s.pc = .exited ∧ s.returned = [1] ∧ s.completed.Perm [1] := by
  let o : Outcome := ⟨true, 0, false, 0, fun _ => ⟨.done, 0⟩⟩
  have hrun := System.exists_reachable (M := system)
    ([.driver o, .call 0 (.submit 3)] ++ replicate 7 (.produce 0 true) ++
      replicate 10 (.driver o) ++ [.close false] ++ replicate 20 (.driver o))
    ⟨2, 1, 5, false, true, false, 1, by decide, by decide, by decide, rfl⟩
    (P := fun s => s.pc = .exited ∧ s.returned = [1]) (by decide +kernel)
    fun s hs h => h.2 ▸ ((requests_completed_exactly_once hs).2.2 h.1).1
  simpa only [and_assoc] using hrun

end LibXtc.Batch

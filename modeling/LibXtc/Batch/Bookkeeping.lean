import LibXtc.Batch.Linkage
import LibXtc.Foundations.Queue

/-!
# The books of a group

The counters of a group are sums over its slots. This file states what holds of them between two
brackets and proves that it is kept by the functions that change no tenancy: those that record
outcomes, consume cancels, admit waiting requests and apply results. What such a function keeps of
every slot is `Quiet`.
-/

namespace LibXtc.Batch

open Foundations SlotState Table Slot List

/-- What a slot holds: nothing, a request without delivery, or one in delivery. -/
inductive Phase
  | free
  | pending
  | delivering
  deriving DecidableEq

def SlotState.phase : SlotState → Phase
  | .free => .free
  | .delivering => .delivering
  | _ => .pending

variable {st : SlotState}

theorem SlotState.phase_of_active (h : st.isActive) : st.phase = .pending := by
  cases st <;> first | rfl | cases h

theorem listOf_of_active (h : st.isActive) : listOf st = some .active := by
  cases st <;> first | rfl | cases h

theorem SlotState.phase_of_abortable (h : st.abortable) : st.phase = .pending := by
  cases st <;> first | rfl | cases h

variable {k : ListId}

theorem SlotState.phase_of_listOf (h : listOf st = some k) (hk : k ≠ .free) :
    st.phase = .pending := by
  cases st <;> first | rfl | (cases h; done) | (cases h; exact absurd rfl hk)

/-- What the slot adds to `reserved_units`. -/
def Slot.reservation (s : Slot) : ℕ := if s.state.isActive then s.charge else 0

/-- Whether the slot is taken, as a number. -/
def Slot.taken (s : Slot) : ℕ := if s.state.phase = .free then 0 else 1

namespace Group

variable {g g' g'' : Group} {i j u : ℕ} {st : SlotState} {L : ListId → List ℕ} {f : Slot → Slot}
  {w : Slot → ℕ} {outcome : ℤ} {C members : List ℕ} {head : Option ℕ} {α : Type*}

theorem modify_slots_self : (g.modify i f).slots i = f (g.slots i) :=
  Table.modify_slots_self

theorem modify_slots_ne (h : j ≠ i) : (g.modify i f).slots j = g.slots j :=
  Table.modify_slots_ne h

theorem modify_keeps (p : Slot → α) (hp : ∀ s, p (f s) = p s) (j : ℕ) :
    p ((g.modify i f).slots j) = p (g.slots j) :=
  Table.modify_keeps p hp j

theorem move_state : ((g.move i st).slots j).state = if j = i then st else (g.slots j).state :=
  Table.move_state

/-- The sum of a weight over the slots. -/
def total (g : Group) (w : Slot → ℕ) : ℕ := ∑ j ∈ Finset.range g.capacity, w (g.slots j)

/-- Slot `i` is `s` now, and nothing but links has changed in the other slots. -/
structure Sets (g g' : Group) (i : ℕ) (s : Slot) : Prop where
  capacity : g'.capacity = g.capacity
  content : ∀ j, (g'.slots j).content = (if j = i then s else g.slots j).content

theorem Sets.refl : Sets g g i (g.slots i) where
  capacity := rfl
  content j := by
    split
    · rename_i hj
      rw [hj]
    · rfl

section

variable {s : Slot} (h : Sets g g' i s)
include h

theorem Sets.move (st : SlotState) : Sets g (g'.move i st) i { s with state := st } where
  capacity := h.capacity
  content j := by
    refine (move_content (t := g'.toTable) st).trans ?_
    rw [h.content]
    split <;> rfl

/-- What is left of a property of slots that does not look at the links. -/
theorem Sets.slot (p : Slot → α) (hp : ∀ s, p s.content = p s) (j : ℕ) :
    p (g'.slots j) = p (if j = i then s else g.slots j) := by
  rw [← hp, h.content, hp]

theorem Sets.keeps (p : Slot → α) (hp : ∀ s, p s.content = p s) (hs : p s = p (g.slots i))
    (j : ℕ) : p (g'.slots j) = p (g.slots j) := by
  rw [h.slot p hp]
  split
  · rename_i hj
    rw [hj, hs]
  · rfl

/-- A change of one slot trades its weight for another. -/
theorem Sets.total (hw : ∀ s, w s.content = w s) (hi : i < g.capacity) :
    g'.total w + w (g.slots i) = g.total w + w s := by
  have hself : w (g'.slots i) = w s := by rw [h.slot w hw, if_pos rfl]
  have hother : ∀ j, j ≠ i → w (g'.slots j) = w (g.slots j) :=
    fun j hj => by rw [h.slot w hw, if_neg hj]
  unfold Group.total
  rw [h.capacity, ← hself]
  exact sum_range_change hi hother

end

theorem total_move (st : SlotState) (hw : ∀ s, w s.content = w s) (hi : i < g.capacity) :
    (g.move i st).total w + w (g.slots i) = g.total w + w { g.slots i with state := st } :=
  (Sets.refl.move st).total hw hi

theorem total_congr (hcap : g'.capacity = g.capacity) (hw : ∀ j, w (g'.slots j) = w (g.slots j)) :
    g'.total w = g.total w := by
  unfold total
  rw [hcap]
  exact Finset.sum_congr rfl fun j _ => hw j

theorem active_move (st : SlotState) (hpos : 0 < g.nState (g.slots i).state) :
    (g.move i st).active + (if (g.slots i).state.isActive then 1 else 0) =
      g.active + if st.isActive then 1 else 0 := by
  have hcnt := fun st' => move_nState st st' hpos
  have hready := hcnt .ready
  have hblock := hcnt .blocked
  have hfly := hcnt .inflight
  unfold active
  change (g.toTable.move i st).nState .ready + (g.toTable.move i st).nState .blocked +
    (g.toTable.move i st).nState .inflight + _ = _
  cases hold : (g.slots i).state <;> cases st <;>
    simp only [hold, reduceCtorEq, isActive] at hready hblock hfly ⊢ <;> omega

theorem terminal_eq : g.terminal i outcome = modify { g.move i .terminal with
    reservedUnits := g.reservedUnits - (g.slots i).reservation } i
    fun s => { s with outcome := outcome } := by
  cases hst : (g.slots i).state.isActive <;>
    simp only [terminal, reservation, hst] <;> rfl

theorem terminal_state : ((g.terminal i outcome).slots j).state =
    if j = i then .terminal else (g.slots j).state := by
  rw [terminal_eq]
  exact (modify_keeps (f := fun s => { s with outcome := outcome }) state
    (fun _ => rfl) j).trans move_state

/-! ## Lists and counters -/

/-- The lists, the counters of the states and the reservations. -/
structure Books (g : Group) (L : ListId → List ℕ) : Prop where
  tidy : g.toTable.Tidy g.capacity L
  reserved : g.reservedUnits = g.total reservation
  reserved_le : g.reservedUnits ≤ g.resourceCapacity
  active_le : g.active ≤ g.maxActive

namespace Books

/-- A write that leaves links, state and reservation alone. -/
theorem modify (h : Books g L) (hprev : ∀ s, (f s).prev = s.prev)
    (hnext : ∀ s, (f s).next = s.next) (hstate : ∀ s, (f s).state = s.state)
    (hres : (f (g.slots i)).reservation = (g.slots i).reservation) : Books (g.modify i f) L where
  tidy := h.tidy.modify hprev hnext hstate
  reserved := by
    have htotal : (g.modify i f).total reservation = g.total reservation := by
      refine total_congr rfl fun j => ?_
      by_cases hj : j = i
      · rw [hj, modify_slots_self, hres]
      · rw [modify_slots_ne hj]
    rw [htotal]
    exact h.reserved
  reserved_le := h.reserved_le
  active_le := h.active_le

/-- A move with the reservation that follows it. A slot may only become active if it was, or if
there is room for one more. -/
theorem move (st : SlotState) (h : Books g L) (hi : i < g.capacity)
    (hres : u + (g.slots i).reservation =
      g.reservedUnits + { g.slots i with state := st : Slot }.reservation)
    (hle : u ≤ g.resourceCapacity)
    (hact : st.isActive → (g.slots i).state.isActive ∨ g.active < g.maxActive) :
    Books { g.move i st with reservedUnits := u }
      (relist L i (listOf (g.slots i).state) (listOf st)) where
  tidy := h.tidy.move hi
  reserved := by
    have htotal := total_move st (w := reservation) (fun _ => rfl) hi
    have hold := h.reserved
    change u = (g.move i st).total reservation
    omega
  reserved_le := hle
  active_le := by
    have hmove := active_move st (h.tidy.nState_pos hi)
    have hold := h.active_le
    change (g.move i st).active ≤ g.maxActive
    by_cases hst : st.isActive
    · rcases hact hst with hwas | hroom
      · simp only [hst, hwas] at hmove
        omega
      · simp only [hst, if_true] at hmove
        omega
    · simp only [hst, if_false, Bool.false_eq_true] at hmove
      omega

section

variable (h : Books g L) (hi : i < g.capacity)
include h hi

theorem reservation_le : (g.slots i).reservation ≤ g.reservedUnits := by
  rw [h.reserved]
  exact le_sum_range (f := fun j => (g.slots j).reservation) hi

/-- A move within the active states. -/
theorem move_active (hold : (g.slots i).state.isActive)
    (hnew : st.isActive) : Books (g.move i st) L := by
  have hlists : listOf (g.slots i).state = listOf st :=
    (listOf_of_active hold).trans (listOf_of_active hnew).symm
  have hmoved := h.move st hi
    (by simp only [reservation, hold, hnew]) h.reserved_le (fun _ => .inl hold)
  have hL : relist L i (listOf (g.slots i).state) (listOf st) = L :=
    funext fun k => if_pos hlists
  rw [hL] at hmoved
  exact hmoved

/-- Recording an outcome gives the reservation back. -/
theorem terminal : Books (g.terminal i outcome)
      (relist L i (listOf (g.slots i).state) (some .term)) := by
  have hle := h.reservation_le hi
  have hcap := h.reserved_le
  have hmoved := h.move .terminal (u := g.reservedUnits - (g.slots i).reservation) hi
    (by simp only [reservation, isActive, Bool.false_eq_true, if_false] at hle ⊢
        omega)
    (by omega) (by simp [isActive])
  rw [terminal_eq]
  exact hmoved.modify (fun _ => rfl) (fun _ => rfl) (fun _ => rfl) rfl

end

end Books

/-! ## What bookkeeping keeps -/

/-- No request enters, leaves or is cancelled. -/
structure Quiet (g g' : Group) : Prop where
  capacity : g'.capacity = g.capacity
  map : g'.map = g.map
  held : g'.held = g.held
  live : g'.live = g.live
  delivering : g'.delivering = g.delivering
  closed : g'.closed = g.closed
  cancelling : g'.cancelling = g.cancelling
  handle : ∀ i, (g'.slots i).handle = (g.slots i).handle
  cancel : ∀ i, (g'.slots i).cancel = (g.slots i).cancel
  phase : ∀ i, (g'.slots i).state.phase = (g.slots i).state.phase

/-- Besides, the list of pending cancels stays as it is. -/
structure Steady (g g' : Group) : Prop extends Quiet g g' where
  clist : g'.clist = g.clist
  cnext : ∀ i, (g'.slots i).cnext = (g.slots i).cnext
  onClist : ∀ i, (g'.slots i).onClist = (g.slots i).onClist

theorem Quiet.refl (g : Group) : Quiet g g :=
  ⟨rfl, rfl, rfl, rfl, rfl, rfl, rfl, fun _ => rfl, fun _ => rfl, fun _ => rfl⟩

theorem Quiet.trans (h : Quiet g g') (h' : Quiet g' g'') : Quiet g g'' where
  capacity := h'.capacity.trans h.capacity
  map := h'.map.trans h.map
  held := h'.held.trans h.held
  live := h'.live.trans h.live
  delivering := h'.delivering.trans h.delivering
  closed := h'.closed.trans h.closed
  cancelling := h'.cancelling.trans h.cancelling
  handle i := (h'.handle i).trans (h.handle i)
  cancel i := (h'.cancel i).trans (h.cancel i)
  phase i := (h'.phase i).trans (h.phase i)

theorem Steady.refl (g : Group) : Steady g g :=
  ⟨Quiet.refl g, rfl, fun _ => rfl, fun _ => rfl⟩

theorem Steady.trans (h : Steady g g') (h' : Steady g' g'') : Steady g g'' where
  toQuiet := h.toQuiet.trans h'.toQuiet
  clist := h'.clist.trans h.clist
  cnext i := (h'.cnext i).trans (h.cnext i)
  onClist i := (h'.onClist i).trans (h.onClist i)

theorem Steady.move (hold : (g.slots i).state.phase = .pending)
    (hst : st.phase = .pending) : Steady g { g.move i st with reservedUnits := u } where
  capacity := rfl
  map := rfl
  held := rfl
  live := rfl
  delivering := rfl
  closed := rfl
  cancelling := rfl
  handle := move_keeps Slot.handle fun _ _ => rfl
  cancel := move_keeps Slot.cancel fun _ _ => rfl
  phase j := by
    rw [move_state]
    split
    · rename_i hj
      rw [hst, hj, hold]
    · rfl
  clist := rfl
  cnext := move_keeps Slot.cnext fun _ _ => rfl
  onClist := move_keeps Slot.onClist fun _ _ => rfl

theorem Quiet.modify (hhandle : ∀ s, (f s).handle = s.handle)
    (hcancel : ∀ s, (f s).cancel = s.cancel) (hstate : ∀ s, (f s).state = s.state) :
    Quiet g (g.modify i f) where
  capacity := rfl
  map := rfl
  held := rfl
  live := rfl
  delivering := rfl
  closed := rfl
  cancelling := rfl
  handle := modify_keeps Slot.handle hhandle
  cancel := modify_keeps Slot.cancel hcancel
  phase := modify_keeps (fun s => s.state.phase) fun s => congrArg _ (hstate s)

theorem Steady.modify (hhandle : ∀ s, (f s).handle = s.handle)
    (hcancel : ∀ s, (f s).cancel = s.cancel) (hstate : ∀ s, (f s).state = s.state)
    (hcnext : ∀ s, (f s).cnext = s.cnext) (honClist : ∀ s, (f s).onClist = s.onClist) :
    Steady g (g.modify i f) where
  toQuiet := Quiet.modify hhandle hcancel hstate
  clist := rfl
  cnext := modify_keeps Slot.cnext hcnext
  onClist := modify_keeps Slot.onClist honClist

theorem Steady.terminal (outcome : ℤ) (hold : (g.slots i).state.phase = .pending) :
    Steady g (g.terminal i outcome) := by
  rw [terminal_eq]
  exact (Steady.move hold rfl).trans
    (.modify (fun _ => rfl) (fun _ => rfl) (fun _ => rfl) (fun _ => rfl) fun _ => rfl)

/-! ## Loops over linked slots -/

/-- The rule for a loop over linked slots: `I l g` says that it is about to visit `l`. -/
theorem forEach_spec (next : Slot → Option ℕ) (body : ℕ → Group → Group)
    {I : List ℕ → Group → Prop} (hnext : ∀ a l g, I (a :: l) g → next (g.slots a) = l.head?)
    (hbody : ∀ a l g, I (a :: l) g → I l (body a g)) {l : List ℕ} (hI : I l g)
    (hlen : l.length ≤ g.capacity) : I [] (g.forEach next l.head? body) := by
  obtain ⟨g', hloop, hdone⟩ := @loopFrom_spec _ (fun g i => next (g.slots i))
    (fun i g => some (body i g, true)) I (I []) hnext
    (fun a l g hI => ⟨body a g, true, rfl, by simpa using hbody a l g hI⟩) (fun _ hI => hI) l g hI
    g.capacity hlen
  rw [forEach, hloop]
  exact hdone

/-- The books are in order, whatever the sequences of the lists are. -/
def Balanced (g : Group) : Prop := ∃ L, Books g L

theorem Balanced.terminal (h : g.Balanced) (hi : i < g.capacity) :
    (g.terminal i outcome).Balanced :=
  let ⟨_, hL⟩ := h
  ⟨_, hL.terminal hi⟩

/-- `C` is the list of pending cancels from `head` on, and these are the slots marked so. -/
structure Pending (g : Group) (head : Option ℕ) (C : List ℕ) : Prop where
  path : Path (fun i => (g.slots i).cnext) none head C
  nodup : C.Nodup
  mem_iff : ∀ i, i ∈ C ↔ i < g.capacity ∧ (g.slots i).onClist = true

theorem Pending.congr (h : Pending g head C) (hcap : g'.capacity = g.capacity)
    (hcnext : ∀ i, (g'.slots i).cnext = (g.slots i).cnext)
    (honClist : ∀ i, (g'.slots i).onClist = (g.slots i).onClist) : Pending g' head C where
  path := h.path.congr fun i _ => hcnext i
  nodup := h.nodup
  mem_iff i := by rw [h.mem_iff, hcap, honClist]

theorem Pending.length_le (h : Pending g head C) : C.length ≤ g.capacity :=
  length_le_of_nodup_lt h.nodup fun i hi => ((h.mem_iff i).mp hi).1

/-- Taking the first slot off the list of pending cancels. -/
theorem Pending.pop (h : Pending g (some i) (i :: C)) :
    Pending (g.modify i fun s => { s with cnext := none, onClist := false }) C.head? C := by
  have hnot : i ∉ C := (nodup_cons.mp h.nodup).1
  constructor
  · have hrest := h.path.2
    have hhead := hrest.head?_eq
    rw [hhead] at hrest
    refine hrest.congr fun j hj => ?_
    have hne : j ≠ i := fun hji => hnot (hji ▸ hj)
    rw [modify_slots_ne hne]
  · exact (nodup_cons.mp h.nodup).2
  · intro j
    by_cases hj : j = i
    · subst hj
      rw [modify_slots_self]
      simp [hnot]
    · rw [modify_slots_ne hj]
      have := h.mem_iff j
      simp only [mem_cons, hj, false_or] at this
      exact this

/-- What consuming cancels leaves behind. Without a cancel-close it does nothing to a slot whose
request was not cancelled. -/
structure Consumed (g g' : Group) : Prop where
  balanced : g'.Balanced
  quiet : Quiet g g'
  clist : g'.clist = none
  pending : Pending g' none []

/-- One visit of the loop over the pending cancels. -/
theorem consumeOne_spec (hb : g.Balanced) (hp : Pending g (some i) (i :: C)) :
    (consumeOne i g).Balanced ∧ Quiet g (consumeOne i g) ∧ Pending (consumeOne i g) C.head? C ∧
      ∀ j, (g.slots j).cancel = false → ((consumeOne i g).slots j).state = (g.slots j).state := by
  obtain ⟨L, hL⟩ := hb
  have hi : i < g.capacity := ((hp.mem_iff i).mp mem_cons_self).1
  have hstate := Table.modify_keeps (t := g.toTable) (i := i)
    (f := fun s => { s with cnext := none, onClist := false }) state fun _ => rfl
  have hcancel := Table.modify_keeps (t := g.toTable) (i := i)
    (f := fun s => { s with cnext := none, onClist := false }) cancel fun _ => rfl
  have hbooks : Books (g.modify i fun s => { s with cnext := none, onClist := false }) L :=
    hL.modify (fun _ => rfl) (fun _ => rfl) (fun _ => rfl) rfl
  have hquiet : Quiet g (g.modify i fun s => { s with cnext := none, onClist := false }) :=
    .modify (fun _ => rfl) (fun _ => rfl) (fun _ => rfl)
  unfold consumeOne
  dsimp only
  split
  · rename_i hcond
    rw [Bool.and_eq_true] at hcond
    have hsteady := Steady.terminal eAborted (phase_of_abortable hcond.2)
    refine ⟨⟨_, hbooks.terminal hi⟩, hquiet.trans hsteady.toQuiet,
      hp.pop.congr hsteady.capacity hsteady.cnext hsteady.onClist, fun j hj => ?_⟩
    have hne : j ≠ i := by
      rintro rfl
      have := (hcancel j).symm.trans hcond.1
      rw [hj] at this
      cases this
    rw [terminal_state, if_neg hne]
    exact hstate j
  · exact ⟨⟨L, hbooks⟩, hquiet, hp.pop, fun j _ => hstate j⟩

theorem consumeClist_spec (hb : g.Balanced) (hp : Pending g g.clist C) : Consumed g g.consumeClist ∧
      ∀ j, (g.slots j).cancel = false → (g.consumeClist.slots j).state = (g.slots j).state := by
  -- the list shrinks from its front; nothing changes for a slot that is not cancelled
  have hloop := forEach_spec cnext consumeOne
    (I := fun l g' => g'.Balanced ∧ Quiet g g' ∧ Pending g' l.head? l ∧
      ∀ j, (g.slots j).cancel = false → (g'.slots j).state = (g.slots j).state)
    (fun a l g' hI => hI.2.2.1.path.2.head?_eq)
    (fun a l g' ⟨hb, hq, hp, hkeep⟩ => by
      obtain ⟨hb', hq', hp', hkeep'⟩ := consumeOne_spec hb hp
      exact ⟨hb', hq.trans hq', hp', fun j hj =>
        (hkeep' j ((hq.cancel j).trans hj)).trans (hkeep j hj)⟩)
    ⟨hb, Quiet.refl g, by rw [← hp.path.head?_eq]; exact hp, fun _ _ => rfl⟩ hp.length_le
  rw [← hp.path.head?_eq] at hloop
  obtain ⟨⟨L, hL⟩, hquiet, hpend, hkeep⟩ := hloop
  refine ⟨⟨⟨L, { hL with }⟩, ?_, rfl, ?_⟩, hkeep⟩
  · exact { hquiet with }
  · exact { hpend with }

/-- The slot at a position of a list is in its class. -/
theorem Books.phase_of_mem (h : Books g L) (hi : i ∈ L k) (hk : k ≠ .free) :
    i < g.capacity ∧ (g.slots i).state.phase = .pending :=
  have hmem := (h.tidy.mem_iff k i).mp hi
  ⟨hmem.1, phase_of_listOf hmem.2 hk⟩

theorem Books.relist_append (front : List ℕ) {back : List ℕ} (h : Books g L)
    (hL : L k = front ++ i :: back) (hk : k ≠ .term) :
    relist L i (listOf (g.slots i).state) (some .term) k = front ++ back := by
  have hmem : i ∈ L k := by simp [hL]
  have hstate := ((h.tidy.mem_iff k i).mp hmem).2
  have hnodup := h.tidy.woven.nodup k
  have hne : some k ≠ some ListId.term := by simpa using hk
  rw [hL] at hnodup
  rw [relist, hstate, if_neg hne, if_pos rfl, if_neg hne.symm, hL, filter_ne_append hnodup,
    append_nil]

section

variable (hb : g.Balanced)
include hb

/-- A loop over the slots of a list that aborts some of them. Those it has passed over stay in
front. -/
theorem abortEach_spec {k : ListId} (hfree : k ≠ .free) (hterm : k ≠ .term)
    {body : ℕ → Group → Group} (hbody : ∀ i g, body i g = g.terminal i eAborted ∨ body i g = g) :
    (g.forEach next (g.lists k).head body).Balanced ∧
      Steady g (g.forEach next (g.lists k).head body) := by
  obtain ⟨L, hL⟩ := hb
  have hhead : (g.lists k).head = (L k).head? := (hL.tidy.woven.linked k).head_eq_head?
  have hloop := forEach_spec next body
    (I := fun l g' => (∃ L' front, Books g' L' ∧ L' k = front ++ l) ∧ Steady g g')
    (fun a l g' ⟨⟨L', front, hL', hl⟩, _⟩ => by
      have hlink := hL'.tidy.woven.linked k
      rw [hl] at hlink
      exact hlink.next_eq_head? front)
    (fun a l g' ⟨⟨L', front, hL', hl⟩, hsteady⟩ => by
      rcases hbody a g' with heq | heq <;> rw [heq]
      · obtain ⟨ha, hph⟩ := hL'.phase_of_mem (i := a) (by simp [hl]) hfree
        exact ⟨⟨_, front, hL'.terminal ha, hL'.relist_append front hl hterm⟩,
          hsteady.trans (.terminal _ hph)⟩
      · exact ⟨⟨L', front ++ [a], hL', by simp [hl]⟩, hsteady⟩)
    ⟨⟨L, [], hL, rfl⟩, Steady.refl g⟩ (hL.tidy.length_le k)
  rw [← hhead] at hloop
  obtain ⟨⟨L', _, hL', _⟩, hsteady⟩ := hloop
  exact ⟨⟨L', hL'⟩, hsteady⟩

theorem abortWaiting_spec : g.abortWaiting.Balanced ∧ Steady g g.abortWaiting :=
  abortEach_spec hb (by decide) (by decide) fun _ _ => .inl rfl

theorem abortActive_spec : g.abortActive.Balanced ∧ Steady g g.abortActive :=
  abortEach_spec hb (by decide) (by decide) fun _ _ => ite_eq_or_eq _ _ _

theorem consumeCancels_spec (hp : Pending g g.clist C) : Consumed g g.consumeCancels := by
  obtain ⟨hconsumed, -⟩ := consumeClist_spec hb hp
  unfold consumeCancels
  dsimp only
  split
  · obtain ⟨hb₁, hs₁⟩ := abortWaiting_spec hconsumed.balanced
    obtain ⟨hb₂, hs₂⟩ := abortActive_spec hb₁
    have hs := hs₁.trans hs₂
    exact ⟨hb₂, hconsumed.quiet.trans hs.toQuiet, hs.clist.trans hconsumed.clist,
      hconsumed.pending.congr hs.capacity hs.cnext hs.onClist⟩
  · exact hconsumed

/-- Without a cancel-close, the slots whose request was not cancelled keep their states. -/
theorem consumeCancels_state (hp : Pending g g.clist C) (hopen : g.cancelling = false)
    (hj : (g.slots j).cancel = false) : (g.consumeCancels.slots j).state = (g.slots j).state := by
  obtain ⟨hconsumed, hkeep⟩ := consumeClist_spec hb hp
  unfold consumeCancels
  dsimp only
  rw [hconsumed.quiet.cancelling, hopen, if_neg (by simp)]
  exact hkeep j hj

/-! ## Admission -/

theorem admitNext_spec (hnext : g.admitNext = some g') :
    g'.Balanced ∧ Steady g g' ∧ g'.active = g.active + 1 ∧ g'.maxActive = g.maxActive := by
  obtain ⟨L, hL⟩ := hb
  unfold admitNext at hnext
  split at hnext
  · rename_i hroom
    split at hnext
    · rename_i i hhead
      split at hnext
      · cases hnext
      · cases hnext
        obtain ⟨hi, hlist⟩ := hL.tidy.head_mem hhead
        have hstate : (g.slots i).state = .waiting := by
          cases hst : (g.slots i).state <;> rw [hst] at hlist <;> first | rfl | cases hlist
        have hle := hL.reserved_le
        have hmove := active_move .ready (hL.tidy.nState_pos hi)
        rw [hstate] at hmove
        refine ⟨⟨_, hL.move _ hi ?_ (by omega) fun _ => .inr hroom⟩, .move ?_ rfl, hmove, rfl⟩
        · simp [reservation, hstate, isActive]
        · rw [hstate]
          rfl
    · cases hnext
  · cases hnext

theorem admission_spec : g.admission.Balanced ∧ Steady g g.admission :=
  loopWhile_invariant (I := fun g' => g'.Balanced ∧ Steady g g') (fun _ _ ⟨hb, hs⟩ hnext =>
      have hspec := admitNext_spec hb hnext
      ⟨hspec.1, hs.trans hspec.2.1⟩) g.maxActive ⟨hb, Steady.refl g⟩

/-- Admission goes on until the vector is full, no request waits or the first does not fit. -/
theorem admission_done : g.admission.admitNext = none :=
  loopWhile_done (I := fun g' => g'.Balanced ∧ g'.maxActive = g.maxActive)
    (fun g' => g'.maxActive - g'.active)
    (fun _ _ ⟨hb, hmax⟩ hnext =>
      have hspec := admitNext_spec hb hnext
      ⟨hspec.1, hspec.2.2.2.trans hmax⟩)
    (fun g₁ g₂ ⟨hb, _⟩ hnext => by
      obtain ⟨-, -, hact, hmax⟩ := admitNext_spec hb hnext
      have hlt : g₁.active < g₁.maxActive := by
        unfold admitNext at hnext
        split at hnext
        · assumption
        · cases hnext
      omega) ⟨hb, rfl⟩ (Nat.sub_le _ _)

/-- The members of a vector are distinct and ready. -/
theorem readyMembers_spec :
    g.readyMembers.Nodup ∧ ∀ i ∈ g.readyMembers, i < g.capacity ∧ (g.slots i).state = .ready := by
  obtain ⟨L, hL⟩ := hb
  have hwalk := (hL.tidy.woven.linked .active).queue.path.walk_eq (hL.tidy.length_le .active)
  have heq : g.readyMembers = (L .active).filter fun i => (g.slots i).state = .ready := by
    unfold readyMembers
    rw [hwalk]
    rfl
  rw [heq]
  refine ⟨(hL.tidy.woven.nodup .active).filter _, fun i hi => ?_⟩
  obtain ⟨hmem, hready⟩ := mem_filter.mp hi
  exact ⟨((hL.tidy.mem_iff .active i).mp hmem).1, of_decide_eq_true hready⟩

end

/-! ## Results -/

/-- The members are distinct active slots. -/
structure Members (g : Group) (members : List ℕ) : Prop where
  nodup : members.Nodup
  active : ∀ i ∈ members, i < g.capacity ∧ (g.slots i).state.isActive = true

/-- A visit of slot `i` keeps the books and moves no other slot. -/
structure Visits (i : ℕ) (g g' : Group) : Prop where
  balanced : g'.Balanced
  steady : Steady g g'
  other : ∀ j, j ≠ i → (g'.slots j).state = (g.slots j).state

/-- What a loop over the members of a vector keeps, if each visit changes its own slot only. -/
theorem forMembers_spec (body : ℕ → Group → Group)
    (hbody : ∀ i g, g.Balanced → i < g.capacity → (g.slots i).state.isActive = true →
      Visits i g (body i g)) (hb : g.Balanced) (hm : Members g members) :
    (g.forMembers members body).Balanced ∧ Steady g (g.forMembers members body) := by
  induction members generalizing g with
  | nil => exact ⟨hb, Steady.refl g⟩
  | cons i members ih =>
    obtain ⟨hi, hact⟩ := hm.active i mem_cons_self
    obtain ⟨hb₁, hs₁, hother⟩ := hbody i g hb hi hact
    have hnodup := nodup_cons.mp hm.nodup
    have hm₁ : Members (body i g) members := by
      refine ⟨hnodup.2, fun j hj => ?_⟩
      obtain ⟨hlt, hst⟩ := hm.active j (mem_cons_of_mem i hj)
      rw [hs₁.capacity, hother j fun hji => hnodup.1 (hji ▸ hj)]
      exact ⟨hlt, hst⟩
    obtain ⟨hb₂, hs₂⟩ := ih hb₁ hm₁
    exact ⟨hb₂, hs₁.trans hs₂⟩

theorem terminal_spec (hb : g.Balanced) (hi : i < g.capacity)
    (hph : (g.slots i).state.phase = .pending) : Visits i g (g.terminal i outcome) :=
  ⟨hb.terminal hi, .terminal _ hph, fun j hj => by rw [terminal_state, if_neg hj]⟩

theorem move_spec (st : SlotState) (hb : g.Balanced) (hi : i < g.capacity)
    (hold : (g.slots i).state.isActive = true) (hnew : st.isActive = true) :
    Visits i g (g.move i st) := by
  obtain ⟨L, hL⟩ := hb
  refine ⟨⟨L, hL.move_active hi hold hnew⟩, Steady.move (phase_of_active hold)
    (phase_of_active hnew), fun j hj => ?_⟩
  rw [move_state, if_neg hj]

theorem stepResult_spec (rc : ℤ) (r : Result) (hb : g.Balanced) (hi : i < g.capacity)
    (hact : (g.slots i).state.isActive = true) : Visits i g (stepResult rc r i g) := by
  have hph := phase_of_active hact
  unfold stepResult
  split
  · exact terminal_spec hb hi hph
  · split
    · exact terminal_spec hb hi hph
    · exact move_spec _ hb hi hact rfl
    · exact terminal_spec hb hi hph
    · exact ⟨hb, Steady.refl g, fun _ _ => rfl⟩
    · exact terminal_spec hb hi hph

theorem collectResult_spec (status rc : ℤ) (r : Result) (hb : g.Balanced) (hi : i < g.capacity)
    (hact : (g.slots i).state.isActive = true) : Visits i g (collectResult status rc r i g) := by
  have hph := phase_of_active hact
  unfold collectResult
  split
  · exact terminal_spec hb hi hph
  split
  · exact terminal_spec hb hi hph
  split
  · exact terminal_spec hb hi hph
  split
  · exact terminal_spec hb hi hph
  · exact terminal_spec hb hi hph
  · split
    · exact terminal_spec hb hi hph
    · exact move_spec _ hb hi hact rfl
  · split
    · exact terminal_spec hb hi hph
    · exact move_spec _ hb hi hact rfl
  · exact terminal_spec hb hi hph

theorem fireHint_spec (all : Bool) (hb : g.Balanced) :
    (fireHint all i g).Balanced ∧ Steady g (fireHint all i g) ∧
      ∀ j, ((fireHint all i g).slots j).state = (g.slots j).state := by
  obtain ⟨L, hL⟩ := hb
  unfold fireHint
  split
  · exact ⟨⟨L, hL⟩, Steady.refl g, fun _ => rfl⟩
  · exact ⟨⟨L, hL.modify (fun _ => rfl) (fun _ => rfl) (fun _ => rfl) rfl⟩,
      .modify (fun _ => rfl) (fun _ => rfl) (fun _ => rfl) (fun _ => rfl) (fun _ => rfl),
      modify_keeps state fun _ => rfl⟩

/-- The members of a launched vector are in flight. -/
theorem launch_state (hi : i ∈ members ∨ (g.slots i).state = .inflight) :
    ((g.forMembers members fun i g => g.move i .inflight).slots i).state = .inflight := by
  induction members generalizing g with
  | nil => exact hi.resolve_left not_mem_nil
  | cons a members ih =>
    refine ih ?_
    by_cases hia : i = a
    · exact .inr (move_state.trans (if_pos hia))
    · rw [move_state, if_neg hia]
      exact hi.imp_left fun hmem => (mem_cons.mp hmem).resolve_left hia

/-! ## Cleanup -/

/-- The next request without an outcome waits or is active. -/
theorem eq_of_failNext (hb : g.Balanced) (hnext : g.failNext = some g') :
    ∃ i outcome, g' = g.terminal i outcome ∧ i < g.capacity ∧
      (listOf (g.slots i).state = some .wait ∨ listOf (g.slots i).state = some .active) := by
  obtain ⟨L, hL⟩ := hb
  unfold failNext at hnext
  split at hnext
  · rename_i i hhead
    cases hnext
    refine ⟨i, _, rfl, ?_⟩
    cases hwait : (g.lists .wait).head with
    | some a =>
      rw [hwait] at hhead
      obtain rfl : a = i := by simpa using hhead
      exact (hL.tidy.head_mem hwait).imp_right .inl
    | none =>
      rw [hwait] at hhead
      exact (hL.tidy.head_mem (by simpa using hhead)).imp_right .inr
  · cases hnext

theorem failNext_spec (hb : g.Balanced) (hnext : g.failNext = some g') :
    g'.Balanced ∧ Steady g g' := by
  obtain ⟨i, outcome, rfl, hi, hlist⟩ := eq_of_failNext hb hnext
  have hph : (g.slots i).state.phase = .pending :=
    hlist.elim (phase_of_listOf · nofun) (phase_of_listOf · nofun)
  exact ⟨hb.terminal hi, .terminal _ hph⟩

theorem failAll_spec (hb : g.Balanced) : g.failAll.Balanced ∧ Steady g g.failAll :=
  loopWhile_invariant (I := fun g' => g'.Balanced ∧ Steady g g') (fun _ _ ⟨hb, hs⟩ hnext =>
      have hspec := failNext_spec hb hnext
      ⟨hspec.1, hs.trans hspec.2⟩) g.capacity ⟨hb, Steady.refl g⟩

/-- Whether the slot still waits for an outcome, as a number. -/
def undecided (s : Slot) : ℕ :=
  if listOf s.state = some .wait ∨ listOf s.state = some .active then 1 else 0

/-- Cleanup goes on until every request has an outcome. -/
theorem failAll_done (hb : g.Balanced) : g.failAll.failNext = none := by
  refine @loopWhile_done _ failNext Balanced (fun g' => g'.total undecided)
    (fun _ _ hb hnext => (failNext_spec hb hnext).1) (fun g₁ g₂ hb hnext => ?_) _ g hb ?_
  · obtain ⟨i, outcome, rfl, hi, hlist⟩ := eq_of_failNext hb hnext
    have hmove := total_move .terminal (w := undecided) (fun _ => rfl) hi
    have hwas : undecided (g₁.slots i) = 1 := if_pos hlist
    have hnow : undecided { g₁.slots i with state := .terminal } = 0 := by
      simp [undecided, listOf]
    have hsame :
        (g₁.terminal i outcome).total undecided = (g₁.move i .terminal).total undecided := by
      refine total_congr (by rw [terminal_eq]; rfl) fun j => ?_
      simp only [undecided, terminal_state, move_state]
    rw [hsame]
    omega
  · have hle : ∑ j ∈ Finset.range g.capacity, undecided (g.slots j) ≤
        ∑ _j ∈ Finset.range g.capacity, 1 :=
      Finset.sum_le_sum fun j _ => by
        unfold undecided
        split <;> omega
    simpa [total] using hle

end Group

end LibXtc.Batch

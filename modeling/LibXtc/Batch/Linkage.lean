import LibXtc.Batch.Group

/-!
# The lists of slots

`Woven` relates the index links to the sequences of the four lists. The two list operations keep
it. `Tidy` adds that every slot is on the list of its state, and that the counters agree with the
states; `batch_move`, the one primitive by which a slot changes its state, keeps that.
-/

namespace LibXtc.Batch

open Foundations Slot List

/-- A slot apart from its list links. -/
def Slot.content (s : Slot) : Slot := { s with prev := none, next := none }

namespace Table

variable {t : Table} {i j : ℕ} {k k' : ListId} {L : ListId → List ℕ} {f : Slot → Slot}
  {src dst : Option ListId} {st : SlotState} {α : Type*}

/-! ## What the operations write -/

@[simp] theorem modify_slots_self : (t.modify i f).slots i = f (t.slots i) := if_pos rfl

@[simp] theorem modify_slots_ne (h : j ≠ i) : (t.modify i f).slots j = t.slots j := if_neg h

/-- A write to a slot keeps, in every slot, what it keeps in the slot written. -/
theorem modify_keeps (p : Slot → α) (hp : ∀ s, p (f s) = p s) (j : ℕ) :
    p ((t.modify i f).slots j) = p (t.slots j) := by
  by_cases hj : j = i
  · rw [hj, modify_slots_self, hp]
  · rw [modify_slots_ne hj]

section Links

variable {v : Option ℕ} {l : SlotList}

@[simp] theorem setNext_next :
    ((t.setNext i v).slots j).next = if j = i then v else (t.slots j).next := by
  by_cases hj : j = i <;> simp [setNext, hj]

@[simp] theorem setPrev_prev :
    ((t.setPrev i v).slots j).prev = if j = i then v else (t.slots j).prev := by
  by_cases hj : j = i <;> simp [setPrev, hj]

@[simp] theorem setNext_prev : ((t.setNext i v).slots j).prev = (t.slots j).prev :=
  modify_keeps (f := fun s => { s with next := v }) prev (fun _ => rfl) j

@[simp] theorem setPrev_next : ((t.setPrev i v).slots j).next = (t.slots j).next :=
  modify_keeps (f := fun s => { s with prev := v }) next (fun _ => rfl) j

@[simp] theorem setNext_content : ((t.setNext i v).slots j).content = (t.slots j).content :=
  modify_keeps (f := fun s => { s with next := v }) content (fun _ => rfl) j

@[simp] theorem setPrev_content : ((t.setPrev i v).slots j).content = (t.slots j).content :=
  modify_keeps (f := fun s => { s with prev := v }) content (fun _ => rfl) j

@[simp] theorem setNext_lists : (t.setNext i v).lists = t.lists := rfl

@[simp] theorem setPrev_lists : (t.setPrev i v).lists = t.lists := rfl

@[simp] theorem setNext_nState : (t.setNext i v).nState = t.nState := rfl

@[simp] theorem setPrev_nState : (t.setPrev i v).nState = t.nState := rfl

@[simp] theorem setList_slots : (t.setList k l).slots = t.slots := rfl

@[simp] theorem setList_lists : (t.setList k l).lists k' = if k' = k then l else t.lists k' := rfl

@[simp] theorem setList_nState : (t.setList k l).nState = t.nState := rfl

end Links

theorem listPush_prev : ((t.listPush k i).slots j).prev =
    if j = i then (t.lists k).tail else (t.slots j).prev := by
  cases hlast : (t.lists k).tail <;> simp [listPush, hlast]

theorem listPush_next (htail : (t.lists k).tail ≠ some i) : ((t.listPush k i).slots j).next =
    if j = i then none else if (t.lists k).tail = some j then some i else (t.slots j).next := by
  cases hlast : (t.lists k).tail with
  | none => simp [listPush, hlast]
  | some b =>
    have hb : i ≠ b := fun h => htail (by rw [hlast, h])
    by_cases hj : j = i
    · simp [listPush, hlast, hj, hb]
    · simp [listPush, hlast, hj, eq_comm]

theorem listPush_content : ((t.listPush k i).slots j).content = (t.slots j).content := by
  cases hlast : (t.lists k).tail <;> simp [listPush, hlast]

theorem listPush_lists : (t.listPush k i).lists k' = if k' = k then
    ⟨if (t.lists k).tail = none then some i else (t.lists k).head, some i⟩ else t.lists k' := by
  cases hlast : (t.lists k).tail <;> simp [listPush, hlast]

@[simp] theorem listPush_nState : (t.listPush k i).nState = t.nState := by
  cases hlast : (t.lists k).tail <;> simp [listPush, hlast]

theorem listUnlink_prev : ((t.listUnlink k i).slots j).prev = if j = i then none
    else if (t.slots i).next = some j then (t.slots i).prev else (t.slots j).prev := by
  cases hprev : (t.slots i).prev <;> cases hnext : (t.slots i).next <;>
    simp [listUnlink, hprev, hnext, eq_comm]

theorem listUnlink_next : ((t.listUnlink k i).slots j).next = if j = i then none
    else if (t.slots i).prev = some j then (t.slots i).next else (t.slots j).next := by
  cases hprev : (t.slots i).prev <;> cases hnext : (t.slots i).next <;>
    simp [listUnlink, hprev, hnext, eq_comm]

theorem listUnlink_content : ((t.listUnlink k i).slots j).content = (t.slots j).content := by
  cases hprev : (t.slots i).prev <;> cases hnext : (t.slots i).next <;>
    simp [listUnlink, hprev, hnext]

theorem listUnlink_lists : (t.listUnlink k i).lists k' = if k' = k then
    ⟨if (t.slots i).prev = none then (t.slots i).next else (t.lists k).head,
      if (t.slots i).next = none then (t.slots i).prev else (t.lists k).tail⟩
    else t.lists k' := by
  by_cases hk : k' = k <;> cases hprev : (t.slots i).prev <;> cases hnext : (t.slots i).next <;>
    simp [listUnlink, hprev, hnext, hk]

@[simp] theorem listUnlink_nState : (t.listUnlink k i).nState = t.nState := by
  cases hprev : (t.slots i).prev <;> cases hnext : (t.slots i).next <;>
    simp [listUnlink, hprev, hnext]

/-! ## The sequences of the lists -/

/-- `L k` is the sequence of list `k`, and the lists are disjoint. -/
structure Woven (t : Table) (L : ListId → List ℕ) : Prop where
  linked : ∀ k, Linked (fun i => (t.slots i).prev) (fun i => (t.slots i).next) (t.lists k).head
    (L k)
  tail_eq : ∀ k, (t.lists k).tail = (L k).getLast?
  nodup : ∀ k, (L k).Nodup
  disjoint : ∀ k k' i, i ∈ L k → i ∈ L k' → k = k'

theorem Woven.push (h : Woven t L) (hi : ∀ k, i ∉ L k) :
    Woven (t.listPush k i) fun k' => if k' = k then L k' ++ [i] else L k' where
  linked k' := by
    have htail : (t.lists k).tail ≠ some i := fun heq =>
      hi k (mem_of_getLast? ((h.tail_eq k).symm.trans heq))
    have hne : ∀ k, ∀ b ∈ L k, b ≠ i := fun k b hb hbi => hi k (hbi ▸ hb)
    rw [listPush_lists]
    by_cases hk : k' = k
    · subst hk
      have hnil : (t.lists k').tail = none ↔ L k' = [] := by
        rw [h.tail_eq, getLast?_eq_none_iff]
      simp only [hnil]
      refine (h.linked k').pushBack (h.nodup k') ?_ ?_ ?_ ?_ ?_
      · simp only [listPush_prev, if_pos, h.tail_eq]
      · simp only [listPush_next htail, if_pos]
      · intro b hb
        simp only [listPush_prev, if_neg (hne k' b hb)]
      · intro b hb hlast
        simp only [listPush_next htail, if_neg (hne k' b hb), h.tail_eq, hlast, if_pos]
      · intro b hb hlast
        simp only [listPush_next htail, if_neg (hne k' b hb), h.tail_eq, if_neg hlast]
    · simp only [if_neg hk]
      refine (h.linked k').congr (fun b hb => ?_) (fun b hb => ?_)
      · simp only [listPush_prev, if_neg (hne k' b hb)]
      · have hlast : (t.lists k).tail ≠ some b := fun heq =>
          hk (h.disjoint k' k b hb (mem_of_getLast? ((h.tail_eq k).symm.trans heq)))
        simp only [listPush_next htail, if_neg (hne k' b hb), if_neg hlast]
  tail_eq k' := by
    rw [listPush_lists]
    by_cases hk : k' = k
    · simp [hk]
    · simp [hk, h.tail_eq]
  nodup k' := by
    split
    · exact nodup_append.mpr ⟨h.nodup k', nodup_singleton i, fun b hb c hc hbc =>
        hi k' (mem_singleton.mp hc ▸ hbc ▸ hb)⟩
    · exact h.nodup k'
  disjoint k₁ k₂ b hb₁ hb₂ := by
    -- the new node is on list `k` only
    have hcase : ∀ k', b ∈ (if k' = k then L k' ++ [i] else L k') →
        b ∈ L k' ∨ (b = i ∧ k' = k) := by
      intro k' hb
      split at hb
      · rename_i hk
        rcases mem_append.mp hb with hb | hb
        · exact .inl hb
        · exact .inr ⟨mem_singleton.mp hb, hk⟩
      · exact .inl hb
    rcases hcase k₁ hb₁ with h₁ | ⟨rfl, h₁⟩ <;> rcases hcase k₂ hb₂ with h₂ | ⟨hbi, h₂⟩
    · exact h.disjoint k₁ k₂ b h₁ h₂
    · exact absurd h₁ (hbi ▸ hi k₁)
    · exact absurd h₂ (hi k₂)
    · rw [h₁, h₂]

theorem Woven.unlink (h : Woven t L) (hi : i ∈ L k) :
    Woven (t.listUnlink k i) fun k' => if k' = k then (L k').filter (· ≠ i) else L k' where
  linked k' := by
    rw [listUnlink_lists]
    by_cases hk : k' = k
    · subst hk
      simp only [if_pos]
      refine (h.linked k').remove (h.nodup k') hi (fun b _ hne => ?_) (fun b _ hne => ?_)
      · simp only [listUnlink_prev, if_neg hne]
      · simp only [listUnlink_next, if_neg hne]
    · simp only [if_neg hk]
      have hne : ∀ b ∈ L k', b ≠ i := fun b hb hbi => hk (h.disjoint k' k i (hbi ▸ hb) hi)
      refine (h.linked k').congr (fun b hb => ?_) (fun b hb => ?_)
      · have hlink : (t.slots i).next ≠ some b := fun heq =>
          hk (h.disjoint k' k b hb ((h.linked k).mem_of_next hi heq))
        simp only [listUnlink_prev, if_neg (hne b hb), if_neg hlink]
      · have hlink : (t.slots i).prev ≠ some b := fun heq =>
          hk (h.disjoint k' k b hb ((h.linked k).mem_of_prev hi heq))
        simp only [listUnlink_next, if_neg (hne b hb), if_neg hlink]
  tail_eq k' := by
    rw [listUnlink_lists]
    by_cases hk : k' = k
    · subst hk
      simp only [if_pos, (h.linked k').getLast?_remove (h.nodup k') hi, h.tail_eq]
    · simp only [if_neg hk, h.tail_eq]
  nodup k' := by
    split
    · exact (h.nodup k').filter _
    · exact h.nodup k'
  disjoint k₁ k₂ b hb₁ hb₂ := by
    have hsub : ∀ k', b ∈ (if k' = k then (L k').filter (· ≠ i) else L k') → b ∈ L k' := by
      intro k' hb
      split at hb
      · exact (mem_filter.mp hb).1
      · exact hb
    exact h.disjoint k₁ k₂ b (hsub k₁ hb₁) (hsub k₂ hb₂)

/-- The sequences depend on the links only. -/
theorem Woven.congr {t' : Table} (h : Woven t L) (hprev : ∀ j, (t'.slots j).prev = (t.slots j).prev)
    (hnext : ∀ j, (t'.slots j).next = (t.slots j).next) (hlists : t'.lists = t.lists) :
    Woven t' L where
  linked k := hlists ▸ (h.linked k).congr (fun j _ => hprev j) fun j _ => hnext j
  tail_eq k := hlists ▸ h.tail_eq k
  nodup := h.nodup
  disjoint := h.disjoint

/-! ## Moving a slot -/

/-- The sequences after slot `i` went from list `src` to list `dst`. -/
def relist (L : ListId → List ℕ) (i : ℕ) (src dst : Option ListId) : ListId → List ℕ := fun k =>
  if src = dst then L k
  else (if src = some k then (L k).filter (· ≠ i) else L k) ++ if dst = some k then [i] else []

theorem mem_relist (hsrc : ∀ k, i ∈ L k ↔ src = some k) :
    j ∈ relist L i src dst k ↔ if j = i then dst = some k else j ∈ L k := by
  unfold relist
  by_cases hsd : src = dst
  · by_cases hj : j = i
    · simp [hj, hsd ▸ hsrc k, hsd]
    · simp [hj, hsd]
  · rw [if_neg hsd]
    by_cases hj : j = i
    · by_cases hk : src = some k <;> by_cases hk' : dst = some k <;> simp [hj, hk, hsrc]
    · by_cases hk : src = some k <;> by_cases hk' : dst = some k <;> simp [hj, hk]

theorem Woven.leave (h : Woven t L) (hsrc : ∀ k, i ∈ L k ↔ src = some k) :
    Woven (t.leave i src) fun k => if src = some k then (L k).filter (· ≠ i) else L k := by
  cases src with
  | none => simpa [leave] using h
  | some k => simpa [leave, eq_comm] using h.unlink ((hsrc k).mpr rfl)

theorem Woven.enter (h : Woven t L) (hi : ∀ k, i ∉ L k) :
    Woven (t.enter i dst) fun k => L k ++ if dst = some k then [i] else [] := by
  cases dst with
  | none => simpa [enter] using h
  | some k =>
    have hL : (fun k' => L k' ++ if some k = some k' then [i] else []) =
        fun k' => if k' = k then L k' ++ [i] else L k' := by
      funext k'
      by_cases hk : k' = k
      · simp [hk]
      · simp [hk, Ne.symm hk]
    rw [hL]
    exact h.push hi

/-- A slot that is on list `src` goes to list `dst`. -/
theorem Woven.relink (h : Woven t L) (hsrc : ∀ k, i ∈ L k ↔ src = some k) :
    Woven (t.relink i src dst) (relist L i src dst) := by
  unfold Table.relink
  by_cases hsd : src = dst
  · have hL : relist L i src dst = L := funext fun k => if_pos hsd
    rw [if_pos hsd, hL]
    exact h
  · have hL : relist L i src dst = fun k =>
        (if src = some k then (L k).filter (· ≠ i) else L k) ++ if dst = some k then [i] else [] :=
      funext fun k => if_neg hsd
    rw [if_neg hsd, hL]
    refine (h.leave hsrc).enter fun k hi => ?_
    split at hi
    · simp at hi
    · rename_i hk
      exact hk ((hsrc k).mp hi)

theorem relink_content : ((t.relink i src dst).slots j).content = (t.slots j).content := by
  unfold relink
  split
  · rfl
  · cases src <;> cases dst <;> simp only [leave, enter, listPush_content, listUnlink_content]

theorem relink_nState : (t.relink i src dst).nState = t.nState := by
  unfold relink
  split
  · rfl
  · cases src <;> cases dst <;> simp [leave, enter]

/-- A move changes the state of its slot and no other content. -/
theorem move_content (st : SlotState) : ((t.move i st).slots j).content =
    if j = i then { (t.slots j).content with state := st } else (t.slots j).content := by
  unfold move
  by_cases hj : j = i
  · subst hj
    rw [if_pos rfl, modify_slots_self]
    exact congrArg (fun s : Slot => { s with state := st }) relink_content
  · rw [if_neg hj, modify_slots_ne hj]
    exact relink_content

theorem move_state : ((t.move i st).slots j).state = if j = i then st else (t.slots j).state := by
  have h := congrArg state (move_content (t := t) (i := i) (j := j) st)
  split at h <;> simpa [content, *] using h

/-- What a move keeps: every part of a slot but its links and its state. -/
theorem move_keeps (p : Slot → α) (hp : ∀ s st', p { s.content with state := st' } = p s) (j : ℕ) :
    p ((t.move i st).slots j) = p (t.slots j) := by
  have hself (s : Slot) : p s.content = p s := hp s s.state
  rw [← hself, move_content]
  split
  · exact hp _ st
  · exact hself _

theorem move_nState (st st' : SlotState) (hpos : 0 < t.nState (t.slots i).state) :
    (t.move i st).nState st' + (if (t.slots i).state = st' then 1 else 0) =
      t.nState st' + if st = st' then 1 else 0 := by
  have hval : (t.move i st).nState st' = (t.recount (t.slots i).state st).nState st' :=
    congrFun relink_nState st'
  rw [hval]
  simp only [recount]
  by_cases hold : (t.slots i).state = st'
  · subst hold
    by_cases hst : st = (t.slots i).state
    · simp only [hst, if_pos]
      omega
    · simp only [if_pos, if_neg hst, if_neg (Ne.symm hst)]
      omega
  · by_cases hst : st = st'
    · simp only [hst, if_pos, if_neg hold, if_neg (Ne.symm hold)]
    · simp only [if_neg hold, if_neg (Ne.symm hold), if_neg hst, if_neg (Ne.symm hst)]

/-! ## Lists, states and counters -/

/-- The number of slots in state `st`. -/
def stateCount (t : Table) (cap : ℕ) (st : SlotState) : ℕ :=
  ∑ j ∈ Finset.range cap, if (t.slots j).state = st then 1 else 0

/-- Every slot is on the list of its state and on no other, and the counters are exact. -/
structure Tidy (t : Table) (cap : ℕ) (L : ListId → List ℕ) : Prop where
  woven : Woven t L
  mem_iff : ∀ k i, i ∈ L k ↔ i < cap ∧ listOf (t.slots i).state = some k
  count : ∀ st, t.nState st = t.stateCount cap st

namespace Tidy

variable {cap : ℕ}

section

variable (h : Tidy t cap L)
include h

theorem nState_pos (hi : i < cap) : 0 < t.nState (t.slots i).state := by
  have hle := le_sum_range (f := fun j => if (t.slots j).state = (t.slots i).state then 1 else 0) hi
  rw [if_pos rfl] at hle
  rw [h.count]
  exact hle

theorem move (hi : i < cap) :
    Tidy (t.move i st) cap (relist L i (listOf (t.slots i).state) (listOf st)) where
  woven := by
    have hsrc : ∀ k, i ∈ L k ↔ listOf (t.slots i).state = some k := by
      intro k
      simp [h.mem_iff, hi]
    have hcounted : Woven (t.recount (t.slots i).state st) L :=
      h.woven.congr (fun _ => rfl) (fun _ => rfl) rfl
    exact (hcounted.relink hsrc).congr
      (modify_keeps (f := fun s => { s with state := st }) prev fun _ => rfl)
      (modify_keeps (f := fun s => { s with state := st }) next fun _ => rfl) rfl
  mem_iff k j := by
    have hsrc : ∀ k, i ∈ L k ↔ listOf (t.slots i).state = some k := by
      intro k
      simp [h.mem_iff, hi]
    rw [mem_relist hsrc, move_state]
    by_cases hj : j = i
    · simp [hj, hi]
    · simp [hj, h.mem_iff]
  count st' := by
    have hmove := move_nState st st' (h.nState_pos hi)
    have hsum := sum_range_change (f := fun j => if (t.slots j).state = st' then 1 else 0)
      (g := fun j => if ((t.move i st).slots j).state = st' then 1 else 0) hi
      (fun j hj => by simp [move_state, hj])
    have hcnt := h.count st'
    simp only [move_state, if_pos] at hsum
    simp only [stateCount, move_state] at hcnt ⊢
    omega

/-- The sequences and counters depend on the links and the states only. -/
theorem modify (hprev : ∀ s, (f s).prev = s.prev) (hnext : ∀ s, (f s).next = s.next)
    (hstate : ∀ s, (f s).state = s.state) :
    Tidy (t.modify i f) cap L where
  woven := h.woven.congr (modify_keeps prev hprev) (modify_keeps next hnext) rfl
  mem_iff k j := by
    have hst := modify_keeps (t := t) (i := i) state hstate j
    rw [hst, h.mem_iff]
  count st := by
    have hst := modify_keeps (t := t) (i := i) state hstate
    have hcnt := h.count st
    simp only [stateCount] at hcnt ⊢
    simp only [hst]
    exact hcnt

/-- The head of a list is a slot of its class. -/
theorem head_mem (hhead : (t.lists k).head = some i) :
    i < cap ∧ listOf (t.slots i).state = some k :=
  (h.mem_iff k i).mp (mem_of_getElem? ((h.woven.linked k).head_eq.symm.trans hhead))

/-- A list is empty when no slot is of its class. -/
theorem head_eq_none_iff :
    (t.lists k).head = none ↔ ∀ i < cap, listOf (t.slots i).state ≠ some k := by
  rw [(h.woven.linked k).head_eq, getElem?_eq_none_iff, Nat.le_zero, length_eq_zero_iff,
    eq_nil_iff_forall_not_mem]
  exact forall_congr' fun i => by rw [h.mem_iff]; exact not_and

theorem length_le (k : ListId) : (L k).length ≤ cap :=
  length_le_of_nodup_lt (h.woven.nodup k) fun i hi => ((h.mem_iff k i).mp hi).1

end

end Tidy

end Table

end LibXtc.Batch

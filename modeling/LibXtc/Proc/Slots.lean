import LibXtc.Foundations.Lists
import LibXtc.Proc.Tables

/-!
# The free list of a table

The slots below the high-water mark that hold no process are the nodes of the free list, each
once; the slots from the mark on were never handed out. Handing a slot out and taking it back
keep this.
-/

namespace LibXtc.PidTable

open List

namespace Table

variable {t t' : Table} {k p : ℕ} {memory : Bool}

/-- A slot list with one replaced slot. -/
theorem getD_set {l : List Slot} (hk : k < l.length) (j : ℕ) (v : Slot) :
    (l.set k v).getD j default = if j = k then v else l.getD j default := by
  by_cases hjk : k = j
  · simp [← hjk, hk]
  · simp [hjk, Ne.symm hjk]

/-- What every table of the system satisfies. -/
structure Ok (t : Table) : Prop where
  hw_le : t.hw ≤ t.cap
  fresh : ∀ k, t.hw ≤ k → t.slot k = default
  free : ∃ l, t.FreeList l ∧ l.Nodup ∧ ∀ k, k ∈ l ↔ k < t.hw ∧ (t.slot k).proc = none

/-- A table between the choice of the slot `k` and its use: `k` is on no list. -/
structure Picked (t : Table) (k : ℕ) : Prop where
  lt_hw : k < t.hw
  hw_le : t.hw ≤ t.cap
  fresh : ∀ j, t.hw ≤ j → t.slot j = default
  proc_eq : (t.slot k).proc = none
  free : ∃ l, t.FreeList l ∧ l.Nodup ∧ ∀ j, j ∈ l ↔ j < t.hw ∧ (t.slot j).proc = none ∧ j ≠ k

theorem ok_default : (default : Table).Ok :=
  ⟨Nat.le_refl _, fun _ _ => rfl, [], rfl, nodup_nil, fun k => by simp [default]⟩

/-- An occupied slot was handed out. -/
theorem Ok.lt_hw (h : t.Ok) (hk : (t.slot k).proc ≠ none) : k < t.hw := by
  by_contra hle
  rw [h.fresh k (Nat.le_of_not_lt hle)] at hk
  exact hk rfl

theorem Ok.lt_cap (h : t.Ok) (hk : (t.slot k).proc ≠ none) : k < t.cap :=
  Nat.lt_of_lt_of_le (h.lt_hw hk) h.hw_le

/-- Handing out the slot at the high-water mark. -/
theorem Ok.picked_hw (h : t.Ok) (hfree : t.freeHead = none) (hslot : t'.slot = t.slot)
    (hhw : t'.hw = t.hw + 1) (hfree' : t'.freeHead = none) (hcap : t.hw < t'.cap) :
    t'.Picked t.hw := by
  obtain ⟨l, hl, -, hmem⟩ := h.free
  have hnil : l = [] := by
    rw [← head?_eq_none_iff, ← hl.head?_eq, hfree]
  subst hnil
  refine ⟨by omega, by omega, fun j hj => ?_, ?_, [], hfree', nodup_nil, fun j => ?_⟩
  · rw [hslot, h.fresh j (by omega)]
  · rw [hslot, h.fresh _ (Nat.le_refl _)]
    rfl
  · have hj := hmem j
    simp only [not_mem_nil, false_iff, not_and] at hj ⊢
    rw [hslot]
    intro hlt hproc hne
    exact hj (by omega) hproc

/-- New slots hold nothing. -/
theorem slot_grow (n hw : ℕ) :
    slot { t with slots := t.slots ++ replicate n default, hw := hw } = t.slot := by
  funext j
  simp only [slot, getD_eq_getElem?_getD, getElem?_append, getElem?_replicate]
  by_cases hj : j < t.slots.length
  · simp [hj]
  · rw [if_neg hj, getElem?_eq_none (Nat.le_of_not_lt hj)]
    split <;> rfl

/-- A full table below its ceiling grows. -/
theorem lt_newCap (h : t.cap < maxLocalId) : t.cap < t.newCap := by
  rw [newCap]
  split <;> omega

/-- The slot chosen was free and leaves the free list. The slots hold what they did. -/
theorem Ok.picked (h : t.Ok) (hpick : t.pick memory = .ok (k, t')) :
    t'.Picked k ∧ t'.slot = t.slot := by
  unfold pick at hpick
  split at hpick
  · rename_i head hhead
    cases hpick
    refine ⟨?_, rfl⟩
    -- the head of the free list is handed out again
    obtain ⟨l, hl, hnodup, hmem⟩ := h.free
    cases l with
    | nil => rw [show t.freeHead = none from hl] at hhead; cases hhead
    | cons x rest =>
      obtain ⟨hx, hrest⟩ := hl
      obtain rfl : x = k := Option.some.inj (hx.symm.trans hhead)
      have hfirst := (hmem x).mp mem_cons_self
      refine ⟨hfirst.1, h.hw_le, h.fresh, hfirst.2, rest, hrest, hnodup.of_cons, fun j => ?_⟩
      have hj := hmem j
      rw [mem_cons] at hj
      constructor
      · intro hin
        have hfree := hj.mp (.inr hin)
        refine ⟨hfree.1, hfree.2, fun heq => ?_⟩
        exact (nodup_cons.mp hnodup).1 (heq ▸ hin)
      · rintro ⟨hlt, hproc, hne⟩
        exact (hj.mpr ⟨hlt, hproc⟩).resolve_left hne
  · rename_i hfree
    split at hpick
    · cases hpick
      exact ⟨h.picked_hw hfree rfl rfl hfree ‹_›, rfl⟩
    · split at hpick
      · cases hpick
      · split at hpick
        · cases hpick
          refine ⟨h.picked_hw hfree (slot_grow _ _) rfl hfree ?_, slot_grow _ _⟩
          have hgrow := t.lt_newCap (Nat.lt_of_not_le ‹_›)
          have hle := h.hw_le
          simp only [cap, length_append, length_replicate] at hgrow hle ⊢
          omega
        · cases hpick

theorem slot_take (hk : k < t.cap) (j : ℕ) : (t.take k p).slot j =
      if j = k then { t.slot k with proc := some p, gen := ((t.slot k).gen + 1) % 2 ^ 64 }
      else t.slot j :=
  getD_set hk j _

theorem slot_vacate (hk : k < t.cap) (j : ℕ) : (t.vacate k).slot j =
      if j = k then { t.slot k with proc := none, nextFree := t.freeHead } else t.slot j :=
  getD_set hk j _

theorem Picked.lt_cap (h : t.Picked k) : k < t.cap := Nat.lt_of_lt_of_le h.lt_hw h.hw_le

theorem Picked.take (h : t.Picked k) : (t.take k p).Ok := by
  obtain ⟨l, hl, hnodup, hmem⟩ := h.free
  refine ⟨?_, fun j hj => ?_, l, hl.congr fun j hj => ?_, hnodup, fun j => ?_⟩
  · have hle := h.hw_le
    simpa only [cap, Table.take, length_set] using hle
  · have hne : j ≠ k := fun heq => Nat.not_lt_of_le hj (heq ▸ h.lt_hw)
    rw [slot_take h.lt_cap, if_neg hne]
    exact h.fresh j hj
  · have hne := ((hmem j).mp hj).2.2
    rw [slot_take h.lt_cap, if_neg hne]
  · rw [slot_take h.lt_cap, hmem]
    by_cases hj : j = k
    · simp [hj]
    · simp [hj, Table.take]

/-- Giving an occupied slot back puts it on the free list. -/
theorem Ok.vacate (h : t.Ok) (hk : (t.slot k).proc ≠ none) : (t.vacate k).Ok := by
  obtain ⟨l, hl, hnodup, hmem⟩ := h.free
  have hlt := h.lt_hw hk
  have hcap := h.lt_cap hk
  have hout : k ∉ l := fun hin => hk ((hmem k).mp hin).2
  refine ⟨?_, fun j hj => ?_, k :: l, ⟨rfl, ?_⟩, nodup_cons.mpr ⟨hout, hnodup⟩, fun j => ?_⟩
  · have hle := h.hw_le
    simpa only [cap, Table.vacate, length_set] using hle
  · have hne : j ≠ k := fun heq => Nat.not_lt_of_le hj (heq ▸ hlt)
    rw [slot_vacate hcap, if_neg hne]
    exact h.fresh j hj
  · simp only [slot_vacate hcap]
    refine hl.congr fun j hj => ?_
    have hne : j ≠ k := fun heq => hout (heq ▸ hj)
    simp only [if_neg hne]
  · rw [slot_vacate hcap, mem_cons, hmem]
    by_cases hj : j = k
    · subst hj
      simpa [Table.vacate] using hlt
    · simp [hj, Table.vacate]

end Table

end LibXtc.PidTable

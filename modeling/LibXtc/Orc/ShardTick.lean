import LibXtc.Foundations.Runs
import Mathlib.Algebra.Group.Fin.Basic

/-!
# Dispatch in a shard

In each tick the slots of an isolate type are looked at in a circle, from where the last tick left
off, until the budget is spent or the circle is closed. A slot that stays ready is reached before
the cursor has gone round.
-/

namespace LibXtc.Shard

open Foundations Function

inductive SlotState
  | free
  | waitMessage
  | ready
  | waitIo
  deriving DecidableEq

/-- `xtc_tnt_slot_t`: its state, and `mbox_depth`. -/
structure Slot where
  state : SlotState
  depth : ℕ

inductive Transition
  | done
  | crash
  | waitIo
  | waitMessage
  | yield

/-- A call of the handler: what it does to the slots of the arena, and what it returns. -/
structure Turn (n : ℕ) where
  run : (Fin n → Slot) → Fin n → Slot
  kind : Transition

/-- A tick: what the drains do to the slots, the turns of this type, and what the other types do. -/
structure Tick (n : ℕ) where
  drain : (Fin n → Slot) → Fin n → Slot
  turns : ℕ → Turn n
  others : (Fin n → Slot) → Fin n → Slot

/-- The arena of a type with `n` slots. A slot `waits` if it was ready at the start of the tick and
ever since, and was not dispatched; `ticks` counts the ticks in a row to whose end it has waited. -/
structure Arena (n : ℕ) where
  slots : Fin n → Slot
  cursor : Fin n
  waits : Fin n → Bool
  ticks : Fin n → ℕ

def Slot.ready (s : Slot) : Bool := s.state = .ready

/-- The slot after a turn that returned `kind`. -/
def Slot.moved (s : Slot) : Transition → Slot
  | .done | .crash => ⟨.free, 0⟩
  | .waitIo => { s with state := .waitIo }
  | .waitMessage => { s with state := if 0 < s.depth then .ready else .waitMessage }
  | .yield => { s with state := .ready }

/-- The budget of a type of weight `w`. -/
def budget (n w : ℕ) : ℕ := if w = 0 then n else w

variable {n w m left d : ℕ}

namespace Arena

/-- `dispatch_slot`, after the head of the mailbox was popped. -/
def dispatchSlot (a : Arena n) (slot : Fin n) (t : Turn n) : Arena n :=
  let popped := { a.slots slot with depth := (a.slots slot).depth - 1 }
  let slots := t.run (update a.slots slot popped)
  let slots := update slots slot ((slots slot).moved t.kind)
  { a with slots := slots, waits := fun i => a.waits i && i ≠ slot && (slots i).ready }

variable [NeZero n]

/-- The loop of `shard_tick` over the slots of a type, with `left` to scan. -/
def scan (w : ℕ) (turns : ℕ → Turn n) : ℕ → ℕ → Arena n → Arena n
  | 0, _, a => a
  | left + 1, dispatched, a =>
    if dispatched < budget n w then
      let next := { a with cursor := a.cursor + 1 }
      if (a.slots a.cursor).ready then
        scan w turns left (dispatched + 1) (next.dispatchSlot a.cursor (turns dispatched))
      else scan w turns left dispatched next
    else a

/-- `shard_tick`. -/
def tick (w : ℕ) (a : Arena n) (t : Tick n) : Arena n :=
  let slots := t.drain a.slots
  let a := { a with slots := slots, waits := fun i => (a.slots i).ready && (slots i).ready }
  let b := a.scan w t.turns n 0
  { b with slots := t.others b.slots, ticks := fun i => if b.waits i then a.ticks i + 1 else 0 }

end Arena

variable [NeZero n] {i c : Fin n} {a : Arena n}

def system (n w : ℕ) [NeZero n] : System (Arena n) (Tick n) where
  init a := a = ⟨fun _ => ⟨.free, 0⟩, 0, fun _ => false, fun _ => 0⟩
  step a t := some (a.tick w t)

/-- A cursor that passes another slot comes nearer to slot `i`. -/
theorem val_sub_add_one (hne : i ≠ c) : (i - (c + 1)).val + 1 = (i - c).val := by
  have hpos : (i - c).val ≠ 0 := Fin.val_ne_zero_iff.mpr (sub_ne_zero.mpr hne)
  rw [sub_add_eq_sub_sub, Fin.val_sub_one_of_ne_zero (sub_ne_zero.mpr hne)]
  omega

/-- While slot `i` waits, the cursor is on its way to it: what is `left` suffices to get there, and
it has come one slot nearer for each dispatch. -/
def Near (i : Fin n) (m left d : ℕ) (a : Arena n) : Prop :=
  a.waits i = true →
    (a.slots i).ready = true ∧ (i - a.cursor).val + d ≤ m ∧ (i - a.cursor).val < left

theorem Near.scan (turns : ℕ → Turn n) (h : Near i m left d a) :
    (a.scan w turns left d).waits i = true →
      (i - (a.scan w turns left d).cursor).val + budget n w ≤ m := by
  induction left generalizing d a with
  | zero => exact fun hw => absurd (h hw).2.2 (Nat.not_lt_zero _)
  | succ left ih =>
    rw [Arena.scan]
    split
    · split
      · refine ih fun hw => ?_
        simp only [Arena.dispatchSlot, Bool.and_eq_true, decide_eq_true_eq] at hw
        obtain ⟨⟨hw, hne⟩, hready⟩ := hw
        obtain ⟨-, hm, hleft⟩ := h hw
        have hnear := val_sub_add_one hne
        refine ⟨hready, ?_, ?_⟩ <;> dsimp only [Arena.dispatchSlot] <;> omega
      · rename_i hidle
        refine ih fun hw => ?_
        obtain ⟨hready, hm, hleft⟩ := h hw
        have hne : i ≠ a.cursor := fun heq => hidle (heq ▸ hready)
        have hnear := val_sub_add_one hne
        refine ⟨hready, ?_, ?_⟩ <;> dsimp only <;> omega
    · intro hw
      have hm := (h hw).2.1
      omega

/-- The longer slot `i` has waited, the nearer the cursor is. -/
def Ok (w : ℕ) (i : Fin n) (a : Arena n) : Prop :=
  a.ticks i * budget n w + (i - a.cursor).val < n

theorem Ok.tick (h : Ok w i a) (t : Tick n) : Ok w i (a.tick w t) := by
  unfold Ok at *
  dsimp only [Arena.tick]
  split
  · rename_i hw
    have hm : _ ≤ (i - a.cursor).val := Near.scan t.turns (by
      exact fun hw => ⟨(Bool.and_eq_true_iff.mp hw).2, Nat.le_refl _, (i - a.cursor).isLt⟩) hw
    rw [Nat.add_mul, Nat.one_mul]
    omega
  · rw [Nat.zero_mul, Nat.zero_add]
    exact Fin.isLt _

/-- A slot that is ready at the start of a tick and stays ready is dispatched within `n / w` ticks,
rounded up, whatever the handlers do: it waits to the end of fewer. -/
theorem ready_slot_dispatched (hs : (system n w).Reachable a) (i : Fin n) :
    a.ticks i < (n + budget n w - 1) / budget n w := by
  have hn := i.pos
  have hpos : 0 < budget n w := by
    unfold budget
    split <;> omega
  have h : Ok w i a := by
    refine hs.invariant ?_ ?_
    · rintro a rfl
      simp [Ok]
    · rintro a t b h - ⟨⟩
      exact h.tick t
  unfold Ok at h
  rw [Nat.lt_iff_add_one_le, Nat.le_div_iff_mul_le hpos, Nat.add_mul, Nat.one_mul]
  omega

/-- Three slots that always yield, of a type with a budget of one. -/
theorem ready_slot_dispatched_yielding : ∃ a, (system 3 1).Reachable a ∧ a.ticks 0 = 2 ∧
    a.ticks 0 < 3 :=
  System.exists_reachable [⟨fun _ _ => ⟨.ready, 0⟩, fun _ => ⟨id, .yield⟩, id⟩,
    ⟨id, fun _ => ⟨id, .yield⟩, id⟩, ⟨id, fun _ => ⟨id, .yield⟩, id⟩] rfl (by decide)
    fun _ hs _ => ready_slot_dispatched hs 0

end LibXtc.Shard

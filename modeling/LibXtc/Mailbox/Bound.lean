import LibXtc.Mailbox.SelectiveReceive

/-!
# The bound of a mailbox

A sender counts the mailbox and the save queue. A message that the owner has popped, and not yet
saved or returned, is in neither, so the bound holds for runs in which no message takes the place
that the one in hand has left.
-/

namespace LibXtc.Mailbox

open Foundations List

/-- A mailbox and the ordinary messages that it has accepted. -/
structure Tally where
  state : State
  ordinary : List Message

/-- A delivery of a message that is no `DOWN` and no `EXIT`. -/
def Act.ordinary : Act → Bool
  | .send _ _ _ sys => !sys
  | _ => false

def Tally.step (p : Tally) (a : Act) : Option Tally :=
  (p.state.step a).map fun t =>
    ⟨t, if a.ordinary then p.ordinary ++ t.hist.accepted.drop p.state.hist.accepted.length
      else p.ordinary⟩

def tally : System Tally Act where
  init p := ∃ cap wmLvl, p = ⟨.spawned cap wmLvl, []⟩
  step := Tally.step

/-- The ordinary messages that were accepted and not returned. -/
def Tally.pending (p : Tally) : List Message := p.ordinary.filter (· ∉ p.state.hist.returned)

/-- No ordinary message arrives while the last place is that of the message in hand. -/
def Tally.placeKept (p : Tally) (a : Act) : Bool :=
  !a.ordinary || p.state.hand.isNone ||
    p.state.box.mboxN + p.state.box.mboxSaved + 1 != p.state.box.mboxCap

variable {s t : State} {a : Act} {p : Tally}

/-- A step of the owner returns messages at most. -/
structure State.Returns (s t : State) : Prop where
  cap : t.box.mboxCap = s.box.mboxCap
  returned : s.hist.returned ⊆ t.hist.returned
  accepted : t.hist.accepted = s.hist.accepted

theorem State.Returns.ret (h : s.Returns t) (rc : Rc) : s.Returns (t.ret rc) := by
  rw [State.ret]
  split
  · exact ⟨h.cap, h.returned, h.accepted⟩
  · split
    · dsimp only
      split <;> exact ⟨h.cap, h.returned, h.accepted⟩
    · exact ⟨h.cap, h.returned, h.accepted⟩

theorem State.Returns.of_advance {now : ℤ} {alloc : Bool} (ht : s.advance now alloc = some t) :
    s.Returns t := by
  have hsame : s.Returns s := ⟨rfl, Subset.refl _, rfl⟩
  unfold State.advance at ht
  split at ht
  case h_4 =>
    split at ht <;> cases ht
    · next hpop =>
      obtain ⟨e, -, he⟩ := Option.map_eq_some_iff.mp hpop
      cases he
      exact { hsame with }
    · split <;> exact { hsame with }
  case h_6 =>
    split at ht
    · cases ht
      exact hsame.ret _
    · split at ht <;> cases ht
      · exact hsame.ret _
      · exact { hsame with }
  case h_8 =>
    split at ht <;> cases ht <;> apply State.Returns.ret
    · exact { hsame with }
    · exact ⟨rfl, subset_cons_self _ _, rfl⟩
  all_goals
    repeat' split at ht
    all_goals
      cases ht
      try exact { hsame with }

theorem Box.mboxCap_deliver (b : Box) (e : ℕ) (sys : Bool) :
    (b.mboxDeliverLocked e sys).mboxCap = b.mboxCap := by
  rw [mboxDeliverLocked]
  split <;> rfl

/-- Queues and hand hold what is pending. -/
theorem Sound.length_pending (h : Sound False s) : s.hist.pending.length =
    s.box.mboxN + s.box.mboxSaved + s.hand.toList.length := by
  obtain ⟨front, back, mbox, hholds⟩ := h.holds
  have hlen := hholds.contents.perm.length_eq
  simp only [length_map, length_append] at hlen
  rw [← hlen, hholds.layout.queued, hholds.layout.saved, length_append]
  omega

structure Tally.Ok (p : Tally) : Prop where
  sound : Sound False p.state
  ordinary : p.ordinary <+ p.state.hist.accepted
  bound : 0 < p.state.box.mboxCap → p.pending.length ≤ p.state.box.mboxCap

namespace Tally.Ok

variable (h : p.Ok)
include h

/-- A step that counts no message. -/
theorem keep (hsound : Sound False t) (hcap : t.box.mboxCap = p.state.box.mboxCap)
    (hret : p.state.hist.returned ⊆ t.hist.returned)
    (hacc : p.state.hist.accepted <+: t.hist.accepted) : Ok ⟨t, p.ordinary⟩ := by
  refine ⟨hsound, h.ordinary.trans hacc.sublist, fun hpos => ?_⟩
  rw [hcap] at hpos ⊢
  refine Nat.le_trans (Sublist.length_le ?_) (h.bound hpos)
  refine monotone_filter_right _ fun m hm => ?_
  simp only [decide_eq_true_eq] at hm ⊢
  exact fun hmem => hm (hret hmem)

/-- An ordinary message is accepted, and the one in hand is counted too. -/
theorem count {m : Message} (hsound : Sound False t) (hcap : t.box.mboxCap = p.state.box.mboxCap)
    (hhist : t.hist = { p.state.hist with accepted := p.state.hist.accepted ++ [m] })
    (hroom : 0 < p.state.box.mboxCap → p.state.box.mboxN + p.state.box.mboxSaved +
      p.state.hand.toList.length < p.state.box.mboxCap) : Ok ⟨t, p.ordinary ++ [m]⟩ := by
  refine ⟨hsound, ?_, fun hpos => ?_⟩
  · rw [hhist]
    exact h.ordinary.append_right [m]
  · rw [hcap] at hpos ⊢
    have hret : t.hist.returned = p.state.hist.returned := by rw [hhist]; rfl
    have hlen : p.pending.length ≤ p.state.hist.pending.length := (h.ordinary.filter _).length_le
    have hnew := length_filter_le (· ∉ p.state.hist.returned) [m]
    rw [h.sound.length_pending] at hlen
    simp only [Tally.pending, hret, filter_append, length_append] at hlen hnew ⊢
    simp only [length_singleton] at hnew
    omega

/-- A delivery. -/
theorem send {e : ℕ} {data : List UInt8} {ext sys : Bool}
    (hkept : p.placeKept (.send e data ext sys)) (hsound : Sound False t)
    (ht : p.state.send e data ext sys = some t) : Ok ⟨t, if (!sys) = true then
      p.ordinary ++ t.hist.accepted.drop p.state.hist.accepted.length else p.ordinary⟩ := by
  have hcap := (p.state.box.envAlloc e data ext).mboxCap_deliver e sys
  rw [State.send] at ht
  split at ht
  · cases ht
  by_cases href : (p.state.box.envAlloc e data ext).refuses sys
  · simp only [if_pos href] at ht
    cases ht
    simp only [drop_length, append_nil, ite_self]
    exact h.keep hsound hcap (Subset.refl _) (prefix_refl _)
  · simp only [if_neg href] at ht
    cases ht
    cases sys with
    | true => exact h.keep hsound hcap (Subset.refl _) (prefix_append ..)
    | false =>
      simp only [Bool.not_false, if_true, drop_left]
      refine h.count hsound hcap rfl fun hpos => ?_
      have hfree : p.state.box.mboxN + p.state.box.mboxSaved < p.state.box.mboxCap :=
        Nat.lt_of_not_le fun hfull => href (.inr ⟨rfl, hpos, hfull⟩)
      cases hhand : p.state.hand with
      | none => exact hfree
      | some x =>
        simp only [Tally.placeKept, Act.ordinary, hhand, Bool.not_false, Bool.not_true,
          Option.isNone_some, Bool.false_or, bne_iff_ne] at hkept
        simp only [Option.toList_some, length_singleton]
        omega

theorem step {p' : Tally} {a : Act} (hkept : p.placeKept a) (hstep : p.step a = some p') :
    p'.Ok := by
  obtain ⟨t, ht, rfl⟩ := Option.map_eq_some_iff.mp hstep
  have hsound : Sound False t := h.sound.step False.elim ht
  cases a
  case send => exact h.send hkept hsound ht
  case advance =>
    have hreturns := State.Returns.of_advance ht
    exact h.keep hsound hreturns.cap hreturns.returned (hreturns.accepted ▸ prefix_refl _)
  all_goals
    simp only [State.step] at ht
    repeat' split at ht
    all_goals
      cases ht
      try exact h.keep hsound rfl (Subset.refl _) (prefix_refl _)

end Tally.Ok

/-- At most `mailbox_cap` ordinary messages are accepted and not yet returned, and outside a receive
`mbox_saved` is the length of the save queue. -/
theorem mailbox_bounded (hp : tally.ReachableUnder (fun p a => p.placeKept a = true) p) :
    (0 < p.state.box.mboxCap → p.pending.length ≤ p.state.box.mboxCap) ∧
    (p.state.pc = .idle → ∃ save : List ℕ, Queue p.state.box.mem.next p.state.box.saveHead
      p.state.box.saveTail save ∧ p.state.box.mboxSaved = save.length) := by
  have h : p.Ok := by
    refine hp.invariant ?_ fun _ _ _ h hkept hstep => h.step hkept hstep
    rintro _ ⟨cap, wmLvl, rfl⟩
    exact ⟨.spawned False cap wmLvl, Sublist.refl _, fun _ => Nat.zero_le _⟩
  obtain ⟨front, back, mbox, hholds⟩ := h.sound.holds
  exact ⟨h.bound, fun _ => ⟨front ++ back, hholds.layout.saveQueue, hholds.layout.saved⟩⟩

/-- A message arrives while another one is tested, and the mailbox has two places. -/
theorem mailbox_bounded_twoPlaces : ∃ p ∈ tally.runUnder (fun p a => p.placeKept a = true)
      ⟨.spawned 2 0, []⟩ [.send 0 [1] false false, .recv (· == [2]) 0, .advance 0 true,
        .advance 0 true, .advance 0 true, .send 1 [3] false false, .send 2 [4] false true],
    p.pending = [⟨0, [1]⟩, ⟨1, [3]⟩] ∧ p.pending.length ≤ p.state.box.mboxCap := by
  refine System.exists_run ⟨2, 0, rfl⟩ (by decide) fun p eval hp _ => ?_
  exact (mailbox_bounded hp).1 (by apply eval; decide)

/-- The mailbox has one place, a message is accepted while another one is tested, and both are then
saved. -/
theorem mailbox_over_cap : ∃ p ∈ tally.run ⟨.spawned 1 0, []⟩ ([.send 0 [1] false false,
      .recv (· == [2]) 0, .advance 0 true, .advance 0 true, .advance 0 true,
      .send 1 [3] false false] ++ replicate 5 (.advance 0 true)),
    p.pending.length = 2 ∧ p.state.box.mboxCap = 1 ∧ p.state.pc = .idle ∧
      p.state.box.mboxSaved = 2 := by
  decide

end LibXtc.Mailbox

import Mathlib.Data.List.Count

/-!
# Exactly one notice for each ticket

Parties subscribe to each other. A subscription draws a ticket from a common counter, registers it
with the publisher, and is granted. The publisher works off its register: a notice goes to the
subscriber if that is still live. A party may also be told at once. The ledger says where each
ticket is, and its balance is the invariant behind "exactly one notice": a ticket that was
registered for a live subscriber is owed once or received once.
-/

namespace LibXtc.Foundations

open List

open Function

variable {ι : Type*} {p : ι}

/-- Where the tickets are. -/
@[ext] structure Ledger (ι : Type*) where
  /-- The notices that a publisher has still to send, to whom and for which ticket. -/
  owed : ι → List (ι × ℕ)
  /-- The notices that a subscriber has received, from whom and for which ticket. -/
  got : ι → List (ι × ℕ)
  /-- The parties that can receive. -/
  live : ι → Prop
  /-- The parties that have appeared. -/
  known : ι → Prop
  /-- The publishers that were withdrawn together with their register. -/
  void : ι → Prop
  /-- A ticket that its owner has drawn and not registered. -/
  hand : ι → Option ℕ
  /-- A registered ticket that its owner was not granted yet. -/
  slip : ι → Option (ι × ℕ)
  /-- The subscriptions granted: the subscriber, the publisher and the ticket. -/
  granted : List (ι × ι × ℕ)
  /-- The last ticket drawn. -/
  seq : ℕ

namespace Ledger

/-- The ticket `r` of `w` has reached the register of `t`. -/
def Registered (L : Ledger ι) (w t : ι) (r : ℕ) : Prop :=
  (w, t, r) ∈ L.granted ∨ L.slip w = some (t, r)

/-- A change that moves no ticket: parties appear, die or give up what they hold. -/
structure Quiet (L L' : Ledger ι) : Prop where
  owed_subset : ∀ t, L'.owed t ⊆ L.owed t
  owed : ∀ t, ¬L'.void t → L'.owed t = L.owed t
  got : ∀ w, L'.got w = L.got w
  live : ∀ w, L'.live w → L.live w ∨ ¬L.known w
  known : ∀ w, L.known w → L'.known w
  void : ∀ t, L.void t → L'.void t
  hand : ∀ p r, L'.hand p = some r → L.hand p = some r
  slip : ∀ p x, L'.slip p = some x → L.slip p = some x
  granted : L'.granted = L.granted
  seq : L'.seq = L.seq

variable [DecidableEq ι]

/-- The moves of the tickets. -/
inductive Move : Ledger ι → Ledger ι → Prop
  | quiet {L L' : Ledger ι} : Quiet L L' → Move L L'
  /-- A ticket is drawn. -/
  | draw (L : Ledger ι) (p : ι) : Move L { L with
        hand := update L.hand p (some (L.seq + 1))
        seq := L.seq + 1 }
  /-- It is registered. -/
  | register {L : Ledger ι} {p : ι} {r : ℕ} (t : ι) : L.known p → L.hand p = some r →
      Move L { L with
        owed := update L.owed t ((p, r) :: L.owed t)
        hand := update L.hand p none
        slip := update L.slip p (some (t, r)) }
  /-- It is granted. -/
  | grant {L : Ledger ι} {p t : ι} {r : ℕ} : L.slip p = some (t, r) → Move L { L with
        slip := update L.slip p none
        granted := (p, t, r) :: L.granted }
  /-- A subscriber is told at once. -/
  | notice {L : Ledger ι} {p : ι} (t : ι) : L.known p → L.live p → Move L { L with
        got := update L.got p (L.got p ++ [(t, L.seq + 1)])
        granted := (p, t, L.seq + 1) :: L.granted
        seq := L.seq + 1 }
  /-- A subscriber that has died is not told. -/
  | noticeLost {L : Ledger ι} {p : ι} (t : ι) : L.known p → ¬L.live p → Move L { L with
        granted := (p, t, L.seq + 1) :: L.granted
        seq := L.seq + 1 }
  /-- A publisher sends the first notice of its register. -/
  | send {L : Ledger ι} {t w : ι} {r : ℕ} {rest : List (ι × ℕ)} :
      L.owed t = (w, r) :: rest → L.live w →
      Move L { L with
        owed := update L.owed t rest
        got := update L.got w (L.got w ++ [(t, r)]) }
  /-- The subscriber of the first notice has died. -/
  | drop {L : Ledger ι} {t w : ι} {r : ℕ} {rest : List (ι × ℕ)} :
      L.owed t = (w, r) :: rest → ¬L.live w →
      Move L { L with owed := update L.owed t rest }

/-- The ticket `r` is owed, received or registered. -/
def Used (L : Ledger ι) (r : ℕ) : Prop :=
  (∃ t w, (w, r) ∈ L.owed t) ∨ (∃ w t, (t, r) ∈ L.got w) ∨ ∃ w t, L.Registered w t r

/-- The balance of a ledger. -/
structure Balanced (L : Ledger ι) : Prop where
  used_le : ∀ r, L.Used r → r ≤ L.seq
  hand_le : ∀ p r, L.hand p = some r → r ≤ L.seq
  /-- A ticket is in one hand. -/
  hand_unique : ∀ p q r, L.hand p = some r → L.hand q = some r → p = q
  /-- A ticket in hand is nowhere else. -/
  hand_unused : ∀ p r, L.hand p = some r → ¬L.Used r
  known : ∀ w t r, L.Registered w t r → L.known w
  /-- A registered ticket of a live subscriber is owed once or received once. -/
  balance : ∀ w t r, L.Registered w t r → L.live w → ¬L.void t →
    (L.owed t).count (w, r) + (L.got w).count (t, r) = 1

namespace Balanced

variable {L L' : Ledger ι} {w t : ι} {r : ℕ} {got : List (ι × ℕ)}

theorem count_owed_eq_zero (h : ¬L.Used r) : (L.owed t).count (w, r) = 0 :=
  count_eq_zero.mpr fun hmem => h (.inl ⟨t, w, hmem⟩)

theorem count_got_eq_zero (h : ¬L.Used r) : (L.got w).count (t, r) = 0 :=
  count_eq_zero.mpr fun hmem => h (.inr (.inl ⟨w, t, hmem⟩))

/-- A list changes at `(a, r)` only. -/
theorem count_update_of_ne {f : ι → List (ι × ℕ)} {l : List (ι × ℕ)} {k j a b : ι} {x : ℕ}
    (hl : (b, x) ≠ (a, r) → l.count (b, x) = (f k).count (b, x))
    (hne : ¬(j = k ∧ b = a ∧ x = r)) : (update f k l j).count (b, x) = (f j).count (b, x) := by
  rw [update_apply]
  split
  · next heq =>
    rw [heq]
    refine hl fun he => hne ⟨heq, ?_⟩
    exact Prod.mk.inj he
  · rfl

section

variable (hgot : L.live w ∧ got = L.got w ++ [(t, r)] ∨ ¬L.live w ∧ got = L.got w)
include hgot

theorem count_got_of_ne {u v : ι} {x : ℕ} (hne : ¬(v = w ∧ u = t ∧ x = r)) :
    (update L.got w got v).count (u, x) = (L.got v).count (u, x) := by
  refine count_update_of_ne (fun hux => ?_) hne
  rcases hgot with ⟨-, rfl⟩ | ⟨-, rfl⟩
  · rw [count_append, count_singleton, if_neg (by simpa using hux.symm)]
    rfl
  · rfl

theorem count_got_of_live (hlive : L.live w) :
    (update L.got w got w).count (t, r) = (L.got w).count (t, r) + 1 := by
  rcases hgot with ⟨-, rfl⟩ | ⟨hdead, -⟩
  · rw [update_self, count_append, count_singleton_self]
  · exact absurd hlive hdead

end

section

variable (h : Balanced L)
include h

theorem quiet (hq : Quiet L L') : Balanced L' := by
  have hreg : ∀ {w t r}, L'.Registered w t r → L.Registered w t r := by
    rintro w t r (hg | hs)
    · exact .inl (hq.granted ▸ hg)
    · exact .inr (hq.slip w _ hs)
  have hused : ∀ {r}, L'.Used r → L.Used r := by
    rintro r (⟨t, w, hmem⟩ | ⟨w, t, hmem⟩ | ⟨w, t, hr⟩)
    · exact .inl ⟨t, w, hq.owed_subset t hmem⟩
    · exact .inr (.inl ⟨w, t, hq.got w ▸ hmem⟩)
    · exact .inr (.inr ⟨w, t, hreg hr⟩)
  constructor
  · intro r hr
    rw [hq.seq]
    exact h.used_le r (hused hr)
  · intro p r hp
    rw [hq.seq]
    exact h.hand_le p r (hq.hand p r hp)
  · exact fun p q r hp hq' => h.hand_unique p q r (hq.hand p r hp) (hq.hand q r hq')
  · exact fun p r hp hr => h.hand_unused p r (hq.hand p r hp) (hused hr)
  · exact fun w t r hr => hq.known w (h.known w t r (hreg hr))
  · intro w t r hr hlive hvoid
    rw [hq.owed t hvoid, hq.got]
    have hlive' : L.live w := (hq.live w hlive).resolve_right
      fun hunknown => hunknown (h.known w t r (hreg hr))
    exact h.balance w t r (hreg hr) hlive' fun hv => hvoid (hq.void t hv)

theorem draw (p : ι) : Balanced { L with
      hand := update L.hand p (some (L.seq + 1))
      seq := L.seq + 1 } := by
  have hhand : ∀ {q r}, update L.hand p (some (L.seq + 1)) q = some r →
      (q = p ∧ r = L.seq + 1) ∨ L.hand q = some r := by
    intro q r hq
    rw [update_apply] at hq
    split at hq
    · next heq => exact .inl ⟨heq, (Option.some.inj hq).symm⟩
    · exact .inr hq
  constructor
  · exact fun r hr => Nat.le_succ_of_le (h.used_le r hr)
  · intro q r hq
    rcases hhand hq with ⟨-, rfl⟩ | hq₁
    · exact Nat.le_refl _
    · exact Nat.le_succ_of_le (h.hand_le q r hq₁)
  · intro q q' r hq hq'
    rcases hhand hq with ⟨hqp, hr⟩ | hq₁ <;> rcases hhand hq' with ⟨hqp', hr'⟩ | hq₂
    · rw [hqp, hqp']
    · exact absurd (h.hand_le _ _ hq₂) (by omega)
    · exact absurd (h.hand_le _ _ hq₁) (by omega)
    · exact h.hand_unique _ _ _ hq₁ hq₂
  · intro q r hq hr
    -- the new ticket is above every ticket in use
    have hle : r ≤ L.seq := h.used_le r hr
    rcases hhand hq with ⟨-, rfl⟩ | hq₁
    · omega
    · exact h.hand_unused q r hq₁ hr
  · exact h.known
  · exact h.balance

/-- The ticket `r` of `w` with `t` moves, and it is in no hand afterwards. The others stay where
they are. -/
theorem moved {owed' got' : ι → List (ι × ℕ)} {hand' : ι → Option ℕ} {slip' : ι → Option (ι × ℕ)}
    {granted' : List (ι × ι × ℕ)} {n : ℕ} (hseq : L.seq ≤ n) (hr : r ≤ n)
    (hhand : ∀ q x, hand' q = some x → L.hand q = some x ∧ x ≠ r)
    (hreg : ∀ v u x, (v, u, x) ∈ granted' ∨ slip' v = some (u, x) →
      L.Registered v u x ∨ (v = w ∧ u = t ∧ x = r))
    (howed : ∀ u v x, ¬(u = t ∧ v = w ∧ x = r) → (owed' u).count (v, x) = (L.owed u).count (v, x))
    (hgot : ∀ v u x, ¬(v = w ∧ u = t ∧ x = r) → (got' v).count (u, x) = (L.got v).count (u, x))
    (hnew : (w, t, r) ∈ granted' ∨ slip' w = some (t, r) → L.known w ∧
      (L.live w → ¬L.void t → (owed' t).count (w, r) + (got' w).count (t, r) = 1)) :
    Balanced { L with
      owed := owed', got := got', hand := hand', slip := slip', granted := granted', seq := n } := by
  have hused : ∀ x, x ≠ r → Used { L with
      owed := owed', got := got', hand := hand', slip := slip', granted := granted', seq := n } x →
      L.Used x := by
    rintro x hx (⟨u, v, hmem⟩ | ⟨v, u, hmem⟩ | ⟨v, u, hreg'⟩)
    · rw [← count_pos_iff, howed u v x fun he => hx he.2.2, count_pos_iff] at hmem
      exact .inl ⟨u, v, hmem⟩
    · rw [← count_pos_iff, hgot v u x fun he => hx he.2.2, count_pos_iff] at hmem
      exact .inr (.inl ⟨v, u, hmem⟩)
    · exact .inr (.inr ⟨v, u, (hreg v u x hreg').resolve_right fun he => hx he.2.2⟩)
  constructor
  · intro x hx
    by_cases hxr : x = r
    · exact hxr ▸ hr
    · exact Nat.le_trans (h.used_le x (hused x hxr hx)) hseq
  · exact fun q x hq => Nat.le_trans (h.hand_le q x (hhand q x hq).1) hseq
  · exact fun q q' x hq hq' => h.hand_unique q q' x (hhand q x hq).1 (hhand q' x hq').1
  · intro q x hq hx
    obtain ⟨hold, hne⟩ := hhand q x hq
    exact h.hand_unused q x hold (hused x hne hx)
  · intro v u x hreg'
    rcases hreg v u x hreg' with hold | ⟨rfl, rfl, rfl⟩
    · exact h.known v u x hold
    · exact (hnew hreg').1
  · intro v u x hreg' hlive hvoid
    by_cases he : v = w ∧ u = t ∧ x = r
    · obtain ⟨rfl, rfl, rfl⟩ := he
      exact (hnew hreg').2 hlive hvoid
    · change (owed' u).count (v, x) + (got' v).count (u, x) = 1
      rw [howed u v x fun hut => he ⟨hut.2.1, hut.1, hut.2.2⟩, hgot v u x he]
      exact h.balance v u x ((hreg v u x hreg').resolve_right he) hlive hvoid

/-- A ticket in use is in no hand. -/
theorem hand_ne (hr : L.Used r) (q : ι) (x : ℕ) (hq : L.hand q = some x) :
    L.hand q = some x ∧ x ≠ r :=
  ⟨hq, fun hx => h.hand_unused q r (hx ▸ hq) hr⟩

theorem register (t : ι) (hknown : L.known p) (hp : L.hand p = some r) : Balanced { L with
      owed := update L.owed t ((p, r) :: L.owed t)
      hand := update L.hand p none
      slip := update L.slip p (some (t, r)) } := by
  have hunused := h.hand_unused p r hp
  refine h.moved (w := p) (t := t) (Nat.le_refl _) (h.hand_le p r hp) ?_ ?_ ?_ (fun _ _ _ _ => rfl)
    fun _ => ⟨hknown, fun _ _ => ?_⟩
  · intro q x hq
    rw [update_apply] at hq
    split at hq
    · cases hq
    · next hne => exact ⟨hq, fun hx => hne (h.hand_unique q p r (hx ▸ hq) hp)⟩
  · rintro v u x (hg | hs)
    · exact .inl (.inl hg)
    · rw [update_apply] at hs
      split at hs
      · next heq =>
        cases hs
        exact .inr ⟨heq, rfl, rfl⟩
      · exact .inl (.inr hs)
  · exact fun u v x => count_update_of_ne fun hne => count_cons_of_ne hne.symm
  · simp only [update_self, count_cons_self, count_owed_eq_zero hunused, count_got_eq_zero hunused]

theorem grant (hp : L.slip p = some (t, r)) : Balanced { L with
      slip := update L.slip p none
      granted := (p, t, r) :: L.granted } := by
  have hr : L.Registered p t r := .inr hp
  have hused : L.Used r := .inr (.inr ⟨p, t, hr⟩)
  refine h.moved (Nat.le_refl _) (h.used_le r hused) (h.hand_ne hused) ?_ (fun _ _ _ _ => rfl)
    (fun _ _ _ _ => rfl) fun _ => ⟨h.known p t r hr, h.balance p t r hr⟩
  rintro v u x (hg | hs)
  · rcases mem_cons.mp hg with heq | hg
    · cases heq
      exact .inr ⟨rfl, rfl, rfl⟩
    · exact .inl (.inl hg)
  · rw [update_apply] at hs
    split at hs
    · cases hs
    · exact .inl (.inr hs)

/-- A fresh ticket that is granted at once, with its notice or without. -/
theorem fresh (hknown : L.known p)
    (hgot : L.live p ∧ got = L.got p ++ [(t, L.seq + 1)] ∨ ¬L.live p ∧ got = L.got p) :
    Balanced { L with
      got := update L.got p got
      granted := (p, t, L.seq + 1) :: L.granted
      seq := L.seq + 1 } := by
  have hunused : ¬L.Used (L.seq + 1) := fun hu => absurd (h.used_le _ hu) (by omega)
  refine h.moved (Nat.le_succ _) (Nat.le_refl _) ?_ ?_ (fun _ _ _ _ => rfl)
    (fun _ _ _ => count_got_of_ne hgot) fun _ => ⟨hknown, fun hlive _ => ?_⟩
  · intro q x hq
    have hle := h.hand_le q x hq
    exact ⟨hq, by omega⟩
  · rintro v u x (hg | hs)
    · rcases mem_cons.mp hg with heq | hg
      · cases heq
        exact .inr ⟨rfl, rfl, rfl⟩
      · exact .inl (.inl hg)
    · exact .inl (.inr hs)
  · rw [count_got_of_live hgot hlive, count_owed_eq_zero hunused, count_got_eq_zero hunused]

/-- The first notice of a register is worked off: it is received, or its subscriber has died. -/
theorem pop {rest : List (ι × ℕ)} (howed : L.owed t = (w, r) :: rest)
    (hgot : L.live w ∧ got = L.got w ++ [(t, r)] ∨ ¬L.live w ∧ got = L.got w) :
    Balanced { L with
      owed := update L.owed t rest
      got := update L.got w got } := by
  have hused : L.Used r := .inl ⟨t, w, by rw [howed]; exact mem_cons_self⟩
  refine h.moved (Nat.le_refl _) (h.used_le r hused) (h.hand_ne hused) (fun _ _ _ => .inl) ?_
    (fun _ _ _ => count_got_of_ne hgot) fun hr => ⟨h.known w t r hr, fun hlive hvoid => ?_⟩
  · refine fun u v x => count_update_of_ne fun hne => ?_
    rw [howed, count_cons_of_ne hne.symm]
  · -- what leaves the register of `t` enters the box of `w`
    have hold := h.balance w t r hr hlive hvoid
    rw [howed, count_cons_self] at hold
    rw [count_got_of_live hgot hlive, update_self]
    omega

/-- Every move keeps the balance. -/
theorem move (hm : Move L L') : Balanced L' := by
  cases hm with
  | quiet hq => exact h.quiet hq
  | draw p => exact h.draw p
  | register t hknown hp => exact h.register t hknown hp
  | grant hp => exact h.grant hp
  | notice t hknown hlive => exact h.fresh hknown (.inl ⟨hlive, rfl⟩)
  | noticeLost t hknown hdead =>
    have := h.fresh (t := t) hknown (.inr ⟨hdead, rfl⟩)
    rwa [update_eq_self] at this
  | send howed hlive => exact h.pop howed (.inl ⟨hlive, rfl⟩)
  | drop howed hdead =>
    have := h.pop howed (.inr ⟨hdead, rfl⟩)
    rwa [update_eq_self] at this

/-- A granted ticket whose publisher has worked off its register was received exactly once. -/
theorem count_got_eq_one (hgrant : (w, t, r) ∈ L.granted) (hlive : L.live w) (hvoid : ¬L.void t)
    (howed : L.owed t = []) : (L.got w).count (t, r) = 1 := by
  have := h.balance w t r (.inl hgrant) hlive hvoid
  rwa [howed, count_nil, Nat.zero_add] at this

end

end Balanced

end Ledger

end LibXtc.Foundations

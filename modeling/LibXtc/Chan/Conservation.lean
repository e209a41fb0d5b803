import LibXtc.Chan.Charges

/-!
# Channels give back what they charge

`Balanced` says that the counters of every accountant are the amounts at the start plus what the
channels that are there hold. Every call keeps it, except the destruction of a demand channel with
messages inside.
-/

namespace LibXtc.Channels

open Foundations Option State List

variable {α : Type*}

/-- The accountant of a channel. -/
def Chan.res : Chan α → Option ℕ
  | .oneshot c => c.res
  | .mpsc c => c.res
  | .watch c => c.res
  | .mpmc c => c.res
  | .broadcast c => c.res
  | .demand c => c.res

/-- How many slots a channel has charged. -/
def Chan.held : Chan α → ℕ
  | .mpsc c => c.len
  | .mpmc c => c.n
  | .demand c => c.n
  | _ => 0

/-- The capacity of an mpsc channel leaves room for the difference of its counters. -/
def Chan.Ok : Chan α → Prop
  | .mpsc c => c.cap ≤ 2 ^ 63
  | _ => True

/-- What a channel holds of accountant `r`. -/
def Chan.units (c : Chan α) (r : ℕ) (k : Res.Kind) : ℕ :=
  if c.res = some r then
    match k with
    | .channels => 1
    | .chanSlots => c.held
    | _ => 0
  else 0

/-- What a place holds, if the channel there has not been destroyed. -/
def units (r : ℕ) (k : Res.Kind) (c : Option (Chan α)) : ℕ := (c.map (Chan.units · r k)).getD 0

/-- What all the channels hold. -/
def State.held (s : State α) (r : ℕ) (k : Res.Kind) : ℕ := (s.chans.map (units r k)).sum

/-- The counters are the amounts at the start and what the channels hold. -/
structure Balanced (base : ℕ → Res.Kind → ℤ) (s : State α) : Prop where
  used : ∀ r k, s.used r k = base r k + s.held r k
  le : ∀ r k, s.used r k ≤ int64Max
  ok : ∀ c, some c ∈ s.chans → c.Ok

variable {cfg : ℕ → Res.Config} {base : ℕ → Res.Kind → ℤ} {s s' : State α} {i : ℕ}
  {res : Option ℕ} {k : Res.Kind} {c c' : Chan α} {n : ℤ}

/-! ## Calls of the accountant -/

/-- `n` units of kind `k` for accountant `r`, if it is the one that is charged. -/
def amount (res : Option ℕ) (k : Res.Kind) (n : ℤ) (r : ℕ) (k' : Res.Kind) : ℤ :=
  if res = some r ∧ k' = k then n else 0

theorem acquire_eq_some (hs' : s.acquire cfg res k n = some s')
    (hle : ∀ r k, s.used r k ≤ int64Max) (hmax : n ≤ int64Max) :
    s'.chans = s.chans ∧ (∀ r k', s'.used r k' = s.used r k' + amount res k n r k') ∧
      ∀ r k', s'.used r k' ≤ int64Max := by
  unfold acquire at hs'
  split at hs'
  · cases hs'
    refine ⟨rfl, fun r k' => ?_, hle⟩
    simp [amount]
  · rename_i r₀
    obtain ⟨u, hu, rfl⟩ := map_eq_some_iff.mp hs'
    unfold Res.Config.acquire at hu
    split at hu
    · cases hu
    · split at hu
      · cases hu
      · cases hu
        have hused : ∀ r k', Function.update s.used r₀
            (Function.update (s.used r₀) k (s.used r₀ k + n)) r k' =
              s.used r k' + amount (some r₀) k n r k' := by
          intro r k'
          unfold amount
          by_cases hr : r = r₀
          · subst hr
            by_cases hk : k' = k
            · subst hk
              simp
            · simp [hk]
          · simp [hr, Ne.symm hr]
        refine ⟨rfl, hused, fun r k' => ?_⟩
        change Function.update s.used r₀ _ r k' ≤ int64Max
        rw [hused]
        unfold amount
        split
        · rename_i heq
          obtain ⟨hr, rfl⟩ := heq
          cases hr
          omega
        · rw [Int.add_zero]
          exact hle r k'

theorem release_eq (hn : 0 ≤ n) (hused : ∀ r, res = some r → n ≤ s.used r k) :
    (s.release res k n).chans = s.chans ∧
      ∀ r k', (s.release res k n).used r k' = s.used r k' - amount res k n r k' := by
  unfold release
  split
  · refine ⟨rfl, fun r k' => ?_⟩
    simp [amount]
  · rename_i r₀
    refine ⟨rfl, fun r k' => ?_⟩
    have hle := hused r₀ rfl
    have hrelease : Res.release (s.used r₀) k n k' = s.used r₀ k' - if k' = k then n else 0 := by
      unfold Res.release
      by_cases hk : k' = k
      · subst hk
        split
        · simp
          omega
        · simp
          omega
      · split <;> simp [hk]
    by_cases hr : r = r₀
    · subst hr
      simp [hrelease, amount]
    · simp [hr, Ne.symm hr, amount]

/-! ## Changes of one channel -/

/-- What a channel holds moves with the number of its messages. -/
theorem units_eq_add (hres : c'.res = c.res) (r : ℕ) (k : Res.Kind) :
    (c'.units r k : ℤ) = c.units r k + amount c.res .chanSlots (c'.held - c.held) r k := by
  unfold Chan.units amount
  rw [hres]
  by_cases hr : c.res = some r
  · cases k
    case chanSlots =>
      rw [if_pos hr, if_pos hr, if_pos ⟨hr, rfl⟩]
      change (c'.held : ℤ) = c.held + (c'.held - c.held)
      omega
    all_goals simp
  · simp [hr]

section

variable (h : Balanced base s)
include h

/-- One place changes, and the counters with it. -/
theorem Balanced.swap {x y : Option (Chan α)} (hx : s.chans[i]? = some x)
    (hchans : s'.chans = s.chans.set i y)
    (hused : ∀ r k, s'.used r k + units r k x = s.used r k + units r k y)
    (hle : ∀ r k, s'.used r k ≤ int64Max) (hok : ∀ c, y = some c → c.Ok) : Balanced base s' := by
  refine ⟨fun r k => ?_, hle, ?_⟩
  · have hsum : s'.held r k + units r k x = s.held r k + units r k y := by
      unfold held
      rw [hchans]
      exact sum_map_set_add hx
    have hbase := h.used r k
    have hnew := hused r k
    omega
  · intro c hc
    rw [hchans] at hc
    rcases mem_or_eq_of_mem_set hc with hc | hc
    · exact h.ok c hc
    · exact hok c hc.symm

section

variable (hc : s.chans[i]? = some (some c))
include hc

/-- A channel changes with the number of its messages. -/
theorem Balanced.change (hres : c'.res = c.res) (hok : c'.Ok)
    (hchans : s'.chans = s.chans.set i (some c'))
    (hused : ∀ r k, s'.used r k = s.used r k + amount c.res .chanSlots (c'.held - c.held) r k)
    (hle : ∀ r k, s'.used r k ≤ int64Max) : Balanced base s' := by
  refine h.swap hc hchans (fun r k => ?_) hle ?_
  · have hunits := units_eq_add hres r k
    have hnew := hused r k
    change s'.used r k + (c.units r k : ℤ) = s.used r k + (c'.units r k : ℤ)
    omega
  · intro c₁ hc₁
    rw [← some.inj hc₁]
    exact hok

/-- A change that keeps the messages. -/
theorem Balanced.put (hres : c'.res = c.res) (hheld : c'.held = c.held) (hok : c'.Ok) :
    Balanced base (s.put i c') := by
  refine h.change hc hres hok rfl (fun r k => ?_) h.le
  rw [hheld, Int.sub_self]
  simp [amount, State.put]

/-- A message goes in, after its slot has been charged. -/
theorem Balanced.push (hs' : s.acquire cfg c.res .chanSlots 1 = some s') (hres : c'.res = c.res)
    (hheld : c'.held = c.held + 1) (hok : c'.Ok) : Balanced base (s'.put i c') := by
  obtain ⟨hchans, hused, hle⟩ := acquire_eq_some hs' h.le (by decide)
  refine h.change hc hres hok ?_ (fun r k => ?_) hle
  · change s'.chans.set i _ = _
    rw [hchans]
  · have hone : (c'.held : ℤ) - c.held = 1 := by omega
    rw [hone]
    exact hused r k

end

section

variable (hbase : ∀ r k, 0 ≤ base r k)
include hbase

/-- A charge that is given back. -/
theorem Balanced.refund (hs' : s.acquire cfg res k 1 = some s') :
    Balanced base (s'.release res k 1) := by
  obtain ⟨hchans, hused, hle⟩ := acquire_eq_some hs' h.le (by decide)
  have hone : ∀ r, res = some r → 1 ≤ s'.used r k := by
    rintro r rfl
    have hpos := hbase r k
    rw [hused, h.used, amount, if_pos ⟨rfl, rfl⟩]
    omega
  obtain ⟨hchans', hused'⟩ := release_eq (by decide : (0 : ℤ) ≤ 1) hone
  have hsame : ∀ r k', (s'.release res k 1).used r k' = s.used r k' := by
    intro r k'
    rw [hused', hused, Int.add_sub_cancel]
  refine ⟨fun r k' => ?_, fun r k' => ?_, ?_⟩
  · rw [hsame, h.used]
    unfold held
    rw [hchans', hchans]
  · rw [hsame]
    exact h.le r k'
  · rw [hchans', hchans]
    exact h.ok

section

variable (hc : s.chans[i]? = some (some c))
include hc

/-- A channel holds no more than the counters say. -/
theorem Balanced.units_le (r : ℕ) (k : Res.Kind) : (c.units r k : ℤ) ≤ s.used r k := by
  have hle : units r k (some c) ≤ s.held r k := le_sum_map (mem_of_getElem? hc)
  have hused := h.used r k
  have hpos := hbase r k
  change c.units r k ≤ s.held r k at hle
  omega

theorem Balanced.held_le (r : ℕ) (hr : c.res = some r) : (c.held : ℤ) ≤ s.used r .chanSlots := by
  have hle := h.units_le hbase hc r .chanSlots
  rw [Chan.units, if_pos hr] at hle
  exact hle

/-- A message comes out, and its slot is given back. -/
theorem Balanced.pop (hres : c'.res = c.res) (hheld : c'.held + 1 = c.held) (hok : c'.Ok) :
    Balanced base ((s.put i c').release c.res .chanSlots 1) := by
  have hone : ∀ r, c.res = some r → 1 ≤ (s.put i c').used r .chanSlots := by
    intro r hr
    have hle := h.held_le hbase hc r hr
    change 1 ≤ s.used r .chanSlots
    omega
  obtain ⟨hchans, hused⟩ := release_eq (by decide : (0 : ℤ) ≤ 1) hone
  have hminus : ∀ r k, amount c.res .chanSlots (c'.held - c.held) r k =
      -amount c.res .chanSlots 1 r k := by
    intro r k
    unfold amount
    split <;> omega
  refine h.change hc hres hok hchans (fun r k => ?_) (fun r k => ?_)
  · rw [hused, hminus]
    rfl
  · rw [hused]
    have hle := h.le r k
    change s.used r k - _ ≤ _
    unfold amount
    split <;> omega

/-- A channel is destroyed, after what it held of the slots has been given back. -/
theorem Balanced.destroyWith :
    Balanced base ((s.release c.res .chanSlots c.held).destroyWith i c.res) := by
  obtain ⟨hchans, hused⟩ := release_eq (Int.natCast_nonneg c.held) (h.held_le hbase hc)
  have hone : ∀ r, c.res = some r → 1 ≤ State.used { s.release c.res .chanSlots c.held with
        chans := (s.release c.res .chanSlots c.held).chans.set i none } r .channels := by
    intro r hr
    have hle := h.units_le hbase hc r .channels
    rw [Chan.units, if_pos hr] at hle
    rw [hused]
    simpa [amount] using hle
  obtain ⟨hchans', hused'⟩ := release_eq (by decide : (0 : ℤ) ≤ 1) hone
  refine h.swap (y := none) hc ?_ (fun r k => ?_) (fun r k => ?_) ?_
  · rw [State.destroyWith, hchans', hchans]
  · rw [State.destroyWith, hused']
    rw [hused]
    unfold amount units
    simp only [map_some, Chan.units]
    by_cases hr : c.res = some r
    · cases k <;> simp [hr]
    · simp [hr]
  · rw [State.destroyWith, hused']
    rw [hused]
    have hle := h.le r k
    unfold amount
    split <;> split <;> omega
  · intro c' hc'
    cases hc'

end

/-! ## The calls -/

theorem Balanced.createWith {allocs granted : ℕ} (hheld : c.held = 0) (hok : c.Ok) :
    Balanced base (s.createWith cfg c.res allocs granted c).1 := by
  unfold State.createWith
  split
  · exact h
  · rename_i s' hs'
    split
    · exact h.refund hbase hs'
    · obtain ⟨hchans, hused, hle⟩ := acquire_eq_some hs' h.le (by decide)
      refine ⟨fun r k => ?_, hle, ?_⟩
      · have hunits : (c.units r k : ℤ) = amount c.res .channels 1 r k := by
          unfold Chan.units amount
          by_cases hr : c.res = some r
          · cases k <;> simp [hr, hheld]
          · simp [hr]
        have hsum : held { s' with chans := s'.chans ++ [some c] } r k =
            s.held r k + c.units r k := by
          unfold held
          rw [hchans, map_append, sum_append]
          rfl
        rw [hsum]
        rw [hused, h.used]
        omega
      · intro c₁ hc₁
        rcases mem_append.mp hc₁ with hc₁ | hc₁
        · rw [hchans] at hc₁
          exact h.ok c₁ hc₁
        · rw [some.inj (mem_singleton.mp hc₁)]
          exact hok

end

end

/-- The capacity stays within the range of the counters when it is rounded up. -/
theorem roundUp_le {capacity : ℕ} (hcapacity : capacity ≤ 2 ^ 63) (fuel e : ℕ) (he : e ≤ 63) :
    roundUp capacity fuel (2 ^ e) ≤ 2 ^ 63 := by
  induction fuel generalizing e with
  | zero => exact Nat.pow_le_pow_right (by decide) he
  | succ fuel ih =>
    unfold roundUp
    split
    · rename_i hlt
      have hlt' : e < 63 := (Nat.pow_lt_pow_iff_right (by decide)).mp (hlt.trans_le hcapacity)
      rw [Nat.shiftLeft_eq, Nat.pow_one, ← Nat.pow_succ]
      exact ih (e + 1) hlt'
    · exact Nat.pow_le_pow_right (by decide) he

theorem Mpsc.len_send {c : Mpsc α} (hcap : c.cap ≤ 2 ^ 63) (hroom : c.len < c.cap) :
    (c.head + 1 - c.tail).toNat = c.len + 1 := by
  unfold Mpsc.len at *
  simp only [UInt64.toNat_sub, UInt64.toNat_add, UInt64.toNat_one] at hroom ⊢
  omega

theorem Mpsc.len_recv {c : Mpsc α} (hlt : c.tail < c.head) :
    (c.head - (c.tail + 1)).toNat + 1 = c.len := by
  have hhead := c.head.toNat_lt
  rw [UInt64.lt_iff_toNat_lt] at hlt
  unfold Mpsc.len
  rw [UInt64.toNat_sub, UInt64.toNat_sub, UInt64.toNat_add, UInt64.toNat_one]
  omega

theorem Balanced.send {msg : Option α} (h : Balanced base s) (hbase : ∀ r k, 0 ≤ base r k)
    (hc : s.chans[i]? = some (some c)) : Balanced base (s.send cfg i msg c).1 := by
  have hok := h.ok c (mem_of_getElem? hc)
  cases c with
  | oneshot c =>
    unfold send oneshotSend
    dsimp only
    split
    · exact h
    · exact h.put hc rfl rfl trivial
  | mpsc c =>
    unfold send mpscTrySend
    dsimp only
    split
    · exact h
    · split
      · exact h
      · split
        · exact h
        · rename_i s' hs'
          split
          · exact h.refund hbase hs'
          · rename_i hroom
            exact h.push hc hs' rfl (Mpsc.len_send hok (Nat.lt_of_not_le hroom)) hok
  | watch c | broadcast c => exact h.put hc rfl rfl trivial
  | mpmc c =>
    unfold send mpmcTrySend
    dsimp only
    split
    · exact h
    · split
      · exact h
      · rename_i s' hs'
        split
        · exact h.refund hbase hs'
        · split
          · exact h.refund hbase hs'
          · exact h.push hc hs' rfl rfl trivial
  | demand c =>
    unfold send demandSend
    dsimp only
    split
    · exact h
    · split
      · exact h
      · split
        · exact h
        · rename_i s' hs'
          exact h.push hc hs' rfl rfl trivial

theorem Balanced.recv {r : ℕ} {out : State α × Except Rc (Option α)} (h : Balanced base s)
    (hbase : ∀ r k, 0 ≤ base r k) (hc : s.chans[i]? = some (some c))
    (hout : s.recv i r c = some out) : Balanced base out.1 := by
  have hok := h.ok c (mem_of_getElem? hc)
  cases c with
  | oneshot c =>
    cases hout
    unfold oneshotTryRecv
    split <;> exact h
  | mpsc c =>
    cases hout
    unfold mpscTryRecv
    split
    · exact h
    · rename_i hlt
      split
      · exact h
      · exact h.pop hbase hc rfl (Mpsc.len_recv (UInt64.not_le.mp hlt)) hok
  | watch c =>
    cases hout
    unfold watchRecv
    split <;> exact h
  | mpmc c =>
    cases hout
    unfold mpmcTryRecv
    split
    · rename_i hpos
      exact h.pop hbase hc rfl (Nat.sub_add_cancel hpos) trivial
    · exact h
  | broadcast c =>
    obtain ⟨out', hout', rfl⟩ := map_eq_some_iff.mp hout
    unfold broadcastRecv at hout'
    split at hout'
    · split at hout'
      · cases hout'
        exact h
      · cases hout'
        exact h.put hc rfl rfl trivial
    · cases hout'
  | demand c =>
    cases hout
    unfold demandTryRecv
    split
    · exact h
    · rename_i hpos
      exact h.pop hbase hc rfl (Nat.sub_add_cancel (Nat.pos_of_ne_zero hpos)) trivial

theorem release_zero (s : State α) (res : Option ℕ) (k : Res.Kind) : s.release res k 0 = s := by
  unfold release Res.release
  split
  · rfl
  · simp

section

variable (h : Balanced base s) (hbase : ∀ r k, 0 ≤ base r k) (hc : s.chans[i]? = some (some c))
include h hbase hc

/-- The number of messages inside is an `int64_t`, since their slots are charged. -/
theorem Balanced.release_wrap :
    s.release c.res .chanSlots (wrapInt64 c.held) = s.release c.res .chanSlots c.held := by
  have hheld := h.held_le hbase hc
  unfold release
  split
  · rfl
  · rename_i r hr
    have hle := h.le r .chanSlots
    have hfits : FitsInt64 c.held := by
      have hused := hheld r hr
      unfold FitsInt64
      omega
    rw [wrapInt64_of_fits hfits]

theorem Balanced.destroyEmpty (hheld : c.held = 0) : Balanced base (s.destroyWith i c.res) := by
  have hdest := h.destroyWith hbase hc
  rw [hheld] at hdest
  rw [← release_zero s c.res .chanSlots]
  exact hdest

theorem Balanced.destroyBounded :
    Balanced base ((s.release c.res .chanSlots (wrapInt64 c.held)).destroyWith i c.res) := by
  rw [h.release_wrap hbase hc]
  exact h.destroyWith hbase hc

end

/-- A demand channel that is charged is destroyed only when it is empty. -/
def State.drained (s : State α) : Act α → Bool
  | .destroy i =>
    match s.chans[i]?.join with
    | some (.demand c) => c.res = none ∨ c.n = 0
    | _ => true
  | _ => true

theorem Balanced.destroy (h : Balanced base s) (hbase : ∀ r k, 0 ≤ base r k)
    (hc : s.chans[i]? = some (some c)) (hdrained : s.drained (.destroy i) = true) :
    Balanced base (s.destroy i c) := by
  cases c with
  | oneshot c | watch c | broadcast c => exact h.destroyEmpty hbase hc rfl
  | mpsc c | mpmc c => exact h.destroyBounded hbase hc
  | demand c =>
    unfold drained at hdrained
    dsimp only at hdrained
    rw [hc] at hdrained
    rcases of_decide_eq_true hdrained with hres | hempty
    · -- nothing is charged
      have hdest := h.destroyWith hbase hc
      have hnone : (Chan.demand c).res = none := hres
      rw [hnone] at hdest
      change Balanced base (s.destroyWith i c.res)
      rw [hres]
      exact hdest
    · exact h.destroyEmpty hbase hc hempty

theorem Balanced.act {a : Act α} (h : Balanced base s) (hbase : ∀ r k, 0 ≤ base r k)
    (hdrained : s.drained a = true) (hs' : s.act cfg a = some s') : Balanced base s' := by
  cases a with
  | oneshotCreate res granted =>
    cases hs'
    exact h.createWith (c := .oneshot ⟨res, false, none⟩) hbase rfl trivial
  | mpscCreate res capacity granted =>
    cases hs'
    unfold mpscCreate
    split
    · exact h
    · split
      · exact h
      · rename_i hrange
        have hempty : (0 - 0 : UInt64).toNat = 0 := rfl
        refine h.createWith (c := .mpsc ⟨res, _, _, 0, 0, false⟩) hbase hempty ?_
        exact roundUp_le (Nat.le_of_not_lt hrange) 64 0 (Nat.zero_le _)
  | watchCreate res granted =>
    cases hs'
    exact h.createWith (c := .watch ⟨res, none, false⟩) hbase rfl trivial
  | mpmcCreate res capacity granted =>
    cases hs'
    unfold mpmcCreate
    split
    · exact h
    · exact h.createWith (c := .mpmc ⟨res, capacity, _, 0, 0, 0, false⟩) hbase rfl trivial
  | broadcastCreate res capacity granted =>
    cases hs'
    unfold broadcastCreate
    split
    · exact h
    · exact h.createWith (c := .broadcast ⟨res, capacity, _, 0, []⟩) hbase rfl trivial
  | demandCreate res capacity granted =>
    cases hs'
    unfold demandCreate
    split
    · exact h
    · exact h.createWith (c := .demand ⟨res, capacity, _, 0, 0, 0, 0, false⟩) hbase rfl trivial
  | send i msg =>
    obtain ⟨c, hc, rfl⟩ := map_eq_some_iff.mp hs'
    exact h.send hbase (join_eq_some_iff.mp hc)
  | recv i r =>
    obtain ⟨c, hc, hout⟩ := bind_eq_some_iff.mp hs'
    obtain ⟨out, hrecv, rfl⟩ := map_eq_some_iff.mp hout
    exact h.recv hbase (join_eq_some_iff.mp hc) hrecv
  | ask i n =>
    obtain ⟨c, hc, hask⟩ := bind_eq_some_iff.mp hs'
    have hc := join_eq_some_iff.mp hc
    split at hask <;> cases hask
    unfold demandAsk
    split
    · exact h
    · split
      · exact h
      · exact h.put hc rfl rfl trivial
  | subscribe i granted =>
    obtain ⟨c, hc, hsubscribe⟩ := bind_eq_some_iff.mp hs'
    have hc := join_eq_some_iff.mp hc
    split at hsubscribe <;> cases hsubscribe
    unfold broadcastSubscribe
    split
    · exact h.put hc rfl rfl trivial
    · exact h
  | unsubscribe i r =>
    obtain ⟨c, hc, hunsubscribe⟩ := bind_eq_some_iff.mp hs'
    have hc := join_eq_some_iff.mp hc
    split at hunsubscribe <;> cases hunsubscribe
    exact h.put hc rfl rfl trivial
  | close i =>
    obtain ⟨c, hc, hclose⟩ := bind_eq_some_iff.mp hs'
    have hc := join_eq_some_iff.mp hc
    have hok := h.ok c (mem_of_getElem? hc)
    unfold close at hclose
    split at hclose <;> cases hclose
    all_goals exact h.put hc rfl rfl hok
  | destroy i =>
    obtain ⟨c, hc, rfl⟩ := map_eq_some_iff.mp hs'
    exact h.destroy hbase (join_eq_some_iff.mp hc) hdrained

/-- When all channels have been destroyed, the amounts in use are those from before the first was
created: for every sequence of calls in which no demand channel with messages inside is
destroyed. -/
theorem channels_conserve_resources (hbase : ∀ r k, 0 ≤ base r k ∧ base r k ≤ int64Max)
    (hs : (system cfg base).ReachableUnder (fun s a => s.drained a = true) s)
    (hgone : ∀ c ∈ s.chans, c = none) (r : ℕ) :
    s.used r .channels = base r .channels ∧ s.used r .chanSlots = base r .chanSlots := by
  have h : Balanced base s := by
    refine hs.invariant ?_ ?_
    · rintro s rfl
      refine ⟨fun r k => ?_, fun r k => (hbase r k).2, ?_⟩
      · exact (Int.add_zero _).symm
      · intro c hc
        cases hc
    · intro s a s' h hdrained hs'
      exact h.act (fun r k => (hbase r k).1) hdrained hs'
  have hheld : ∀ k, s.held r k = 0 := by
    intro k
    refine Nat.eq_zero_of_not_pos fun hpos => ?_
    obtain ⟨c, hc, hunits⟩ := exists_pos_of_sum_map_pos hpos
    rw [hgone c hc] at hunits
    exact Nat.lt_irrefl 0 hunits
  have hused : ∀ k, s.used r k = base r k := by
    intro k
    rw [h.used, hheld]
    exact Int.add_zero _
  exact ⟨hused .channels, hused .chanSlots⟩

/-- No caps. -/
def unlimited : Res.Config :=
  let none : Signed64 := ⟨0, by decide, by decide⟩
  ⟨⟨none, none, none, none, none, none⟩, false, fun _ => .none⟩

/-- A create that is refused, messages left behind in two channels, and a demand channel that is
emptied first. -/
theorem channels_conserve_resources_mixed :
    ∃ s : State ℕ, (system (fun _ => unlimited) fun _ _ => 5).ReachableUnder
        (fun s a => s.drained a = true) s ∧ s.chans.length = 3 ∧
      s.used 0 .channels = 5 ∧ s.used 0 .chanSlots = 5 := by
  obtain ⟨s, hs, ⟨hlength, -⟩, hconserved⟩ := System.exists_reachable
    (M := system (fun _ => unlimited) fun _ _ => 5)
    [.broadcastCreate (some 0) 4 1, .mpscCreate (some 0) 3 2, .mpmcCreate (some 0) 1 2,
      .demandCreate (some 0) 2 2, .send 0 (some 1), .send 0 (some 2), .recv 0 0, .send 1 (some 3),
      .send 1 (some 4), .ask 2 1, .send 2 (some 5), .recv 2 0, .close 0, .send 0 (some 6),
      .destroy 0, .destroy 1, .destroy 2]
    rfl (P := fun s => s.chans.length = 3 ∧ ∀ c ∈ s.chans, c = none) (by decide)
    fun s hs h => channels_conserve_resources (fun _ _ => by decide) hs h.2 0
  exact ⟨s, hs, hlength, hconserved⟩

/-- A message is left in a demand channel when it is destroyed, and its slot stays charged. -/
theorem demand_destroy_keeps_slot :
    ∃ s ∈ (system (fun _ => unlimited) fun _ _ => 0).run (create (α := ℕ) fun _ _ => 0)
      [.demandCreate (some 0) 1 2, .ask 0 1, .send 0 (some 7), .destroy 0],
      (∀ c ∈ s.chans, c = none) ∧ s.used 0 .channels = 0 ∧ s.used 0 .chanSlots = 1 := by
  decide

end LibXtc.Channels

import LibXtc.Sync.AMutex

/-!
# One holder, and no stranded waiter

Between two critical sections the counters of the mutex count its callers, and at most one caller
holds the mutex or was granted it. A free mutex with waiters is attended: the fiber at the head of
the queue was woken or, if no fiber is queued, some thread is on its way to test the mutex.
-/

namespace LibXtc.AMutex

open Foundations Bool State List Sync Option

/-- The caller has locked the mutex. -/
def holding (c : Ctx) : Bool := 0 < c.holds

/-- The mutex was handed to the caller, which has not run yet. -/
def handed (c : Ctx) : Bool := c.granted.isSome

/-- The caller sleeps on the condition variable. -/
def sleeps (c : Ctx) : Bool := c.sleeping.isSome

/-- The callers that hold the mutex or were handed it. -/
def owners (cs : List Ctx) : ℕ := cs.countP holding + cs.countP handed

/-- The counters of the mutex count its callers, and the queue lists waiting fibers. There are `n`
owners. -/
structure Tally (s : State) (n : ℕ) : Prop where
  owners : owners s.ctxs = n
  spinners : s.ctxs.countP Ctx.spinning = s.spinners
  sleepers : s.ctxs.countP sleeps = s.cvWaiters
  queued : Queued s.wq s.ctxs

/-- The owner of a recursive mutex and its depth. -/
def Nested (s : State) : Prop :=
  ∀ i c, s.ctxs[i]? = some c → (s.recursive = true →
      (0 < c.holds ↔ s.owner = some i) ∧ (0 < c.holds → s.count = c.holds)) ∧
    (s.recursive = false → c.holds ≤ 1)

/-- A waiter of the free mutex will find it free. -/
structure Attended (s : State) : Prop where
  head : ∀ i, s.wq.head? = some i → ∃ c, s.ctxs[i]? = some c ∧ c.woken = true
  threads : s.wq.head? = none → ∀ c ∈ s.ctxs, sleeps c = true → ∃ d ∈ s.ctxs, d.coming.isSome

/-- What holds between two critical sections. -/
structure Ok (s : State) : Prop where
  tally : Tally s s.held.toNat
  nested : Nested s
  attended : s.held = false → Attended s

theorem Ok.ofFree {s : State} (h : Tally s 0) (hnested : Nested s) (hheld : s.held = false)
    (hattended : Attended s) : Ok s :=
  ⟨by rw [hheld]; exact h, hnested, fun _ => hattended⟩

theorem Ok.ofHeld {s : State} (h : Tally s 1) (hnested : Nested s) (hheld : s.held = true) : Ok s :=
  ⟨by rw [hheld]; exact h, hnested, fun hfree => absurd (hheld.symm.trans hfree) nofun⟩

/-! ## One caller changes -/

/-- The counters leave out caller `i`, which is `c` and in the middle of its step. There are `n`
owners besides it. -/
structure Others (s : State) (i : ℕ) (c : Ctx) (n : ℕ) : Prop where
  get : s.ctxs[i]? = some c
  owners : owners s.ctxs = n + (holding c).toNat + (handed c).toNat
  spinners : s.ctxs.countP Ctx.spinning = s.spinners + c.spinning.toNat
  sleepers : s.ctxs.countP sleeps = s.cvWaiters + (sleeps c).toNat
  queued : Queued s.wq s.ctxs

variable {s s' : State} {i p n j m lost cap : ℕ} {c c' d : Ctx} {w w' : Waiter}
  {checks timed expired : Bool} {phase : Phase Unit}

theorem owners_set {cs : List Ctx} (hc : cs[i]? = some c) :
    owners (cs.set i d) + (holding c).toNat + (handed c).toNat =
      owners cs + (holding d).toNat + (handed d).toNat := by
  have hh := countP_set_add (p := holding) (b := d) hc
  have hg := countP_set_add (p := handed) (b := d) hc
  rw [owners, owners]
  omega

/-- The caller is back: it is `c'` now. -/
theorem Others.put (h : Others s i c n) (hqueue : Queued s'.wq s'.ctxs)
    (hctxs : s'.ctxs = s.ctxs.set i c') (hm : m = n + (holding c').toNat + (handed c').toNat)
    (hspin : s'.spinners = s.spinners + c'.spinning.toNat := by rfl)
    (hsleep : s'.cvWaiters = s.cvWaiters + (sleeps c').toNat := by rfl) : Tally s' m := by
  have howners := owners_set (d := c') h.get
  have hspinners := countP_set_add (p := Ctx.spinning) (b := c') h.get
  have hsleepers := countP_set_add (p := sleeps) (b := c') h.get
  have h1 := h.owners
  have h2 := h.spinners
  have h3 := h.sleepers
  refine ⟨?_, ?_, ?_, hqueue⟩
  · rw [hctxs]
    omega
  · rw [hctxs]
    omega
  · rw [hctxs]
    omega

/-- A step begins: its caller is neither spinning nor asleep. -/
theorem Tally.others (h : Tally s n) (hc : s.ctxs[i]? = some c) (hspin : c.spinning = false)
    (hsleep : sleeps c = false) (hm : n = m + (holding c).toNat + (handed c).toNat) :
    Others s i c m where
  get := hc
  owners := h.owners.trans hm
  spinners := by rw [h.spinners, hspin]; rfl
  sleepers := by rw [h.sleepers, hsleep]; rfl
  queued := h.queued

/-- A step begins whose caller was not handed the mutex. The caller is no longer counted. -/
theorem Tally.exists_others (h : Tally s n) (hc : s.ctxs[i]? = some c)
    (hhanded : handed c = false := by rfl)
    (hspin : s'.spinners = s.spinners - c.spinning.toNat := by rfl)
    (hsleep : s'.cvWaiters = s.cvWaiters - (sleeps c).toNat := by rfl)
    (hctxs : s'.ctxs = s.ctxs := by rfl) (hwq : s'.wq = s.wq := by rfl) :
    ∃ m, Others s' i c m ∧ n = m + (holding c).toNat := by
  have hle (q : Ctx → Bool) : (q c).toNat ≤ s.ctxs.countP q := by
    cases hb : q c with
    | false => exact Nat.zero_le _
    | true => exact one_le_countP_iff.mpr ⟨c, mem_of_getElem? hc, hb⟩
  have hn : n - (holding c).toNat + (holding c).toNat = n :=
    Nat.sub_add_cancel (Nat.le_trans (hle holding) (Nat.le_of_add_right_le (Nat.le_of_eq h.owners)))
  refine ⟨n - (holding c).toNat, ⟨hctxs ▸ hc, ?_, ?_, ?_, ?_⟩, hn.symm⟩
  · rw [hctxs, h.owners, hhanded]
    exact hn.symm
  · rw [hctxs, hspin, ← h.spinners]
    exact (Nat.sub_add_cancel (hle _)).symm
  · rw [hctxs, hsleep, ← h.sleepers]
    exact (Nat.sub_add_cancel (hle _)).symm
  · rw [hctxs, hwq]
    exact h.queued

theorem Nested.put (h : Nested s) (hc : s.ctxs[i]? = some c) (hholds : c'.holds = c.holds) :
    Nested (s.put i c') := by
  intro j d hd
  rcases getElem?_set_cases hd with ⟨rfl, rfl⟩ | ⟨hij, hd⟩
  · rw [hholds]
    exact h i c hc
  · exact h j d hd

/-- What may happen to a caller from outside: nothing that the mutex keeps track of changes. -/
structure Alike (c c' : Ctx) : Prop where
  holds : c'.holds = c.holds
  handed : handed c' = handed c
  spinning : c'.spinning = c.spinning
  sleeps : sleeps c' = sleeps c
  waiting : c'.waiting = c.waiting

theorem Tally.alike (h : Tally s n) (hc : s.ctxs[i]? = some c) (ha : Alike c c') :
    Tally (s.put i c') n := by
  have hholding : holding c' = holding c := by rw [holding, ha.holds]; rfl
  have howners := owners_set (d := c') hc
  have hspinners := countP_set_add (p := Ctx.spinning) (b := c') hc
  have hsleepers := countP_set_add (p := sleeps) (b := c') hc
  rw [hholding, ha.handed, h.owners] at howners
  rw [ha.spinning, h.spinners] at hspinners
  rw [ha.sleeps, h.sleepers] at hsleepers
  refine ⟨by change AMutex.owners (s.ctxs.set i c') = n; omega, Nat.add_right_cancel hspinners,
    Nat.add_right_cancel hsleepers, h.queued.set hc fun hi => ?_⟩
  rw [ha.waiting]
  exact h.queued.waiting_of_mem hc hi

theorem Alike.wake : Alike c c.wake := by
  rcases c with ⟨_, _, _, phase, _⟩
  cases phase <;> exact ⟨rfl, rfl, rfl, rfl, rfl⟩

theorem Alike.signal : Alike c c.signal := by
  rcases c with ⟨_, _, _, phase, _⟩
  cases phase <;> exact ⟨rfl, rfl, rfl, rfl, rfl⟩

/-- A waiting fiber neither spins nor sleeps, and a grant hands it the mutex. -/
theorem grant_of_waiting (h : c.waiting.isSome) :
    (c.spinning = false ∧ c.grant.spinning = false) ∧ (sleeps c = false ∧ sleeps c.grant = false) ∧
      c.grant.holds = c.holds ∧ handed c.grant = true := by
  rcases c with ⟨_, _, _, phase, _⟩
  cases phase <;> first | exact ⟨⟨rfl, rfl⟩, ⟨rfl, rfl⟩, rfl, rfl⟩ | cases h

theorem coming_signal (h : sleeps c = true) : c.signal.coming.isSome := by
  rcases c with ⟨_, _, _, phase, _⟩
  cases phase <;> first | rfl | cases h

theorem coming_of_spinning (h : c.spinning = true) : c.coming.isSome := by
  rcases c with ⟨_, _, _, phase, _⟩
  cases phase <;> first | rfl | cases h

theorem coming_of_signalled (h : sleeps c = true) (hs : c.sleepsOn (fun _ => true) = false) :
    c.coming.isSome := by
  rcases c with ⟨_, _, _, phase, _⟩
  cases phase with
  | asleep want timed signalled => cases signalled <;> first | rfl | cases hs
  | _ => cases h

/-! ## Wakes and releases -/

/-- Two callers do not own the mutex at the same time. -/
theorem Tally.owner_unique (h : Tally s n) (hn : n ≤ 1) (hc : s.ctxs[i]? = some c)
    (hd : s.ctxs[j]? = some d) (hown : holding c = true ∨ handed c = true)
    (hown' : holding d = true ∨ handed d = true) : i = j := by
  by_contra hij
  have hsum : s.ctxs.countP holding + s.ctxs.countP handed ≤ 1 :=
    Nat.le_trans (Nat.le_of_eq h.owners) hn
  have hpos {q : Ctx → Bool} {e : Ctx} {k : ℕ} (he : s.ctxs[k]? = some e) (hq : q e = true) :
      1 ≤ s.ctxs.countP q := one_le_countP_iff.mpr ⟨e, mem_of_getElem? he, hq⟩
  have hboth {q : Ctx → Bool} (hq : q c = true) (hq' : q d = true) (hle : s.ctxs.countP q ≤ 1) :
      False := by
    have hfalse := eq_false_of_countP_le (p := q) (by rw [hq]; exact hle) hc hd hij
    rw [hq'] at hfalse
    cases hfalse
  rcases hown with hown | hown <;> rcases hown' with hown' | hown'
  · exact hboth hown hown' (by omega)
  · have h1 := hpos hc hown
    have h2 := hpos hd hown'
    omega
  · have h1 := hpos hc hown
    have h2 := hpos hd hown'
    omega
  · exact hboth hown hown' (by omega)

section

variable (h : Tally s 0)
include h

theorem Tally.holds_eq_zero (hd : d ∈ s.ctxs) : d.holds = 0 := by
  have hcnt : s.ctxs.countP holding = 0 := (Nat.add_eq_zero_iff.mp h.owners).1
  simpa [holding] using countP_eq_zero.mp hcnt d hd

theorem Tally.handed_eq_false (hd : d ∈ s.ctxs) : handed d = false := by
  have hcnt : s.ctxs.countP handed = 0 := (Nat.add_eq_zero_iff.mp h.owners).2
  simpa using countP_eq_zero.mp hcnt d hd

/-- A free mutex without queued fibers has a thread on its way, if one waits. -/
theorem ok_wakeThread (hnested : Nested s) (hheld : s.held = false) (hwq : s.wq = [])
    (hs' : s.wakeThread p = some s') : Ok s' ∧ s'.held = false := by
  have hok {t : State} (htally : Tally t 0) (hnested : Nested t) (hheld : t.held = false)
      (hwq : t.wq = []) (hthreads : ∀ c ∈ t.ctxs, sleeps c = true → ∃ d ∈ t.ctxs, d.coming.isSome) :
      Ok t ∧ t.held = false :=
    ⟨.ofFree htally hnested hheld ⟨fun i hi => absurd (hwq ▸ hi) nofun, fun _ => hthreads⟩, hheld⟩
  rw [wakeThread] at hs'
  split at hs'
  · rename_i hzero
    cases hs'
    refine hok h hnested hheld hwq fun c hc hsleeps => ?_
    exact absurd hsleeps (countP_eq_zero.mp (h.sleepers.trans hzero) c hc)
  · split at hs'
    · rename_i hgate
      cases hs'
      refine hok { h with } hnested hheld hwq fun c _ _ => ?_
      -- The gate is shut by a thread that still spins.
      have hpos : 0 < s.ctxs.countP Ctx.spinning := by rw [h.spinners]; exact hgate.1
      obtain ⟨d, hd, hspin⟩ := countP_pos_iff.mp hpos
      exact ⟨d, hd, coming_of_spinning hspin⟩
    · obtain ⟨cs, hcs, rfl⟩ := map_eq_some_iff.mp hs'
      rcases condSignal_cases hcs with ⟨c, hc, hsleeps, rfl⟩ | ⟨rfl, hnone⟩
      · have htally := h.alike hc .signal
        refine hok { htally with } (hnested.put hc Alike.signal.holds) hheld hwq fun d _ _ => ?_
        exact ⟨c.signal, mem_set_new hc, coming_signal (Ctx.sleeping_of_sleepsOn _ hsleeps)⟩
      · -- Every sleeping thread was signalled before.
        refine hok { h with } hnested hheld hwq fun c hc hsleeps => ?_
        exact ⟨c, hc, coming_of_signalled hsleeps (hnone c hc)⟩

theorem ok_wakeNext (hnested : Nested s) (hheld : s.held = false) (hs' : s.wakeNext p = some s') :
    Ok s' ∧ s'.held = false := by
  rw [wakeNext] at hs'
  split at hs'
  · rename_i j rest hwq
    cases hs'
    obtain ⟨c, hc, hwaits⟩ := h.queued.waiting j (hwq ▸ mem_cons_self)
    rw [modify_eq_set_of_getElem? hc]
    have hhead {i : ℕ} (hi : s.wq.head? = some i) : j = i := by
      rw [hwq] at hi
      exact some.inj hi
    refine ⟨.ofFree (h.alike hc .wake) (hnested.put hc Alike.wake.holds) hheld ⟨fun i hi => ?_, ?_⟩,
      hheld⟩
    · cases hhead hi
      exact ⟨c.wake, getElem?_set_new hc, Ctx.woken_wake hwaits⟩
    · intro hnone
      rw [hwq] at hnone
      cases hnone
  · exact ok_wakeThread h hnested hheld ‹_› hs'

/-- Nobody holds the mutex any more, so its owner may be forgotten. -/
theorem Tally.nested_disown : Nested s.disown := by
  intro j d hd
  rw [disown] at hd ⊢
  split at hd
  · rename_i hrec
    rw [if_pos hrec, h.holds_eq_zero (mem_of_getElem? hd)]
    exact ⟨fun _ => ⟨⟨nofun, nofun⟩, nofun⟩, fun _ => Nat.zero_le 1⟩
  · rename_i hrec
    rw [if_neg hrec, h.holds_eq_zero (mem_of_getElem? hd)]
    exact ⟨fun hrec' => absurd hrec' hrec, fun _ => Nat.zero_le 1⟩

end

theorem Tally.disown (h : Tally s n) : Tally s.disown n := by
  rw [State.disown]
  split
  · exact { h with }
  · exact h

/-- Caller `i` has passed the mutex on: it is free, or another caller was handed it. -/
def Passed (i : ℕ) (s' : State) : Prop :=
  s'.held = false ∨ ∃ j, j ≠ i ∧ ∃ d, s'.ctxs[j]? = some d ∧ handed d = true

theorem ok_release (h : Tally s 0) (hheld : s.held = true) (hi : i ∉ s.wq)
    (hs' : s.release p = some s') : Ok s' ∧ Passed i s' := by
  have hnested := h.nested_disown
  have hdisowned := h.disown
  have hwq' : s.disown.wq = s.wq ∧ s.disown.held = s.held := by
    rw [disown]
    split <;> exact ⟨rfl, rfl⟩
  rw [release] at hs'
  split at hs'
  · rename_i j rest hwq _
    cases hs'
    have hj : j ∈ s.wq := hwq ▸ mem_cons_self
    obtain ⟨c, hc, hwaits⟩ := hdisowned.queued.waiting j (hwq'.1 ▸ hj)
    have hnodup : (j :: rest).Nodup := hwq ▸ h.queued.nodup
    obtain ⟨hspin, hsleep, hholds, hgrant⟩ := grant_of_waiting hwaits
    have hzero : holding c = false := by
      rw [holding, hdisowned.holds_eq_zero (mem_of_getElem? hc)]
      rfl
    have hothers := hdisowned.others hc hspin.1 hsleep.1 (by
      rw [hdisowned.handed_eq_false (mem_of_getElem? hc), hzero]
      rfl)
    rw [modify_eq_set_of_getElem? hc]
    refine ⟨.ofHeld (hothers.put ?_ rfl ?_ ?_ ?_) (hnested.put hc hholds) (hwq'.2.trans hheld),
      .inr ⟨j, fun hji => hi (hji ▸ hj), c.grant, getElem?_set_new hc, hgrant⟩⟩
    · refine (hdisowned.queued.sublist ?_).set_of_not_mem hc (nodup_cons.mp hnodup).1
      rw [hwq'.1, hwq]
      exact sublist_cons_self j rest
    · rw [holding, hholds, hgrant]
      exact congrArg (fun b : Bool => 0 + b.toNat + 1) hzero.symm
    · rw [hspin.2]
      rfl
    · rw [hsleep.2]
      rfl
  · obtain ⟨hok, hfree⟩ := ok_wakeNext (s := { s.disown with held := false })
      { hdisowned with } hnested rfl hs'
    exact ⟨hok, .inl hfree⟩

/-! ## The calls -/

/-- A caller that no other caller competes with acquires the mutex. -/
theorem ok_acquired (h : Others s i c 0) (hheld : s.held = true) (hi : i ∉ s.wq)
    (hholds : c.holds = 0) : Ok (s.acquired i c) := by
  have htally : Tally (s.put i { c with phase := .idle, holds := c.holds + 1 }) 1 :=
    h.put (h.queued.set_of_not_mem h.get hi) rfl (by rw [holding]; rfl)
  have hother {j : ℕ} {d : Ctx} (hij : i ≠ j) (hd : s.ctxs[j]? = some d) : d.holds = 0 := by
    by_contra hpos
    refine hij (htally.owner_unique (Nat.le_refl 1) (getElem?_set_new h.get)
      ((getElem?_set_ne hij).trans hd) (.inl ?_) (.inl ?_))
    · simp [holding]
    · simpa [holding] using Nat.pos_of_ne_zero hpos
  rw [acquired]
  split
  · rename_i hrec
    refine .ofHeld { htally with } ?_ hheld
    intro j d hd
    refine ⟨fun _ => ?_, fun hrec' => absurd (hrec.symm.trans hrec') nofun⟩
    rcases getElem?_set_cases hd with ⟨rfl, rfl⟩ | ⟨hij, hd⟩
    · rw [hholds]
      exact ⟨⟨fun _ => rfl, fun _ => Nat.one_pos⟩, fun _ => rfl⟩
    · rw [hother hij hd]
      exact ⟨⟨nofun, fun heq => absurd (some.inj heq) hij⟩, nofun⟩
  · rename_i hrec
    refine .ofHeld htally (fun j d hd => ⟨fun hrec' => absurd hrec' hrec, fun _ => ?_⟩) hheld
    rcases getElem?_set_cases hd with ⟨rfl, rfl⟩ | ⟨hij, hd⟩
    · exact Nat.le_of_eq (congrArg (· + 1) hholds)
    · rw [hother hij hd]
      exact Nat.zero_le 1

theorem ok_take (h : Others s i c 0) (hi : i ∉ s.wq) (hholds : c.holds = 0) : Ok (s.take i c) :=
  ok_acquired { h with } rfl hi hholds

/-- A caller of a free mutex that is not the awaited head may change as it likes, as long as it does
not fall asleep. -/
theorem Attended.change (h : Attended s) (hc : s.ctxs[i]? = some c)
    (hhead : s.wq.head? = some i → c.woken = true → c'.woken = true)
    (hsleeps : sleeps c' = true → sleeps c = true)
    (hcoming : c.coming.isSome → c'.coming.isSome) : Attended (s.put i c') where
  head j hj := by
    obtain ⟨d, hd, hw⟩ := h.head j hj
    by_cases hij : i = j
    · subst hij
      cases hc.symm.trans hd
      exact ⟨c', getElem?_set_new hc, hhead hj hw⟩
    · exact ⟨d, (getElem?_set_ne hij).trans hd, hw⟩
  threads hnone := exists_mem_set hc (h.threads hnone) hsleeps hcoming

theorem Attended.leaveQueue (h : Attended s) (hi : s.wq.head? ≠ some i) :
    Attended (s.leaveQueue i) where
  head j hj := h.head j ((head?_erase_of_ne hi).symm.trans hj)
  threads hnone := h.threads ((head?_erase_of_ne hi).symm.trans hnone)

/-- The waiter `w` is that of a fiber in the loop of `xtc_amutex_lock`. -/
structure Fiber (c : Ctx) (w : Waiter) : Prop where
  spinning : c.spinning = false
  sleeps : sleeps c = false
  handed : handed c = w.granted
  coming : c.coming = none

theorem Fiber.ofIdle (hph : c.phase = .idle) : Fiber c (.ungranted 0) := by
  rcases c with ⟨_, _, _, _, _⟩
  cases hph
  exact ⟨rfl, rfl, rfl, rfl⟩

theorem Fiber.ofParked (hph : c.phase = .parked () w checks timed) : Fiber c w := by
  rcases c with ⟨_, _, _, _, _⟩
  cases hph
  refine ⟨rfl, rfl, ?_, rfl⟩
  cases hg : w.granted <;> simp [AMutex.handed, Ctx.granted, hg]

theorem Fiber.ofDelivering (hph : c.phase = .delivering () lost timed) :
    Fiber c (.ungranted lost) := by
  rcases c with ⟨_, _, _, _, _⟩
  cases hph
  exact ⟨rfl, rfl, rfl, rfl⟩

/-- The mutex is held for a waiter that was handed it, and for nobody else. -/
theorem Tally.others_of_handed (h : Tally s s.held.toNat) (hc : s.ctxs[i]? = some c)
    (hf : Fiber c w) (hg : w.granted = true) :
    s.held = true ∧ c.holds = 0 ∧ Others s i c 0 ∧ i ∉ s.wq := by
  have hhanded : handed c = true := hf.handed.trans hg
  have hpos : 1 ≤ s.ctxs.countP handed :=
    one_le_countP_iff.mpr ⟨c, mem_of_getElem? hc, hhanded⟩
  have hsum : s.ctxs.countP holding + s.ctxs.countP handed = s.held.toNat := h.owners
  have hle : s.held.toNat ≤ 1 := toNat_le s.held
  have hheld : s.held = true := by
    cases hb : s.held with
    | true => rfl
    | false => rw [hb] at hsum; exact absurd hsum (by simp only [toNat_false]; omega)
  have hzero : holding c = false := by
    have hcnt : s.ctxs.countP holding = 0 := by omega
    simpa using countP_eq_zero.mp hcnt c (mem_of_getElem? hc)
  refine ⟨hheld, by simpa [holding] using hzero, h.others hc hf.spinning hf.sleeps ?_,
    h.queued.not_mem hc (Ctx.waiting_eq_none hhanded)⟩
  rw [hheld, hzero, hhanded]
  rfl

theorem Fiber.exists_others (hf : Fiber c w) (h : Tally s n) (hc : s.ctxs[i]? = some c)
    (hg : w.granted = false) : ∃ m, Others s i c m ∧ n = m + (holding c).toNat :=
  h.exists_others hc (hf.handed.trans hg) (by rw [hf.spinning]; rfl) (by rw [hf.sleeps]; rfl)

/-- A fiber whose waiter is not granted moves to another such place. -/
theorem Tally.move (h : Tally s n) (hc : s.ctxs[i]? = some c) (hf : Fiber c w)
    (hg : w.granted = false) (hf' : Fiber { c with phase := phase } w')
    (hg' : w'.granted = false) (hspin : s'.spinners = s.spinners)
    (hsleep : s'.cvWaiters = s.cvWaiters)
    (hctxs : s'.ctxs = s.ctxs.set i { c with phase := phase }) (hqueue : Queued s'.wq s'.ctxs) :
    Tally s' n := by
  obtain ⟨m, hothers, hn⟩ := hf.exists_others h hc hg
  refine hothers.put hqueue hctxs ?_ ?_ ?_
  · rw [hf'.handed, hg']
    exact hn
  · rw [hf'.spinning]
    exact hspin
  · rw [hf'.sleeps]
    exact hsleep

theorem contend_queued (h : Queued s.wq s.ctxs) (hc : s.ctxs[i]? = some c)
    (hw : c'.waiting.isSome) : Queued (s.contend i lost).wq (s.ctxs.set i c') := by
  rw [contend]
  split
  · exact h.set hc fun _ => hw
  · rename_i hi
    exact h.append_set hc hi hw

/-- Who joins the queue and leaves it at once was never there. -/
theorem contend_left (h : Queued s.wq s.ctxs) (hc : s.ctxs[i]? = some c) :
    Queued ((s.contend i lost).wq.erase i) (s.ctxs.set i c') := by
  rw [contend]
  split
  · exact h.erase_set hc
  · rename_i hi
    rw [erase_append_right _ hi, erase_cons_head, append_nil]
    exact h.set_of_not_mem hc hi

theorem contend_fields (lost : ℕ) :
    (s.contend i lost).spinners = s.spinners ∧ (s.contend i lost).cvWaiters = s.cvWaiters ∧
      (s.contend i lost).ctxs = s.ctxs ∧ (s.contend i lost).held = s.held := by
  rw [contend]
  split <;> exact ⟨rfl, rfl, rfl, rfl⟩

theorem Nested.contend (h : Nested s) : Nested (s.contend i lost) := by
  rw [State.contend]
  split <;> exact h

section

variable (h : Ok s) (hc : s.ctxs[i]? = some c)
include h hc

theorem Ok.held (hpos : 0 < c.holds) : s.held = true := by
  cases hb : s.held with
  | true => rfl
  | false =>
    have htally := h.tally
    rw [hb] at htally
    exact absurd (htally.holds_eq_zero (mem_of_getElem? hc)) (Nat.ne_of_gt hpos)

section

variable (hf : Fiber c w)
include hf

/-- A waiter that was handed the mutex passes it on if it is killed. Otherwise it returns with the
mutex, whether or not its deadline has passed. -/
theorem ok_pass_handed
    (hg : w.granted = true) (hs' : s.pass i c w checks timed expired p = some s') :
    Ok s' ∧ if checks && c.kill then Passed i s'
      else s'.held = true ∧ s'.ctxs[i]? = some { c with phase := .idle, holds := 1 } := by
  obtain ⟨hheld, hholds, hother, hi⟩ := h.tally.others_of_handed hc hf hg
  rw [State.pass] at hs'
  split at hs'
  · rename_i hkill
    rw [if_pos hkill]
    have htally : Tally (({ s with wq := s.wq.erase i } : State).put i
        { c with phase := .delivering () w.lost timed }) 0 :=
      hother.put (h.tally.queued.erase_set hc) rfl (by rw [hholds]; rfl)
    exact ok_release htally hheld (fun hmem => hi (mem_of_mem_erase hmem)) hs'
  · rename_i hkill
    rw [if_neg hkill]
    cases hs'
    refine ⟨ok_acquired hother hheld hi hholds, ?_⟩
    rw [acquired, hholds]
    split <;> exact ⟨hheld, getElem?_set_new hc⟩

/-- A fiber takes the mutex it finds free. -/
theorem ok_take_fiber (hfree : s.held = false) : Ok ((s.leaveQueue i).take i c) := by
  have hzero : Tally s 0 := by
    have := h.tally
    rwa [hfree] at this
  have hmem := mem_of_getElem? hc
  refine ok_take ⟨hc, ?_, ?_, ?_, h.tally.queued.sublist erase_sublist⟩
    h.tally.queued.nodup.not_mem_erase (hzero.holds_eq_zero hmem)
  · rw [holding, hzero.holds_eq_zero hmem, hzero.handed_eq_false hmem]
    exact hzero.owners
  · rw [hf.spinning]
    exact h.tally.spinners
  · rw [hf.sleeps]
    exact h.tally.sleepers

/-- A fiber parks or gives up at a held mutex. -/
theorem ok_contend (hg : w.granted = false) (hheld : s.held = true) {q : List ℕ} {b : Bool}
    (hf' : Fiber { c with phase := phase } w') (hg' : w'.granted = false)
    (hq : Queued q (s.ctxs.set i { c with phase := phase })) :
    Ok (({ s.contend i lost with handoff := b, wq := q } : State).put i
      { c with phase := phase }) := by
  obtain ⟨hspin, hsleep, hctxs, hheld'⟩ := contend_fields lost
  have htally := h.tally
  rw [hheld] at htally
  refine .ofHeld (htally.move hc hf hg hf' hg' hspin hsleep ?_ ?_) ?_ (hheld'.trans hheld)
  · rw [← hctxs]
    rfl
  · change Queued q ((s.contend i lost).ctxs.set i _)
    rw [hctxs]
    exact hq
  · exact Nested.put (c := c) h.nested.contend (hctxs ▸ hc) rfl

/-- A killed waiter leaves the queue. If it was the awaited head, it wakes the next waiter. -/
theorem ok_killed (hg : w.granted = false) (hs' : (if s.wq.head? = some i ∧ s.held = false then
        ((s.leaveQueue i).put i { c with phase := .delivering () lost timed }).wakeNext p
      else some ((s.leaveQueue i).put i { c with phase := .delivering () lost timed })) = some s') :
    Ok s' := by
  have htally : Tally ((s.leaveQueue i).put i { c with phase := .delivering () lost timed })
      s.held.toNat :=
    h.tally.move hc hf hg (.ofDelivering rfl) rfl rfl rfl rfl (h.tally.queued.erase_set hc)
  have hnested : Nested ((s.leaveQueue i).put i { c with phase := .delivering () lost timed }) :=
    Nested.put h.nested hc rfl
  split at hs'
  · rename_i hhead
    rw [hhead.2] at htally
    exact (ok_wakeNext htally hnested hhead.2 hs').1
  · rename_i hhead
    cases hs'
    refine ⟨htally, hnested, fun hfree => ?_⟩
    have hne : s.wq.head? ≠ some i := fun heq => hhead ⟨heq, hfree⟩
    refine ((h.attended hfree).leaveQueue hne).change hc (fun heq => ?_) nofun ?_
    · exact absurd ((head?_erase_of_ne hne).symm.trans heq) hne
    · rw [hf.coming]
      exact nofun

theorem ok_pass (hs' : s.pass i c w checks timed expired p = some s') : Ok s' := by
  cases hg : w.granted with
  | true => exact (ok_pass_handed h hc hf hg hs').1
  | false =>
    have hng : ¬ w.granted = true := by rw [hg]; exact nofun
    rw [State.pass] at hs'
    split at hs'
    · exact ok_killed h hc hf hg hs'
    · split at hs'
      · cases hs'
        exact ok_take_fiber h hc hf ‹_›
      · rename_i hheld
        simp only [not_eq_false] at hheld
        generalize (if s.wq.head? = some i then w.lost + 1 else w.lost) = lost at hs'
        split at hs'
        · cases hs'
          exact ok_contend h hc hf hg hheld (.ofIdle rfl) rfl (contend_left h.tally.queued hc)
        · cases hs'
          exact ok_contend h hc hf hg hheld (.ofParked rfl) rfl
            (contend_queued h.tally.queued hc rfl)

end

end

/-- A caller that owned nothing finds the mutex free. -/
theorem ok_take_free (h : Others s i c n) (hi : i ∉ s.wq)
    (hheld : s.held.toNat = n + (holding c).toNat) (hfree : s.held = false) : Ok (s.take i c) := by
  rw [hfree, toNat_false] at hheld
  have hn : n = 0 := by omega
  have hzero : (holding c).toNat = 0 := by omega
  subst hn
  exact ok_take h hi (by simpa [holding] using hzero)

/-- A thread tests the mutex, and takes it, spins or sleeps. -/
theorem ok_lockThread {spun : Bool} (h : Others s i c n) (hi : i ∉ s.wq)
    (hheld : s.held.toNat = n + (holding c).toNat) (hnested : Nested s) :
    Ok (s.lockThread cap i c timed spun) := by
  rw [lockThread]
  split
  · exact ok_take_free h hi hheld ‹_›
  · rename_i hfree
    simp only [not_eq_false] at hfree
    rw [hfree] at hheld
    split <;> exact .ofHeld (h.put (h.queued.set_of_not_mem h.get hi) rfl (by exact hheld))
      (Nested.put hnested h.get rfl) hfree

theorem waiting_of_idle (hidle : c.phase = .idle) : c.waiting = none := by
  rw [Ctx.waiting, hidle]

section

variable (h : Ok s) (hc : s.ctxs[i]? = some c) (hidle : c.phase = .idle)
include h hc hidle

/-- The owner of a recursive mutex locks it once more, or unlocks it but not for the last time. -/
theorem ok_renest (hrec : s.recursive = true) (hpos : 0 < c.holds) {k : ℕ} (hk : 0 < k) :
    Ok { s.put i { c with holds := k } with count := k } := by
  have hf := Fiber.ofIdle hidle
  obtain ⟨hiff, hcnt⟩ := (h.nested i c hc).1 hrec
  obtain ⟨m, hothers, hm⟩ := hf.exists_others h.tally hc rfl
  have hholding : holding c = true := by simpa [holding] using hpos
  have hheld := h.held hc hpos
  have hi := h.tally.queued.not_mem hc (waiting_of_idle hidle)
  have hf' : Fiber { c with holds := k } (.ungranted 0) := Fiber.ofIdle hidle
  refine .ofHeld (hothers.put (h.tally.queued.set_of_not_mem hc hi) rfl ?_ ?_ ?_) ?_ hheld
  · have hk' : holding { c with holds := k } = true := by simpa [holding] using hk
    rw [hf'.handed, hk', ← hholding]
    rw [hheld] at hm
    exact hm
  · rw [hf'.spinning]
    rfl
  · rw [hf'.sleeps]
    rfl
  · intro j d hd
    refine ⟨fun _ => ?_, fun hrec' => absurd (hrec.symm.trans hrec') nofun⟩
    rcases getElem?_set_cases hd with ⟨rfl, rfl⟩ | ⟨hij, hd⟩
    · exact ⟨⟨fun _ => hiff.mp hpos, fun _ => hk⟩, fun _ => rfl⟩
    · have hiff' := ((h.nested j d hd).1 hrec).1
      refine ⟨hiff', fun hpos' => absurd ?_ hij⟩
      exact some.inj ((hiff.mp hpos).symm.trans (hiff'.mp hpos'))

theorem ok_lock {wait : Wait} (hs' : s.lock cap i c wait expired p = some s') : Ok s' := by
  have hf := Fiber.ofIdle hidle
  have hi := h.tally.queued.not_mem hc (waiting_of_idle hidle)
  obtain ⟨m, hothers, hm⟩ := hf.exists_others h.tally hc rfl
  rw [lock] at hs'
  split at hs'
  · rename_i hown
    cases hs'
    obtain ⟨hiff, hcnt⟩ := (h.nested i c hc).1 hown.2.1
    have hpos := hiff.mpr hown.2.2
    rw [hcnt hpos]
    exact ok_renest h hc hidle hown.2.1 hpos (Nat.succ_pos _)
  · split at hs'
    · cases hs'
      exact ok_take_free hothers hi hm ‹_›
    · split at hs'
      · cases hs'
        exact h
      · split at hs'
        · exact ok_pass h hc hf hs'
        · cases hs'
          exact ok_lockThread hothers hi hm h.nested

/-- A last unlock passes the mutex on; any other keeps it. -/
theorem ok_unlock (hpos : 0 < c.holds) (hs' : s.unlock i c p = some s') :
    Ok s' ∧ if 1 < c.holds then s'.held = true ∧ s'.owner = some i ∧ s'.count = c.holds - 1
      else Passed i s' := by
  have hi := h.tally.queued.not_mem hc (waiting_of_idle hidle)
  have hholding : holding c = true := by simpa [holding] using hpos
  obtain ⟨m, hothers, hm⟩ := (Fiber.ofIdle hidle).exists_others h.tally hc rfl
  have hheld := h.held hc hpos
  have hm0 : m = 0 := by
    rw [hheld, hholding] at hm
    exact Nat.succ.inj hm.symm
  subst hm0
  rw [unlock] at hs'
  split at hs'
  · rename_i hnest
    cases hs'
    obtain ⟨hiff, hcnt⟩ := (h.nested i c hc).1 hnest.1
    have hlt : 1 < c.holds := hcnt hpos ▸ hnest.2
    rw [hcnt hpos, if_pos hlt]
    exact ⟨ok_renest h hc hidle hnest.1 hpos (by omega), hheld, hiff.mp hpos, rfl⟩
  · rename_i hnest
    have hone : c.holds = 1 := by
      cases hrec : s.recursive with
      | false => exact Nat.le_antisymm ((h.nested i c hc).2 hrec) hpos
      | true =>
        have hcnt := ((h.nested i c hc).1 hrec).2 hpos
        exact Nat.le_antisymm (hcnt ▸ Nat.le_of_not_lt fun hlt => hnest ⟨hrec, hlt⟩) hpos
    have hf' : Fiber { c with holds := c.holds - 1 } (.ungranted 0) := Fiber.ofIdle hidle
    have htally : Tally (s.put i { c with holds := c.holds - 1 }) 0 := by
      refine hothers.put (h.tally.queued.set_of_not_mem hc hi) rfl ?_ ?_ ?_
      · rw [hf'.handed, hone]
        rfl
      · rw [hf'.spinning]
        rfl
      · rw [hf'.sleeps]
        rfl
    rw [if_neg (by omega)]
    exact ok_release htally hheld hi hs'

end

/-! ## Every step -/

/-- What happens to a caller from outside does not matter to the mutex. -/
theorem Ok.alike (h : Ok s) (hc : s.ctxs[i]? = some c)
    (ha : Alike c c' := by exact ⟨rfl, rfl, rfl, rfl, rfl⟩)
    (hwoken : c.woken = true → c'.woken = true := by exact id)
    (hcoming : c.coming.isSome → c'.coming.isSome := by exact id) : Ok (s.put i c') :=
  ⟨h.tally.alike hc ha, h.nested.put hc ha.holds, fun hfree =>
    (h.attended hfree).change hc (fun _ => hwoken) (fun hs => ha.sleeps ▸ hs) hcoming⟩

theorem ok_act {a : Act} (h : Ok s) (hc : s.ctxs[i]? = some c) (hs' : s.act cap i c a = some s') :
    Ok s' := by
  rcases c with ⟨onLoop, inProc, kill, phase, holds⟩
  unfold act at hs'
  dsimp only at hs'
  split at hs'
  · exact ok_lock h hc rfl hs'
  · split at hs'
    · rename_i hpos
      exact (ok_unlock h hc rfl hpos hs').1
    · cases hs'
  · exact ok_pass h hc (Fiber.ofParked rfl) hs'
  · split at hs'
    · cases hs'
      exact h.alike hc
    · exact ok_pass h hc (.ofDelivering rfl) hs'
  · obtain ⟨m, hothers, hm⟩ : ∃ m, Others { s with spinners := s.spinners - 1 } i _ m ∧ _ :=
      h.tally.exists_others hc
    split at hs'
    · cases hs'
    · rename_i hfree
      cases hs'
      exact ok_take_free hothers (h.tally.queued.not_mem hc rfl) hm (eq_false_iff.mpr hfree)
  · cases hs'
    obtain ⟨m, hothers, hm⟩ : ∃ m, Others { s with spinners := s.spinners - 1 } i _ m ∧ _ :=
      h.tally.exists_others hc
    have hi := h.tally.queued.not_mem hc rfl
    refine ⟨hothers.put (h.tally.queued.set_of_not_mem hc hi) rfl (by exact hm), ?_, ?_⟩
    · exact Nested.put h.nested hc rfl
    · intro hfree
      exact Attended.change { h.attended hfree with } hc (fun _ => id) id id
  · cases hs'
    obtain ⟨m, hothers, hm⟩ : ∃ m, Others s i _ m ∧ _ :=
      h.tally.exists_others hc
    exact ok_lockThread hothers (h.tally.queued.not_mem hc rfl) hm h.nested
  · obtain ⟨m, hothers, hm⟩ : ∃ m, Others { s with cvWaiters := s.cvWaiters - 1 } i _ m ∧ _ :=
      h.tally.exists_others hc
    have hi := h.tally.queued.not_mem hc rfl
    split at hs'
    · rename_i hexp
      cases hs'
      have hheld : s.held = true := (and_eq_true_iff.mp hexp).2
      refine ⟨hothers.put (h.tally.queued.set_of_not_mem hc hi) rfl (by exact hm), ?_, ?_⟩
      · exact Nested.put h.nested hc rfl
      · exact fun hfree => absurd (hheld.symm.trans hfree) nofun
    · cases hs'
      exact ok_lockThread hothers hi hm h.nested
  · split at hs'
    · cases hs'
      exact h.alike hc
    · cases hs'
  · cases hs'
    exact h.alike hc
  · cases hs'

theorem ok_create {recursive : Bool} {kinds : List (Bool × Bool)} :
    Ok (create recursive kinds) := by
  have hall {q : Ctx → Bool} (hq : ∀ k : Bool × Bool, q (Ctx.fresh k.1 k.2) = false) :
      (create recursive kinds).ctxs.countP q = 0 := by
    rw [countP_eq_zero]
    intro c hc
    obtain ⟨k, _, rfl⟩ := mem_map.mp hc
    rw [hq]
    exact nofun
  refine .ofFree ⟨?_, hall fun _ => rfl, hall fun _ => rfl, ⟨nodup_nil, nofun⟩⟩ ?_ rfl ⟨nofun, ?_⟩
  · rw [owners, hall fun _ => rfl, hall fun _ => rfl]
  · intro i c hc
    obtain ⟨k, _, rfl⟩ := mem_map.mp (mem_of_getElem? hc)
    exact ⟨fun _ => ⟨⟨nofun, nofun⟩, nofun⟩, fun _ => Nat.zero_le 1⟩
  · intro _ c hc hsleeps
    obtain ⟨k, _, rfl⟩ := mem_map.mp hc
    cases hsleeps

theorem Ok.of_reachable (hs : (system cap).Reachable s) : Ok s := by
  refine hs.invariant ?_ ?_
  · rintro s ⟨recursive, kinds, rfl⟩
    exact ok_create
  · rintro s ⟨i, a⟩ s' h - ht
    obtain ⟨c, hc, hact⟩ := bind_eq_some_iff.mp ht
    exact ok_act h hc hact

theorem unlock_of_act (h : s.act cap i c (.unlock p) = some s') :
    c.phase = .idle ∧ 0 < c.holds ∧ s.unlock i c p = some s' := by
  rcases c with ⟨onLoop, inProc, kill, phase, holds⟩
  cases phase with
  | idle =>
    change (if 0 < holds then s.unlock i _ p else none) = some s' at h
    split at h
    · exact ⟨rfl, ‹_›, h⟩
    · cases h
  | _ => cases h

theorem pass_of_act (h : s.act cap i c (.resume expired p) = some s') :
    ∃ w checks timed, c.phase = .parked () w checks timed ∧
      s.pass i c w checks timed expired p = some s' := by
  rcases c with ⟨onLoop, inProc, kill, phase, holds⟩
  cases phase with
  | parked want w checks timed => exact ⟨w, checks, timed, rfl, h⟩
  | _ => cases h

/-- In every state of every run one caller at most owns the mutex; the holder of a recursive mutex
has locked it as often as it is deep, and only its last unlock passes it on; a waiter that was
handed the mutex passes it on if it is killed and returns with it otherwise, even past its deadline;
and a free mutex with waiters has a woken fiber in its queue, or a thread that was signalled or
counted as a spinner and has not tested the mutex again. -/
theorem parking_mutex {cap : ℕ} {s : State} (hs : (system cap).Reachable s) :
    (∀ (i j : ℕ) c d, s.ctxs[i]? = some c → s.ctxs[j]? = some d →
      holding c = true ∨ handed c = true → holding d = true ∨ handed d = true → i = j) ∧
    (∀ (i : ℕ) c, s.ctxs[i]? = some c → 0 < c.holds →
      s.held = true ∧ (s.recursive = true → s.owner = some i ∧ s.count = c.holds)) ∧
    (∀ i c p s', s.ctxs[i]? = some c → (system cap).step s (i, .unlock p) = some s' →
      if 1 < c.holds then s'.held = true ∧ s'.owner = some i ∧ s'.count = c.holds - 1
      else Passed i s') ∧ (∀ i c expired p s', s.ctxs[i]? = some c → handed c = true →
      (system cap).step s (i, .resume expired p) = some s' →
      if c.dying then Passed i s'
      else s'.held = true ∧ s'.ctxs[i]? = some { c with phase := .idle, holds := 1 }) ∧
    (s.held = false → (s.wq ≠ [] ∨ ∃ c ∈ s.ctxs, sleeps c = true) →
      (∃ i ∈ s.wq, ∃ c, s.ctxs[i]? = some c ∧ c.woken = true) ∨ ∃ c ∈ s.ctxs, c.coming.isSome) := by
  have h := Ok.of_reachable hs
  have hstep {i : ℕ} {a : Act} {c : Ctx} {s' : State} (hc : s.ctxs[i]? = some c)
      (hs' : (system cap).step s (i, a) = some s') : s.act cap i c a = some s' := by
    obtain ⟨d, hd, hact⟩ := bind_eq_some_iff.mp hs'
    cases hc.symm.trans hd
    exact hact
  refine ⟨?_, ?_, ?_, ?_, ?_⟩
  · intro i j c d hc hd
    exact h.tally.owner_unique (toNat_le _) hc hd
  · intro i c hc hpos
    refine ⟨h.held hc hpos, fun hrec => ?_⟩
    obtain ⟨hiff, hcount⟩ := (h.nested i c hc).1 hrec
    exact ⟨hiff.mp hpos, hcount hpos⟩
  · intro i c p s' hc hs'
    obtain ⟨hidle, hpos, hunlock⟩ := unlock_of_act (hstep hc hs')
    exact (ok_unlock h hc hidle hpos hunlock).2
  · intro i c expired p s' hc hhanded hs'
    obtain ⟨w, checks, timed, hphase, hpass⟩ := pass_of_act (hstep hc hs')
    have hf := Fiber.ofParked hphase
    rw [Ctx.dying, hphase]
    exact (ok_pass_handed h hc hf (hf.handed.symm.trans hhanded) hpass).2
  · intro hfree hwaits
    obtain ⟨hhead, hthreads⟩ := h.attended hfree
    cases hwq : s.wq with
    | nil =>
      right
      rcases hwaits with hne | ⟨c, hc, hsleeps⟩
      · exact absurd hwq hne
      · exact hthreads (by rw [hwq]; rfl) c hc hsleeps
    | cons i rest =>
      exact .inl ⟨i, mem_cons_self, hhead i (by rw [hwq]; rfl)⟩

/-- Two fibers and a thread. The second fiber loses four races for the mutex of the first, the
thread spins and falls asleep, the mutex is handed to the second fiber, and that fiber is killed. -/
def handedAndKilled : List (ℕ × Act) :=
  [(0, .lock .forever false 0), (1, .lock .timed false 0), (1, .resume false 0),
   (1, .resume false 0),
    (1, .resume false 0), (1, .resume false 0), (2, .lock .forever false 0), (2, .spinLeave),
    (2, .retest), (0, .unlock 2), (1, .kill)]

theorem parking_mutex_handedAndKilled :
    ∃ s ∈ (system 1).run (create true [(true, true), (true, true), (false, false)]) handedAndKilled,
      (∃ c, s.ctxs[1]? = some c ∧ handed c = true ∧ c.dying = true) ∧
      ∃ s' ∈ (system 1).step s (1, .resume true 2), Passed 1 s' ∧ s'.held = false ∧
        ∃ c ∈ s'.ctxs, c.coming.isSome := by
  refine System.exists_run ⟨_, _, rfl⟩ (by decide) fun s eval hreach hP => ?_
  obtain ⟨c, hc, hhanded, hdying⟩ := hP
  obtain ⟨s', hs', hfree, hwq, hsleeps⟩ := eval (Q := fun s =>
    ∃ s' ∈ (system 1).step s (1, .resume true 2), s'.held = false ∧ s'.wq = [] ∧
      ∃ c ∈ s'.ctxs, sleeps c = true) (by decide)
  have hpassed := (parking_mutex hreach).2.2.2.1 1 c true 2 s' hc hhanded hs'
  rw [if_pos hdying] at hpassed
  refine ⟨s', hs', hpassed, hfree, ?_⟩
  rcases (parking_mutex (.next hreach trivial hs')).2.2.2.2 hfree (.inr hsleeps) with
    ⟨i, hi, -⟩ | hcoming
  · rw [hwq] at hi
    cases hi
  · exact hcoming

end LibXtc.AMutex

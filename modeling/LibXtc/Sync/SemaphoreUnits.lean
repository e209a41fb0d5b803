import LibXtc.Sync.Semaphore

/-!
# Units are conserved, and no satisfiable waiter is stranded

Every unit is in the count or was taken by an acquire that returned `XTC_OK`. Whoever stops waiting
or parks again runs the wake loop, and the first queued waiter that the count satisfies is always
within its budget, so some queued fiber is on its way whenever the count satisfies one.
-/

namespace LibXtc.Semaphore

open Foundations State List Sync

section

variable (s : State)

/-- The units all callers have posted. -/
def State.posted : ℕ := (s.ctxs.map fun c => c.holds.posted).sum

/-- The units all callers have taken. -/
def State.taken : ℕ := (s.ctxs.map fun c => c.holds.taken).sum

/-- What caller `j` needs, if it waits in the queue. -/
def State.needAt (j : ℕ) : Option ℕ := s.ctxs[j]?.bind Ctx.waiting

/-- Whether caller `j` is parked and was woken since. -/
def State.wokenAt (j : ℕ) : Option Bool := s.ctxs[j]?.map Ctx.woken

/-- A queued waiter is satisfied by the count. -/
def Satisfiable : Prop := ∃ j ∈ s.wq, ∃ need, s.needAt j = some need ∧ need ≤ s.count

/-- A queued waiter was woken and has not looked at the count since. -/
def Coming : Prop := ∃ j ∈ s.wq, s.wokenAt j = some true

/-- Every unit is in the count or was taken. -/
def Conserved : Prop := s.count + s.taken = s.initial + s.posted

end

/-- The queue lists waiting fibers, and nobody waits for nothing. -/
structure Base (s : State) : Prop where
  queued : Queued s.wq s.ctxs
  pos : ∀ j ∈ s.wq, ∀ need, s.needAt j = some need → 0 < need

/-- What holds between two critical sections. -/
structure Ok (s : State) : Prop where
  conserved : Conserved s
  base : Base s
  coming : Satisfiable s → Coming s

variable {s s' : State} {i n j budget : ℕ} {c c' : Ctx} {q : List ℕ} {cs : List Ctx}

/-! ## The wake loop -/

theorem waiting_wake (c : Ctx) : c.wake.waiting = c.waiting := by
  rcases c with ⟨_, _, _, phase, _⟩
  cases phase <;> rfl

theorem holds_wake (c : Ctx) : c.wake.holds = c.holds := by
  rcases c with ⟨_, _, _, phase, _⟩
  cases phase <;> rfl

theorem woken_wake_of_woken (h : c.woken = true) : c.wake.woken = true := by
  rcases c with ⟨_, _, _, phase, _⟩
  cases phase <;> first | rfl | cases h

/-- The wake loop only fires wakers. -/
theorem only_wakeScan : Only Ctx.wake cs (wakeScan budget q cs) := by
  induction q generalizing budget cs with
  | nil => exact .refl
  | cons j rest ih =>
    rw [wakeScan]
    split
    · exact .refl
    · split
      · split
        · exact Only.modify.trans ih
        · exact ih
      · exact ih

/-- The wake loop leaves woken whoever was. -/
theorem woken_wakeScan (h : cs[j]?.map Ctx.woken = some true) :
    (wakeScan budget q cs)[j]?.map Ctx.woken = some true := by
  induction q generalizing budget cs with
  | nil => exact h
  | cons k rest ih =>
    rw [wakeScan]
    split
    · exact h
    · split
      · split
        · refine ih ?_
          obtain ⟨c, hc, hw⟩ := Option.map_eq_some_iff.mp h
          by_cases hkj : k = j
          · subst hkj
            rw [getElem?_modify_eq, hc]
            exact congrArg some (woken_wake_of_woken hw)
          · rw [getElem?_modify_ne _ _ hkj]
            exact h
        · exact ih h
      · exact ih h

/-- The first waiter that the budget satisfies is woken. -/
theorem exists_woken_wakeScan
    (h : ∃ j ∈ q, ∃ need, cs[j]?.bind Ctx.waiting = some need ∧ 0 < need ∧ need ≤ budget) :
    ∃ k ∈ q, (wakeScan budget q cs)[k]?.map Ctx.woken = some true ∧
      ∃ need, cs[k]?.bind Ctx.waiting = some need ∧ need ≤ budget := by
  induction q with
  | nil =>
    obtain ⟨j, hj, -⟩ := h
    cases hj
  | cons k rest ih =>
    obtain ⟨j, hj, need, hneed, hpos, hle⟩ := h
    have hnext (hskip : ¬ ∃ need, cs[k]?.bind Ctx.waiting = some need ∧ need ≤ budget) :
        ∃ k' ∈ rest, (wakeScan budget rest cs)[k']?.map Ctx.woken = some true ∧
          ∃ need, cs[k']?.bind Ctx.waiting = some need ∧ need ≤ budget := by
      rcases mem_cons.mp hj with rfl | hj
      · exact absurd ⟨need, hneed, hle⟩ hskip
      · exact ih ⟨j, hj, need, hneed, hpos, hle⟩
    have hcons {cs' : List Ctx} (h : ∃ k' ∈ rest, cs'[k']?.map Ctx.woken = some true ∧
        ∃ need, cs[k']?.bind Ctx.waiting = some need ∧ need ≤ budget) :
        ∃ k' ∈ k :: rest, cs'[k']?.map Ctx.woken = some true ∧
          ∃ need, cs[k']?.bind Ctx.waiting = some need ∧ need ≤ budget := by
      obtain ⟨k', hk', hrest⟩ := h
      exact ⟨k', mem_cons_of_mem k hk', hrest⟩
    rw [wakeScan, if_neg (by omega)]
    split
    · rename_i need' hneed'
      split
      · rename_i hfits
        obtain ⟨c, hc, hw⟩ := Option.bind_eq_some_iff.mp hneed'
        refine ⟨k, mem_cons_self, woken_wakeScan ?_, need', hneed', hfits⟩
        rw [getElem?_modify_eq, hc]
        exact congrArg some (Ctx.woken_wake (hw ▸ rfl))
      · rename_i hbig
        refine hcons (hnext ?_)
        rintro ⟨need'', heq, hfits⟩
        cases hneed'.symm.trans heq
        exact hbig hfits
    · rename_i hnone
      refine hcons (hnext ?_)
      rintro ⟨need'', heq, -⟩
      rw [hnone] at heq
      cases heq

theorem only_wake : Only Ctx.wake s.ctxs s.wake.ctxs := only_wakeScan

section Only

variable {f : Ctx → Ctx} {cs : List Ctx}

theorem needAt_only (ho : Only f s.ctxs cs) (hf : ∀ c, (f c).waiting = c.waiting) (j : ℕ) :
    ({ s with ctxs := cs } : State).needAt j = s.needAt j :=
  ho.getElem?_bind hf j

theorem Base.only (h : Base s) (ho : Only f s.ctxs cs) (hf : ∀ c, (f c).waiting = c.waiting) :
    Base { s with ctxs := cs } where
  queued := h.queued.only hf ho
  pos j hj need hneed := h.pos j hj need ((needAt_only ho hf j).symm.trans hneed)

theorem Conserved.only (h : Conserved s) (ho : Only f s.ctxs cs)
    (hf : ∀ c, (f c).holds = c.holds) : Conserved { s with ctxs := cs } := by
  have htaken := ho ℕ (fun c => c.holds.taken) fun c => by rw [hf]
  have hposted := ho ℕ (fun c => c.holds.posted) fun c => by rw [hf]
  rw [Conserved, taken, posted, htaken, hposted]
  exact h

end Only

theorem needAt_wake : s.wake.needAt j = s.needAt j := needAt_only only_wake waiting_wake j

theorem Base.wake (h : Base s) : Base s.wake := h.only only_wake waiting_wake

theorem Conserved.wake (h : Conserved s) : Conserved s.wake := h.only only_wake holds_wake

/-- `sem_wake_locked` wakes a waiter that the count satisfies, if there is one. -/
theorem Base.exists_woken (h : Base s) (hsat : Satisfiable s) :
    ∃ k ∈ s.wq, s.wake.wokenAt k = some true ∧ ∃ need, s.needAt k = some need ∧ need ≤ s.count := by
  obtain ⟨j, hj, need, hneed, hle⟩ := hsat
  exact exists_woken_wakeScan ⟨j, hj, need, hneed, h.pos j hj need hneed, hle⟩

theorem ok_wake (hcons : Conserved s) (h : Base s) : Ok s.wake := by
  refine ⟨hcons.wake, h.wake, fun hsat => ?_⟩
  obtain ⟨j, hj, need, hneed, hle⟩ := hsat
  obtain ⟨k, hk, hwoken, -⟩ := h.exists_woken ⟨j, hj, need, needAt_wake.symm.trans hneed, hle⟩
  exact ⟨k, hk, hwoken⟩

/-! ## One caller changes -/

theorem needAt_put_ne (h : i ≠ j) : (s.put i c').needAt j = s.needAt j := by
  rw [needAt, put, getElem?_set_ne h]
  rfl

/-- A caller outside of the queue changes. -/
theorem Base.put (h : Base s) (hc : s.ctxs[i]? = some c) (hi : i ∉ s.wq) : Base (s.put i c') where
  queued := h.queued.set_of_not_mem hc hi
  pos j hj need hneed := by
    have hij : i ≠ j := fun heq => hi (heq ▸ hj)
    exact h.pos j hj need ((needAt_put_ne hij).symm.trans hneed)

/-- A caller leaves the queue. -/
theorem Base.leave (h : Base s) (hc : s.ctxs[i]? = some c) : Base ((s.leaveQueue i).put i c') :=
  Base.put ⟨h.queued.sublist erase_sublist, fun j hj => h.pos j (mem_of_mem_erase hj)⟩ hc
    h.queued.nodup.not_mem_erase

section

variable (h : Conserved s) (hc : s.ctxs[i]? = some c)
include h hc

/-- The count follows what caller `i` posts and takes. -/
theorem Conserved.update (hctxs : s'.ctxs = s.ctxs.set i c') (hinitial : s'.initial = s.initial)
    (hcnt : s'.count + c'.holds.taken + c.holds.posted =
      s.count + c.holds.taken + c'.holds.posted) : Conserved s' := by
  have htaken : s'.taken + c.holds.taken = s.taken + c'.holds.taken := by
    rw [taken, hctxs]
    exact sum_map_set_add hc
  have hposted : s'.posted + c.holds.posted = s.posted + c'.holds.posted := by
    rw [posted, hctxs]
    exact sum_map_set_add hc
  rw [Conserved] at h ⊢
  omega

theorem Conserved.put (hholds : c'.holds = c.holds) : Conserved (s.put i c') :=
  h.update hc rfl rfl (by rw [hholds]; rfl)

theorem Conserved.take (hn : n ≤ s.count) : Conserved (s.take i c n) := by
  refine h.update hc rfl rfl ?_
  change s.count - n + (c.holds.taken + n) + c.holds.posted =
    s.count + c.holds.taken + c.holds.posted
  omega

end

/-- A caller outside of the queue moves, and the count does not grow. -/
theorem Ok.change (h : Ok s) (hc : s.ctxs[i]? = some c) (hi : i ∉ s.wq) {k : ℕ} (hk : k ≤ s.count)
    (hcons : Conserved (({ s with count := k } : State).put i c')) :
    Ok (({ s with count := k } : State).put i c') := by
  refine ⟨hcons, Base.put ⟨h.base.queued, h.base.pos⟩ hc hi, ?_⟩
  rintro ⟨j, hj, need, hneed, hle⟩
  have hij : i ≠ j := fun heq => hi (heq ▸ hj)
  obtain ⟨l, hl, hwoken⟩ := h.coming ⟨j, hj, need, (needAt_put_ne hij).symm.trans hneed,
    Nat.le_trans hle hk⟩
  have hil : i ≠ l := fun heq => hi (heq ▸ hl)
  refine ⟨l, hl, ?_⟩
  rw [wokenAt, put, getElem?_set_ne hil]
  exact hwoken

/-! ## Every step -/

section

variable (h : Ok s) (hc : s.ctxs[i]? = some c)
include h hc

theorem ok_take (hwait : c.waiting = none) (hn : n ≤ s.count) : Ok (s.take i c n) :=
  h.change hc (h.base.queued.not_mem hc hwait) (Nat.sub_le _ _) (h.conserved.take hc hn)

theorem ok_put (hwait : c.waiting = none) (hholds : c'.holds = c.holds) : Ok (s.put i c') :=
  h.change hc (h.base.queued.not_mem hc hwait) (Nat.le_refl _) (h.conserved.put hc hholds)

/-- A waiter that the count does not satisfy passes the units on and parks. -/
theorem ok_park {checks timed : Bool} {lost : ℕ}
    (hn : s.count < n) (hneed : c.waiting = none ∨ c.waiting = some n) :
    Ok ((s.wake.enqueue i).put i { c with phase := .parked n (.ungranted lost) checks timed }) := by
  have hbase := h.base.wake
  obtain ⟨d, hd, hholds⟩ : ∃ d, s.wake.ctxs[i]? = some d ∧ d.holds = c.holds := by
    have hmap := only_wake (s := s) |>.getElem? holds_wake i
    rw [hc] at hmap
    exact Option.map_eq_some_iff.mp hmap
  have hself : (s.wake.enqueue i).ctxs[i]? = some d := hd
  have hne {j need : ℕ} (hneed' : s.needAt j = some need) (hle : need ≤ s.count) : i ≠ j := by
    rintro rfl
    rw [needAt, hc, Option.bind_some] at hneed'
    rcases hneed with hnone | hsome
    · cases hnone.symm.trans hneed'
    · cases hsome.symm.trans hneed'
      omega
  have hmem {j : ℕ} (hji : j ≠ i) (hj : j ∈ (s.wake.enqueue i).wq) : j ∈ s.wq := by
    rw [enqueue] at hj
    split at hj
    · exact hj
    · exact (mem_append.mp hj).resolve_right fun h => hji (mem_singleton.mp h)
  refine ⟨?_, ⟨?_, ?_⟩, ?_⟩
  · exact Conserved.put h.conserved.wake hself hholds.symm
  · rw [enqueue]
    split
    · exact hbase.queued.set hd fun _ => rfl
    · rename_i hi
      exact hbase.queued.append_set hd hi rfl
  · intro j hj need hneed'
    by_cases hij : i = j
    · subst hij
      rw [needAt, put, getElem?_set_new hself] at hneed'
      cases hneed'
      omega
    · rw [needAt_put_ne hij] at hneed'
      exact hbase.pos j (hmem (Ne.symm hij) hj) need hneed'
  · rintro ⟨j, hj, need, hneed', hle⟩
    -- The caller itself is not satisfied, so the woken waiter is another one.
    have hij : i ≠ j := by
      rintro rfl
      rw [needAt, put, getElem?_set_new hself] at hneed'
      cases hneed'
      exact Nat.not_lt.mpr hle hn
    rw [needAt_put_ne hij] at hneed'
    obtain ⟨k, hk, hwoken, need', hneedk, hlek⟩ := h.base.exists_woken
      ⟨j, hmem (Ne.symm hij) hj, need, needAt_wake.symm.trans hneed', hle⟩
    refine ⟨k, ?_, ?_⟩
    · rw [put, enqueue]
      split
      · exact hk
      · exact mem_append_left _ hk
    · rw [wokenAt, put, getElem?_set_ne (hne hneedk hlek)]
      exact hwoken

theorem ok_pass {w : Waiter} {checks timed expired : Bool}
    (hneed : c.waiting = none ∨ c.waiting = some n) : Ok (s.pass i c n w checks timed expired) := by
  have hleave : Conserved (s.leaveQueue i) := h.conserved
  rw [State.pass]
  split
  · exact ok_wake (hleave.put hc rfl) (h.base.leave hc)
  · split
    · rename_i hn
      have hbase : Base ((s.leaveQueue i).put i
          { c with phase := .idle, holds := ⟨c.holds.posted, c.holds.taken + n⟩ }) :=
          h.base.leave hc
      exact ok_wake (hleave.take hc hn) ⟨hbase.queued, hbase.pos⟩
    · rename_i hn
      split
      · exact ok_wake (hleave.put hc rfl) (h.base.leave hc)
      · exact ok_park h hc (Nat.lt_of_not_le hn) hneed

end

theorem holds_signal (c : Ctx) : c.signal.holds = c.holds := by
  rcases c with ⟨_, _, _, phase, _⟩
  cases phase <;> rfl

section

variable (h : Ok s) (hc : s.ctxs[i]? = some c)
include h hc

theorem ok_post (hwait : c.waiting = none) (hfits : s.count + n < 2 ^ 32) : Ok (s.post i c n) := by
  have hi := h.base.queued.not_mem hc hwait
  rw [post, Nat.mod_eq_of_lt hfits]
  refine ok_wake ?_ ?_
  · have hcons : Conserved (({ s with count := s.count + n } : State).put i
        { c with holds := ⟨c.holds.posted + n, c.holds.taken⟩ }) := by
      refine h.conserved.update hc rfl rfl ?_
      change s.count + n + c.holds.taken + c.holds.posted =
        s.count + c.holds.taken + (c.holds.posted + n)
      omega
    exact hcons.only only_condBroadcast holds_signal
  · have hbase : Base (({ s with count := s.count + n } : State).put i
        { c with holds := ⟨c.holds.posted + n, c.holds.taken⟩ }) :=
      Base.put ⟨h.base.queued, h.base.pos⟩ hc hi
    exact hbase.only only_condBroadcast Ctx.waiting_signal

/-- A kill that is latched for a fiber changes neither its wait nor its units. -/
theorem ok_kill : Ok (s.put i { c with kill := true }) := by
  have honly : Only (fun c : Ctx => { c with kill := true }) s.ctxs
    (s.ctxs.set i { c with kill := true }) := .set hc
  refine ⟨h.conserved.only honly fun _ => rfl, h.base.only honly fun _ => rfl, ?_⟩
  rintro ⟨j, hj, need, hneed, hle⟩
  obtain ⟨k, hk, hwoken⟩ := h.coming
    ⟨j, hj, need, (needAt_only honly (fun _ => rfl) j).symm.trans hneed, hle⟩
  exact ⟨k, hk, (honly.getElem? (fun _ => rfl) k).trans hwoken⟩

theorem ok_act {a : Act} (hfits : s.count + a.posts < 2 ^ 32)
    (hs' : s.act i c a = some s') : Ok s' := by
  rcases c with ⟨onLoop, inProc, kill, phase, holds⟩
  unfold act at hs'
  dsimp only at hs'
  split at hs'
  · cases hs'
    exact ok_post h hc rfl hfits
  · cases hs'
    rw [acquire]
    split
    · exact ok_take h hc rfl ‹_›
    · split
      · exact h
      · split
        · exact ok_pass h hc (.inl rfl)
        · exact ok_put h hc rfl rfl
  · rename_i n w checks timed
    cases hs'
    refine ok_pass h hc ?_
    rw [Ctx.waiting]
    cases hg : w.granted <;> simp
  · split at hs' <;> cases hs'
    · exact ok_put h hc rfl rfl
    · exact ok_pass h hc (.inl rfl)
  · cases hs'
    rw [wakeUp]
    split
    · exact ok_put h hc rfl rfl
    · split
      · exact ok_take h hc rfl ‹_›
      · exact ok_put h hc rfl rfl
  · split at hs'
    · cases hs'
      exact ok_kill h hc
    · cases hs'
  · cases hs'
    exact ok_put h hc rfl rfl
  · cases hs'

end

theorem ok_create {initial : ℕ} {kinds : List (Bool × Bool)} : Ok (create initial kinds) := by
  have hall {f : Ctx → ℕ} (hf : ∀ k : Bool × Bool, f (Ctx.fresh k.1 k.2) = 0) :
      ((create initial kinds).ctxs.map f).sum = 0 := by
    rw [create, map_map]
    induction kinds with
    | nil => rfl
    | cons k kinds ih => rw [map_cons, sum_cons, ih, Function.comp_apply, hf]
  refine ⟨?_, ⟨⟨nodup_nil, nofun⟩, nofun⟩, ?_⟩
  · rw [Conserved, taken, posted, hall fun _ => rfl, hall fun _ => rfl]
    rfl
  · rintro ⟨j, hj, -⟩
    cases hj

theorem Ok.of_reachable (hs : system.ReachableUnder fits s) : Ok s := by
  refine hs.invariant ?_ ?_
  · rintro s ⟨initial, kinds, -, rfl⟩
    exact ok_create
  · rintro s ⟨i, a⟩ s' h hfits ht
    obtain ⟨c, hc, hact⟩ := Option.bind_eq_some_iff.mp ht
    exact ok_act h hc hfits hact

/-- In every run whose count stays below `2 ^ 32`, the count is the initial value with the units
posted and without the units taken; and if the count satisfies a queued waiter, some queued waiter
was woken and has not looked at the count since. -/
theorem units_conserved_and_waiters_woken {s : State} (hs : system.ReachableUnder fits s) :
    s.count + s.taken = s.initial + s.posted ∧
    ((∃ j ∈ s.wq, ∃ need, s.needAt j = some need ∧ need ≤ s.count) →
      ∃ j ∈ s.wq, s.wokenAt j = some true) := by
  have h := Ok.of_reachable hs
  exact ⟨h.conserved, h.coming⟩

/-- Two fibers wait for three units and for one. Of the two units posted the second fiber is
offered one, and a third caller takes it first. -/
def bargedIn : List (ℕ × Act) :=
  [(0, .acquire 3 .forever false), (1, .acquire 1 .timed false), (2, .post 2),
    (2, .acquire 1 .poll false)]

theorem units_conserved_and_waiters_woken_bargedIn :
    ∃ s ∈ system.runUnder fits (create 0 [(true, true), (true, true), (false, false)]) bargedIn,
      s.count = 1 ∧ s.count + s.taken = s.initial + s.posted ∧ s.wq = [0, 1] ∧
      ∃ j ∈ s.wq, s.wokenAt j = some true := by
  refine System.exists_run ⟨0, _, by decide, rfl⟩ (by decide) fun s eval hs hcount => ?_
  obtain ⟨hunits, hwoken⟩ := units_conserved_and_waiters_woken hs
  have hwq : s.wq = [0, 1] := by apply eval; decide
  exact ⟨hunits, hwq, hwoken ⟨1, by rw [hwq]; decide, 1, by apply eval; decide,
    Nat.le_of_eq hcount.symm⟩⟩

end LibXtc.Semaphore

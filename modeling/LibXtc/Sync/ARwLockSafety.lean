import LibXtc.Sync.ARwLock

/-!
# Writers are alone, and no waiter is stranded

The words `readers` and `writer` count the holds of the callers and the holds that were granted to
waiters which have not run yet. The head of the fiber queue never fits them, so a free latch has no
queued fiber, and each critical section that frees the latch signals a thread if one sleeps.
-/

namespace LibXtc.ARwLock

open Foundations Bool State List Sync

/-! ## What the callers have -/

/-- The holds in mode `m`. -/
def Holds.of (h : Holds) : Mode → ℕ
  | .shared => h.shared
  | .excl => h.excl

/-- One if the mode is `m`. -/
def one (m : Mode) (o : Option Mode) : ℕ := if o = some m then 1 else 0

/-- The holds of a caller in mode `m`, the granted one included. -/
def has (m : Mode) (c : Ctx) : ℕ := c.holds.of m + one m c.granted

/-- The caller sleeps for mode `m`. -/
def sleepsIn (m : Mode) (c : Ctx) : ℕ := one m c.sleeping

/-- The sum over all callers. -/
def total (f : Ctx → ℕ) (cs : List Ctx) : ℕ := (cs.map f).sum

/-- The words of the latch count what its callers have, a writer is alone, and the queue lists
waiting fibers. -/
structure Base (s : State) : Prop where
  shared : total (has .shared) s.ctxs = s.readers
  excl : total (has .excl) s.ctxs = s.writer.toNat
  rd : total (sleepsIn .shared) s.ctxs = s.rdWaiters
  wr : total (sleepsIn .excl) s.ctxs = s.wrWaiters
  queued : Queued s.wq s.ctxs
  apart : s.writer = true → s.readers = 0

/-- The mode that caller `j` waits for in the queue. -/
def State.waitingAt (s : State) (j : ℕ) : Option Mode := s.ctxs[j]?.bind Ctx.waiting

/-- The mode that caller `j` was granted. -/
def State.grantedAt (s : State) (j : ℕ) : Option Mode := s.ctxs[j]?.bind Ctx.granted

/-- The holds of caller `j`. -/
def State.holdsAt (s : State) (j : ℕ) : Option Holds := s.ctxs[j]?.map (·.holds)

/-- The latch is completely free. -/
def State.free (s : State) : Prop := s.readers = 0 ∧ s.writer = false

/-- The head of the queue does not fit. -/
def HeadBlocked (s : State) : Prop :=
  ∀ j, s.wq.head? = some j → ∃ m, s.waitingAt j = some m ∧ s.compatible m = false

/-- If a thread sleeps, one was signalled. -/
def Attended (s : State) : Prop :=
  ∀ c ∈ s.ctxs, c.sleeping.isSome → ∃ d ∈ s.ctxs, d.signalled.isSome

/-- What holds between two critical sections. -/
structure Ok (s : State) : Prop where
  base : Base s
  head : HeadBlocked s
  attended : s.free → Attended s

variable {s s' t : State} {i p j cap : ℕ} {c c' d : Ctx} {m : Mode} {front q rest : List ℕ}
  {timed : Bool}

/-- Caller `i` becomes `d`, and the words of the latch follow. -/
theorem Base.put (h : Base s) (hc : s.ctxs[i]? = some c)
    (hshared : s'.readers + has .shared c = s.readers + has .shared d)
    (hexcl : s'.writer.toNat + has .excl c = s.writer.toNat + has .excl d)
    (hrd : s'.rdWaiters + sleepsIn .shared c = s.rdWaiters + sleepsIn .shared d)
    (hwr : s'.wrWaiters + sleepsIn .excl c = s.wrWaiters + sleepsIn .excl d)
    (hctxs : s'.ctxs = s.ctxs.set i d) (hqueue : Queued s'.wq s'.ctxs)
    (hapart : s'.writer = true → s'.readers = 0) : Base s' := by
  have hset (f : Ctx → ℕ) : total f s'.ctxs + f c = total f s.ctxs + f d := by
    rw [hctxs]
    exact sum_map_set_add hc
  have h1 := hset (has .shared)
  have h2 := hset (has .excl)
  have h3 := hset (sleepsIn .shared)
  have h4 := hset (sleepsIn .excl)
  rw [h.shared] at h1
  rw [h.excl] at h2
  rw [h.rd] at h3
  rw [h.wr] at h4
  exact ⟨by omega, by omega, by omega, by omega, hqueue, hapart⟩

/-- The two callers have the same and sleep for the same. -/
structure Same (c c' : Ctx) : Prop where
  holds : c'.holds = c.holds
  granted : c'.granted = c.granted
  sleeping : c'.sleeping = c.sleeping

theorem Same.has (h : Same c c') : has m c' = has m c := by
  rw [ARwLock.has, ARwLock.has, h.holds, h.granted]

theorem sleepsIn_congr (h : c'.sleeping = c.sleeping) : sleepsIn m c' = sleepsIn m c := by
  rw [sleepsIn, sleepsIn, h]

/-- Caller `i` moves, and has and sleeps for what it did before. -/
theorem Base.move (h : Base s) (hc : s.ctxs[i]? = some c) (hhas : ∀ m, has m d = has m c)
    (hsleep : d.sleeping = c.sleeping) (hqueue : Queued s'.wq s'.ctxs)
    (hctxs : s'.ctxs = s.ctxs.set i d := by rfl)
    (hwords : s'.readers = s.readers ∧ s'.writer = s.writer ∧ s'.rdWaiters = s.rdWaiters ∧
      s'.wrWaiters = s.wrWaiters := by exact ⟨rfl, rfl, rfl, rfl⟩) : Base s' := by
  obtain ⟨hr, hw, hrd, hwr⟩ := hwords
  refine h.put hc ?_ ?_ ?_ ?_ hctxs hqueue ?_
  · rw [hr, hhas]
  · rw [hw, hhas]
  · rw [hrd, sleepsIn_congr hsleep]
  · rw [hwr, sleepsIn_congr hsleep]
  · rw [hr, hw]
    exact h.apart

/-! ## Waking threads -/

theorem Same.signal : Same c c.signal := by
  rcases c with ⟨_, _, _, phase, _⟩
  cases phase <;> exact ⟨rfl, rfl, rfl⟩

/-- The state differs in signals that threads got. -/
structure Signalled (s s' : State) : Prop where
  readers : s'.readers = s.readers
  writer : s'.writer = s.writer
  rdWaiters : s'.rdWaiters = s.rdWaiters
  wrWaiters : s'.wrWaiters = s.wrWaiters
  wq : s'.wq = s.wq
  ctxs : Only Ctx.signal s.ctxs s'.ctxs

theorem Base.signalled (h : Base s) (hs : Signalled s s') : Base s' := by
  have htotal (f : Ctx → ℕ) (hf : ∀ c : Ctx, f c.signal = f c) :
      total f s'.ctxs = total f s.ctxs := by
    rw [total, total, hs.ctxs ℕ f hf]
  refine ⟨?_, ?_, ?_, ?_, ?_, ?_⟩
  · rw [htotal _ fun _ => Same.signal.has, hs.readers, h.shared]
  · rw [htotal _ fun _ => Same.signal.has, hs.writer, h.excl]
  · rw [htotal _ fun _ => sleepsIn_congr Same.signal.sleeping, hs.rdWaiters, h.rd]
  · rw [htotal _ fun _ => sleepsIn_congr Same.signal.sleeping, hs.wrWaiters, h.wr]
  · rw [hs.wq]
    exact h.queued.only Ctx.waiting_signal hs.ctxs
  · rw [hs.writer, hs.readers]
    exact h.apart

theorem Signalled.refl : Signalled s s := ⟨rfl, rfl, rfl, rfl, rfl, .refl⟩

section

variable (hs : Signalled s s')
include hs

theorem Signalled.waitingAt (j : ℕ) : s'.waitingAt j = s.waitingAt j :=
  hs.ctxs.getElem?_bind Ctx.waiting_signal j

theorem Signalled.grantedAt (j : ℕ) : s'.grantedAt j = s.grantedAt j :=
  hs.ctxs.getElem?_bind (fun _ => Same.signal.granted) j

theorem Signalled.holdsAt (j : ℕ) : s'.holdsAt j = s.holdsAt j :=
  hs.ctxs.getElem? (fun _ => Same.signal.holds) j

theorem Signalled.compatible : s'.compatible = s.compatible := by
  funext m
  cases m <;> simp only [State.compatible, hs.readers, hs.writer]

end

theorem sleepsIn_pos : 0 < sleepsIn m c ↔ c.sleeping = some m := by
  rw [sleepsIn, one]
  split <;> simp_all

/-- A sleeper of mode `m` is signalled now or was before. -/
theorem signalled_of_sleeping (h : c.sleeping = some m) (hs : c.sleepsOn (· == m) = false) :
    c.signalled.isSome := by
  rcases c with ⟨_, _, _, phase, _⟩
  cases phase with
  | asleep want timed signalled =>
    cases h
    cases signalled <;> first | rfl | simp [Ctx.sleepsOn, Ctx.unsignalled] at hs
  | _ => cases h

theorem signalled_signal (h : c.sleeping.isSome) : c.signal.signalled.isSome := by
  rcases c with ⟨_, _, _, phase, _⟩
  cases phase <;> first | rfl | cases h

/-- A broadcast leaves every sleeper of its mode signalled. -/
theorem attended_broadcast (h : ∃ c ∈ s.ctxs, c.sleeping = some m) :
    ∃ d ∈ condBroadcast (· == m) s.ctxs, d.signalled.isSome := by
  obtain ⟨c, hc, hsleep⟩ := h
  refine ⟨_, mem_map_of_mem hc, ?_⟩
  split
  · exact signalled_signal (hsleep ▸ rfl)
  · rename_i hs
    exact signalled_of_sleeping hsleep (by simpa using hs)

theorem exists_sleeping (hpos : 0 < total (sleepsIn m) s.ctxs) :
    ∃ c ∈ s.ctxs, c.sleeping = some m := by
  obtain ⟨c, hc, hc'⟩ := exists_pos_of_sum_map_pos hpos
  exact ⟨c, hc, sleepsIn_pos.mp hc'⟩

theorem Base.waiters_pos (h : Base s) (hc : c ∈ s.ctxs) (hsleep : c.sleeping = some m) :
    0 < s.rdWaiters ∨ 0 < s.wrWaiters := by
  have hpos := sleepsIn_pos.mpr hsleep
  cases m with
  | shared => exact .inl (h.rd ▸ Nat.lt_of_lt_of_le hpos (le_sum_map hc))
  | excl => exact .inr (h.wr ▸ Nat.lt_of_lt_of_le hpos (le_sum_map hc))

/-- Threads are signalled, and one of them is if the latch is free and no fiber is queued. -/
theorem wakeThreads_spec (h : Base s) (hs' : s.wakeThreads p = some s') :
    Signalled s s' ∧ (s.wq = [] → s.free → Attended s') := by
  have hcast (cs : List Ctx) (hcs : Only Ctx.signal s.ctxs cs) :
      Signalled s { s with ctxs := cs } :=
    ⟨rfl, rfl, rfl, rfl, rfl, hcs⟩
  rw [wakeThreads] at hs'
  split at hs'
  · rename_i hnone
    cases hs'
    refine ⟨.refl, fun hwq hfree c hc hsleep => ?_⟩
    obtain ⟨m, hm⟩ := Option.isSome_iff_exists.mp hsleep
    have hpos := h.waiters_pos hc hm
    rcases hnone with hzero | hne | hw
    · omega
    · exact absurd hwq hne
    · exact absurd (hfree.2.symm.trans hw) nofun
  · split at hs'
    · rename_i hreaders
      refine ⟨?_, fun _ hfree => absurd hfree.1 (Nat.ne_of_gt hreaders)⟩
      split at hs'
      · cases hs'
        exact hcast _ only_condBroadcast
      · cases hs'
        exact .refl
    · split at hs'
      · rename_i hwr
        obtain ⟨cs, hcs, rfl⟩ := Option.map_eq_some_iff.mp hs'
        rcases condSignal_cases hcs with ⟨c, hc, hsleeps, rfl⟩ | ⟨rfl, hnone⟩
        · refine ⟨hcast _ (.set hc), fun _ _ _ _ _ => ⟨c.signal, mem_set_new hc, ?_⟩⟩
          exact signalled_signal (Ctx.sleeping_of_sleepsOn _ hsleeps)
        · refine ⟨.refl, fun _ _ _ _ _ => ?_⟩
          obtain ⟨d, hd, hsleep⟩ := exists_sleeping (h.wr.symm ▸ hwr.1)
          exact ⟨d, hd, signalled_of_sleeping hsleep (hnone d hd)⟩
      · split at hs'
        · rename_i hrd
          cases hs'
          exact ⟨hcast _ only_condBroadcast, fun _ _ _ _ _ =>
            attended_broadcast (exists_sleeping (h.rd.symm ▸ hrd))⟩
        · exact absurd ‹_› (by omega)

/-! ## Granting -/

theorem compatible_take (h : s.compatible m = true) :
    s.writer = false ∧ (m = .excl → s.readers = 0) := by
  cases m <;> simp_all [compatible]

/-- The holds that the words of the latch count after `__arw_take`. -/
theorem take_words (h : s.compatible m = true) :
    (s.take m).readers = s.readers + one .shared (some m) ∧
      (s.take m).writer.toNat = s.writer.toNat + one .excl (some m) ∧
      ((s.take m).writer = true → (s.take m).readers = 0) := by
  obtain ⟨hw, hr⟩ := compatible_take h
  cases m with
  | shared => exact ⟨rfl, rfl, fun hw' => absurd (hw.symm.trans hw') nofun⟩
  | excl => exact ⟨rfl, by rw [hw]; rfl, fun _ => hr rfl⟩

theorem grant_of_waiting (h : c.waiting = some m) :
    c.granted = none ∧ c.grant.granted = some m ∧ c.grant.holds = c.holds ∧
      c.grant.sleeping = c.sleeping := by
  rcases c with ⟨_, _, _, phase, _⟩
  cases phase with
  | parked want w checks timed =>
    cases hg : w.granted with
    | true => simp [Ctx.waiting, hg] at h
    | false =>
      have hm : want = m := by simpa [Ctx.waiting, hg] using h
      subst hm
      exact ⟨by simp [Ctx.granted, hg], rfl, rfl, rfl⟩
  | _ => cases h

theorem Base.grantHead (h : Base s) (hwq : s.wq = j :: rest)
    (hm : s.waitingAt j = some m) (hfits : s.compatible m = true) :
    Base (s.grantHead j rest m) := by
  obtain ⟨c, hc, hwait⟩ := Option.bind_eq_some_iff.mp hm
  obtain ⟨hg, hg', hholds, hsleep⟩ := grant_of_waiting hwait
  obtain ⟨hreaders, hwriter, hapart⟩ := take_words hfits
  have hhas (m' : Mode) : has m' c.grant = has m' c + one m' (some m) := by
    rw [has, has, hholds, hg, hg']
    rfl
  have hnodup : (j :: rest).Nodup := hwq ▸ h.queued.nodup
  have hsub : rest.Sublist s.wq := hwq ▸ sublist_cons_self j rest
  refine h.put hc ?_ ?_ ?_ ?_ (modify_eq_set_of_getElem? hc) ?_ hapart
  · rw [hhas]
    change (s.take m).readers + _ = _
    omega
  · rw [hhas]
    change (s.take m).writer.toNat + _ = _
    omega
  · rw [sleepsIn_congr hsleep]
    cases m <;> rfl
  · rw [sleepsIn_congr hsleep]
    cases m <;> rfl
  · change Queued rest (s.ctxs.modify j Ctx.grant)
    rw [modify_eq_set_of_getElem? hc]
    exact (h.queued.sublist hsub).set_of_not_mem hc (nodup_cons.mp hnodup).1

/-- The fibers `front` of the queue were granted, and nothing else happened to the callers. -/
structure Granted (front : List ℕ) (s s' : State) : Prop where
  wq : s.wq = front ++ s'.wq
  granted : ∀ j ∈ front, (s'.grantedAt j).isSome
  others : ∀ j, j ∉ front → s'.grantedAt j = s.grantedAt j
  holds : ∀ j, s'.holdsAt j = s.holdsAt j

theorem Granted.refl : Granted [] s s := ⟨rfl, nofun, fun _ _ => rfl, fun _ => rfl⟩

theorem Granted.head (hwq : s.wq = j :: rest) (hm : s.waitingAt j = some m) :
    Granted [j] s (s.grantHead j rest m) := by
  obtain ⟨c, hc, hwait⟩ := Option.bind_eq_some_iff.mp hm
  obtain ⟨-, hg', hholds, -⟩ := grant_of_waiting hwait
  have hctxs : (s.grantHead j rest m).ctxs = s.ctxs.set j c.grant := modify_eq_set_of_getElem? hc
  have hself : (s.ctxs.set j c.grant)[j]? = some c.grant := getElem?_set_new hc
  refine ⟨hwq, ?_, ?_, ?_⟩
  · intro k hk
    rw [mem_singleton.mp hk, grantedAt, hctxs, hself, Option.bind_some, hg']
    rfl
  · intro k hk
    have hne : j ≠ k := fun h => hk (mem_singleton.mpr h.symm)
    rw [grantedAt, hctxs, getElem?_set_ne hne]
    rfl
  · intro k
    rw [holdsAt, hctxs]
    by_cases hne : j = k
    · subst hne
      rw [hself, holdsAt, hc]
      exact congrArg some hholds
    · rw [getElem?_set_ne hne]
      rfl

theorem Granted.trans {front' : List ℕ} (h : Granted front s t) (h' : Granted front' t s') :
    Granted (front ++ front') s s' where
  wq := by rw [h.wq, h'.wq, append_assoc]
  granted j hj := by
    by_cases hmem : j ∈ front'
    · exact h'.granted j hmem
    · rw [h'.others j hmem]
      exact h.granted j ((mem_append.mp hj).resolve_right hmem)
  others j hj := by
    rw [h'.others j fun hmem => hj (mem_append_right _ hmem),
      h.others j fun hmem => hj (mem_append_left _ hmem)]
  holds j := by rw [h'.holds j, h.holds j]

theorem Signalled.granted_nil (hs : Signalled s s') : Granted [] s s' :=
  ⟨hs.wq.symm, nofun, fun j _ => hs.grantedAt j, hs.holdsAt⟩

theorem HeadBlocked.signalled (h : HeadBlocked s) (hs : Signalled s s') : HeadBlocked s' := by
  intro j hj
  rw [hs.wq] at hj
  rw [hs.waitingAt, hs.compatible]
  exact h j hj

theorem exists_waitingAt (hqueue : Queued s.wq s.ctxs) (hj : j ∈ s.wq) :
    ∃ m, s.waitingAt j = some m := by
  obtain ⟨c, hc, hwait⟩ := hqueue.waiting j hj
  obtain ⟨m, hm⟩ := Option.isSome_iff_exists.mp hwait
  exact ⟨m, Option.bind_eq_some_iff.mpr ⟨c, hc, hm⟩⟩

theorem headBlocked_of_writer (hqueue : Queued s.wq s.ctxs) (hw : s.writer = true) :
    HeadBlocked s := by
  intro j hj
  obtain ⟨m, hm⟩ := exists_waitingAt hqueue (mem_of_mem_head? hj)
  refine ⟨m, hm, ?_⟩
  cases m <;> simp [compatible, hw]

/-- The loop of `__arw_grant_locked` grants a front part of the queue and stops at a head that does
not fit. -/
theorem grantQueue_spec (h : Base s) (hwq : s.wq = q) :
    Base (s.grantQueue q) ∧ HeadBlocked (s.grantQueue q) ∧
      ∃ front, Granted front s (s.grantQueue q) := by
  induction q generalizing s with
  | nil => exact ⟨h, fun j hj => absurd (hwq ▸ hj) nofun, [], .refl⟩
  | cons j rest ih =>
    obtain ⟨m, hm⟩ := exists_waitingAt h.queued (hwq ▸ mem_cons_self)
    have hm' : s.ctxs[j]?.bind Ctx.waiting = some m := hm
    simp only [grantQueue, hm']
    split
    · rename_i hfits
      have hbase := h.grantHead hwq hm hfits
      have hgrant := Granted.head hwq hm
      split
      · rename_i hexcl
        subst hexcl
        exact ⟨hbase, headBlocked_of_writer hbase.queued rfl, [j], hgrant⟩
      · obtain ⟨hbase', hhead, front, hfront⟩ := ih hbase rfl
        exact ⟨hbase', hhead, [j] ++ front, hgrant.trans hfront⟩
    · rename_i hfits
      refine ⟨h, fun k hk => ?_, [], .refl⟩
      rw [hwq] at hk
      cases hk
      exact ⟨m, hm, by simpa using hfits⟩

theorem wq_eq_nil_of_free (h : HeadBlocked s) (hfree : s.free) : s.wq = [] := by
  cases hwq : s.wq with
  | nil => rfl
  | cons j rest =>
    obtain ⟨m, -, hm⟩ := h j (by rw [hwq]; rfl)
    cases m <;> simp [compatible, hfree.1, hfree.2] at hm

/-- `__arw_grant_locked` restores what holds between two critical sections. -/
theorem grant_spec (h : Base s) (hs' : s.grant p = some s') :
    Ok s' ∧ ∃ front, Granted front s s' := by
  obtain ⟨hbase, hhead, front, hfront⟩ := grantQueue_spec h rfl
  obtain ⟨hsig, hattended⟩ := wakeThreads_spec hbase hs'
  refine ⟨⟨hbase.signalled hsig, hhead.signalled hsig, fun hfree => ?_⟩, _,
    hfront.trans hsig.granted_nil⟩
  have hfree' : (s.grantQueue s.wq).free := by
    rwa [free, hsig.readers, hsig.writer] at hfree
  exact hattended (wq_eq_nil_of_free hhead hfree') hfree'

/-! ## Releasing -/

theorem Base.has_le (h : Base s) (hc : s.ctxs[i]? = some c) :
    has .shared c ≤ s.readers ∧ has .excl c ≤ s.writer.toNat :=
  ⟨h.shared ▸ le_sum_map (mem_of_getElem? hc), h.excl ▸ le_sum_map (mem_of_getElem? hc)⟩

/-- `__arw_release_locked` gives back the hold that caller `i` gave up. -/
theorem Base.release (h : Base s) (hc : s.ctxs[i]? = some c)
    (hself : has m c = has m c' + 1) (hother : ∀ m', m' ≠ m → has m' c' = has m' c)
    (hsleep : c'.sleeping = c.sleeping) (hqueue : Queued q (s.ctxs.set i c')) :
    Base (({ s with wq := q } : State).put i c').release := by
  obtain ⟨hle, hle'⟩ := h.has_le hc
  have hwords : (if s.writer then s.readers else s.readers - 1) + has .shared c =
      s.readers + has .shared c' ∧ has .excl c = s.writer.toNat + has .excl c' := by
    cases m with
    | shared =>
      have hw : s.writer = false := by
        cases hb : s.writer with
        | false => rfl
        | true => exact absurd (h.apart hb) (by omega)
      rw [hother .excl nofun, hw]
      exact ⟨by simp only [false_eq_true, if_false]; omega, by simp⟩
    | excl =>
      have hw : s.writer = true := by
        cases hb : s.writer with
        | true => rfl
        | false => rw [hb, toNat_false] at hle'; omega
      rw [hother .shared nofun, hw]
      exact ⟨by simp, by rw [toNat_true]; omega⟩
  refine h.put hc hwords.1 ?_ ?_ ?_ rfl hqueue nofun
  · rw [← hwords.2]
    exact Nat.zero_add _
  · rw [sleepsIn_congr hsleep]
    rfl
  · rw [sleepsIn_congr hsleep]
    rfl

/-! ## The calls -/

/-- The fibers granted in a step of caller `i` are a front part of the queue, which the caller may
have left before; new waiters join at the tail. The caller gets a hold only if it was granted one or
found the queue empty. -/
structure Order (i : ℕ) (c : Ctx) (s s' : State) : Prop where
  granted : ∃ front rest, (s.wq = front ++ rest ∨ s.wq.erase i = front ++ rest) ∧
    (s'.wq = rest ∨ s'.wq = rest ++ [i]) ∧ (∀ j ∈ front, (s'.grantedAt j).isSome) ∧
    ∀ j, j ∉ front → (s'.grantedAt j).isSome → (s.grantedAt j).isSome
  entered : s'.holdsAt i = some c.holds ∨ s'.holdsAt i = some c.holds.drop ∨
    c.granted.isSome ∨ s.wq = []

section

variable (hc : s.ctxs[i]? = some c) (hctxs : t.ctxs = s.ctxs.set i c')
include hc hctxs

theorem grantedAt_put (hg : c'.granted = none ∨ c'.granted = c.granted)
    (h : (t.grantedAt j).isSome) : (s.grantedAt j).isSome := by
  rw [grantedAt, hctxs] at h
  by_cases hij : i = j
  · subst hij
    rw [getElem?_set_new hc, Option.bind_some] at h
    rw [grantedAt, hc, Option.bind_some]
    rcases hg with hg | hg
    · rw [hg] at h
      cases h
    · exact hg ▸ h
  · rwa [getElem?_set_ne hij] at h

theorem holdsAt_put : t.holdsAt i = some c'.holds := by
  rw [holdsAt, hctxs, getElem?_set_new hc]
  rfl

end

/-- A step that grants nothing. -/
theorem Order.quiet (hc : s.ctxs[i]? = some c) (hctxs : s'.ctxs = s.ctxs.set i c' := by rfl)
    (hg : c'.granted = none ∨ c'.granted = c.granted := by exact .inl rfl)
    (hwq : s'.wq = s.wq ∨ s'.wq = s.wq ++ [i] := by exact .inl rfl)
    (hentered : c'.holds = c.holds ∨ c.granted.isSome ∨ s.wq = [] := by exact .inl rfl) :
    Order i c s s' := by
  refine ⟨⟨[], s.wq, .inl rfl, hwq, nofun, fun j _ hj => grantedAt_put hc hctxs hg hj⟩, ?_⟩
  rcases hentered with heq | hrest
  · exact .inl ((holdsAt_put hc hctxs).trans (congrArg some heq))
  · exact .inr (.inr hrest)

/-- A step that ends in `__arw_grant_locked`. -/
theorem Order.grant (h : Granted front t s') (hc : s.ctxs[i]? = some c)
    (hctxs : t.ctxs = s.ctxs.set i c') (hg : c'.granted = none ∨ c'.granted = c.granted)
    (hwq : t.wq = s.wq ∨ t.wq = s.wq.erase i)
    (hentered : c'.holds = c.holds ∨ c'.holds = c.holds.drop) : Order i c s s' := by
  have hholds : s'.holdsAt i = some c'.holds := (h.holds i).trans (holdsAt_put hc hctxs)
  refine ⟨⟨front, s'.wq, ?_, .inl rfl, h.granted, fun j hj hsome => ?_⟩, ?_⟩
  · rcases hwq with hwq | hwq
    · exact .inl (hwq.symm.trans h.wq)
    · exact .inr (hwq.symm.trans h.wq)
  · rw [h.others j hj] at hsome
    exact grantedAt_put hc hctxs hg hsome
  · rcases hentered with heq | heq
    · exact .inl (hholds.trans (congrArg some heq))
    · exact .inr (.inl (hholds.trans (congrArg some heq)))

theorem threadOk_iff : s.threadOk m = true ↔ s.wq = [] ∧ s.compatible m = true := by
  rw [threadOk, and_eq_true_iff, List.isEmpty_iff]

/-- A free latch with nobody queued is open in every mode. -/
theorem threadOk_of_free (h : HeadBlocked s) (hfree : s.free) : s.threadOk m = true := by
  refine threadOk_iff.mpr ⟨wq_eq_nil_of_free h hfree, ?_⟩
  cases m <;> simp [compatible, hfree.1, hfree.2]

theorem has_acquired (hg : c.granted = none) {m' : Mode} :
    has m' { c with phase := .idle, holds := c.holds.take m } = has m' c + one m' (some m) := by
  rw [has, has, hg]
  cases m <;> cases m' <;> rfl

/-- A caller takes the latch that it finds open. -/
theorem take_spec (h : Base s) (hc : s.ctxs[i]? = some c) (hopen : s.threadOk m = true)
    (hg : c.granted = none) (hsleep : c.sleeping = none) :
    (Ok ((s.take m).acquired i c m) ∧ ¬ ((s.take m).acquired i c m).free) ∧
      Order i c s ((s.take m).acquired i c m) := by
  obtain ⟨hwq, hfits⟩ := threadOk_iff.mp hopen
  obtain ⟨hreaders, hwriter, hapart⟩ := take_words hfits
  have hwq' : (s.take m).wq = s.wq := by cases m <;> rfl
  have hctxs : (s.take m).ctxs = s.ctxs := by cases m <;> rfl
  have hrd : (s.take m).rdWaiters = s.rdWaiters := by cases m <;> rfl
  have hwr : (s.take m).wrWaiters = s.wrWaiters := by cases m <;> rfl
  have hsleeps (m' : Mode) : sleepsIn m' c = 0 := by rw [sleepsIn, hsleep]; rfl
  have hbusy : ¬ ((s.take m).acquired i c m).free := by
    rintro ⟨hr, hw⟩
    cases m with
    | shared => exact absurd hr (Nat.succ_ne_zero _)
    | excl => cases hw
  refine ⟨⟨⟨?_, ?_, fun hfree => absurd hfree hbusy⟩, hbusy⟩, ?_⟩
  · refine h.put (d := { c with phase := .idle, holds := c.holds.take m }) hc ?_ ?_ ?_ ?_ ?_
      ?_ hapart
    · rw [has_acquired hg]
      change (s.take m).readers + _ = _
      omega
    · rw [has_acquired hg]
      change (s.take m).writer.toNat + _ = _
      omega
    · rw [hsleeps]
      exact hrd
    · rw [hsleeps]
      exact hwr
    · change (s.take m).ctxs.set i _ = _
      rw [hctxs]
    · change Queued (s.take m).wq ((s.take m).ctxs.set i _)
      rw [hwq', hwq]
      exact ⟨nodup_nil, nofun⟩
  · intro j hj
    change (s.take m).wq.head? = some j at hj
    rw [hwq', hwq] at hj
    cases hj
  · have hset : ((s.take m).acquired i c m).ctxs =
        s.ctxs.set i { c with phase := .idle, holds := c.holds.take m } := by rw [← hctxs]; rfl
    exact .quiet hc hset (.inl rfl) (.inl hwq') (.inr (.inr hwq))

theorem Ok.signalled (h : Ok s) (hs : Signalled s s') (hbusy : ¬ s.free) : Ok s' := by
  refine ⟨h.base.signalled hs, h.head.signalled hs, fun hfree => absurd ?_ hbusy⟩
  rwa [free, hs.readers, hs.writer] at hfree

theorem Order.signalled (h : Order i c s t) (hs : Signalled t s') : Order i c s s' := by
  obtain ⟨⟨front, rest, hwq, hrest, hfront, hothers⟩, hentered⟩ := h
  refine ⟨⟨front, rest, hwq, ?_, fun j hj => ?_, fun j hj hsome => ?_⟩, ?_⟩
  · rw [hs.wq]
    exact hrest
  · rw [hs.grantedAt]
    exact hfront j hj
  · rw [hs.grantedAt] at hsome
    exact hothers j hj hsome
  · rw [hs.holdsAt]
    exact hentered

theorem takeThread_spec (h : Base s) (hc : s.ctxs[i]? = some c) (hopen : s.threadOk m = true)
    (hg : c.granted = none) (hsleep : c.sleeping = none)
    (hs' : s.takeThread i c m p = some s') : Ok s' ∧ Order i c s s' := by
  obtain ⟨⟨hok, hbusy⟩, horder⟩ := take_spec h hc hopen hg hsleep
  rw [takeThread] at hs'
  split at hs'
  · obtain ⟨hsig, -⟩ := wakeThreads_spec hok.base hs'
    exact ⟨hok.signalled hsig hbusy, horder.signalled hsig⟩
  · cases hs'
    exact ⟨hok, horder⟩

/-- A caller changes in a way that does not matter to the latch. -/
theorem Ok.change (h : Ok s) (hc : s.ctxs[i]? = some c)
    (hhas : ∀ m, has m c' = has m c := by exact fun _ => rfl)
    (hsleep : c'.sleeping = c.sleeping := by rfl)
    (hsig : c.signalled.isSome → c'.signalled.isSome := by exact id)
    (hwait : i ∈ s.wq → c'.waiting = c.waiting := by exact fun _ => rfl) : Ok (s.put i c') := by
  refine ⟨?_, ?_, ?_⟩
  · refine h.base.move hc hhas hsleep (h.base.queued.set hc fun hi => ?_)
    rw [hwait hi]
    exact h.base.queued.waiting_of_mem hc hi
  · intro j hj
    obtain ⟨m, hm, hblock⟩ := h.head j hj
    refine ⟨m, ?_, hblock⟩
    by_cases hij : i = j
    · subst hij
      rw [waitingAt, put, getElem?_set_new hc, Option.bind_some, hwait (mem_of_mem_head? hj)]
      rwa [waitingAt, hc] at hm
    · rwa [waitingAt, put, getElem?_set_ne hij]
  · exact fun hfree => exists_mem_set hc (h.attended hfree) (fun hs => hsleep ▸ hs) hsig

theorem has_phase {p : Phase Mode} (hg : c.granted = none)
    (hg' : ({ c with phase := p } : Ctx).granted = none) (m' : Mode) :
    has m' { c with phase := p } = has m' c := by
  rw [has, has, hg, hg']

/-- A caller that is not queued moves on under the lock. -/
theorem HeadBlocked.put (h : HeadBlocked s) (hi : i ∉ s.wq)
    (hctxs : t.ctxs = s.ctxs.set i c' := by rfl)
    (hwords : t.readers = s.readers ∧ t.writer = s.writer ∧ t.wq = s.wq := by
      exact ⟨rfl, rfl, rfl⟩) : HeadBlocked t := by
  obtain ⟨hr, hw, hwq⟩ := hwords
  intro j hj
  rw [hwq] at hj
  obtain ⟨m, hm, hblock⟩ := h j hj
  have hij : i ≠ j := fun heq => hi (heq ▸ mem_of_mem_head? hj)
  refine ⟨m, ?_, ?_⟩
  · rw [waitingAt, hctxs, getElem?_set_ne hij]
    exact hm
  · rw [← hblock]
    cases m <;> simp only [compatible, hr, hw]

theorem lockThread_spec {spun : Bool} (h : Base s) (hhead : HeadBlocked s)
    (hc : s.ctxs[i]? = some c) (hg : c.granted = none) (hsleep : c.sleeping = none)
    (hwait : c.waiting = none) (hs' : s.lockThread cap i c m timed spun p = some s') :
    Ok s' ∧ Order i c s s' := by
  have hi := h.queued.not_mem hc hwait
  rw [lockThread] at hs'
  split at hs'
  · exact takeThread_spec h hc ‹_› hg hsleep hs'
  · rename_i hshut
    have hbusy : ¬ s.free := fun hfree => hshut (threadOk_of_free hhead hfree)
    have hqueue {phase : Phase Mode} : Queued s.wq (s.ctxs.set i { c with phase := phase }) :=
      h.queued.set_of_not_mem hc hi
    have hzero (m' : Mode) : sleepsIn m' c = 0 := by rw [sleepsIn, hsleep]; rfl
    split at hs'
    · cases hs'
      have hsame : ({ c with phase := .spinning m timed } : Ctx).sleeping = c.sleeping :=
        hsleep.symm
      exact ⟨⟨h.move hc (has_phase hg rfl) hsame hqueue, hhead.put hi,
        fun hfree => absurd hfree hbusy⟩, .quiet hc⟩
    · have hhas' (m' : Mode) := has_phase (p := .asleep m timed false) hg rfl m'
      cases m with
      | shared | excl =>
        cases hs'
        refine ⟨⟨h.put hc ?_ ?_ ?_ ?_ rfl hqueue h.apart, hhead.put hi,
          fun hfree => absurd hfree hbusy⟩, .quiet hc⟩
        · exact congrArg (s.readers + ·) (hhas' .shared).symm
        · exact congrArg (s.writer.toNat + ·) (hhas' .excl).symm
        · rw [hzero]
          rfl
        · rw [hzero]
          rfl

/-- The waiter `w` for mode `m` is that of a fiber in the loop of `__arwlock_lock`. -/
structure Fiber (c : Ctx) (m : Mode) (w : Waiter) : Prop where
  sleeping : c.sleeping = none
  signalled : c.signalled = none
  granted : c.granted = if w.granted then some m else none
  waiting : c.waiting = none ∨ c.waiting = some m

variable {w : Waiter} {checks expired signalled : Bool} {lost : ℕ}

theorem Fiber.granted_eq_none (hf : Fiber c m w) (hg : w.granted = false) : c.granted = none := by
  rw [hf.granted, hg]
  rfl

theorem Fiber.granted_eq_some (hf : Fiber c m w) (hg : w.granted = true) : c.granted = some m := by
  rw [hf.granted, hg]
  rfl

/-- A caller that is not in the queue is not granted anything. -/
theorem Granted.not_queued (h : Granted front t s') (hi : i ∉ t.wq) (ht : t.ctxs[i]? = some c')
    (hg : c'.granted = none) : s'.grantedAt i = none ∧ s'.holdsAt i = some c'.holds := by
  have hfront : i ∉ front := fun hmem => hi (h.wq ▸ mem_append_left _ hmem)
  rw [h.others i hfront, h.holds, grantedAt, holdsAt, ht]
  exact ⟨hg, rfl⟩

section

variable (h : Ok s) (hc : s.ctxs[i]? = some c) (hf : Fiber c m w)
include h hc hf

/-- A fiber that was not granted anything leaves the queue, which may let others in. -/
theorem leave_spec {phase : Phase Mode}
    (hg : w.granted = false) (hg' : ({ c with phase := phase } : Ctx).granted = none)
    (hsleep : ({ c with phase := phase } : Ctx).sleeping = none)
    (hs' : ((s.leaveQueue i).put i { c with phase := phase }).grant p = some s') :
    (Ok s' ∧ Order i c s s') ∧ s'.grantedAt i = none ∧ s'.holdsAt i = some c.holds := by
  have hbase : Base ((s.leaveQueue i).put i { c with phase := phase }) :=
    h.base.move hc (has_phase (hf.granted_eq_none hg) hg') (hsleep.trans hf.sleeping.symm)
      (h.base.queued.erase_set hc)
  obtain ⟨hok, front, hfront⟩ := grant_spec hbase hs'
  have hget : (s.put i { c with phase := phase }).ctxs[i]? = some _ := getElem?_set_new hc
  have hleft := hfront.not_queued h.base.queued.nodup.not_mem_erase hget hg'
  exact ⟨⟨hok, .grant hfront hc rfl (.inl hg') (.inr rfl) (.inl rfl)⟩, hleft⟩

/-- A killed fiber gives back what it was granted. -/
theorem giveBack_spec (hg : w.granted = true)
    (hs' : ((s.leaveQueue i).put i { c with phase := .delivering m lost timed }).release.grant p =
      some s') :
    (Ok s' ∧ Order i c s s') ∧ s'.grantedAt i = none ∧ s'.holdsAt i = some c.holds := by
  have hgrant := hf.granted_eq_some hg
  have hself : has m c = has m { c with phase := .delivering m lost timed } + 1 := by
    rw [has, hgrant]
    cases m <;> rfl
  have hother (m' : Mode) (hne : m' ≠ m) :
      has m' { c with phase := .delivering m lost timed } = has m' c := by
    rw [has, has, hgrant]
    cases m <;> cases m' <;> first | rfl | exact absurd rfl hne
  have hbase := h.base.release hc hself hother hf.sleeping.symm (h.base.queued.erase_set hc)
  obtain ⟨hok, front, hfront⟩ := grant_spec hbase hs'
  have hget : (s.put i { c with phase := .delivering m lost timed }).ctxs[i]? = some _ :=
    getElem?_set_new hc
  have hleft := hfront.not_queued h.base.queued.nodup.not_mem_erase hget rfl
  exact ⟨⟨hok, .grant hfront hc rfl (.inl rfl) (.inr rfl) (.inl rfl)⟩, hleft⟩

/-- A fiber that was granted the latch returns with it. -/
theorem acquired_spec
    (hg : w.granted = true) : Ok (s.acquired i c m) ∧ Order i c s (s.acquired i c m) := by
  have hgrant := hf.granted_eq_some hg
  refine ⟨h.change hc ?_ hf.sleeping.symm ?_ ?_,
    .quiet hc rfl (.inl rfl) (.inl rfl) (.inr (.inl ?_))⟩
  · intro m'
    rw [has, has, hgrant]
    cases m <;> cases m' <;> rfl
  · rw [hf.signalled]
    exact nofun
  · exact fun hi => absurd hi (h.base.queued.not_mem hc (Ctx.waiting_eq_none (hgrant ▸ rfl)))
  · rw [hgrant]
    rfl

end

/-- Who joins the queue and leaves it at once was never there. -/
theorem leaveQueue_enqueue : (s.enqueue i).leaveQueue i = s.leaveQueue i := by
  have hwq : (if i ∈ s.wq then s.wq else s.wq ++ [i]).erase i = s.wq.erase i := by
    split
    · rfl
    · rename_i hi
      rw [erase_append_right _ hi, erase_cons_head, append_nil, erase_of_not_mem hi]
  rw [leaveQueue, leaveQueue, enqueue, hwq]

/-- A fiber that may not take the latch joins the queue, or stays there, and parks. -/
theorem park_spec (h : Ok s) (hc : s.ctxs[i]? = some c) (hf : Fiber c m w)
    (hg : w.granted = false) (hshut : ¬ (i ∉ s.wq ∧ s.threadOk m = true))
    (hs' : (s.enqueue i).put i { c with phase := .parked m (.ungranted lost) checks timed } = s') :
    Ok s' ∧ Order i c s s' := by
  have hnone := hf.granted_eq_none hg
  have hsleep : ({ c with phase := .parked m (.ungranted lost) checks timed } : Ctx).sleeping =
    c.sleeping := hf.sleeping.symm
  subst hs'
  rw [enqueue]
  split
  · rename_i hi
    refine ⟨h.change hc (has_phase hnone rfl) hsleep ?_ fun _ => ?_, .quiet hc⟩
    · rw [hf.signalled]
      exact nofun
    · refine (hf.waiting.resolve_left fun hw => ?_).symm
      exact h.base.queued.not_mem hc hw hi
  · rename_i hi
    have hcl : ¬ s.threadOk m = true := fun hopen => hshut ⟨hi, hopen⟩
    refine ⟨⟨?_, ?_, fun hfree => absurd (threadOk_of_free h.head hfree) hcl⟩,
      .quiet hc rfl (.inl rfl) (.inr rfl)⟩
    · exact h.base.move hc (has_phase hnone rfl) hsleep (h.base.queued.append_set hc hi rfl)
    · intro j hj
      have hself : (ctxs
          (s.put i { c with phase := .parked m (.ungranted lost) checks timed }))[i]? = some _ :=
        getElem?_set_new hc
      cases hwq : s.wq with
      | nil =>
        rw [hwq] at hj
        cases hj
        refine ⟨m, Option.bind_eq_some_iff.mpr ⟨_, hself, rfl⟩, ?_⟩
        change s.compatible m = false
        simpa [threadOk_iff, hwq] using hcl
      | cons k rest =>
        rw [hwq] at hj
        have hkj : k = j := Option.some.inj hj
        subst hkj
        obtain ⟨m', hm', hblock⟩ := h.head k (by rw [hwq]; rfl)
        obtain ⟨d, hd, hdm⟩ := Option.bind_eq_some_iff.mp hm'
        have hik : i ≠ k := fun heq => hi (by rw [hwq, heq]; exact mem_cons_self)
        exact ⟨m', Option.bind_eq_some_iff.mpr ⟨d, (getElem?_set_ne hik).trans hd, hdm⟩, hblock⟩

theorem pass_spec (h : Ok s) (hc : s.ctxs[i]? = some c) (hf : Fiber c m w)
    (hs' : s.pass i c m w checks timed expired p = some s') : Ok s' ∧ Order i c s s' := by
  cases hg : w.granted with
  | true =>
    rw [State.pass] at hs'
    split at hs'
    · exact (giveBack_spec h hc hf hg hs').1
    · cases hs'
      exact acquired_spec h hc hf hg
  | false =>
    have hng : ¬ w.granted = true := by rw [hg]; exact nofun
    rw [State.pass] at hs'
    split at hs'
    · exact (leave_spec h hc hf hg rfl rfl hs').1
    · split at hs'
      · rename_i hopen
        cases hs'
        obtain ⟨⟨hok, -⟩, horder⟩ := take_spec h.base hc hopen.2 (hf.granted_eq_none hg) hf.sleeping
        exact ⟨hok, horder⟩
      · split at hs'
        · rw [leaveQueue_enqueue] at hs'
          exact (leave_spec h hc hf hg rfl rfl hs').1
        · exact park_spec h hc hf hg ‹_› (Option.some.inj hs')

/-! ## Every step -/

/-- A thread is up again. -/
theorem uncount_spec (h : Ok s) (hc : s.ctxs[i]? = some c)
    (hph : c.phase = .asleep m timed signalled) :
    Base (s.uncount i c timed m) ∧ HeadBlocked (s.uncount i c timed m) := by
  rcases c with ⟨onLoop, inProc, kill, _, holds⟩
  cases hph
  have hi := h.base.queued.not_mem hc rfl
  have hmem := mem_of_getElem? hc
  have hrd : sleepsIn .shared ⟨onLoop, inProc, kill, .asleep m timed signalled, holds⟩
      ≤ s.rdWaiters :=
    h.base.rd ▸ le_sum_map hmem
  have hwr : sleepsIn .excl ⟨onLoop, inProc, kill, .asleep m timed signalled, holds⟩
      ≤ s.wrWaiters :=
    h.base.wr ▸ le_sum_map hmem
  cases m with
  | shared | excl =>
    refine ⟨h.base.put (d := ⟨onLoop, inProc, kill, .spun _ timed, holds⟩) hc rfl rfl ?_ ?_ rfl
      (h.base.queued.set_of_not_mem hc hi) h.base.apart, h.head.put hi⟩
    all_goals first | rfl | exact Nat.sub_add_cancel hrd | exact Nat.sub_add_cancel hwr

/-- What caller `i` did before the rest of its step does not show in the order. -/
theorem Order.of_put (h : Order i c' t s') (hc : s.ctxs[i]? = some c) (hg : c'.granted = none)
    (hholds : c'.holds = c.holds) (hctxs : t.ctxs = s.ctxs.set i c') (hwq : t.wq = s.wq) :
    Order i c s s' := by
  obtain ⟨⟨front, rest, hfront, hrest, hgrant, hothers⟩, hentered⟩ := h
  rw [hwq] at hfront hentered
  rw [hholds, hg] at hentered
  refine ⟨⟨front, rest, hfront, hrest, hgrant, fun j hj hsome => ?_⟩, ?_⟩
  · exact grantedAt_put hc hctxs (.inl hg) (hothers j hj hsome)
  · rcases hentered with h1 | h2 | h3 | h4
    · exact .inl h1
    · exact .inr (.inl h2)
    · cases h3
    · exact .inr (.inr (.inr h4))

theorem has_drop (hpos : 0 < c.holds.shared + c.holds.excl) :
    ∃ m, has m c = has m { c with holds := c.holds.drop } + 1 ∧
      ∀ m', m' ≠ m → has m' { c with holds := c.holds.drop } = has m' c := by
  have hhas (m : Mode) : has m { c with holds := c.holds.drop } =
      c.holds.drop.of m + one m c.granted := rfl
  by_cases hexcl : 0 < c.holds.excl
  · have hdrop : c.holds.drop = { c.holds with excl := c.holds.excl - 1 } := if_pos hexcl
    refine ⟨.excl, ?_, fun m' hne => ?_⟩
    · rw [hhas, hdrop, has]
      simp only [Holds.of]
      omega
    · cases m' with
      | excl => exact absurd rfl hne
      | shared => rw [hdrop]; rfl
  · have hdrop : c.holds.drop = { c.holds with shared := c.holds.shared - 1 } := if_neg hexcl
    refine ⟨.shared, ?_, fun m' hne => ?_⟩
    · rw [hhas, hdrop, has]
      simp only [Holds.of]
      omega
    · cases m' with
      | shared => exact absurd rfl hne
      | excl => rw [hdrop]; rfl

/-- A step that leaves the callers and the queue as they are. -/
theorem Order.same (hc : s.ctxs[i]? = some c) : Order i c s s :=
  ⟨⟨[], s.wq, .inl rfl, .inl rfl, nofun, fun _ _ hsome => hsome⟩, .inl (by rw [holdsAt, hc]; rfl)⟩

theorem Ok.spinners (h : Ok s) (k : ℕ) : Ok { s with spinners := k } :=
  ⟨{ h.base with }, h.head, h.attended⟩

theorem Fiber.ofParked (hph : c.phase = .parked m w checks timed) : Fiber c m w := by
  rcases c with ⟨_, _, _, _, _⟩
  cases hph
  refine ⟨rfl, rfl, rfl, ?_⟩
  cases hg : w.granted
  · exact .inr (by simp [Ctx.waiting, hg])
  · exact .inl (by simp [Ctx.waiting, hg])

/-- A thread leaves the condition variable and gives up, or looks at the latch again. -/
theorem wakeUp_spec (h : Ok s) (hc : s.ctxs[i]? = some c)
    (hph : c.phase = .asleep m timed signalled) (hs' : (if timed && expired && !s.threadOk m then
        some ((s.uncount i c timed m).put i { c with phase := .idle })
      else (s.uncount i c timed m).lockThread cap i c m timed false p) = some s') :
    Ok s' ∧ Order i c s s' := by
  obtain ⟨hbase, hhead⟩ := uncount_spec h hc hph
  rcases c with ⟨onLoop, inProc, kill, _, holds⟩
  cases hph
  generalize hmid : s.uncount i ⟨onLoop, inProc, kill, .asleep m timed signalled, holds⟩ timed m
    = t at *
  have hfields : t.ctxs = s.ctxs.set i ⟨onLoop, inProc, kill, .spun m timed, holds⟩ ∧
      t.wq = s.wq ∧ t.readers = s.readers ∧ t.writer = s.writer := by
    subst hmid
    cases m <;> exact ⟨rfl, rfl, rfl, rfl⟩
  obtain ⟨hctxs, hwq, hr, hw⟩ := hfields
  have hget : t.ctxs[i]? = some ⟨onLoop, inProc, kill, .spun m timed, holds⟩ := by
    rw [hctxs]
    exact getElem?_set_new hc
  split at hs'
  · rename_i hexp
    cases hs'
    have hshut : s.threadOk m = false := by simpa using (and_eq_true_iff.mp hexp).2
    have hi : i ∉ t.wq := hbase.queued.not_mem hget rfl
    refine ⟨⟨?_, hhead.put hi, fun hfree => ?_⟩, ?_⟩
    · exact hbase.move (d := ⟨onLoop, inProc, kill, .idle, holds⟩) hget (fun _ => rfl) rfl
        (hbase.queued.set_of_not_mem hget hi)
    · have hfree' : s.free := ⟨hr.symm.trans hfree.1, hw.symm.trans hfree.2⟩
      exact absurd ((threadOk_of_free h.head hfree').symm.trans hshut) nofun
    · exact Order.of_put (.quiet hget) hc rfl rfl hctxs hwq
  · obtain ⟨hok, horder⟩ := lockThread_spec hbase hhead hget rfl rfl rfl hs'
    exact ⟨hok, horder.of_put hc rfl rfl hctxs hwq⟩

theorem act_spec {a : Act} (h : Ok s) (hc : s.ctxs[i]? = some c) (hs' : s.act cap i c a = some s') :
    Ok s' ∧ Order i c s s' := by
  rcases c with ⟨onLoop, inProc, kill, phase, holds⟩
  unfold act at hs'
  dsimp only at hs'
  split at hs'
  · rw [lock] at hs'
    split at hs'
    · rename_i hopen
      cases hs'
      obtain ⟨⟨hok, -⟩, horder⟩ := take_spec h.base hc hopen rfl rfl
      exact ⟨hok, horder⟩
    · split at hs'
      · cases hs'
        exact ⟨h, .same hc⟩
      · split at hs'
        · exact pass_spec h hc ⟨rfl, rfl, rfl, .inl rfl⟩ hs'
        · exact lockThread_spec h.base h.head hc rfl rfl rfl hs'
  · split at hs'
    · rename_i hpos
      obtain ⟨m, hself, hother⟩ := has_drop (c := ⟨onLoop, inProc, kill, .idle, holds⟩) hpos
      have hi := h.base.queued.not_mem hc rfl
      have hbase := h.base.release hc hself hother rfl (h.base.queued.set_of_not_mem hc hi)
      obtain ⟨hok, front, hfront⟩ := grant_spec hbase hs'
      exact ⟨hok, .grant hfront hc rfl (.inl rfl) (.inl rfl) (.inr rfl)⟩
    · cases hs'
  · exact pass_spec h hc (.ofParked rfl) hs'
  · split at hs'
    · cases hs'
      exact ⟨h.change hc, .quiet hc⟩
    · exact pass_spec h hc ⟨rfl, rfl, rfl, .inl rfl⟩ hs'
  · split at hs'
    · rename_i hopen
      obtain ⟨hok, horder⟩ := takeThread_spec (s := { s with spinners := s.spinners - 1 })
        (h.spinners _).base hc hopen rfl rfl hs'
      exact ⟨hok, horder.granted, horder.entered⟩
    · cases hs'
  · cases hs'
    exact ⟨(h.spinners _).change hc (fun _ => rfl) rfl nofun, .quiet hc⟩
  · exact lockThread_spec h.base h.head hc rfl rfl rfl hs'
  · exact wakeUp_spec h hc rfl hs'
  · split at hs'
    · cases hs'
      exact ⟨h.change hc, .quiet hc rfl (.inr rfl)⟩
    · cases hs'
  · cases hs'
    exact ⟨h.change hc, .quiet hc⟩
  · cases hs'

theorem ok_create {kinds : List (Bool × Bool)} : Ok (create kinds) := by
  have hall {f : Ctx → ℕ} (hf : ∀ k : Bool × Bool, f (Ctx.fresh k.1 k.2) = 0) :
      total f (create kinds).ctxs = 0 := by
    rw [total, create, map_map]
    induction kinds with
    | nil => rfl
    | cons k kinds ih =>
      rw [map_cons, sum_cons, ih, Function.comp_apply, hf]
  refine ⟨⟨hall fun _ => rfl, hall fun _ => rfl, hall fun _ => rfl, hall fun _ => rfl,
    ⟨nodup_nil, nofun⟩, nofun⟩, nofun, fun _ c hc hsleep => ?_⟩
  obtain ⟨k, _, rfl⟩ := mem_map.mp hc
  cases hsleep

theorem Ok.of_reachable (hs : (system cap).Reachable s) : Ok s := by
  refine hs.invariant ?_ ?_
  · rintro s ⟨kinds, rfl⟩
    exact ok_create
  · rintro s ⟨i, a⟩ s' h - ht
    obtain ⟨c, hc, hact⟩ := Option.bind_eq_some_iff.mp ht
    exact (act_spec h hc hact).1

/-- A caller that holds or was granted the latch exclusively is alone. -/
theorem Base.alone (h : Base s) (hc : s.ctxs[i]? = some c) (hpos : 0 < has .excl c) :
    has .excl c = 1 ∧ has .shared c = 0 ∧
      ∀ (j : ℕ) d, i ≠ j → s.ctxs[j]? = some d → has .excl d = 0 ∧ has .shared d = 0 := by
  obtain ⟨hle, hle'⟩ := h.has_le hc
  have hone := toNat_le s.writer
  have hw : s.writer = true := by
    cases hb : s.writer with
    | true => rfl
    | false => rw [hb, toNat_false] at hle'; omega
  have hr := h.apart hw
  refine ⟨by omega, by omega, fun j d hij hd => ?_⟩
  have hsum := add_le_sum_map (f := has .excl) hc hd hij
  have hexcl : ((s.ctxs.map (has .excl)).sum) = s.writer.toNat := h.excl
  have hshared := (h.has_le hd).1
  exact ⟨by omega, by omega⟩

/-- A killed fiber leaves without what it may have been granted. -/
theorem killed_spec (h : Ok s) (hc : s.ctxs[i]? = some c)
    (hph : c.phase = .parked m w checks timed) (hdying : c.dying = true)
    (hs' : s.pass i c m w checks timed expired p = some s') :
    s'.grantedAt i = none ∧ s'.holdsAt i = some c.holds := by
  have hf := Fiber.ofParked hph
  have hkill : (checks && c.kill) = true := by rwa [Ctx.dying, hph] at hdying
  rw [State.pass, if_pos hkill] at hs'
  cases hg : w.granted with
  | true =>
    simp only [if_pos hg] at hs'
    exact (giveBack_spec h hc hf hg hs').2
  | false =>
    simp only [hg] at hs'
    exact (leave_spec h hc hf hg rfl rfl hs').2

theorem pass_of_act (h : s.act cap i c (.resume expired p) = some s') :
    ∃ m w checks timed, c.phase = .parked m w checks timed ∧
      s.pass i c m w checks timed expired p = some s' := by
  rcases c with ⟨onLoop, inProc, kill, phase, holds⟩
  cases phase with
  | parked m w checks timed => exact ⟨m, w, checks, timed, rfl, h⟩
  | _ => cases h

/-- In every state of every run `readers` and `writer` count the holds of the callers, the granted
ones included, and an exclusive hold is alone; the head of the fiber queue does not fit; each step
grants the queue in its order; a killed waiter gives back what it was granted; and a free latch has
no queued fiber and, if a thread sleeps, a thread that was signalled and can enter. -/
theorem parking_latch {cap : ℕ} {s : State} (hs : (system cap).Reachable s) :
    (total (has .shared) s.ctxs = s.readers ∧ total (has .excl) s.ctxs = s.writer.toNat) ∧
    (∀ (i : ℕ) c, s.ctxs[i]? = some c → 0 < has .excl c → has .excl c = 1 ∧ has .shared c = 0 ∧
      ∀ (j : ℕ) d, i ≠ j → s.ctxs[j]? = some d → has .excl d = 0 ∧ has .shared d = 0) ∧
    (∀ j, s.wq.head? = some j → ∃ m, s.waitingAt j = some m ∧ s.compatible m = false) ∧
    (∀ i c a s', s.ctxs[i]? = some c → (system cap).step s (i, a) = some s' → Order i c s s') ∧
    (∀ i c expired p s', s.ctxs[i]? = some c → c.dying = true →
      (system cap).step s (i, .resume expired p) = some s' →
      s'.grantedAt i = none ∧ s'.holdsAt i = some c.holds) ∧
    (s.free → (s.wq ≠ [] ∨ ∃ c ∈ s.ctxs, c.sleeping.isSome) →
      ∃ c ∈ s.ctxs, ∃ m, c.signalled = some m ∧ s.compatible m = true) := by
  have h := Ok.of_reachable hs
  have hstep {i : ℕ} {a : Act} {c : Ctx} {s' : State} (hc : s.ctxs[i]? = some c)
      (hs' : (system cap).step s (i, a) = some s') : s.act cap i c a = some s' := by
    obtain ⟨d, hd, hact⟩ := Option.bind_eq_some_iff.mp hs'
    cases hc.symm.trans hd
    exact hact
  refine ⟨⟨h.base.shared, h.base.excl⟩, fun i c hc => h.base.alone hc, h.head, ?_, ?_, ?_⟩
  · intro i c a s' hc hs'
    exact (act_spec h hc (hstep hc hs')).2
  · intro i c expired p s' hc hdying hs'
    obtain ⟨m, w, checks, timed, hphase, hpass⟩ := pass_of_act (hstep hc hs')
    exact killed_spec h hc hphase hdying hpass
  · intro hfree hwaits
    obtain ⟨c, hc, hsleeping⟩ := hwaits.resolve_left fun hne => hne (wq_eq_nil_of_free h.head hfree)
    obtain ⟨d, hd, hsignalled⟩ := h.attended hfree c hc hsleeping
    obtain ⟨m, hm⟩ := Option.isSome_iff_exists.mp hsignalled
    exact ⟨d, hd, m, hm, (threadOk_iff.mp (threadOk_of_free h.head hfree)).2⟩

/-- Three fibers and a thread. A writer holds the latch; a reader and a writer queue up behind it
and a thread falls asleep for a read. The unlock grants the reader, which is then killed. -/
def grantedAndKilled : List (ℕ × Act) :=
  [(0, .lock .excl .forever false 0), (1, .lock .shared .forever false 0),
    (3, .lock .shared .timed false 0), (2, .lock .excl .timed false 0), (0, .unlock 0), (1, .kill)]

theorem parking_latch_grantedAndKilled :
    ∃ s ∈ (system 0).run (create [(true, true), (true, true), (true, true), (false, false)])
      grantedAndKilled, (∃ c, s.ctxs[1]? = some c ∧ c.granted = some .shared ∧ c.dying = true) ∧
      s.wq = [2] ∧ ∃ s' ∈ (system 0).step s (1, .resume false 0), s'.grantedAt 1 = none ∧
        s'.grantedAt 2 = some .excl := by
  refine System.exists_run ⟨_, rfl⟩ (by decide) fun s eval hs hP => ?_
  obtain ⟨c, hc, -, hdying⟩ := hP
  obtain ⟨hwq, s', hs', hnext⟩ := eval (Q := fun s => s.wq = [2] ∧
    ∃ s' ∈ (system 0).step s (1, .resume false 0), s'.grantedAt 2 = some .excl) (by decide)
  exact ⟨hwq, s', hs', ((parking_latch hs).2.2.2.2.1 1 c false 0 s' hc hdying hs').1, hnext⟩

end LibXtc.ARwLock

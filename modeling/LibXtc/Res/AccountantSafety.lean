import LibXtc.Foundations.Lists
import LibXtc.Res.Accountant
import Mathlib.Data.List.Infix

/-!
# The accountant counts what was acquired

`Change` says what a step can do to the counters and to the history. The bounds on `used`, the
exactness of the arithmetic and the agreement with the ledger are each preserved by a change.
-/

namespace LibXtc.Res

open Foundations State List Function

variable {c : Config} {s s' : State} {t t' : Thread} {i : ℕ} {k : Kind} {n v : ℤ} {l : List Entry}
  {e : Entry}

/-- What the local variables of a thread say. -/
def Thread.Ok (c : Config) : Thread → Prop
  | .acquire _ n => 0 ≤ n ∧ n ≤ int64Max
  | .acquireCas k n cur next => 0 ≤ n ∧ n ≤ int64Max ∧ 0 ≤ cur ∧ next = cur + n ∧ next ≤ c.limit k
  | .release _ n => 0 < n ∧ n ≤ int64Max
  | .releaseCas _ n prev => 0 < n ∧ n ≤ int64Max ∧ 0 ≤ prev ∧ prev ≤ int64Max
  | _ => True

/-- The acquire of a thread that has changed `used` and not returned. -/
def Thread.pending : Thread → Option (Kind × ℤ)
  | .loadHigh k n _ | .raiseHigh k n _ _ | .alert k n _ => some (k, n)
  | _ => none

/-- The part of a ledger about one kind. -/
def ofKind (k : Kind) (l : List Entry) : List Entry := l.filter fun e => e.kind = k

/-- What an entry makes of the counter. -/
def Entry.apply (used : ℤ) : Entry → ℤ
  | .acquired _ _ n => used + n
  | .released _ _ n => if n < used then used - n else 0

/-- The counter after the entries of a ledger. -/
def replay (l : List Entry) : ℤ := l.foldl Entry.apply 0

@[simp] def Entry.acquiredUnits : Entry → ℤ
  | .acquired _ _ n => n
  | .released _ _ _ => 0

@[simp] def Entry.releasedUnits : Entry → ℤ
  | .acquired _ _ _ => 0
  | .released _ _ n => n

/-- The sum of the acquires in a ledger. -/
def acquiredSum (l : List Entry) : ℤ := (l.map Entry.acquiredUnits).sum

/-- The sum of the releases in a ledger. -/
def releasedSum (l : List Entry) : ℤ := (l.map Entry.releasedUnits).sum

/-- The acquire that an entry records, if it is one of thread `i`. -/
@[simp] def Entry.acquireOf (i : ℕ) : Entry → Option (Kind × ℤ)
  | .acquired j k n => if j = i then some (k, n) else none
  | .released _ _ _ => none

/-- The acquires of thread `i` in a ledger. -/
def acquiredBy (i : ℕ) (l : List Entry) : List (Kind × ℤ) := l.filterMap (Entry.acquireOf i)

/-- The acquires of thread `i` that returned `XTC_OK`. -/
def grantedTo (i : ℕ) (l : List (ℕ × Kind × ℤ)) : List (Kind × ℤ) :=
  l.filterMap fun e => if e.1 = i then some e.2 else none

/-! ## Ledgers -/

theorem replay_concat : replay (l ++ [e]) = e.apply (replay l) :=
  foldl_concat _ _ _ _

theorem ofKind_concat_self (h : e.kind = k) : ofKind k (l ++ [e]) = ofKind k l ++ [e] := by
  simp [ofKind, h]

theorem ofKind_concat_of_ne (h : e.kind ≠ k) : ofKind k (l ++ [e]) = ofKind k l := by
  simp [ofKind, h]

/-- As long as no prefix releases more than it acquires, the floor at zero is never met. -/
theorem replay_eq_sub (h : ∀ p, p <+: l → releasedSum p ≤ acquiredSum p) :
    replay l = acquiredSum l - releasedSum l := by
  induction l using reverseRecOn with
  | nil => rfl
  | append_singleton l e ih =>
    have hpre := ih fun p hp => h p (hp.trans (prefix_append _ _))
    have hwhole := h _ (prefix_refl _)
    rw [replay_concat, hpre]
    cases e with
    | acquired i k n =>
      simp [acquiredSum, releasedSum, Entry.apply]
      omega
    | released i k n =>
      simp [acquiredSum, releasedSum] at hwhole
      simp [acquiredSum, releasedSum, Entry.apply]
      omega

/-! ## What a step changes -/

/-- What a step can do, the statistics and the alerts apart. -/
inductive Change (c : Config) (s : State) : State → Prop
  | stay : Change c s s
  /-- A thread moves on, and `used` stays as it is. -/
  | move {i : ℕ} {t t' : Thread} {high rejects : Kind → ℤ} {alertArmed : Kind → Bool}
      (ht : s.threads[i]? = some t) (hok : t'.Ok c) (hpending : t'.pending = t.pending) :
      Change c s { s with
        threads := s.threads.set i t', high := high, rejects := rejects, alertArmed := alertArmed }
  /-- An acquire does not fit. -/
  | refuse {i : ℕ} {k : Kind} {n : ℤ} (ht : s.threads[i]? = some (.acquire k n))
      (hfull : c.limit k < s.used k + n) : Change c s (s.refuse i k n)
  | acquired {i : ℕ} {k : Kind} {n cur next : ℤ}
      (ht : s.threads[i]? = some (.acquireCas k n cur next)) (hn : 0 ≤ n)
      (hlimit : s.used k + n ≤ c.limit k) :
      Change c s { s.put i (.loadHigh k n next) with
        used := update s.used k (s.used k + n)
        ledger := s.ledger ++ [.acquired i k n] }
  | released {i : ℕ} {k : Kind} {n prev : ℤ} (ht : s.threads[i]? = some (.releaseCas k n prev))
      (hn : 0 < n) :
      Change c s { s.put i (afterRelease c k) with
        used := update s.used k (if n < s.used k then s.used k - n else 0)
        ledger := s.ledger ++ [.released i k n] }
  /-- An acquire returns `XTC_OK`. -/
  | grant {i : ℕ} {k : Kind} {n next : ℤ} {alertArmed : Kind → Bool} {alerts : List (Kind × ℤ)}
      (ht : s.threads[i]? = some (.alert k n next)) :
      Change c s { s.put i .idle with
        granted := s.granted ++ [(i, k, n)], alertArmed := alertArmed, alerts := alerts }

structure Ok (c : Config) (s : State) : Prop where
  used : ∀ k, 0 ≤ s.used k ∧ s.used k ≤ c.limit k
  exact : s.overflow = false
  threads : ∀ t ∈ s.threads, t.Ok c
  ledger : ∀ k, s.used k = replay (ofKind k s.ledger)
  accounted : ∀ i, acquiredBy i s.ledger =
    grantedTo i s.granted ++ (s.threads[i]?.bind Thread.pending).toList

theorem limit_le : c.limit k ≤ int64Max := by
  unfold Config.limit
  split
  · exact (c.caps.capFor k).2.2
  · exact Int.le_refl _

/-- Computing a number that fits changes nothing. -/
theorem compute_of_fits {x : ℤ} (h : FitsInt64 x) : s.compute x = s := by
  simp [compute, h]

/-- The tests of an acquire let it go on exactly if the request fits. -/
theorem tryFit_eq {cur : ℤ} (hn : 0 ≤ n ∧ n ≤ int64Max) (hcur : 0 ≤ cur ∧ cur ≤ c.limit k) :
    s.tryFit c i k n cur =
      if c.limit k < cur + n then s.refuse i k n else s.put i (.acquireCas k n cur (cur + n)) := by
  have hlimit : c.limit k ≤ int64Max := limit_le
  have hroom : FitsInt64 (int64Max - cur) := by
    unfold FitsInt64
    omega
  have hs : (if 0 < cur then s.compute (int64Max - cur) else s) = s := by
    rw [compute_of_fits hroom, ite_self]
  unfold tryFit
  dsimp only
  rw [hs, wrapInt64_of_fits hroom]
  by_cases hover : int64Max < cur + n
  · have hheadroom : 0 < cur ∧ int64Max - cur < n := by omega
    rw [if_pos hheadroom, if_pos (by omega)]
  · have hsum : FitsInt64 (cur + n) := by
      unfold FitsInt64
      omega
    have hheadroom : ¬ (0 < cur ∧ int64Max - cur < n) := by omega
    rw [if_neg hheadroom, compute_of_fits hsum, wrapInt64_of_fits hsum]
    congr 1
    unfold Config.limit
    split
    · rename_i hcap
      simp [hcap]
    · rename_i hcap
      simp [hcap, hover]

/-- The difference that a release computes does not leave the range. -/
theorem lower_eq {prev : ℤ} (hn : 0 < n ∧ n ≤ int64Max) (hprev : 0 ≤ prev ∧ prev ≤ int64Max) :
    s.lower n prev = (s, if n < prev then prev - n else 0) := by
  unfold lower
  split
  · have hfits : FitsInt64 (prev - n) := by
      unfold FitsInt64
      omega
    rw [compute_of_fits hfits, wrapInt64_of_fits hfits]
  · rfl

theorem afterRelease_ok : (afterRelease c k).Ok c ∧ (afterRelease c k).pending = none := by
  unfold afterRelease
  split <;> exact ⟨trivial, rfl⟩

theorem Change.of_threadStep {ok : Bool} (h : Ok c s) (ht : s.threads[i]? = some t)
    (hs' : s.threadStep c i ok t = some s') : Change c s s' := by
  have htok : t.Ok c := h.threads t (mem_of_getElem? ht)
  cases t with
  | idle => cases hs'
  | acquire k n =>
    have hn : 0 ≤ n ∧ n ≤ int64Max := htok
    cases hs'
    rw [tryFit_eq hn (h.used k)]
    split
    · rename_i hfull
      exact .refuse ht hfull
    · exact .move ht ⟨hn.1, hn.2, (h.used k).1, rfl, by omega⟩ rfl
  | acquireCas k n cur next =>
    obtain ⟨hn, hmax, hcur, rfl, hlimit⟩ := htok
    simp only [threadStep] at hs'
    split at hs' <;> cases hs'
    · rename_i hcas
      obtain rfl := hcas.2
      exact .acquired ht hn hlimit
    · exact .move ht ⟨hn, hmax⟩ rfl
  | reject k n | rearm k =>
    cases hs'
    exact .move ht trivial rfl
  | loadHigh k n next | raiseHigh k n next observedHigh =>
    simp only [threadStep] at hs'
    split at hs' <;> cases hs'
    · exact .move ht trivial rfl
    · exact .move ht trivial rfl
  | alert k n next =>
    simp only [threadStep] at hs'
    split at hs'
    · cases hs'
      exact .grant ht
    · split at hs' <;> cases hs'
      · exact .grant ht
      · exact .grant ht
  | release k n =>
    have hn : 0 < n ∧ n ≤ int64Max := htok
    cases hs'
    exact .move ht ⟨hn.1, hn.2, (h.used k).1, Int.le_trans (h.used k).2 limit_le⟩ rfl
  | releaseCas k n prev =>
    obtain ⟨hn, hmax, hprev, hprevmax⟩ := htok
    simp only [threadStep, lower_eq ⟨hn, hmax⟩ ⟨hprev, hprevmax⟩] at hs'
    split at hs' <;> cases hs'
    · rename_i hcas
      obtain rfl := hcas.2
      exact .released ht hn
    · exact .move ht ⟨hn, hmax, (h.used k).1, Int.le_trans (h.used k).2 limit_le⟩ rfl
  | loadUsed k threshold =>
    cases hs'
    refine .move ht ?_ ?_ <;> split <;> trivial

theorem Change.of_act {a : Act} (h : Ok c s) (hs' : s.act c a = some s') : Change c s s' := by
  cases a with
  | acquire i k n | release i k n =>
    simp only [act] at hs'
    split at hs' <;> cases hs'
    rename_i hidle
    split
    · exact .stay
    · exact .move hidle ⟨by omega, n.2.2⟩ rfl
  | step i ok =>
    obtain ⟨t, ht, hstep⟩ := Option.bind_eq_some_iff.mp hs'
    exact .of_threadStep h ht hstep

/-! ## What every run keeps -/

theorem getElem?_set_pending {l : List Thread} {j : ℕ} (ht : l[i]? = some t)
    (hpend : t'.pending = t.pending) :
    (l.set i t')[j]?.bind Thread.pending = l[j]?.bind Thread.pending := by
  by_cases hij : i = j
  · subst hij
    rw [getElem?_set_new ht, ht]
    exact hpend
  · rw [getElem?_set_ne hij]

/-- An entry for kind `k` that leaves the counter at `v`. -/
theorem ledger_concat {used : Kind → ℤ}
    (h : ∀ k, used k = replay (ofKind k l)) (hk : e.kind = k) (hv : v = e.apply (used k))
    (k' : Kind) : update used k v k' = replay (ofKind k' (l ++ [e])) := by
  by_cases hne : k' = k
  · subst hne
    rw [update_self, ofKind_concat_self hk, replay_concat, ← h, hv]
  · rw [update_of_ne hne, ofKind_concat_of_ne (by rw [hk]; exact Ne.symm hne), h]

theorem update_bounded (h : ∀ k, 0 ≤ s.used k ∧ s.used k ≤ c.limit k)
    (hv : 0 ≤ v ∧ v ≤ c.limit k) (k' : Kind) :
    0 ≤ update s.used k v k' ∧ update s.used k v k' ≤ c.limit k' := by
  by_cases hne : k' = k
  · subst hne
    rw [update_self]
    exact hv
  · rw [update_of_ne hne]
    exact h k'

theorem Ok.change (h : Ok c s) (hchange : Change c s s') : Ok c s' := by
  cases hchange with
  | stay => exact h
  | move ht hok hpend =>
    refine ⟨h.used, h.exact, forall_mem_set h.threads hok, h.ledger, fun j => ?_⟩
    rw [getElem?_set_pending ht hpend]
    exact h.accounted j
  | @refuse i k n ht hfull =>
    have hpend : (Thread.reject k n).pending = (Thread.acquire k n).pending := rfl
    refine ⟨h.used, h.exact, forall_mem_set h.threads trivial, h.ledger, fun j => ?_⟩
    dsimp only [refuse, put]
    rw [getElem?_set_pending ht hpend]
    exact h.accounted j
  | @acquired i k n cur next ht hn hlimit =>
    have hused := h.used k
    refine ⟨update_bounded h.used ⟨by omega, hlimit⟩, h.exact, forall_mem_set h.threads trivial,
      ledger_concat h.ledger rfl rfl, fun j => ?_⟩
    have hacct := h.accounted j
    dsimp only [put]
    rw [acquiredBy, filterMap_append]
    by_cases hij : i = j
    · subst hij
      rw [ht] at hacct
      rw [getElem?_set_new ht]
      rw [acquiredBy] at hacct
      rw [hacct]
      simp [Thread.pending]
    · rw [acquiredBy] at hacct
      rw [hacct]
      simp [hij]
  | @released i k n prev ht hn =>
    have hused := h.used k
    refine ⟨update_bounded h.used (by split <;> omega), h.exact,
      forall_mem_set h.threads afterRelease_ok.1, ledger_concat h.ledger rfl rfl, fun j => ?_⟩
    have hacct := h.accounted j
    dsimp only [put]
    rw [getElem?_set_pending ht afterRelease_ok.2, ← hacct]
    simp [acquiredBy]
  | @grant i k n next alertArmed alerts ht =>
    refine ⟨h.used, h.exact, forall_mem_set h.threads trivial, h.ledger, fun j => ?_⟩
    have hacct := h.accounted j
    dsimp only [put]
    rw [hacct, grantedTo, grantedTo, filterMap_append]
    by_cases hij : i = j
    · subst hij
      rw [ht, getElem?_set_new ht]
      simp [Thread.pending]
    · simp [hij]

theorem ok_create {m : ℕ} : Ok c (.create m) := by
  have hlimit (k : Kind) : 0 ≤ c.limit k := by
    unfold Config.limit
    split
    · omega
    · decide
  refine ⟨fun k => ⟨Int.le_refl 0, hlimit k⟩, rfl, ?_, fun k => rfl, fun i => ?_⟩
  · intro t ht
    rw [eq_of_mem_replicate ht]
    trivial
  · dsimp only [create]
    rw [getElem?_replicate]
    split <;> rfl

theorem Ok.of_reachable (hs : (system c).Reachable s) : Ok c s := by
  refine hs.invariant ?_ ?_
  · rintro s ⟨m, rfl⟩
    exact ok_create
  · intro s a s' h _ ht
    exact h.change (.of_act h ht)

/-- In every run, for every kind: `used` is between zero and the cap, or `INT64_MAX` if there is
none; no sum or difference ever leaves the range of `int64_t`; `used` is what the entries of the
ledger make of it, which is the acquired units minus the released ones if no prefix of the run
released more than it acquired; the acquires of a thread in the ledger are those that returned
`XTC_OK`, and the one it is about to return `XTC_OK` for, so a refused acquire is not among them;
and an acquire is refused only at a moment at which it does not fit, with `used` left as it is. -/
theorem used_accounted {c : Config} {s : State} (hs : (system c).Reachable s) :
    (∀ k, 0 ≤ s.used k ∧ s.used k ≤ c.limit k) ∧ s.overflow = false ∧
    (∀ k, s.used k = replay (ofKind k s.ledger)) ∧
    (∀ k, (∀ p, p <+: ofKind k s.ledger → releasedSum p ≤ acquiredSum p) →
      s.used k = acquiredSum (ofKind k s.ledger) - releasedSum (ofKind k s.ledger)) ∧
    (∀ i, acquiredBy i s.ledger =
      grantedTo i s.granted ++ (s.threads[i]?.bind Thread.pending).toList) ∧
    ∀ a, ∀ s' ∈ (system c).step s a, s'.refused ≠ s.refused → s'.used = s.used ∧
      ∃ i k n, s.threads[i]? = some (.acquire k n) ∧ s'.refused = s.refused ++ [(i, k, n)] ∧
        c.limit k < s.used k + n := by
  have h := Ok.of_reachable hs
  refine ⟨h.used, h.exact, h.ledger, fun k hpre => ?_, h.accounted, ?_⟩
  · rw [h.ledger k]
    exact replay_eq_sub hpre
  · intro a s' hstep hrefused
    cases Change.of_act h hstep with
    | @refuse i k n ht hfull => exact ⟨rfl, i, k, n, ht, rfl, hfull⟩
    | _ => exact absurd rfl hrefused

/-- Ten descriptors, with an alert at eight; everything else is not capped. -/
def tenFds : Config where
  caps := ⟨⟨0, by decide⟩, ⟨0, by decide⟩, ⟨0, by decide⟩, ⟨10, by decide⟩, ⟨0, by decide⟩,
    ⟨0, by decide⟩⟩
  alertFn := true
  threshold := fun _ => some 8

/-- Two threads load `used` before either has changed it. The second one's compare-and-swap fails,
and its request no longer fits; after the first has released, it fits. -/
def contended : List Act :=
  [.acquire 0 .fds ⟨6, by decide⟩, .acquire 1 .fds ⟨5, by decide⟩, .step 0 true, .step 1 true,
    .step 0 true, .step 1 true, .step 1 true, .step 1 true] ++
  replicate 3 (.step 0 true) ++
  .release 0 .fds ⟨6, by decide⟩ :: replicate 4 (.step 0 true) ++
  .acquire 1 .fds ⟨5, by decide⟩ :: replicate 4 (.step 1 true)

theorem used_accounted_contended : ∃ s ∈ (system tenFds).run (.create 2) contended,
      s.refused = [(1, .fds, 5)] ∧ s.granted = [(0, .fds, 6), (1, .fds, 5)] ∧
      s.used .fds = acquiredSum (ofKind .fds s.ledger) - releasedSum (ofKind .fds s.ledger) := by
  refine System.exists_run ⟨2, rfl⟩ (by decide) fun s eval hs _ => ?_
  have hpre : ∀ p ∈ (ofKind .fds s.ledger).inits, releasedSum p ≤ acquiredSum p := by
    apply eval
    decide
  refine ⟨by apply eval; decide, (used_accounted hs).2.2.2.1 .fds fun p hp => ?_⟩
  exact hpre p ((mem_inits p _).mpr hp)

end LibXtc.Res

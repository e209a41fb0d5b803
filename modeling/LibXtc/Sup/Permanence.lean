import LibXtc.Sup.SupervisorRuns

/-!
# Permanent children

A supervisor that goes on after a DOWN has all its permanent children running, provided that a
child restarted alone can be spawned: the result of that spawn is not looked at.
-/

namespace LibXtc.Sup

open Foundations State

/-- The restart of a permanent child alone succeeds. -/
def respawns (s : State) : Act → Prop
  | .sup _ _ ok =>
    match s.pc with
    | .restart i => ok = true ∨ (s.table.children[i]?).all fun c => c.policy ≠ .permanent
    | _ => True
  | _ => True

instance (s : State) (a : Act) : Decidable (respawns s a) :=
  match a with
  | .sup _ _ ok =>
    match h : s.pc with
    | .restart i => decidable_of_iff
        (ok = true ∨ ((s.table.children[i]?).all fun c => c.policy ≠ .permanent) = true)
        (by simp only [respawns, h])
    | .start _ | .top | .receive | .waiting _ | .respawn _ _ | .exiting | .exitWait _ | .done =>
      isTrue (by simp only [respawns, h])
  | .recvFail | .killSup | .stop | .abandon | .addChild _ | .send | .exit _ _ | .leave _
  | .report _ _ => isTrue trivial

/-- The permanent children below `n` are alive. -/
def KeptBelow (n : ℕ) (cs : List Child) : Prop :=
  ∀ (i : ℕ) (c : Child), i < n → cs[i]? = some c → c.policy = .permanent → c.alive = true

/-- Which permanent children are alive, at each place. -/
def Kept (pc : Pc) (stopped : Bool) (cs : List Child) : Prop :=
  match pc with
  | .start i => KeptBelow i cs
  | .top => stopped = false → KeptBelow cs.length cs
  | .receive => KeptBelow cs.length cs
  | .restart i => ∀ (j : ℕ) (c : Child), j ≠ i → cs[j]? = some c → c.policy = .permanent →
      c.alive = true
  | .waiting w => KeptBelow w.lo cs
  | .respawn _ i => KeptBelow i cs
  | .exiting | .exitWait _ | .done => True

section Tables

variable {cs : List Child} {t : Table} {i lo : ℕ} {c : Child}

/-- The permanent children at `places` are alive. -/
def KeptAt (places : ℕ → Prop) (cs : List Child) : Prop :=
  ∀ (i : ℕ) (c : Child), places i → cs[i]? = some c → c.policy = .permanent → c.alive = true

/-- There is no entry at `i` or after it. -/
theorem KeptBelow.all (h : KeptBelow i cs) (hnone : cs[i]? = none) : KeptBelow cs.length cs :=
  fun j d hj => h j d (Nat.lt_of_lt_of_le hj (List.getElem?_eq_none_iff.mp hnone))

theorem KeptBelow.alive (h : KeptBelow cs.length cs) (hc : cs[i]? = some c)
    (hpol : c.policy = .permanent) : c.alive = true :=
  h i c (List.getElem?_eq_some_iff.mp hc).1 hc hpol

theorem Kept.stop {pc : Pc} {stopped : Bool} (h : Kept pc stopped cs) : Kept pc true cs := by
  cases pc with
  | top => exact nofun
  | _ => exact h

/-- The entry at `i` is marked dead. -/
theorem KeptBelow.others_childAlive (h : KeptBelow t.children.length t.children)
    (hc : t.children[i]? = some c) : KeptAt (· ≠ i) (t.childAlive i c false).children := by
  intro j d hij hd hpol
  rw [Table.children_childAlive hc, List.getElem?_set_ne hij.symm] at hd
  exact h.alive hd hpol

theorem keptBelow_markDead (h : KeptAt (· < lo) t.children) :
    KeptBelow lo (t.markDead lo (t.children.length - lo)).children := by
  intro j d hj hd hpol
  rw [Table.getElem?_markDead_rest, if_neg (by omega)] at hd
  exact h j d hj hd hpol

end Tables

variable {s s' : State} {i p : ℕ} {c : Child} {now : ℤ} {mem ok : Bool}

def State.Kept (s : State) : Prop := Sup.Kept s.pc s.stopRequested s.table.children

theorem State.kept_of_top (hpc : s.pc = .top)
    (h : s.stopRequested = false → KeptBelow s.table.children.length s.table.children) :
    s.Kept := by
  unfold State.Kept
  rw [hpc]
  exact h

/-- The started child is alive, the others are as they were. -/
theorem keptBelow_spawnChild {n : ℕ} (wasAlive : Bool) (hc : s.table.children[i]? = some c)
    (h : KeptAt (fun j => j ≠ i ∧ j < n) s.table.children) :
    KeptBelow n (s.spawnChild i c wasAlive).table.children := by
  intro j d hj hd hpol
  by_cases hij : i = j
  · subst hij
    rw [getElem?_spawnChild_self hc] at hd
    cases hd
    rfl
  · rw [getElem?_spawnChild_ne hc hij] at hd
    exact h j d ⟨Ne.symm hij, hj⟩ hd hpol

theorem kept_handleAddChild {policy : Policy} (hpc : s.pc = .top)
    (h : KeptBelow s.table.children.length s.table.children) :
    (s.handleAddChild policy mem ok).Kept := by
  unfold handleAddChild
  split
  · exact kept_of_top hpc fun _ => h
  · split
    · refine kept_of_top hpc fun _ => ?_
      refine keptBelow_spawnChild false List.getElem?_concat_length fun j d hj hd hpol => ?_
      rcases getElem?_concat_cases hd with hd | ⟨_, -⟩
      · exact h.alive hd hpol
      · exact absurd ‹_› hj.1
    · exact kept_of_top hpc fun _ => h

theorem kept_beginGroup {lo : ℕ} (hpc : s.pc = .top)
    (h : KeptAt (· < lo) s.table.children) : (s.beginGroup lo now mem).Kept := by
  unfold beginGroup
  dsimp only
  split
  · exact keptBelow_markDead h
  · exact kept_of_top hpc nofun

theorem kept_childDown {reason : ℤ} (hpc : s.pc = .top) (hc : s.table.children[i]? = some c)
    (h : KeptBelow s.table.children.length s.table.children) :
    (s.childDown i c reason now mem).Kept := by
  have hothers := h.others_childAlive hc
  -- a child that is not restarted is not permanent
  have hall (hno : shouldRestart c reason ≠ true) :
      KeptAt (fun _ => True) (s.table.childAlive i c false).children := by
    intro j d _ hd hpol
    by_cases hij : i = j
    · subst hij
      rw [Table.children_childAlive hc, getElem?_set_new hc] at hd
      cases hd
      rw [shouldRestart, hpol] at hno
      exact absurd rfl hno
    · exact hothers j d (Ne.symm hij) hd hpol
  unfold childDown
  dsimp only
  split
  · trivial
  · split
    · split
      · trivial
      · unfold applyStrategy
        split
        · exact hothers
        · exact hothers
        · exact kept_beginGroup hpc fun j d hj => absurd hj (Nat.not_lt_zero j)
        · exact kept_beginGroup hpc fun j d hj => hothers j d (Nat.ne_of_lt hj)
    · rename_i hno
      split
      · refine kept_of_top hpc fun _ j d _ hd hpol => ?_
        obtain ⟨j', hd⟩ := getElem?_eraseIdx_eq hd
        exact hall hno j' d trivial hd hpol
      · exact kept_of_top hpc fun _ j d _ => hall hno j d trivial

theorem kept_handle {m : Msg} (hpc : s.pc = .top)
    (h : KeptBelow s.table.children.length s.table.children) :
    (s.handle m now mem ok).Kept := by
  cases m with
  | down p reason =>
    simp only [handle, handleDown]
    split
    · exact kept_of_top hpc fun _ => h
    · split
      · exact kept_childDown hpc ‹_› h
      · exact kept_of_top hpc fun _ => h
  | addChild policy => exact kept_handleAddChild hpc h
  | other => exact kept_of_top hpc fun _ => h

theorem kept_supStep (hok : Ok s) (h : s.Kept) (hresp : respawns s (.sup now mem ok))
    (hs' : s.supStep now mem ok = some s') : s'.Kept := by
  unfold State.Kept at h
  unfold supStep at hs'
  split at hs'
  · rename_i i hpc
    rw [hpc] at h
    split at hs'
    · rename_i c hc
      split at hs' <;> cases hs'
      · exact keptBelow_spawnChild false hc fun j d hj hd hpol =>
          h j d (by omega) hd hpol
      · trivial
    · rename_i hnone
      cases hs'
      exact fun _ => KeptBelow.all h hnone
  · rename_i hpc
    rw [hpc] at h
    cases hs'
    split
    · trivial
    · exact h (by simpa using ‹¬s.stopRequested = true›)
  · rename_i hpc
    rw [hpc] at h
    split at hs' <;> cases hs'
    · exact kept_handle rfl h
    · exact fun _ => h
  · rename_i i hpc
    rw [hpc] at h
    obtain ⟨c, hc, rfl⟩ := Option.map_eq_some_iff.mp hs'
    split
    · exact fun _ => keptBelow_spawnChild false hc fun j d hj hd hpol => h j d hj.1 hd hpol
    · rename_i hfails
      have hnot : c.policy ≠ .permanent := by
        simp only [respawns, hpc, hc] at hresp
        rcases hresp with hok | hpol
        · exact absurd hok hfails
        · simpa using hpol
      intro _ j d _ hd hpol
      by_cases hij : j = i
      · subst hij
        rw [hc] at hd
        cases hd
        exact absurd hpol hnot
      · exact h j d hij hd hpol
  · rename_i w hpc
    rw [hpc] at h
    have hplace := hok.place
    rw [hpc] at hplace
    split at hs' <;> cases hs'
    · rename_i w' hmore
      show KeptBelow w'.lo _
      rw [(WaitOk.more hplace hmore).2]
      exact h
    · exact h
    · exact nofun
  · rename_i lo i hpc
    rw [hpc] at h
    split at hs'
    · rename_i c hc
      split at hs' <;> cases hs'
      · exact keptBelow_spawnChild (decide (c.id ∈ s.aliveBefore)) hc
          fun j d hj hd hpol => h j d (by omega) hd hpol
      · exact nofun
    · rename_i hnone
      cases hs'
      exact fun _ => KeptBelow.all h hnone
  · cases hs'
    show Kept (if mem = true ∧ s.table.children ≠ [] then _ else Pc.done) _ _
    split <;> trivial
  · split at hs' <;> cases hs' <;> trivial
  · cases hs'

theorem kept_act {a : Act} (hok : Ok s) (h : s.Kept) (hresp : respawns s a)
    (hs' : s.act a = some s') : s'.Kept := by
  cases a with
  | sup now mem ok => exact kept_supStep hok h hresp hs'
  | recvFail =>
    simp only [act] at hs'
    split at hs' <;> cases hs'
    trivial
  | killSup =>
    simp only [act] at hs'
    split at hs' <;> cases hs'
    split <;> trivial
  | stop =>
    cases hs'
    exact h.stop
  | abandon | addChild | send =>
    cases hs'
    exact h
  | exit p reason | leave p | report p ok =>
    obtain ⟨q, hq, hs'⟩ := Option.bind_eq_some_iff.mp hs'
    split at hs' <;> cases hs'
    exact h

theorem kept_of_reachable (hs : system.ReachableUnder respawns s) : s.Kept := by
  induction hs with
  | start h =>
    obtain ⟨opts, hooked, policies, rfl⟩ := h
    exact fun j c hj => absurd hj (Nat.not_lt_zero j)
  | next hs hresp ht ih => exact kept_act (.of_reachable hs) ih hresp ht

/-- In every run in which no spawn of a permanent child restarted alone fails, for every strategy:
when the supervisor is done with a message, it is to stop, or every permanent child is alive, which
is to say that its entry names a process that was started for it and whose DOWN has not been
received. -/
theorem permanent_children_kept {s : State} (hs : system.ReachableUnder respawns s)
    (hpc : s.pc = .top ∨ s.pc = .receive) :
    s.stopRequested = true ∨ ∀ c ∈ s.table.children, c.policy = .permanent →
      c.alive = true ∧ ∃ p, c.pid = some p ∧ p ∉ s.reported ∧
        ∃ q : Process, s.procs[p]? = some q ∧ q.child = c.id := by
  have hok := Ok.of_reachable hs
  have hkept := kept_of_reachable hs
  unfold State.Kept at hkept
  cases hstop : s.stopRequested with
  | true => exact .inl rfl
  | false =>
    have hall : KeptBelow s.table.children.length s.table.children := by
      rcases hpc with hpc | hpc
      · rw [hpc] at hkept
        exact hkept hstop
      · rw [hpc] at hkept
        exact hkept
    refine .inr fun c hmem hpolicy => ?_
    obtain ⟨i, hc⟩ := List.mem_iff_getElem?.mp hmem
    have halive := hall.alive hc hpolicy
    obtain ⟨p, hp, hreported, -⟩ := hok.base.heard.alive i c hc halive
    obtain ⟨q, hq, hchild, -⟩ := hok.base.linked.process i c p hc hp
    exact ⟨halive, p, hp, hreported, q, hq, hchild⟩

/-- A permanent child fails under `one_for_one` and is started again. -/
def failsOnce : List Act :=
  List.replicate 3 (.sup 0 true true) ++ [.exit 0 7, .leave 0, .report 0 true] ++
  List.replicate 2 (.sup 1 true true)

theorem permanent_children_kept_failsOnce :
    ∃ s ∈ system.runUnder respawns (.create ⟨.oneForOne, 3, 5, 0⟩ true [.permanent]) failsOnce,
      s.pc = .top ∧ s.table.children = [⟨0, .permanent, some 1, true, false⟩] ∧
      (s.stopRequested = true ∨ ∀ c ∈ s.table.children, c.policy = .permanent →
        c.alive = true ∧ ∃ p, c.pid = some p ∧ p ∉ s.reported ∧
          ∃ q : Process, s.procs[p]? = some q ∧ q.child = c.id) := by
  refine System.exists_run ⟨_, _, _, rfl⟩ (by decide) fun s eval hs hpc => ?_
  exact ⟨by apply eval; decide, permanent_children_kept hs (.inl hpc)⟩

/-- The spawn of the restart fails: the supervisor waits for the next message, not stopped, and the
permanent child is dead. -/
theorem permanent_child_left_dead :
    ∃ s ∈ system.run (.create ⟨.oneForOne, 3, 5, 0⟩ true [.permanent])
        (List.replicate 3 (.sup 0 true true) ++ [.exit 0 7, .leave 0, .report 0 true] ++
          [.sup 1 true true, .sup 1 true false, .sup 1 true true]),
      s.pc = .receive ∧ s.stopRequested = false ∧ s.mailbox = [] ∧
        s.table.children = [⟨0, .permanent, some 0, false, false⟩] := by
  decide

end LibXtc.Sup

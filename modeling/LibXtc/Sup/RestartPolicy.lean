import LibXtc.Sup.SupervisorRuns

/-!
# Restart policies

The supervisor asks for the policy of the child that failed. A group restart then starts every
child of the group again, whatever its policy and whether it was alive. So the policies are kept
as long as the groups contain no temporary child, and no transient child that has ended normally.
-/

namespace LibXtc.Sup

open Foundations Option State List

/-- The first index of the group restart that the supervisor's next step begins. -/
def State.groupFrom (s : State) (now : ℤ) : Option ℕ :=
  match s.pc, s.mailbox with
  | .receive, .down p reason :: _ =>
    (findChildByPid s.table.children p).bind fun i => (s.table.children[i]?).bind fun c =>
      if s.stopRequested = false ∧ shouldRestart c reason = true ∧
          (s.recordRestart now).intensityExceeded now = false then
        match s.opts.strategy with
        | .oneForAll => some 0
        | .restForOne => some i
        | .oneForOne | .simpleOneForOne => none
      else none
  | _, _ => none

/-- When a group restart begins, the group has no temporary child, and no dead transient child
whose last exit was normal. -/
def groupFits (s : State) : Act → Prop
  | .sup now _ _ => ∀ lo ∈ s.groupFrom now, ∀ c ∈ s.table.children.drop lo, c.policy ≠ .temporary ∧
        (c.policy = .transient → c.alive = true ∨ s.lastExit c.id ≠ some 0)
  | _ => True

instance (s : State) (a : Act) : Decidable (groupFits s a) :=
  match a with
  | .sup now _ _ => inferInstanceAs (Decidable (∀ lo ∈ s.groupFrom now, _))
  | .recvFail | .killSup | .stop | .abandon | .addChild _ | .send | .exit _ _ | .leave _
  | .report _ _ => isTrue trivial

/-- A temporary child is started only once, and a transient child whose last exit was normal only
by a group restart that found it alive. -/
def Lawful (e : Start) : Prop :=
  (e.policy = .temporary → e.lastExit = none) ∧
    (e.policy = .transient → e.lastExit = some 0 → e.wasAlive = true)

section Due

variable {cs : List Child} {procs procs' : List Process} {i p nextId : ℕ} {c : Child} {q : Process}
  {lastExit : ℕ → Option ℤ} {alive : List ℕ}

/-- The child may be started, by a restart that found those of `alive` alive. -/
def Due (alive : List ℕ) (lastExit : ℕ → Option ℤ) (procs : List Process) (c : Child) : Prop :=
  c.policy ≠ .temporary ∧ (c.policy = .transient → c.id ∈ alive ∨
    lastExit c.id ≠ some 0 ∧ ∀ p, c.pid = some p → inTable procs p = false)

theorem Due.ages (h : Due alive lastExit procs c) (hages : Ages procs procs') :
    Due alive lastExit procs' c := by
  refine ⟨h.1, fun hpol => (h.2 hpol).imp_right fun hgone => ⟨hgone.1, fun p hp => ?_⟩⟩
  exact eq_false_of_inTable hages.inTable (hgone.2 p hp)

theorem Due.lawful (h : Due alive lastExit procs c) :
    Lawful ⟨c.id, c.policy, lastExit c.id, decide (c.id ∈ alive)⟩ := by
  refine ⟨fun hpol => absurd hpol h.1, fun hpol hnormal => ?_⟩
  rcases h.2 hpol with halive | hgone
  · exact decide_eq_true halive
  · exact absurd hnormal hgone.1

/-- The exit of another process does not change the last exit of a child that has none. -/
theorem Due.exit {r : ℤ} (h : Due alive lastExit procs c) (hlink : Linked cs procs lastExit nextId)
    (hc : cs[i]? = some c) (hq : procs[p]? = some q) (hrun : q.phase = .running)
    (hages : Ages procs procs') :
    Due alive (Function.update lastExit q.child (some r)) procs' c := by
  refine ⟨h.1, fun hpol => ?_⟩
  rcases h.2 hpol with halive | ⟨hlast, hgone⟩
  · exact .inl halive
  have hin : inTable procs p = true := by
    rw [inTable_eq hq, hrun]
    rfl
  have hne : c.id ≠ q.child := by
    intro hid
    obtain ⟨j, d, hd, hdp⟩ := hlink.placed p hin
    obtain ⟨q', hq', hchild, -⟩ := hlink.process j d p hd hdp
    rw [hq] at hq'
    cases hq'
    have hij := index_eq_of_id hlink.ids hc hd (hid.trans hchild)
    subst hij
    rw [hc] at hd
    cases hd
    rw [hgone p hdp] at hin
    cases hin
  rw [Function.update_of_ne hne]
  exact .inr ⟨hlast, fun p' hp' => eq_false_of_inTable hages.inTable (hgone p' hp')⟩

end Due

/-- The children that the supervisor is about to start may be started. -/
def DueAt (pc : Pc) (cs : List Child) (procs : List Process) (lastExit : ℕ → Option ℤ)
    (alive : List ℕ) : Prop :=
  match pc with
  | .restart i => ∀ c : Child, cs[i]? = some c → Due [] lastExit procs c
  | .waiting w => ∀ (j : ℕ) (c : Child), w.lo ≤ j → cs[j]? = some c → Due alive lastExit procs c
  | .respawn _ i => ∀ (j : ℕ) (c : Child), i ≤ j → cs[j]? = some c → Due alive lastExit procs c
  | _ => True

variable {s s' : State} {i p : ℕ} {c : Child} {now reason : ℤ} {mem ok : Bool} {alive : List ℕ}
  {lastExit : ℕ → Option ℤ} {procs' procs : List Process} {cs : List Child} {policy : Policy}
  {rest : List Msg} {q : Process} {pc : Pc}

structure State.Law (s : State) : Prop where
  lawful : ∀ e ∈ s.starts, Lawful e
  due : DueAt s.pc s.table.children s.procs s.lastExit s.aliveBefore

theorem DueAt.ages (h : DueAt pc cs procs lastExit alive)
    (hages : Ages procs procs') : DueAt pc cs procs' lastExit alive := by
  cases pc with
  | restart i => exact fun c hc => (h c hc).ages hages
  | waiting w | respawn lo i => exact fun j c hj hc => (h j c hj hc).ages hages
  | _ => trivial

theorem dueAt_of_top (hpc : pc = .top) : DueAt pc cs procs lastExit alive := by
  rw [hpc]
  trivial

/-- One more start. -/
theorem lawful_concat {starts : List Start} {e : Start} (h : ∀ e ∈ starts, Lawful e)
    (he : Lawful e) : ∀ e' ∈ starts ++ [e], Lawful e' := by
  intro e' hmem
  rcases mem_append.mp hmem with hmem | hmem
  · exact h e' hmem
  · rw [mem_singleton.mp hmem]
    exact he

/-- A child that never ran may be started. -/
theorem lawful_of_never {id : ℕ} {wasAlive : Bool} : Lawful ⟨id, policy, none, wasAlive⟩ :=
  ⟨fun _ => rfl, fun _ => nofun⟩

theorem law_handleAddChild (hlaw : ∀ e ∈ s.starts, Lawful e) (hpc : s.pc = .top)
    (h : Base s) : (s.handleAddChild policy mem ok).Law := by
  unfold handleAddChild
  split
  · exact ⟨hlaw, dueAt_of_top hpc⟩
  · split
    · have hfresh := h.linked.fresh s.nextId (Nat.le_refl _)
      refine ⟨lawful_concat hlaw ?_, dueAt_of_top hpc⟩
      rw [hfresh]
      exact lawful_of_never
    · exact ⟨hlaw, dueAt_of_top hpc⟩

/-- A group restart begins, and its group may be started. -/
theorem law_beginGroup {lo : ℕ} (hlaw : ∀ e ∈ s.starts, Lawful e) (hpc : s.pc = .top)
    (hdue : ∀ (j : ℕ) (d : Child), lo ≤ j → s.table.children[j]? = some d →
      d.policy ≠ .temporary ∧ (d.policy = .transient → d.alive = true ∨
        s.lastExit d.id ≠ some 0 ∧ ∀ p, d.pid = some p → inTable s.procs p = false)) :
    (s.beginGroup lo now mem).Law := by
  unfold beginGroup
  dsimp only
  split
  · refine ⟨hlaw, fun j c hj hc => ?_⟩
    rw [Table.getElem?_markDead_rest, if_pos hj] at hc
    obtain ⟨d, hd, rfl⟩ := map_eq_some_iff.mp hc
    obtain ⟨hpol, htrans⟩ := hdue j d hj hd
    refine Due.ages ⟨hpol, fun htr => ?_⟩ (ages_kill _)
    rcases htrans htr with halive | hgone
    · exact .inl (mem_map.mpr ⟨d, mem_filter.mpr ⟨mem_drop_of_getElem? hd hj, halive⟩, rfl⟩)
    · exact .inr hgone
  · exact ⟨hlaw, dueAt_of_top hpc⟩

/-- The end of child `c` is handled. The reason in the DOWN is that of its last exit. -/
theorem law_childDown (hlaw : ∀ e ∈ s.starts, Lawful e) (hpc : s.pc = .top)
    (hc : s.table.children[i]? = some c) (hsett : Settled s.table.children s.procs)
    (hgone : ∀ p, c.pid = some p → inTable s.procs p = false)
    (hlast : s.lastExit c.id = some reason)
    (hfits : s.stopRequested = false → shouldRestart c reason = true →
      (s.recordRestart now).intensityExceeded now = false →
      ∀ (j : ℕ) (d : Child), s.table.children[j]? = some d →
        (s.opts.strategy = .oneForAll ∨ s.opts.strategy = .restForOne ∧ i ≤ j) →
        d.policy ≠ .temporary ∧
          (d.policy = .transient → d.alive = true ∨ s.lastExit d.id ≠ some 0)) :
    (s.childDown i c reason now mem).Law := by
  have hlt := (List.getElem?_eq_some_iff.mp hc).1
  have hself : (s.table.childAlive i c false).children[i]? = some { c with alive := false } := by
    rw [Table.children_childAlive hc, List.getElem?_set_self hlt]
  -- a child that is restarted for this exit did not end normally
  have hfailed (hrestart : shouldRestart c reason = true) : c.policy ≠ .temporary ∧
      (c.policy = .transient → s.lastExit c.id ≠ some 0) := by
    unfold shouldRestart at hrestart
    cases hpol : c.policy with
    | permanent => exact ⟨nofun, nofun⟩
    | temporary =>
      rw [hpol] at hrestart
      cases hrestart
    | transient =>
      rw [hpol] at hrestart
      refine ⟨nofun, fun _ hnormal => ?_⟩
      rw [hlast] at hnormal
      cases hnormal
      cases hrestart
  unfold childDown
  dsimp only
  split
  · exact ⟨hlaw, trivial⟩
  · rename_i hrun
    split
    · rename_i hrestart
      obtain ⟨hpol, htrans⟩ := hfailed hrestart
      have hone : DueAt (.restart i) (s.table.childAlive i c false).children s.procs s.lastExit
          s.aliveBefore := by
        intro d hd
        cases hself.symm.trans hd
        exact ⟨hpol, fun htr => .inr ⟨htrans htr, hgone⟩⟩
      split
      · exact ⟨hlaw, trivial⟩
      · rename_i hbelow
        have hbelow : (s.recordRestart now).intensityExceeded now = false :=
          eq_false_of_ne_true hbelow
        have hfits := hfits (by simpa using hrun) hrestart hbelow
        have hgroup (j : ℕ) (d : Child)
            (hj : s.opts.strategy = .oneForAll ∨ s.opts.strategy = .restForOne ∧ i ≤ j)
            (hd : (s.table.childAlive i c false).children[j]? = some d) :
            d.policy ≠ .temporary ∧ (d.policy = .transient → d.alive = true ∨
              s.lastExit d.id ≠ some 0 ∧ ∀ p, d.pid = some p → inTable s.procs p = false) := by
          by_cases hij : i = j
          · subst hij
            rw [hself] at hd
            cases hd
            exact ⟨hpol, fun htr => .inr ⟨htrans htr, hgone⟩⟩
          · rw [Table.children_childAlive hc, List.getElem?_set_ne hij] at hd
            obtain ⟨hdpolicy, hdtransient⟩ := hfits j d hd hj
            refine ⟨hdpolicy, fun htr => ?_⟩
            cases hdalive : d.alive with
            | true => exact .inl rfl
            | false =>
              rcases hdtransient htr with halive | hlast
              · rw [hdalive] at halive
                cases halive
              · exact .inr ⟨hlast, hsett.gone hd hdalive⟩
        unfold applyStrategy
        split
        · exact ⟨hlaw, hone⟩
        · exact ⟨hlaw, hone⟩
        · rename_i hstrategy
          exact law_beginGroup hlaw hpc fun j d _ hd => hgroup j d (.inl hstrategy) hd
        · rename_i hstrategy
          exact law_beginGroup hlaw hpc fun j d hj hd => hgroup j d (.inr ⟨hstrategy, hj⟩) hd
    · split <;> exact ⟨hlaw, dueAt_of_top hpc⟩

theorem law_handleDown (h : Ok s) (hlaw : ∀ e ∈ s.starts, Lawful e)
    (hpc : s.pc = .receive) (hmail : s.mailbox = .down p reason :: rest)
    (hfits : groupFits s (.sup now mem ok)) :
    (handleDown { s with mailbox := rest, pc := .top } p reason now mem).Law := by
  have hsett := h.place
  rw [hpc] at hsett
  obtain ⟨q, hq, hsilent⟩ := h.base.heard.mail p reason (by rw [hmail]; exact mem_cons_self)
  unfold handleDown
  dsimp only
  split
  · exact ⟨hlaw, trivial⟩
  · rename_i i hfind
    obtain ⟨c, hc, halive, hpid⟩ := getElem?_of_findChildByPid hfind
    obtain ⟨q', hq', -, hlast⟩ := h.base.linked.process i c p hc hpid
    rw [hq] at hq'
    cases hq'
    rw [hc]
    refine law_childDown hlaw rfl hc hsett (fun p' hp' => ?_)
      (hlast reason (by rw [hsilent]; rfl)) fun hrun hrestart hbelow j d hd hgroup => ?_
    · rw [hpid] at hp'
      cases hp'
      rw [inTable_eq hq, hsilent]
      rfl
    · have hcond : s.stopRequested = false ∧ shouldRestart c reason = true ∧
          (s.recordRestart now).intensityExceeded now = false := ⟨hrun, hrestart, hbelow⟩
      have hfrom : s.groupFrom now = match s.opts.strategy with
          | .oneForAll => some 0
          | .restForOne => some i
          | .oneForOne | .simpleOneForOne => none := by
        simp only [groupFrom, hpc, hmail, hfind, hc, bind_some]
        rw [if_pos hcond]
      rcases hgroup with hstrategy | ⟨hstrategy, hj⟩
      · rw [hstrategy] at hfrom
        exact hfits 0 hfrom d (mem_drop_of_getElem? hd (Nat.zero_le j))
      · rw [hstrategy] at hfrom
        exact hfits i hfrom d (mem_drop_of_getElem? hd hj)

theorem law_receive {m : Msg} (h : Ok s) (hlaw : ∀ e ∈ s.starts, Lawful e)
    (hpc : s.pc = .receive) (hmail : s.mailbox = m :: rest)
    (hfits : groupFits s (.sup now mem ok)) :
    (handle { s with mailbox := rest, pc := .top } m now mem ok).Law := by
  cases m with
  | down p reason => exact law_handleDown h hlaw hpc hmail hfits
  | addChild policy => exact law_handleAddChild hlaw rfl (h.base.take hmail)
  | other => exact ⟨hlaw, trivial⟩

/-- The children not yet reached are as due as before the start of another. -/
theorem Due.concat {d : Child} {j : ℕ}
    (h : Due alive s.lastExit s.procs d) (hbase : Base s) (hd : s.table.children[j]? = some d) :
    Due alive s.lastExit (s.procs ++ [q]) d := by
  refine ⟨h.1, fun htr => (h.2 htr).imp_right fun hgone => ⟨hgone.1, fun p hp => ?_⟩⟩
  rw [inTable, getElem?_append_left (hbase.linked.pid_lt hd hp)]
  exact hgone.2 p hp

theorem law_supStep (h : Ok s) (hlaw : s.Law) (hfits : groupFits s (.sup now mem ok))
    (hs' : s.supStep now mem ok = some s') : s'.Law := by
  have hplace := h.place
  have hdue := hlaw.due
  unfold supStep at hs'
  split at hs'
  · rename_i i hpc
    rw [hpc] at hplace
    split at hs'
    · rename_i c hc
      split at hs' <;> cases hs'
      · refine ⟨lawful_concat hlaw.lawful ?_, trivial⟩
        rw [h.base.linked.unborn i c hc (hplace.2 i c (Nat.le_refl i) hc).1]
        exact lawful_of_never
      · exact ⟨hlaw.lawful, trivial⟩
    · cases hs'
      exact ⟨hlaw.lawful, trivial⟩
  · cases hs'
    refine ⟨hlaw.lawful, ?_⟩
    split <;> trivial
  · rename_i hpc
    split at hs' <;> cases hs'
    · exact law_receive h hlaw.lawful hpc ‹_› hfits
    · exact ⟨hlaw.lawful, trivial⟩
  · rename_i i hpc
    rw [hpc] at hdue
    obtain ⟨c, hc, rfl⟩ := map_eq_some_iff.mp hs'
    split
    · exact ⟨lawful_concat hlaw.lawful (hdue c hc).lawful, trivial⟩
    · exact ⟨hlaw.lawful, trivial⟩
  · rename_i w hpc
    rw [hpc] at hplace hdue
    split at hs' <;> cases hs'
    · rename_i w' hmore
      refine ⟨hlaw.lawful, fun j c hj => ?_⟩
      rw [(WaitOk.more hplace hmore).2] at hj
      exact hdue j c hj
    · exact ⟨hlaw.lawful, hdue⟩
    · exact ⟨hlaw.lawful, trivial⟩
  · rename_i lo i hpc
    rw [hpc] at hdue
    split at hs'
    · rename_i c hc
      split at hs' <;> cases hs'
      · refine ⟨lawful_concat hlaw.lawful (hdue i c (Nat.le_refl i) hc).lawful, fun j d hj hd => ?_⟩
        rw [getElem?_spawnChild_ne hc (by omega)] at hd
        exact (hdue j d (by omega) hd).concat h.base hd
      · exact ⟨hlaw.lawful, trivial⟩
    · cases hs'
      exact ⟨hlaw.lawful, trivial⟩
  · cases hs'
    refine ⟨hlaw.lawful, ?_⟩
    show DueAt (if mem = true ∧ s.table.children ≠ [] then _ else Pc.done) _ _ _ _
    split <;> trivial
  · split at hs' <;> cases hs' <;> exact ⟨hlaw.lawful, trivial⟩
  · cases hs'

theorem DueAt.exit {p : ℕ} {r : ℤ}
    (h : DueAt s.pc s.table.children s.procs s.lastExit s.aliveBefore) (hbase : Base s)
    (hq : s.procs[p]? = some q) (hrun : q.phase = .running) (hages : Ages s.procs procs') :
    DueAt s.pc s.table.children procs' (Function.update s.lastExit q.child (some r))
      s.aliveBefore := by
  cases hpc : s.pc with
  | restart i =>
    rw [hpc] at h
    exact fun c hc => (h c hc).exit hbase.linked hc hq hrun hages
  | waiting w | respawn lo i =>
    rw [hpc] at h
    exact fun j c hj hc => (h j c hj hc).exit hbase.linked hc hq hrun hages
  | _ => trivial

theorem law_act {a : Act} (h : Ok s) (hlaw : s.Law) (hfits : groupFits s a)
    (hs' : s.act a = some s') : s'.Law := by
  cases a with
  | sup now mem ok => exact law_supStep h hlaw hfits hs'
  | recvFail =>
    simp only [act] at hs'
    split at hs' <;> cases hs'
    exact ⟨hlaw.lawful, trivial⟩
  | killSup =>
    simp only [act] at hs'
    split at hs' <;> cases hs'
    refine ⟨hlaw.lawful, ?_⟩
    split <;> trivial
  | stop | abandon | addChild | send =>
    cases hs'
    exact ⟨hlaw.lawful, hlaw.due⟩
  | exit p reason =>
    obtain ⟨q, hq, hs'⟩ := bind_eq_some_iff.mp hs'
    split at hs' <;> cases hs'
    rename_i hrun
    have hages := ages_exit reason hq hrun
    exact ⟨hlaw.lawful, hlaw.due.exit h.base hq hrun hages⟩
  | leave p | report p ok =>
    obtain ⟨q, hq, hs'⟩ := bind_eq_some_iff.mp hs'
    split at hs' <;> cases hs'
    rename_i r hph
    exact ⟨hlaw.lawful, hlaw.due.ages (ages_set hq (by rintro ⟨⟩) fun r' => by rw [hph]; rintro ⟨⟩)⟩

/-- In every run whose group restarts fit the policies, for every strategy: a temporary child that
has exited is not started again, and a transient child whose last exit was normal is started only
by a group restart that found it alive. -/
theorem restart_policies_kept {s : State} (hs : system.ReachableUnder groupFits s) :
    ∀ e ∈ s.starts, (e.policy = .temporary → e.lastExit = none) ∧
      (e.policy = .transient → e.lastExit = some 0 → e.wasAlive = true) := by
  have hlaw : s.Law := by
    induction hs with
    | start h =>
      obtain ⟨opts, hooked, policies, rfl⟩ := h
      exact ⟨nofun, trivial⟩
    | next hs hfits hstep ih => exact law_act (.of_reachable hs) ih hfits hstep
  exact hlaw.lawful

/-- Under `rest_for_one` a temporary child stands first and ends; then the permanent child behind
it fails, and a live transient child is restarted with it. -/
def temporaryFirst : List Act :=
  replicate 5 (.sup 0 true true) ++ [.exit 0 0, .leave 0, .report 0 true, .exit 1 7, .leave 1,
    .report 1 true] ++
  replicate 3 (.sup 1 true true) ++ [.exit 2 1, .leave 2] ++
  replicate 7 (.sup 2 true true)

theorem restart_policies_kept_temporaryFirst : ∃ s ∈ system.runUnder groupFits
        (.create ⟨.restForOne, 3, 5, 0⟩ true [.temporary, .permanent, .transient]) temporaryFirst,
      s.starts.length = 5 ∧ ∀ e ∈ s.starts, (e.policy = .temporary → e.lastExit = none) ∧
        (e.policy = .transient → e.lastExit = some 0 → e.wasAlive = true) := by
  exact System.exists_run ⟨_, _, _, rfl⟩ (by decide) fun s _ hs _ => restart_policies_kept hs

/-- The first child ends; then the second, a permanent one, fails and all are restarted. -/
def endsThenFails : List Act :=
  replicate 4 (.sup 0 true true) ++ [.exit 0 0, .leave 0, .report 0 true, .exit 1 7, .leave 1,
    .report 1 true] ++
  replicate 8 (.sup 1 true true)

/-- Under `one_for_all` a child that has ended normally is started again, be it temporary or
transient. -/
theorem ended_child_started_again :
    (∃ s ∈ system.run (.create ⟨.oneForAll, 3, 5, 0⟩ true [.temporary, .permanent]) endsThenFails,
      ⟨0, .temporary, some 0, false⟩ ∈ s.starts) ∧
    (∃ s ∈ system.run (.create ⟨.oneForAll, 3, 5, 0⟩ true [.transient, .permanent]) endsThenFails,
      ⟨0, .transient, some 0, false⟩ ∈ s.starts) := by
  decide

end LibXtc.Sup

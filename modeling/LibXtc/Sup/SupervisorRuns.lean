import LibXtc.Sup.SupervisorSafety

/-!
# The supervisor along a run

What holds at each place of the supervisor's program, whatever its children do meanwhile.
-/

namespace LibXtc.Sup

open Foundations Table Option State List

section Places

variable {cs : List Child} {procs procs' : List Process} {i j k n p nextId : ℕ} {c : Child}
  {lastExit : ℕ → Option ℤ} {w : Wait} {pc : Pc} {stopped : Bool}

/-- The processes of the dead entries below `n` have left the process table. -/
def SettledBelow (n : ℕ) (cs : List Child) (procs : List Process) : Prop :=
  ∀ (i : ℕ) (c : Child) (p : ℕ), i < n → cs[i]? = some c → c.alive = false → c.pid = some p →
    inTable procs p = false

def Settled (cs : List Child) (procs : List Process) : Prop := SettledBelow cs.length cs procs

theorem Settled.gone (h : Settled cs procs) (hc : cs[i]? = some c) (hdead : c.alive = false) :
    ∀ p, c.pid = some p → inTable procs p = false :=
  fun p hp => h i c p (List.getElem?_eq_some_iff.mp hc).1 hc hdead hp

theorem settled_of (h : ∀ (i : ℕ) (c : Child) (p : ℕ), cs[i]? = some c → c.alive = false →
    c.pid = some p → inTable procs p = false) : Settled cs procs :=
  fun i c p _ => h i c p

theorem eq_false_of_inTable (h : inTable procs' p = true → inTable procs p = true)
    (hp : inTable procs p = false) : inTable procs' p = false := by
  cases hp' : inTable procs' p with
  | false => rfl
  | true =>
    rw [h hp'] at hp
    cases hp

theorem SettledBelow.ages (h : SettledBelow n cs procs) (hages : Ages procs procs') :
    SettledBelow n cs procs' :=
  fun i c p hi hc hdead hp => eq_false_of_inTable hages.inTable (h i c p hi hc hdead hp)

theorem Settled.childAlive {t : Table} (h : Settled t.children procs)
    (hc : t.children[i]? = some c) (hgone : ∀ p, c.pid = some p → inTable procs p = false) :
    Settled (t.childAlive i c false).children procs := by
  refine settled_of fun j d p hd hdead hp => ?_
  rw [children_childAlive hc] at hd
  rcases getElem?_set_cases hd with ⟨rfl, rfl⟩ | ⟨hij, hd⟩
  · exact hgone p hp
  · exact h.gone hd hdead p hp

theorem Settled.eraseIdx (h : Settled cs procs) : Settled (cs.eraseIdx k) procs := by
  refine settled_of fun j d p hd hdead hp => ?_
  obtain ⟨j', hd⟩ := getElem?_eraseIdx_eq hd
  exact h.gone hd hdead p hp

theorem Settled.append (h : Settled cs procs) (hpid : c.pid = none) :
    Settled (cs ++ [c]) procs := by
  refine settled_of fun j d p hd hdead hp => ?_
  rcases getElem?_concat_cases hd with hd | ⟨-, rfl⟩
  · exact h.gone hd hdead p hp
  · rw [hpid] at hp
    cases hp

theorem Settled.spawn (h : Settled cs procs) (hlink : Linked cs procs lastExit nextId) :
    Settled (cs.set i { c with pid := some procs.length, alive := true })
      (procs ++ [⟨c.id, .running, false⟩]) := by
  refine settled_of fun j d p hd hdead hp => ?_
  rcases getElem?_set_cases hd with ⟨rfl, rfl⟩ | ⟨hij, hd⟩
  · cases hdead
  · have hlt := hlink.pid_lt hd hp
    rw [inTable, getElem?_append_left hlt]
    exact h.gone hd hdead p hp

/-- In the wait of a group restart the entries from `lo` on are dead and name the old processes;
when none was found in a round, those looked at have left the process table. -/
structure WaitOk (w : Wait) (cs : List Child) (procs : List Process) : Prop where
  hi : w.hi = cs.length
  old : ∀ (i : ℕ) (c : Child), w.lo ≤ i → cs[i]? = some c →
    c.alive = false ∧ w.old[i]? = some c.pid
  before : SettledBelow w.lo cs procs
  looked : ∀ k pending, w.look = .child k pending →
    w.lo ≤ k ∧ (pending = 0 → SettledBelow k cs procs)

theorem WaitOk.ages (h : WaitOk w cs procs) (hages : Ages procs procs') : WaitOk w cs procs' :=
  ⟨h.hi, h.old, h.before.ages hages, fun k pending hlook =>
    ⟨(h.looked k pending hlook).1, fun hnone => ((h.looked k pending hlook).2 hnone).ages hages⟩⟩

/-- What holds at each place. -/
def PcOk (pc : Pc) (stopped : Bool) (cs : List Child) (procs : List Process) : Prop :=
  match pc with
  | .start i => Settled cs procs ∧
      ∀ (j : ℕ) (c : Child), i ≤ j → cs[j]? = some c → c.pid = none ∧ c.alive = false
  | .top => stopped = false → Settled cs procs
  | .receive => Settled cs procs
  | .restart i => Settled cs procs ∧ ∃ c, cs[i]? = some c ∧ c.alive = false
  | .waiting w => WaitOk w cs procs
  | .respawn lo i => Settled cs procs ∧ lo ≤ i ∧
      ∀ (j : ℕ) (c : Child), i ≤ j → cs[j]? = some c → c.alive = false
  | .exiting | .exitWait _ | .done => True

theorem PcOk.ages (h : PcOk pc stopped cs procs) (hages : Ages procs procs') :
    PcOk pc stopped cs procs' := by
  cases pc with
  | start i | restart i | respawn lo i => exact ⟨SettledBelow.ages h.1 hages, h.2⟩
  | top => exact fun hstop => SettledBelow.ages (h hstop) hages
  | receive => exact SettledBelow.ages h hages
  | waiting w => exact WaitOk.ages h hages
  | exiting | exitWait | done => trivial

theorem PcOk.stop (h : PcOk pc stopped cs procs) : PcOk pc true cs procs := by
  cases pc with
  | top => exact nofun
  | _ => exact h

end Places

/-! ## The invariant -/

variable {s s' : State} {i p : ℕ} {c : Child} {w : Wait} {now reason : ℤ} {mem ok wasAlive : Bool}
  {cs : List Child} {rest : List Msg} {m : Msg}

/-- What holds of the table and the processes at every place. -/
structure Base (s : State) : Prop where
  linked : Linked s.table.children s.procs s.lastExit s.nextId
  heard : Heard s.table.children s.procs s.mailbox s.reported s.retired
  balanced : s.table.Balanced

structure Ok (s : State) : Prop where
  base : Base s
  place : PcOk s.pc s.stopRequested s.table.children s.procs

theorem children_spawnChild (hc : s.table.children[i]? = some c) :
    (s.spawnChild i c wasAlive).table.children =
      s.table.children.set i { c with pid := some s.procs.length, alive := true } :=
  children_spawned hc

theorem Base.spawnChild (h : Base s) (wasAlive : Bool) (hc : s.table.children[i]? = some c)
    (hgone : ∀ p, c.pid = some p → inTable s.procs p = false) :
    Base (s.spawnChild i c wasAlive) := by
  refine ⟨?_, ?_, h.balanced.spawned hc⟩
  · rw [children_spawnChild hc]
    exact h.linked.spawn hc hgone
  · rw [children_spawnChild hc]
    exact h.heard.spawn

theorem Base.settled_spawnChild (h : Base s) (wasAlive : Bool)
    (hsett : Settled s.table.children s.procs) (hc : s.table.children[i]? = some c) :
    Settled (s.spawnChild i c wasAlive).table.children (s.spawnChild i c wasAlive).procs := by
  rw [children_spawnChild hc]
  exact hsett.spawn h.linked

/-- The entries other than the one started are as they were. -/
theorem getElem?_spawnChild_ne {j : ℕ} (hc : s.table.children[i]? = some c)
    (hij : i ≠ j) : (s.spawnChild i c wasAlive).table.children[j]? = s.table.children[j]? := by
  rw [children_spawnChild hc, getElem?_set_ne hij]

theorem getElem?_spawnChild_self (hc : s.table.children[i]? = some c) :
    (s.spawnChild i c wasAlive).table.children[i]? =
      some { c with pid := some s.procs.length, alive := true } := by
  rw [children_spawnChild hc, getElem?_set_new hc]

theorem Ok.handleAddChild {policy : Policy} (h : Base s) (hpc : s.pc = .top)
    (hsett : Settled s.table.children s.procs) : Ok (s.handleAddChild policy mem ok) := by
  have hplace {s : State} (hpc : s.pc = .top) (hsett : Settled s.table.children s.procs) :
      PcOk s.pc s.stopRequested s.table.children s.procs := by
    rw [hpc]
    exact fun _ => hsett
  unfold State.handleAddChild
  split
  · exact ⟨{ h with }, hplace hpc hsett⟩
  · split
    · set d : Child := ⟨s.nextId, policy, none, false, true⟩ with hd
      set s' : State := { s with
        table := { s.table with children := s.table.children ++ [d] }
        nextId := s.nextId + 1
        replies := s.replies ++ [Reply.started s.procs.length] } with hs'
      have hbase : Base s' :=
        ⟨h.linked.append rfl rfl, h.heard.append rfl, h.balanced.append rfl⟩
      have hsettled' : Settled s'.table.children s'.procs := hsett.append rfl
      have hget : s'.table.children[s.table.children.length]? = some d :=
        getElem?_concat_length
      refine ⟨hbase.spawnChild false hget nofun, ?_⟩
      exact hplace hpc (hbase.settled_spawnChild false hsettled' hget)
    · exact ⟨{ h with }, hplace hpc hsett⟩

theorem getElem?_of_findChildByPid (h : findChildByPid cs p = some i) :
    ∃ c, cs[i]? = some c ∧ c.alive = true ∧ c.pid = some p := by
  obtain ⟨hi, hp, -⟩ := findIdx?_eq_some_iff_getElem.mp h
  rw [Bool.and_eq_true, beq_iff_eq] at hp
  exact ⟨cs[i], getElem?_eq_getElem hi, hp⟩

theorem ne_of_findChildByPid_eq_none (h : findChildByPid cs p = none)
    (hc : cs[i]? = some c) (halive : c.alive = true) : c.pid ≠ some p := by
  intro hpid
  have hno := findIdx?_eq_none_iff.mp h c (mem_of_getElem? hc)
  rw [halive, hpid, Bool.true_and, beq_self_eq_true] at hno
  cases hno

/-- A DOWN of `p` was taken, and no live entry names `p`. -/
theorem Heard.down {procs : List Process} {mailbox : List Msg}
    {reported retired : List ℕ} (h : Heard cs procs mailbox reported retired)
    (hrest : ∀ m ∈ rest, m ∈ mailbox) (hp : p < procs.length)
    (hno : ∀ (i : ℕ) (c : Child), cs[i]? = some c → c.alive = true → c.pid ≠ some p) :
    Heard cs procs rest (reported ++ [p]) retired := by
  refine ⟨fun i c hc halive => ?_, fun p' r hmem => h.mail p' r (hrest _ hmem), fun p' hp' => ?_,
    h.retired⟩
  · obtain ⟨p', hp', hrep, hretired⟩ := h.alive i c hc halive
    refine ⟨p', hp', fun hmem => ?_, hretired⟩
    rcases mem_append.mp hmem with hmem | hmem
    · exact hrep hmem
    · rw [mem_singleton.mp hmem] at hp'
      exact hno i c hc halive hp'
  · exact forall_mem_concat h.reported hp p' hp'

/-- A group restart begins. -/
theorem Ok.beginGroup {lo : ℕ} (h : Base s) (hpc : s.pc = .top)
    (hsett : Settled s.table.children s.procs) : Ok (s.beginGroup lo now mem) := by
  unfold State.beginGroup
  dsimp only
  split
  · refine ⟨⟨h.linked.kill.fades fades_markDead, ?_, h.balanced.markDead⟩, ?_⟩
    · have hheard := (h.heard.ages (ages_kill (s.table.children.drop lo))).fades
        (fades_markDead (i := lo) (n := s.table.children.length - lo))
      refine ⟨fun i c hc halive => ?_, hheard.mail, hheard.reported, fun p hp => ?_⟩
      · -- a live entry stands below `lo`, and names none of those replaced
        obtain ⟨p, hp, hrep, hretired⟩ := hheard.alive i c hc halive
        refine ⟨p, hp, hrep, fun hmem => ?_⟩
        rw [getElem?_markDead_rest] at hc
        split at hc
        · obtain ⟨d, -, rfl⟩ := map_eq_some_iff.mp hc
          cases halive
        · rcases mem_append.mp hmem with hmem | hmem
          · exact hretired hmem
          · obtain ⟨d, hd, hdp⟩ := mem_filterMap.mp hmem
            obtain ⟨j, hj⟩ := mem_iff_getElem?.mp hd
            rw [getElem?_drop] at hj
            have hij := h.linked.index_eq_of_pid hc hj hp hdp
            omega
      · rcases mem_append.mp hp with hp | hp
        · exact hheard.retired p hp
        · obtain ⟨d, hd, hdp⟩ := mem_filterMap.mp hp
          obtain ⟨j, hj⟩ := mem_iff_getElem?.mp hd
          rw [getElem?_drop] at hj
          rw [(ages_kill _).length]
          exact h.linked.pid_lt hj hdp
    · refine ⟨length_markDead.symm, fun i c hlo hc => ?_, fun i c p hlt hc hdead hp => ?_, nofun⟩
      · rw [getElem?_markDead_rest, if_pos hlo] at hc
        obtain ⟨d, hd, rfl⟩ := map_eq_some_iff.mp hc
        refine ⟨rfl, ?_⟩
        rw [getElem?_mapIdx, hd, map_some, if_pos hlo]
        rfl
      · have hlt : i < lo := hlt
        rw [getElem?_markDead_rest, if_neg (by omega)] at hc
        exact eq_false_of_inTable (ages_kill _).inTable (hsett.gone hc hdead p hp)
  · refine ⟨{ h with }, ?_⟩
    rw [hpc]
    exact nofun

/-- The end of child `c` is handled once it is marked dead. -/
theorem Ok.childDown (hpc : s.pc = .top) (hc : s.table.children[i]? = some c)
    (h : Base { s with table := s.table.childAlive i c false })
    (hsett : Settled (s.table.childAlive i c false).children s.procs) :
    Ok (s.childDown i c reason now mem) := by
  have hlt := (List.getElem?_eq_some_iff.mp hc).1
  have hget : (s.table.childAlive i c false).children[i]? = some { c with alive := false } := by
    rw [children_childAlive hc, List.getElem?_set_self hlt]
  unfold State.childDown
  dsimp only
  split
  · exact ⟨{ h with }, trivial⟩
  · split
    · set t : State := State.recordRestart { s with table := s.table.childAlive i c false } now
      have hbase : Base t := { h with }
      split
      · exact ⟨{ h with }, trivial⟩
      · unfold applyStrategy
        split
        · exact ⟨{ h with }, hsett, _, hget, rfl⟩
        · exact ⟨{ h with }, hsett, _, hget, rfl⟩
        · exact Ok.beginGroup hbase hpc hsett
        · exact Ok.beginGroup hbase hpc hsett
    · split
      · refine ⟨⟨h.linked.eraseIdx hget (hsett.gone hget rfl), h.heard.eraseIdx,
          h.balanced.eraseIdx hget rfl⟩, ?_⟩
        rw [hpc]
        exact fun _ => hsett.eraseIdx
      · refine ⟨h, ?_⟩
        rw [hpc]
        exact fun _ => hsett

/-- A DOWN is handled. The message says that the process has left the process table. -/
theorem Ok.handleDown (h : Base s)
    (hsett : Settled s.table.children s.procs) (hmail : s.mailbox = .down p reason :: rest) :
    Ok (State.handleDown { s with mailbox := rest, pc := .top } p reason now mem) := by
  obtain ⟨q, hq, hsilent⟩ := h.heard.mail p reason (by rw [hmail]; exact mem_cons_self)
  have hplt := (List.getElem?_eq_some_iff.mp hq).1
  have hgone : inTable s.procs p = false := by
    rw [inTable_eq hq, hsilent]
    rfl
  have hrest (m : Msg) (hm : m ∈ rest) : m ∈ s.mailbox := by
    rw [hmail]
    exact mem_cons_of_mem _ hm
  unfold State.handleDown
  dsimp only
  split
  · rename_i hnone
    have hheard := h.heard.down hrest hplt
      fun i c hc halive => ne_of_findChildByPid_eq_none hnone hc halive
    exact ⟨⟨h.linked, hheard, h.balanced⟩, fun _ => hsett⟩
  · rename_i i hfind
    obtain ⟨c, hc, halive, hpid⟩ := getElem?_of_findChildByPid hfind
    rw [hc]
    have hfades := fades_childAlive hc
    have hheard := (h.heard.fades hfades).down hrest hplt fun j d hd hdalive hdp => by
      obtain ⟨d', hd', rfl | rfl⟩ := hfades.of_getElem? hd
      · have hij := h.linked.index_eq_of_pid hc hd' hpid hdp
        subst hij
        rw [children_childAlive hc, getElem?_set_new hc] at hd
        cases hd
        cases hdalive
      · cases hdalive
    have hgone' : ∀ p', c.pid = some p' → inTable s.procs p' = false := by
      intro p' hp'
      rw [hpid] at hp'
      cases hp'
      exact hgone
    exact Ok.childDown rfl hc ⟨h.linked.fades hfades, hheard, h.balanced.childAlive hc⟩
      (hsett.childAlive hc hgone')

theorem Base.take (h : Base s) (hmail : s.mailbox = m :: rest) :
    Base { s with mailbox := rest, pc := .top } := by
  refine ⟨h.linked, { h.heard with mail := fun p r hmem => h.heard.mail p r ?_ }, h.balanced⟩
  rw [hmail]
  exact mem_cons_of_mem _ hmem

theorem Ok.receive (h : Base s)
    (hsett : Settled s.table.children s.procs) (hmail : s.mailbox = m :: rest) :
    Ok (handle { s with mailbox := rest, pc := .top } m now mem ok) := by
  cases m with
  | down p reason => exact Ok.handleDown h hsett hmail
  | addChild policy => exact Ok.handleAddChild (h.take hmail) rfl hsett
  | other => exact ⟨h.take hmail, fun _ => hsett⟩

/-- A step of the wait looks at one more process. -/
theorem WaitOk.more {w' : Wait} (h : WaitOk w s.table.children s.procs)
    (hw : s.wait w now = .more w') :
    WaitOk w' s.table.children s.procs ∧ w'.lo = w.lo := by
  unfold wait at hw
  split at hw
  · split at hw <;> cases hw
    refine ⟨⟨h.hi, h.old, h.before, fun k pending hlook => ?_⟩, rfl⟩
    cases hlook
    exact ⟨Nat.le_refl _, fun _ => h.before⟩
  · rename_i k pending hlook
    obtain ⟨hlo, hlooked⟩ := h.looked k pending hlook
    split at hw
    · cases hw
      refine ⟨⟨h.hi, h.old, h.before, fun k' pending' hlook' => ?_⟩, rfl⟩
      cases hlook'
      refine ⟨Nat.le_succ_of_le hlo, fun hnone i c p hi hc hdead hp => ?_⟩
      split at hnone
      · cases hnone
      · rename_i hthere
        by_cases hik : i = k
        · subst hik
          rw [getD_eq_getElem?_getD, (h.old i c hlo hc).2, getD_some, hp] at hthere
          simpa using hthere
        · exact hlooked hnone i c p (by omega) hc hdead hp
    · split at hw
      · cases hw
      · split at hw <;> cases hw
        exact ⟨⟨h.hi, h.old, h.before, nofun⟩, rfl⟩
  · cases hw
    exact ⟨⟨h.hi, h.old, h.before, nofun⟩, rfl⟩

/-- A wait ends well only if all of the old processes have left the process table. -/
theorem WaitOk.gone (h : WaitOk w s.table.children s.procs) (hw : s.wait w now = .gone) :
    Settled s.table.children s.procs := by
  unfold wait at hw
  split at hw
  · split at hw <;> cases hw
  · rename_i k pending hlook
    split at hw
    · cases hw
    · split at hw
      · rename_i hnone
        refine settled_of fun i c p hc hdead hp => ?_
        have hlt := (List.getElem?_eq_some_iff.mp hc).1
        have hhi := h.hi
        exact (h.looked k pending hlook).2 hnone i c p (by omega) hc hdead hp
      · split at hw <;> cases hw
  · cases hw

theorem Ok.exited (h : Base s) : Ok (s.exited now mem) := by
  refine ⟨⟨h.linked.kill.fades fades_markDead, (h.heard.ages (ages_kill _)).fades fades_markDead,
    h.balanced.markDead⟩, ?_⟩
  show PcOk (if mem ∧ s.table.children ≠ [] then _ else Pc.done) _ _ _
  split <;> trivial

theorem Ok.supStep (h : Ok s) (hs' : s.supStep now mem ok = some s') : Ok s' := by
  have hbase := h.base
  have hplace := h.place
  unfold State.supStep at hs'
  split at hs'
  · rename_i i hpc
    rw [hpc] at hplace
    obtain ⟨hsett, hunborn⟩ := hplace
    split at hs'
    · rename_i c hc
      split at hs' <;> cases hs'
      · have hgone : ∀ p, c.pid = some p → inTable s.procs p = false := by
          intro p hp
          rw [(hunborn i c (Nat.le_refl i) hc).1] at hp
          cases hp
        have hspawn := hbase.spawnChild false hc hgone
        refine ⟨{ hspawn with }, hbase.settled_spawnChild false hsett hc, fun j d hj hd => ?_⟩
        rw [getElem?_spawnChild_ne hc (by omega)] at hd
        exact hunborn j d (by omega) hd
      · exact ⟨{ hbase with }, trivial⟩
    · cases hs'
      exact ⟨{ hbase with }, fun _ => hsett⟩
  · rename_i hpc
    rw [hpc] at hplace
    cases hs'
    refine ⟨{ hbase with }, ?_⟩
    split
    · trivial
    · exact hplace (by simpa using ‹¬s.stopRequested = true›)
  · rename_i hpc
    rw [hpc] at hplace
    split at hs' <;> cases hs'
    · exact Ok.receive hbase hplace ‹_›
    · exact ⟨{ hbase with }, fun _ => hplace⟩
  · rename_i i hpc
    rw [hpc] at hplace
    obtain ⟨hsett, c', hc', hdead⟩ := hplace
    obtain ⟨c, hc, rfl⟩ := map_eq_some_iff.mp hs'
    rw [hc] at hc'
    cases hc'
    split
    · have hspawn := hbase.spawnChild false hc (hsett.gone hc hdead)
      exact ⟨{ hspawn with }, fun _ => hbase.settled_spawnChild false hsett hc⟩
    · exact ⟨{ hbase with }, fun _ => hsett⟩
  · rename_i w hpc
    rw [hpc] at hplace
    have hwait : WaitOk w s.table.children s.procs := hplace
    split at hs' <;> cases hs'
    · exact ⟨{ hbase with }, (hwait.more ‹_›).1⟩
    · refine ⟨{ hbase with }, hwait.gone ‹_›, Nat.le_refl _, ?_⟩
      exact fun j c hj hc => (hwait.old j c hj hc).1
    · exact ⟨{ hbase with }, nofun⟩
  · rename_i lo i hpc
    rw [hpc] at hplace
    obtain ⟨hsett, hlo, hdead⟩ := hplace
    split at hs'
    · rename_i c hc
      split at hs' <;> cases hs'
      · have hspawn := hbase.spawnChild (decide (c.id ∈ s.aliveBefore)) hc
          (hsett.gone hc (hdead i c (Nat.le_refl i) hc))
        refine ⟨{ hspawn with }, hbase.settled_spawnChild (decide (c.id ∈ s.aliveBefore)) hsett hc,
          Nat.le_succ_of_le hlo, fun j d hj hd => ?_⟩
        rw [getElem?_spawnChild_ne hc (by omega)] at hd
        exact hdead j d (by omega) hd
      · exact ⟨{ hbase with }, nofun⟩
    · cases hs'
      exact ⟨{ hbase with }, fun _ => hsett⟩
  · cases hs'
    exact Ok.exited hbase
  · split at hs' <;> cases hs' <;>
      exact ⟨{ hbase with }, trivial⟩
  · cases hs'

theorem Base.post (h : Base s) (hm : ∀ p r, m ≠ .down p r) :
    Heard s.table.children s.procs (s.mailbox ++ [m]) s.reported s.retired := by
  refine { h.heard with mail := fun p r hmem => ?_ }
  rcases mem_append.mp hmem with hmem | hmem
  · exact h.heard.mail p r hmem
  · exact absurd (mem_singleton.mp hmem).symm (hm p r)

theorem Ok.act {a : Act} (h : Ok s) (hs' : s.act a = some s') : Ok s' := by
  have hbase := h.base
  cases a with
  | sup now mem ok => exact h.supStep hs'
  | recvFail =>
    simp only [State.act] at hs'
    split at hs' <;> cases hs'
    exact ⟨{ hbase with }, trivial⟩
  | killSup =>
    simp only [State.act] at hs'
    split at hs' <;> cases hs'
    refine ⟨{ hbase with }, ?_⟩
    split <;> trivial
  | stop =>
    cases hs'
    exact ⟨⟨hbase.linked, hbase.post nofun, hbase.balanced⟩, h.place.stop⟩
  | abandon =>
    cases hs'
    exact ⟨{ hbase with }, h.place⟩
  | addChild policy | send =>
    cases hs'
    exact ⟨⟨hbase.linked, hbase.post nofun, hbase.balanced⟩, h.place⟩
  | exit p reason =>
    obtain ⟨q, hq, hs'⟩ := bind_eq_some_iff.mp hs'
    split at hs' <;> cases hs'
    rename_i hrun
    have hages := ages_exit reason hq hrun
    exact ⟨⟨hbase.linked.exit hq hrun, hbase.heard.ages hages, hbase.balanced⟩, h.place.ages hages⟩
  | leave p =>
    obtain ⟨q, hq, hs'⟩ := bind_eq_some_iff.mp hs'
    split at hs' <;> cases hs'
    rename_i r hph
    have hages : Ages s.procs (s.procs.set p { q with phase := .left r }) :=
      ages_set hq nofun fun r' => by rw [hph]; nofun
    exact ⟨⟨hbase.linked.setPhase hq hages (by rw [hph]; rfl), hbase.heard.ages hages,
      hbase.balanced⟩, h.place.ages hages⟩
  | report p ok =>
    obtain ⟨q, hq, hs'⟩ := bind_eq_some_iff.mp hs'
    split at hs' <;> cases hs'
    rename_i r hph
    have hages : Ages s.procs (s.procs.set p { q with phase := .silent r }) :=
      ages_set hq nofun fun r' => by rw [hph]; nofun
    have hheard := hbase.heard.ages hages
    refine ⟨⟨hbase.linked.setPhase hq hages (by rw [hph]; rfl), ?_, hbase.balanced⟩,
      h.place.ages hages⟩
    split
    · refine { hheard with mail := fun p' r' hmem => ?_ }
      rcases mem_append.mp hmem with hmem | hmem
      · exact hheard.mail p' r' hmem
      · cases mem_singleton.mp hmem
        exact ⟨_, getElem?_set_new hq, rfl⟩
    · exact hheard

theorem ok_create {opts : Opts} {hooked : Bool} {policies : List Policy} :
    Ok (.create opts hooked policies) := by
  have hget {i : ℕ} {c : Child} (hc : (create opts hooked policies).table.children[i]? = some c) :
      ∃ policy, policies[i]? = some policy ∧ c = ⟨i, policy, none, false, false⟩ := by
    have hc := (List.getElem?_mapIdx).symm.trans hc
    obtain ⟨policy, hpol, rfl⟩ := map_eq_some_iff.mp hc
    exact ⟨policy, hpol, rfl⟩
  have hnone {p : ℕ} : inTable (create opts hooked policies).procs p = false := rfl
  refine ⟨⟨⟨?_, fun i c hc => ?_, fun i c p hc hp => ?_, fun i c hc hp => rfl, fun _ _ => rfl,
    fun p hp => ?_⟩, ⟨fun i c hc halive => ?_, nofun, nofun, nofun⟩, ?_⟩, ?_, fun j c _ hc => ?_⟩
  · show ((policies.mapIdx fun i policy => (⟨i, policy, none, false, false⟩ : Child)).map
      (·.id)).Nodup
    rw [mapIdx_eq_zipIdx_map, List.map_map]
    show ((policies.zipIdx 0).map Prod.snd).Nodup
    rw [zipIdx_map_snd]
    exact nodup_range'
  · obtain ⟨policy, hpol, rfl⟩ := hget hc
    exact (List.getElem?_eq_some_iff.mp hpol).1
  · obtain ⟨policy, -, rfl⟩ := hget hc
    cases hp
  · cases hp
  · obtain ⟨policy, -, rfl⟩ := hget hc
    cases halive
  · show (0 : ℤ) = _
    rw [countP_eq_zero.mpr]
    · rfl
    · intro c hmem
      obtain ⟨i, hi⟩ := mem_iff_getElem?.mp hmem
      obtain ⟨policy, -, rfl⟩ := hget hi
      exact Bool.false_ne_true
  · exact settled_of fun i c p _ _ _ => hnone
  · obtain ⟨policy, -, rfl⟩ := hget hc
    exact ⟨rfl, rfl⟩

theorem Ok.of_reachable {ok : State → Act → Prop} (hs : system.ReachableUnder ok s) : Ok s := by
  refine hs.invariant ?_ ?_
  · rintro s ⟨opts, hooked, policies, rfl⟩
    exact ok_create
  · intro s a s' h _ ht
    exact h.act ht

end LibXtc.Sup

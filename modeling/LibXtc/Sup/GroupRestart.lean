import LibXtc.Sup.SupervisorRuns

/-!
# Group restarts

A group restart replaces a generation of children: it begins to start them when the last of the
old processes has left the process table, and starts them in the order of the table. A late DOWN
of an old process is not taken for one of a new process.
-/

namespace LibXtc.Sup

open Foundations Option State List

/-- The children started since the restart began are those of the table from `lo` on, in order,
and the entries not reached yet name processes that are being replaced. -/
def Ordered (pc : Pc) (cs : List Child) (starts : List Start) (before : ℕ) (retired : List ℕ) :
    Prop :=
  match pc with
  | .waiting w => before = starts.length ∧
      ∀ (j : ℕ) (c : Child) (p : ℕ), w.lo ≤ j → cs[j]? = some c → c.pid = some p → p ∈ retired
  | .respawn lo i => before ≤ starts.length ∧
      (starts.drop before).map (·.child) = ((cs.drop lo).take (i - lo)).map (·.id) ∧
      ∀ (j : ℕ) (c : Child) (p : ℕ), i ≤ j → cs[j]? = some c → c.pid = some p → p ∈ retired
  | _ => True

variable {s s' : State} {i p lo : ℕ} {c : Child} {now : ℤ} {mem ok wasAlive : Bool}

def State.Ordered (s : State) : Prop :=
  Sup.Ordered s.pc s.table.children s.starts s.startsBefore s.retired

theorem State.ordered_of_top (hpc : s.pc = .top) : s.Ordered := by
  unfold State.Ordered
  rw [hpc]
  trivial

theorem ordered_beginGroup (hpc : s.pc = .top) : (s.beginGroup lo now mem).Ordered := by
  unfold beginGroup
  dsimp only
  split
  · refine ⟨rfl, fun j c p hlo hc hp => ?_⟩
    rw [Table.getElem?_markDead_rest, if_pos hlo] at hc
    obtain ⟨d, hd, rfl⟩ := map_eq_some_iff.mp hc
    exact mem_append_right _ (mem_filterMap.mpr ⟨d, mem_drop_of_getElem? hd hlo, hp⟩)
  · exact ordered_of_top hpc

theorem ordered_handle {m : Msg} (hpc : s.pc = .top) : (s.handle m now mem ok).Ordered := by
  cases m with
  | down p reason =>
    simp only [handle, handleDown]
    split
    · exact ordered_of_top hpc
    · split
      · unfold childDown
        dsimp only
        split
        · trivial
        · split
          · split
            · trivial
            · unfold applyStrategy
              split
              · trivial
              · trivial
              · exact ordered_beginGroup hpc
              · exact ordered_beginGroup hpc
          · split <;> exact ordered_of_top hpc
      · exact ordered_of_top hpc
  | addChild policy =>
    simp only [handle, handleAddChild]
    split
    · exact ordered_of_top hpc
    · split <;> exact ordered_of_top hpc
  | other => exact ordered_of_top hpc

/-- The children of a table from `lo` up to `i` and the one at `i`. -/
theorem take_drop_succ {cs : List Child} (hlo : lo ≤ i) (hc : cs[i]? = some c) :
    ((cs.drop lo).take (i + 1 - lo)).map (·.id) =
      ((cs.drop lo).take (i - lo)).map (·.id) ++ [c.id] := by
  have hget : (cs.drop lo)[i - lo]? = some c := by
    rw [getElem?_drop, show lo + (i - lo) = i by omega]
    exact hc
  rw [show i + 1 - lo = i - lo + 1 by omega, take_add_one, hget, map_append]
  rfl

/-- Starting a child does not change who stands where. -/
theorem map_id_spawnChild (hc : s.table.children[i]? = some c) :
    (s.spawnChild i c wasAlive).table.children.map (·.id) = s.table.children.map (·.id) := by
  rw [children_spawnChild hc, map_set]
  refine set_eq_self_of_getElem? ?_
  rw [getElem?_map, hc]
  rfl

theorem ordered_respawn (h : Ok s) (hord : s.Ordered) (hpc : s.pc = .respawn lo i)
    (hc : s.table.children[i]? = some c) :
    State.Ordered { s.spawnChild i c wasAlive with pc := .respawn lo (i + 1) } := by
  have hplace := h.place
  rw [hpc] at hplace
  obtain ⟨-, hlo, -⟩ := hplace
  unfold State.Ordered at hord
  rw [hpc] at hord
  obtain ⟨hbefore, hstart, hold⟩ := hord
  refine ⟨?_, ?_, fun j d p hj hd hp => ?_⟩
  · show s.startsBefore ≤ (s.starts ++ [_]).length
    rw [length_append]
    omega
  · have hids : (s.spawnChild i c wasAlive).table.children.map (·.id) =
        s.table.children.map (·.id) := map_id_spawnChild hc
    let new : Start := ⟨c.id, c.policy, s.lastExit c.id, wasAlive⟩
    calc ((s.starts ++ [new]).drop s.startsBefore).map (·.child)
        = (s.starts.drop s.startsBefore).map (·.child) ++ [c.id] := by
          rw [drop_append_of_le_length hbefore, map_append]
          rfl
      _ = ((s.table.children.drop lo).take (i - lo)).map (·.id) ++ [c.id] := by rw [hstart]
      _ = ((s.table.children.drop lo).take (i + 1 - lo)).map (·.id) :=
          (take_drop_succ hlo hc).symm
      _ = (((s.spawnChild i c wasAlive).table.children.drop lo).take (i + 1 - lo)).map (·.id) := by
          rw [map_take, map_drop, map_take, map_drop, hids]
  · rw [getElem?_spawnChild_ne hc (by omega)] at hd
    exact hold j d p (by omega) hd hp

theorem ordered_supStep (h : Ok s) (hord : s.Ordered)
    (hs' : s.supStep now mem ok = some s') : s'.Ordered := by
  unfold supStep at hs'
  split at hs'
  · split at hs'
    · split at hs' <;> cases hs' <;> trivial
    · cases hs'
      trivial
  · cases hs'
    split <;> trivial
  · split at hs' <;> cases hs'
    · exact ordered_handle rfl
    · trivial
  · obtain ⟨c, hc, rfl⟩ := map_eq_some_iff.mp hs'
    split <;> trivial
  · rename_i w hpc
    have hplace := h.place
    rw [hpc] at hplace
    unfold State.Ordered at hord
    rw [hpc] at hord
    obtain ⟨hbefore, hold⟩ := hord
    split at hs' <;> cases hs'
    · rename_i w' hmore
      refine ⟨hbefore, fun j c p hj => ?_⟩
      rw [(WaitOk.more hplace hmore).2] at hj
      exact hold j c p hj
    · refine ⟨Nat.le_of_eq hbefore, ?_, hold⟩
      rw [hbefore, drop_length, Nat.sub_self, take_zero]
      rfl
    · trivial
  · rename_i lo i hpc
    split at hs'
    · rename_i c hc
      split at hs' <;> cases hs'
      · exact ordered_respawn h hord hpc hc
      · trivial
    · cases hs'
      trivial
  · cases hs'
    show Ordered (if mem = true ∧ s.table.children ≠ [] then _ else Pc.done) _ _ _ _
    split <;> trivial
  · split at hs' <;> cases hs' <;> trivial
  · cases hs'

theorem ordered_act {a : Act} (h : Ok s) (hord : s.Ordered) (hs' : s.act a = some s') :
    s'.Ordered := by
  cases a with
  | sup now mem ok => exact ordered_supStep h hord hs'
  | recvFail =>
    simp only [act] at hs'
    split at hs' <;> cases hs'
    trivial
  | killSup =>
    simp only [act] at hs'
    split at hs' <;> cases hs'
    split <;> trivial
  | stop | abandon | addChild | send =>
    cases hs'
    exact hord
  | exit p reason | leave p | report p ok =>
    obtain ⟨q, hq, hs'⟩ := bind_eq_some_iff.mp hs'
    split at hs' <;> cases hs'
    exact hord

theorem ordered_of_reachable (hs : system.Reachable s) : s.Ordered := by
  induction hs with
  | start h =>
    obtain ⟨opts, hooked, policies, rfl⟩ := h
    trivial
  | next hs _ ht ih => exact ordered_act (.of_reachable hs) ih ht

/-- A late DOWN of a process that was replaced changes nothing. -/
theorem Ok.stale_down {reason : ℤ} {rest : List Msg} (h : Ok s) (hpc : s.pc = .receive)
    (hmail : s.mailbox = .down p reason :: rest) (hp : p ∈ s.retired) :
    s.supStep now mem ok =
      some { s with mailbox := rest, pc := .top, reported := s.reported ++ [p] } := by
  have hnone : findChildByPid s.table.children p = none := by
    cases hfind : findChildByPid s.table.children p with
    | none => rfl
    | some i =>
      obtain ⟨c, hc, halive, hpid⟩ := getElem?_of_findChildByPid hfind
      obtain ⟨p', hp', -, hretired⟩ := h.base.heard.alive i c hc halive
      rw [hpid] at hp'
      cases hp'
      exact absurd hp hretired
  unfold State.supStep
  rw [hpc, hmail]
  dsimp only [State.handle, State.handleDown]
  rw [hnone]

/-- In every run of a supervisor, whatever its children do:

* the counter is the number of entries marked alive;
* while a group restart starts children, no process of the generation that it replaces, and none of
  an earlier one, is in the process table: each process there is that of a live entry before the
  one to be started next; the entries from there on still name old processes; and the children
  started so far are those from the first entry to be replaced on, in the order of the table;
* a DOWN of a process that a group restart set out to replace is dropped: it changes nothing but
  the mailbox. -/
theorem group_restart_replaces {s : State} (hs : system.Reachable s) :
    s.table.nAlive = (s.table.children.countP (·.alive) : ℕ) ∧
    (∀ lo i, s.pc = .respawn lo i → (∀ p, inTable s.procs p = true → p ∉ s.retired ∧
        ∃ (j : ℕ) (c : Child), j < i ∧ s.table.children[j]? = some c ∧ c.pid = some p ∧
          c.alive = true) ∧
      (∀ (j : ℕ) (c : Child) (p : ℕ), i ≤ j → s.table.children[j]? = some c → c.pid = some p →
        p ∈ s.retired) ∧
      (s.starts.drop s.startsBefore).map (·.child) =
        ((s.table.children.drop lo).take (i - lo)).map (·.id)) ∧
    (∀ p reason rest, s.pc = .receive → s.mailbox = .down p reason :: rest → p ∈ s.retired →
      ∀ now mem ok, system.step s (.sup now mem ok) =
        some { s with mailbox := rest, pc := .top, reported := s.reported ++ [p] }) := by
  have h := Ok.of_reachable hs
  have hordered := ordered_of_reachable hs
  refine ⟨h.base.balanced, fun lo i hpc => ?_, fun p reason rest hpc hmail hp now mem ok =>
    h.stale_down hpc hmail hp⟩
  unfold State.Ordered at hordered
  rw [hpc] at hordered
  obtain ⟨-, hstarted, hold⟩ := hordered
  have hplace := h.place
  rw [hpc] at hplace
  obtain ⟨hsettled, -, hdead⟩ := hplace
  refine ⟨fun p hp => ?_, hold, hstarted⟩
  obtain ⟨j, c, hc, hpid⟩ := h.base.linked.placed p hp
  have halive : c.alive = true := by
    cases hc' : c.alive with
    | true => rfl
    | false =>
      rw [hsettled.gone hc hc' p hpid] at hp
      cases hp
  obtain ⟨p', hp', -, hretired⟩ := h.base.heard.alive j c hc halive
  rw [hpid] at hp'
  cases hp'
  refine ⟨hretired, j, c, ?_, hc, hpid, halive⟩
  by_contra hge
  rw [hdead j c (by omega) hc] at halive
  cases halive

/-- Two children under `one_for_all`: the first fails, the second is slow to go, and its DOWN comes
when the first has been started again. -/
def slowSibling : List Act :=
  replicate 4 (.sup 0 true true) ++ [.exit 0 7, .leave 0, .report 0 true] ++
  replicate 5 (.sup 1 true true) ++ [.exit 1 1, .leave 1] ++
  replicate 6 (.sup 2 true true) ++ [.report 1 true]

theorem group_restart_replaces_slowSibling :
    ∃ s ∈ system.run (.create ⟨.oneForAll, 3, 5, 0⟩ true [.permanent, .permanent]) slowSibling,
      s.pc = .respawn 0 1 ∧ s.retired = [0, 1] ∧ inTable s.procs 2 = true ∧
      s.table.nAlive = 1 ∧ inTable s.procs 1 = false := by
  refine System.exists_run ⟨_, _, _, rfl⟩ (by decide) fun s eval hs hpc => ?_
  have hretired : s.retired = [0, 1] := by apply eval; decide
  obtain ⟨-, hrespawn, -⟩ := group_restart_replaces hs
  refine ⟨hretired, by apply eval; decide, by apply eval; decide, ?_⟩
  cases hold : inTable s.procs 1 with
  | false => rfl
  | true =>
    have hnot := ((hrespawn 0 1 hpc).1 1 hold).1
    rw [hretired] at hnot
    exact absurd (by decide) hnot

/-- No child is orphaned: a process in the process table is named by exactly one entry. -/
theorem one_entry_per_process {s : State} (hs : system.Reachable s) {p : ℕ}
    (hp : inTable s.procs p = true) :
    ∃! i : ℕ, ∃ c : Child, s.table.children[i]? = some c ∧ c.pid = some p := by
  have h := (Ok.of_reachable hs).base.linked
  obtain ⟨i, c, hc, hpid⟩ := h.placed p hp
  refine ⟨i, ⟨c, hc, hpid⟩, ?_⟩
  rintro j ⟨d, hd, hdp⟩
  exact h.index_eq_of_pid hd hc hdp hpid

theorem one_entry_per_process_slowSibling :
    ∃ s ∈ system.run (.create ⟨.oneForAll, 3, 5, 0⟩ true [.permanent, .permanent]) slowSibling,
      inTable s.procs 2 = true ∧
      ∃! i : ℕ, ∃ c : Child, s.table.children[i]? = some c ∧ c.pid = some 2 :=
  System.exists_run ⟨_, _, _, rfl⟩ (by decide) fun _ _ hs hp => one_entry_per_process hs hp

end LibXtc.Sup

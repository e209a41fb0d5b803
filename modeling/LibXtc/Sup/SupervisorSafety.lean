import LibXtc.Sup.Supervisor

/-!
# The table and the processes

Whatever a child does, its table entry names the process that was started last for it, and any
process of the supervisor in the process table is named by an entry. Entries marked dead name
processes that have left the process table, except while a group restart waits for them and after
it gave up. All other results about the supervisor follow from this.
-/

namespace LibXtc.Sup

open Foundations Bool Table Option List Function

/-! ## The operations on the table -/

def Child.dead (c : Child) : Child := { c with alive := false }

section Tables

variable {t : Table} {i j n pid : ℕ} {c : Child} {v : Bool}

theorem Table.children_childAlive (hc : t.children[i]? = some c) :
    (t.childAlive i c v).children = t.children.set i { c with alive := v } := by
  unfold childAlive
  split
  · rename_i hv
    subst hv
    exact (set_eq_self_of_getElem? hc).symm
  · rfl

theorem Table.children_spawned (hc : t.children[i]? = some c) :
    (t.spawned i c pid).children = t.children.set i { c with pid := some pid, alive := true } := by
  have hlt := (List.getElem?_eq_some_iff.mp hc).1
  unfold spawned
  rw [children_childAlive (List.getElem?_set_self hlt), set_set]

theorem Table.length_markDead : (t.markDead i n).children.length = t.children.length := by
  induction n generalizing t i with
  | zero => rfl
  | succ n ih =>
    rw [markDead]
    cases hc : t.children[i]? with
    | none => rfl
    | some c =>
      rw [ih, children_childAlive hc, length_set]

/-- The entries from `i` on are marked dead. -/
theorem Table.getElem?_markDead : (t.markDead i n).children[j]? =
    if i ≤ j ∧ j < i + n then t.children[j]?.map Child.dead else t.children[j]? := by
  induction n generalizing t i with
  | zero =>
    rw [if_neg (by omega)]
    rfl
  | succ n ih =>
    rw [markDead]
    cases hc : t.children[i]? with
    | none =>
      by_cases hj : i ≤ j
      · have hnone : t.children[j]? = none := by
          rw [getElem?_eq_none_iff] at hc ⊢
          omega
        rw [hnone, map_none, ite_self]
      · rw [if_neg (by omega)]
    | some c =>
      rw [ih, children_childAlive hc]
      by_cases hij : i = j
      · subst hij
        rw [if_neg (by omega), if_pos (by omega), getElem?_set_new hc, hc]
        rfl
      · rw [getElem?_set_ne hij]
        by_cases hj : i ≤ j ∧ j < i + (n + 1)
        · rw [if_pos hj, if_pos (by omega)]
        · rw [if_neg hj, if_neg (by omega)]

/-- Marking all entries from `i` on. -/
theorem Table.getElem?_markDead_rest : (t.markDead i (t.children.length - i)).children[j]? =
    if i ≤ j then t.children[j]?.map Child.dead else t.children[j]? := by
  rw [getElem?_markDead]
  by_cases hj : i ≤ j
  · split
    · rfl
    · have hnone : t.children[j]? = none := getElem?_eq_none_iff.mpr (by omega)
      rw [hnone]
      rfl
  · rw [if_neg hj, if_neg (by omega)]

/-- The counter is the number of entries marked alive. -/
def Table.Balanced (t : Table) : Prop := t.nAlive = (t.children.countP (·.alive) : ℕ)

section

variable (h : t.Balanced)
include h

theorem Table.Balanced.childAlive (hc : t.children[i]? = some c) :
    (t.childAlive i c v).Balanced := by
  unfold Table.childAlive
  split
  · exact h
  · rename_i hv
    have hcnt := countP_set_add (p := fun d : Child => d.alive) (b := { c with alive := v }) hc
    unfold Table.Balanced at h ⊢
    cases v with
    | false =>
      have halive : c.alive = true := not_eq_false _ ▸ hv
      rw [halive] at hcnt
      simp only [toNat_true, toNat_false, false_eq_true, if_false] at hcnt ⊢
      omega
    | true =>
      have halive : c.alive = false := not_eq_true _ ▸ hv
      rw [halive] at hcnt
      simp only [toNat_true, toNat_false, if_true] at hcnt ⊢
      omega

theorem Table.Balanced.markDead : (t.markDead i n).Balanced := by
  induction n generalizing t i with
  | zero => exact h
  | succ n ih =>
    rw [markDead]
    cases hc : t.children[i]? with
    | none => exact h
    | some c => exact ih (h.childAlive hc)

theorem Table.Balanced.spawned (hc : t.children[i]? = some c) : (t.spawned i c pid).Balanced := by
  have hlt := (List.getElem?_eq_some_iff.mp hc).1
  have hcnt := countP_set_add (p := fun d : Child => d.alive) (b := { c with pid := some pid }) hc
  refine Table.Balanced.childAlive ?_ (List.getElem?_set_self hlt)
  unfold Table.Balanced at h ⊢
  dsimp only at hcnt ⊢
  omega

theorem Table.Balanced.append (hc : c.alive = false) :
    Table.Balanced { t with children := t.children ++ [c] } := by
  unfold Table.Balanced at h ⊢
  rw [countP_append, countP_singleton, hc]
  exact h

theorem Table.Balanced.eraseIdx (hc : t.children[i]? = some c) (hdead : c.alive = false) :
    Table.Balanced { t with children := t.children.eraseIdx i } := by
  have hperm := (perm_cons_eraseIdx hc).countP_eq (fun d : Child => d.alive)
  rw [countP_cons_of_neg (by simpa using hdead)] at hperm
  unfold Table.Balanced at h ⊢
  rw [← hperm]
  exact h

end

end Tables

/-! ## Table and processes -/

section Processes

variable {cs cs' : List Child} {procs procs' : List Process} {i j p nextId : ℕ} {c c' : Child}
  {q : Process} {lastExit : ℕ → Option ℤ} {mailbox : List Msg} {reported retired : List ℕ}
  {phase : Phase} {t : Table}

/-- Every entry names the process started last for its child; a process in the process table is
named by an entry. -/
structure Linked (cs : List Child) (procs : List Process) (lastExit : ℕ → Option ℤ) (nextId : ℕ) :
    Prop where
  ids : (cs.map (·.id)).Nodup
  known : ∀ (i : ℕ) (c : Child), cs[i]? = some c → c.id < nextId
  process : ∀ (i : ℕ) (c : Child) (p : ℕ), cs[i]? = some c → c.pid = some p →
    ∃ q : Process, procs[p]? = some q ∧ q.child = c.id ∧
      ∀ r, q.phase.reason = some r → lastExit c.id = some r
  unborn : ∀ (i : ℕ) (c : Child), cs[i]? = some c → c.pid = none → lastExit c.id = none
  fresh : ∀ id, nextId ≤ id → lastExit id = none
  placed : ∀ p, inTable procs p = true → ∃ (i : ℕ) (c : Child), cs[i]? = some c ∧ c.pid = some p

/-- An entry marked alive names a process whose DOWN was not received and that is not being
replaced. -/
structure Heard (cs : List Child) (procs : List Process) (mailbox : List Msg)
    (reported retired : List ℕ) : Prop where
  alive : ∀ (i : ℕ) (c : Child), cs[i]? = some c → c.alive = true →
    ∃ p, c.pid = some p ∧ p ∉ reported ∧ p ∉ retired
  mail : ∀ p r, Msg.down p r ∈ mailbox → ∃ q : Process, procs[p]? = some q ∧ q.phase = .silent r
  reported : ∀ p ∈ reported, p < procs.length
  retired : ∀ p ∈ retired, p < procs.length

theorem index_eq_of_id (h : (cs.map (·.id)).Nodup) (hc : cs[i]? = some c) (hc' : cs[j]? = some c')
    (hid : c.id = c'.id) : i = j := by
  have hi : i < (cs.map (·.id)).length := by
    rw [length_map]
    exact (List.getElem?_eq_some_iff.mp hc).1
  refine (List.getElem?_inj hi h).mp ?_
  rw [List.getElem?_map, List.getElem?_map, hc, hc', map_some, map_some, hid]

/-- Two entries never name one process. -/
theorem Linked.index_eq_of_pid (h : Linked cs procs lastExit nextId) (hc : cs[i]? = some c)
    (hc' : cs[j]? = some c') (hp : c.pid = some p) (hp' : c'.pid = some p) : i = j := by
  obtain ⟨q, hq, hchild, -⟩ := h.process i c p hc hp
  obtain ⟨q', hq', hchild', -⟩ := h.process j c' p hc' hp'
  rw [hq] at hq'
  cases hq'
  exact index_eq_of_id h.ids hc hc' (hchild.symm.trans hchild')

theorem Linked.pid_lt (h : Linked cs procs lastExit nextId) (hc : cs[i]? = some c)
    (hp : c.pid = some p) : p < procs.length := by
  obtain ⟨q, hq, -⟩ := h.process i c p hc hp
  exact (List.getElem?_eq_some_iff.mp hq).1

theorem inTable_eq (hq : procs[p]? = some q) : inTable procs p = q.phase.inTable := by
  rw [inTable, hq]
  rfl

theorem lt_of_inTable (h : inTable procs p = true) : p < procs.length := by
  by_contra hge
  rw [inTable, getElem?_eq_none_iff.mpr (by omega)] at h
  cases h

/-- Nothing comes into the process table that was not there, and exits are as they were. -/
structure Ages (procs procs' : List Process) : Prop where
  length : procs'.length = procs.length
  same : ∀ (p : ℕ) (q' : Process), procs'[p]? = some q' → ∃ q : Process, procs[p]? = some q ∧
    q'.child = q.child ∧ (q'.phase.inTable = true → q.phase.inTable = true)
  silent : ∀ (p : ℕ) (q : Process) (r : ℤ), procs[p]? = some q → q.phase = .silent r →
    ∃ q' : Process, procs'[p]? = some q' ∧ q'.phase = .silent r

theorem Ages.inTable (h : Ages procs procs') (hp : inTable procs' p = true) :
    inTable procs p = true := by
  have hlt := lt_of_inTable hp
  obtain ⟨q, hq, -, hin⟩ := h.same p _ (getElem?_eq_getElem hlt)
  rw [inTable_eq (getElem?_eq_getElem hlt)] at hp
  rw [inTable_eq hq]
  exact hin hp

theorem Heard.ages (h : Heard cs procs mailbox reported retired) (hages : Ages procs procs') :
    Heard cs procs' mailbox reported retired := by
  refine ⟨h.alive, fun p r hmem => ?_, fun p hp => ?_, fun p hp => ?_⟩
  · obtain ⟨q, hq, hsilent⟩ := h.mail p r hmem
    exact hages.silent p q r hq hsilent
  · rw [hages.length]
    exact h.reported p hp
  · rw [hages.length]
    exact h.retired p hp

/-- Process `p` goes to a later phase. -/
theorem ages_set (hq : procs[p]? = some q)
    (hin : phase.inTable = true → q.phase.inTable = true) (hsilent : ∀ r, q.phase ≠ .silent r) :
    Ages procs (procs.set p { q with phase := phase }) := by
  refine ⟨length_set, fun p' q' hq' => ?_, fun p' q' r hq' hph => ?_⟩
  · rcases getElem?_set_cases hq' with ⟨rfl, rfl⟩ | ⟨-, hq'⟩
    · exact ⟨q, hq, rfl, hin⟩
    · exact ⟨q', hq', rfl, id⟩
  · by_cases hp : p = p'
    · subst hp
      rw [hq] at hq'
      cases hq'
      exact absurd hph (hsilent r)
    · exact ⟨q', by rw [getElem?_set_ne hp, hq'], hph⟩

/-- A running process begins to exit. -/
theorem ages_exit (reason : ℤ) (hq : procs[p]? = some q) (hrun : q.phase = .running) :
    Ages procs (procs.set p { q with phase := .exiting reason }) :=
  ages_set hq (fun _ => by rw [hrun]; rfl) fun r => by rw [hrun]; nofun

theorem getElem?_kill : (kill cs procs)[p]? = procs[p]?.map fun q =>
    { q with killed := q.killed || cs.any fun c => c.alive && c.pid == some p } :=
  getElem?_mapIdx

theorem ages_kill (cs : List Child) : Ages procs (kill cs procs) := by
  refine ⟨length_mapIdx, fun p q' hq' => ?_, fun p q r hq hph => ?_⟩
  · rw [getElem?_kill] at hq'
    obtain ⟨q, hq, rfl⟩ := map_eq_some_iff.mp hq'
    exact ⟨q, hq, rfl, id⟩
  · rw [getElem?_kill, hq]
    exact ⟨_, rfl, hph⟩

section

variable (h : Linked cs procs lastExit nextId)
include h

theorem Linked.kill {ds : List Child} : Linked cs (kill ds procs) lastExit nextId := by
  refine ⟨h.ids, h.known, fun i c p hc hp => ?_, h.unborn, h.fresh, fun p hp =>
    h.placed p ((ages_kill _).inTable hp)⟩
  obtain ⟨q, hq, hchild, hreason⟩ := h.process i c p hc hp
  rw [getElem?_kill, hq]
  exact ⟨_, rfl, hchild, hreason⟩

/-- A process that has exited goes on. -/
theorem Linked.setPhase (hq : procs[p]? = some q)
    (hages : Ages procs (procs.set p { q with phase := phase }))
    (hreason : phase.reason = q.phase.reason) :
    Linked cs (procs.set p { q with phase := phase }) lastExit nextId := by
  refine ⟨h.ids, h.known, fun i c p' hc hp => ?_, h.unborn, h.fresh, fun p' hp =>
    h.placed p' (hages.inTable hp)⟩
  obtain ⟨q', hq', hchild, hlast⟩ := h.process i c p' hc hp
  by_cases hpp : p = p'
  · subst hpp
    rw [hq] at hq'
    cases hq'
    exact ⟨_, getElem?_set_new hq, hchild, fun r hr => hlast r (hreason ▸ hr)⟩
  · rw [getElem?_set_ne hpp]
    exact ⟨q', hq', hchild, hlast⟩

/-- A process exits: it is the one that its child's entry names. -/
theorem Linked.exit {r : ℤ} (hq : procs[p]? = some q) (hrun : q.phase = .running) :
    Linked cs (procs.set p { q with phase := .exiting r })
      (update lastExit q.child (some r)) nextId := by
  have hages : Ages procs (procs.set p { q with phase := .exiting r }) := by
    refine ages_set hq (fun _ => ?_) fun r' => ?_
    · rw [hrun]
      rfl
    · rw [hrun]
      nofun
  obtain ⟨j, d, hd, hdp⟩ := h.placed p (by rw [inTable_eq hq, hrun]; rfl)
  have hdchild : q.child = d.id := by
    obtain ⟨q', hq', hchild, -⟩ := h.process j d p hd hdp
    rw [hq] at hq'
    cases hq'
    exact hchild
  -- any other entry is of another child
  have hother (i : ℕ) (c : Child) (hc : cs[i]? = some c) (hne : c.pid ≠ some p) :
      c.id ≠ q.child := by
    intro hid
    have hij := index_eq_of_id h.ids hc hd (hid.trans hdchild)
    subst hij
    rw [hc] at hd
    cases hd
    exact hne hdp
  refine ⟨h.ids, h.known, fun i c p' hc hp => ?_, fun i c hc hp => ?_, fun id hid => ?_,
    fun p' hp => h.placed p' (hages.inTable hp)⟩
  · obtain ⟨q', hq', hchild, hlast⟩ := h.process i c p' hc hp
    by_cases hpp : p = p'
    · subst hpp
      rw [hq] at hq'
      cases hq'
      rw [getElem?_set_new hq, ← hchild, update_self]
      exact ⟨_, rfl, rfl, fun r' hr' => hr'⟩
    · have hne : c.pid ≠ some p := fun hpid => hpp (some.inj (hpid.symm.trans hp))
      rw [getElem?_set_ne hpp, update_of_ne (hother i c hc hne)]
      exact ⟨q', hq', hchild, hlast⟩
  · rw [update_of_ne (hother i c hc (by rw [hp]; nofun))]
    exact h.unborn i c hc hp
  · have hknown := h.known j d hd
    rw [update_of_ne (by omega)]
    exact h.fresh id hid

end

/-- Some entries are marked dead. -/
def Fades (cs cs' : List Child) : Prop :=
  ∀ i : ℕ, cs'[i]? = cs[i]? ∨ cs'[i]? = cs[i]?.map Child.dead

theorem Fades.of_getElem? (h : Fades cs cs') (hc : cs'[i]? = some c') :
    ∃ c, cs[i]? = some c ∧ (c' = c ∨ c' = c.dead) := by
  rcases h i with hsame | hdead
  · exact ⟨c', hsame ▸ hc, .inl rfl⟩
  · obtain ⟨c, hcs, rfl⟩ := map_eq_some_iff.mp (hdead ▸ hc)
    exact ⟨c, hcs, .inr rfl⟩

theorem Fades.map_id (h : Fades cs cs') : cs'.map (·.id) = cs.map (·.id) := by
  refine ext_getElem? fun i => ?_
  rw [getElem?_map, getElem?_map]
  rcases h i with hsame | hdead
  · rw [hsame]
  · rw [hdead, Option.map_map]
    rfl

theorem Fades.pid_eq (h : Fades cs cs') (hc : cs[i]? = some c) :
    ∃ c', cs'[i]? = some c' ∧ c'.pid = c.pid := by
  rcases h i with hsame | hdead
  · exact ⟨c, hsame.trans hc, rfl⟩
  · exact ⟨c.dead, by rw [hdead, hc]; rfl, rfl⟩

theorem Linked.fades (h : Linked cs procs lastExit nextId) (hfades : Fades cs cs') :
    Linked cs' procs lastExit nextId := by
  refine ⟨hfades.map_id ▸ h.ids, fun i c' hc' => ?_, fun i c' p hc' hp => ?_,
    fun i c' hc' hp => ?_, h.fresh, fun p hp => ?_⟩
  · obtain ⟨c, hc, rfl | rfl⟩ := hfades.of_getElem? hc'
    · exact h.known i _ hc
    · exact h.known i c hc
  · obtain ⟨c, hc, rfl | rfl⟩ := hfades.of_getElem? hc'
    · exact h.process i _ p hc hp
    · exact h.process i c p hc hp
  · obtain ⟨c, hc, rfl | rfl⟩ := hfades.of_getElem? hc'
    · exact h.unborn i _ hc hp
    · exact h.unborn i c hc hp
  · obtain ⟨i, c, hc, hpid⟩ := h.placed p hp
    obtain ⟨c', hc', hpid'⟩ := hfades.pid_eq hc
    exact ⟨i, c', hc', hpid'.trans hpid⟩

theorem Heard.fades (h : Heard cs procs mailbox reported retired) (hfades : Fades cs cs') :
    Heard cs' procs mailbox reported retired := by
  refine { h with alive := fun i c' hc' halive => ?_ }
  obtain ⟨c, hc, rfl | rfl⟩ := hfades.of_getElem? hc'
  · exact h.alive i _ hc halive
  · cases halive

theorem fades_childAlive (hc : t.children[i]? = some c) :
    Fades t.children (t.childAlive i c false).children := by
  intro j
  rw [children_childAlive hc]
  by_cases hij : i = j
  · subst hij
    rw [getElem?_set_new hc, hc]
    exact .inr rfl
  · rw [getElem?_set_ne hij]
    exact .inl rfl

theorem fades_markDead {n : ℕ} : Fades t.children (t.markDead i n).children := by
  intro j
  rw [getElem?_markDead]
  split
  · exact .inr rfl
  · exact .inl rfl

/-- A child whose last process has left the process table is started. -/
theorem Linked.spawn (h : Linked cs procs lastExit nextId) (hc : cs[i]? = some c)
    (hgone : ∀ p, c.pid = some p → inTable procs p = false) :
    Linked (cs.set i { c with pid := some procs.length, alive := true })
      (procs ++ [⟨c.id, .running, false⟩]) lastExit nextId := by
  refine ⟨?_, fun j d hd => ?_, fun j d p hd hp => ?_, fun j d hd hp => ?_, h.fresh, fun p hp => ?_⟩
  · rw [map_set]
    have hid : (cs.map (·.id))[i]? = some c.id := by rw [getElem?_map, hc]; rfl
    rw [set_eq_self_of_getElem? hid]
    exact h.ids
  · rcases getElem?_set_cases hd with ⟨rfl, rfl⟩ | ⟨-, hd⟩
    · exact h.known i c hc
    · exact h.known j d hd
  · rcases getElem?_set_cases hd with ⟨rfl, rfl⟩ | ⟨-, hd⟩
    · cases hp
      exact ⟨⟨c.id, .running, false⟩, getElem?_concat_length, rfl, nofun⟩
    · obtain ⟨q, hq, hrest⟩ := h.process j d p hd hp
      exact ⟨q, getElem?_concat_of_some hq, hrest⟩
  · rcases getElem?_set_cases hd with ⟨rfl, rfl⟩ | ⟨-, hd⟩
    · cases hp
    · exact h.unborn j d hd hp
  · have hplt := lt_of_inTable hp
    rw [length_append, length_singleton] at hplt
    by_cases hpnew : p = procs.length
    · exact ⟨i, _, getElem?_set_new hc, by rw [hpnew]⟩
    · have hold : inTable procs p = true := by
        rw [inTable, getElem?_append_left (by omega)] at hp
        exact hp
      obtain ⟨j, d, hd, hdp⟩ := h.placed p hold
      by_cases hij : i = j
      · subst hij
        rw [hc] at hd
        cases hd
        rw [hgone p hdp] at hold
        cases hold
      · exact ⟨j, d, by rw [getElem?_set_ne hij, hd], hdp⟩

theorem Heard.spawn (h : Heard cs procs mailbox reported retired) :
    Heard (cs.set i { c with pid := some procs.length, alive := true })
      (procs ++ [⟨c.id, .running, false⟩]) mailbox reported retired := by
  have hlen : (procs ++ [(⟨c.id, .running, false⟩ : Process)]).length = procs.length + 1 :=
    length_append
  refine ⟨fun j d hd halive => ?_, fun p r hmem => ?_, fun p hp => ?_, fun p hp => ?_⟩
  · rcases getElem?_set_cases hd with ⟨rfl, rfl⟩ | ⟨-, hd⟩
    · exact ⟨procs.length, rfl, fun hmem => Nat.lt_irrefl _ (h.reported _ hmem),
        fun hmem => Nat.lt_irrefl _ (h.retired _ hmem)⟩
    · exact h.alive j d hd halive
  · obtain ⟨q, hq, hsilent⟩ := h.mail p r hmem
    exact ⟨q, getElem?_concat_of_some hq, hsilent⟩
  · have hlt := h.reported p hp
    omega
  · have hlt := h.retired p hp
    omega

theorem getElem?_eraseIdx_eq {k : ℕ} {d : Child} (hd : (cs.eraseIdx k)[j]? = some d) :
    ∃ j' : ℕ, cs[j']? = some d :=
  mem_iff_getElem?.mp (mem_of_mem_eraseIdx (mem_of_getElem? hd))

/-- A child whose process has left the process table is removed. -/
theorem Linked.eraseIdx (h : Linked cs procs lastExit nextId) (hc : cs[i]? = some c)
    (hgone : ∀ p, c.pid = some p → inTable procs p = false) :
    Linked (cs.eraseIdx i) procs lastExit nextId := by
  refine ⟨?_, fun j d hd => ?_, fun j d p hd => ?_, fun j d hd => ?_, h.fresh, fun p hp => ?_⟩
  · rw [← eraseIdx_map]
    exact h.ids.sublist (eraseIdx_sublist _ _)
  · obtain ⟨j', hd⟩ := getElem?_eraseIdx_eq hd
    exact h.known j' d hd
  · obtain ⟨j', hd⟩ := getElem?_eraseIdx_eq hd
    exact h.process j' d p hd
  · obtain ⟨j', hd⟩ := getElem?_eraseIdx_eq hd
    exact h.unborn j' d hd
  · obtain ⟨j, d, hd, hdp⟩ := h.placed p hp
    have hij : j ≠ i := by
      rintro rfl
      rw [hc] at hd
      cases hd
      rw [hgone p hdp] at hp
      cases hp
    have hmem : d ∈ cs.eraseIdx i := mem_eraseIdx_iff_getElem?.mpr ⟨j, hij, hd⟩
    obtain ⟨k, hk⟩ := mem_iff_getElem?.mp hmem
    exact ⟨k, d, hk, hdp⟩

theorem Heard.eraseIdx (h : Heard cs procs mailbox reported retired) :
    Heard (cs.eraseIdx i) procs mailbox reported retired := by
  refine { h with alive := fun j d hd => ?_ }
  obtain ⟨j', hd⟩ := getElem?_eraseIdx_eq hd
  exact h.alive j' d hd

/-- A new child enters the table. -/
theorem Linked.append (h : Linked cs procs lastExit nextId) (hid : c.id = nextId)
    (hpid : c.pid = none) : Linked (cs ++ [c]) procs lastExit (nextId + 1) := by
  refine ⟨?_, fun j d hd => ?_, fun j d p hd hp => ?_, fun j d hd hp => ?_, fun id hid =>
    h.fresh id (by omega), fun p hp => ?_⟩
  · rw [map_append, nodup_append]
    refine ⟨h.ids, nodup_singleton _, fun id hmem id' hmem' => ?_⟩
    obtain ⟨d, hd, rfl⟩ := mem_map.mp hmem
    obtain ⟨j, hj⟩ := mem_iff_getElem?.mp hd
    have hlt := h.known j d hj
    have hid' : id' = c.id := mem_singleton.mp hmem'
    omega
  · rcases getElem?_concat_cases hd with hd | ⟨-, rfl⟩
    · exact Nat.lt_succ_of_lt (h.known j d hd)
    · omega
  · rcases getElem?_concat_cases hd with hd | ⟨-, rfl⟩
    · exact h.process j d p hd hp
    · rw [hpid] at hp
      cases hp
  · rcases getElem?_concat_cases hd with hd | ⟨-, rfl⟩
    · exact h.unborn j d hd hp
    · exact h.fresh _ (by omega)
  · obtain ⟨j, d, hd, hdp⟩ := h.placed p hp
    exact ⟨j, d, getElem?_concat_of_some hd, hdp⟩

theorem Heard.append (h : Heard cs procs mailbox reported retired) (hdead : c.alive = false) :
    Heard (cs ++ [c]) procs mailbox reported retired := by
  refine { h with alive := fun j d hd halive => ?_ }
  rcases getElem?_concat_cases hd with hd | ⟨-, rfl⟩
  · exact h.alive j d hd halive
  · rw [hdead] at halive
    cases halive

end Processes

end LibXtc.Sup

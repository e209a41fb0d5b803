import LibXtc.Proc.Slots

/-!
# Pids name processes

A pid carries the id of the loop, the slot and how often the slot was handed out, so it is issued
once. The generations of a table restart at zero when another loop takes it over, but then the
loop id differs. A resolver may hold a table that changed its loop since the probe, and is saved by
the comparison of pids at the end.
-/

namespace LibXtc.PidTable

open Foundations Table State List
open Proc (Pid)

namespace State

/-- The process in a slot of a table. -/
def occupant (s : State) (t k : ℕ) : Option ℕ := ((s.tables.get t).slot k).proc

/-- `p` is the process that was given `pid`. -/
def Issued (s : State) (p : ℕ) (pid : Pid) : Prop := (s.procs[p]?).map Process.pid = some pid

/-- `t` belongs to the loop, registered or until its finalization is over. -/
def Owns (s : State) (loop t : ℕ) : Prop :=
  (loop, t) ∈ s.lt ∨ ∃ c ∈ s.closing, c.loop = loop ∧ c.tbl = t

/-- The tables in use or kept for reuse. -/
def owned (s : State) : List ℕ :=
  s.lt.map Prod.snd ++ (s.closing.map Unregister.tbl ++ s.retired)

/-- The slot about to be handed out was handed out fewer than `2 ^ 64 - 1` times. -/
def fewHandOuts (s : State) : Act → Bool
  | .allocSlot n memory =>
    match s.spawning[n]? with
    | none => true
    | some w =>
      match (s.tables.get w.tbl).pick memory with
      | .error _ => true
      | .ok (k, _) => ((s.tables.get w.tbl).slot k).gen + 1 < 2 ^ 64
  | _ => true

end State

/-! ### The registry -/

/-- Every table has one owner at a time, and a loop is registered only while it is alive. -/
structure Registered (s : State) : Prop where
  index : s.ih.Filled ltHcap ltIdHash s.lt
  keys : (s.lt.map Prod.fst).Nodup
  length_le : s.lt.length ≤ loopTableMax
  live : ∀ e ∈ s.lt, e.1 ∈ s.live
  le_loopIds : ∀ loop ∈ s.live, loop ≤ s.loopIds
  closing_keys : (s.closing.map Unregister.loop).Nodup
  closing_dead : ∀ c ∈ s.closing, c.loop ∉ s.live ∧ c.loop ≤ s.loopIds
  owned_nodup : s.owned.Nodup
  owned_lt : ∀ t ∈ s.owned, t < s.nextTable

namespace Registered

variable {s s' : State} {loop t t' : ℕ} {retired : List ℕ}

theorem ltFind_eq_some_iff (h : Registered s) : s.ltFind loop = some t ↔ (loop, t) ∈ s.lt := by
  rw [ltFind, Option.map_eq_some_iff]
  constructor
  · rintro ⟨e, he, rfl⟩
    have hkey : e.1 = loop := by simpa using find?_some he
    rw [← hkey]
    exact mem_of_find?_eq_some he
  · intro hmem
    obtain ⟨e, he⟩ := Option.isSome_iff_exists.mp (find?_isSome.mpr ⟨_, hmem, decide_eq_true rfl⟩ :
        (s.lt.find? (·.1 = loop)).isSome)
    have hkey : e.1 = loop := by simpa using find?_some he
    have heq := inj_on_of_nodup_map h.keys (mem_of_find?_eq_some he) hmem hkey
    exact ⟨e, he, by rw [heq]⟩

/-- The hash of ids finds what the array holds. -/
theorem ltFindId_eq_some_iff (h : Registered s) : s.ltFindId loop = some t ↔ (loop, t) ∈ s.lt :=
  h.index.find_eq_some_iff h.keys

theorem not_mem_of_ltFind (h : Registered s) (hfind : s.ltFind loop = none) :
    (loop, t) ∉ s.lt := fun hmem => by
  rw [h.ltFind_eq_some_iff.mpr hmem] at hfind
  cases hfind

theorem mem_owned_of_owns (h : s.Owns loop t) : t ∈ s.owned := by
  rcases h with hmem | ⟨c, hc, -, rfl⟩
  · exact mem_append_left _ (mem_map_of_mem hmem)
  · exact mem_append_right _ (mem_append_left _ (mem_map_of_mem hc))

section

variable (h : Registered s)
include h

theorem not_closing_of_mem (hmem : (loop, t) ∈ s.lt) : t ∉ s.closing.map Unregister.tbl := fun hc =>
  (nodup_append.mp h.owned_nodup).2.2 t (mem_map_of_mem hmem) t (mem_append_left _ hc) rfl

theorem not_retired_of_owns (howns : s.Owns loop t) : t ∉ s.retired := by
  obtain ⟨-, hrest, hdisj⟩ := nodup_append.mp h.owned_nodup
  intro hret
  rcases howns with hmem | ⟨c, hc, -, rfl⟩
  · exact hdisj t (mem_map_of_mem hmem) t (mem_append_right _ hret) rfl
  · exact (nodup_append.mp hrest).2.2 _ (mem_map_of_mem hc) _ hret rfl

/-- A loop owns one table. -/
theorem owns_inj (ht : s.Owns loop t) (ht' : s.Owns loop t') : t = t' := by
  rcases ht with hmem | ⟨c, hc, rfl, rfl⟩ <;> rcases ht' with hmem' | ⟨c', hc', heq, rfl⟩
  · exact congrArg Prod.snd (inj_on_of_nodup_map h.keys hmem hmem' rfl)
  · exact absurd (heq ▸ h.live _ hmem) (h.closing_dead c' hc').1
  · exact absurd (h.live _ hmem') (h.closing_dead c hc).1
  · rw [inj_on_of_nodup_map h.closing_keys hc' hc heq]

theorem loopInit : Registered s.loopInit := by
  unfold State.loopInit
  split
  · exact h
  · refine { h with live := ?_, le_loopIds := ?_, closing_dead := ?_ }
    · exact fun e he => mem_cons_of_mem _ (h.live e he)
    · exact forall_mem_cons.mpr
        ⟨Nat.le_refl _, fun loop hloop => Nat.le_succ_of_le (h.le_loopIds loop hloop)⟩
    · intro c hc
      obtain ⟨hdead, hle⟩ := h.closing_dead c hc
      refine ⟨fun hmem => ?_, Nat.le_succ_of_le hle⟩
      rcases mem_cons.mp hmem with heq | hmem
      · omega
      · exact hdead hmem

/-- A loop that is alive and not registered gets a table that nobody owns. -/
theorem register (hlive : loop ∈ s.live) (hfind : s.ltFind loop = none)
    (hlen : s.lt.length < loopTableMax) {next : ℕ}
    (hnodup : owned { s with retired := t :: retired } |>.Nodup)
    (hlt : ∀ x ∈ owned { s with retired := t :: retired }, x < next) :
    Registered { s.register loop t with retired := retired, nextTable := next } := by
  have hnew : (loop, t) ∉ s.lt := h.not_mem_of_ltFind hfind
  have hkey : loop ∉ s.lt.map Prod.fst := by
    intro hmem
    obtain ⟨⟨_, t'⟩, he, rfl⟩ := mem_map.mp hmem
    exact h.not_mem_of_ltFind hfind he
  have hperm : owned { s.register loop t with retired := retired } |>.Perm
      (owned { s with retired := t :: retired }) := by
    simp only [owned, State.register, map_append, map_cons, map_nil, append_assoc, singleton_append]
    exact perm_middle.symm.append_left _
  refine { h with
    index := h.index.put (Nat.lt_trans hlen (by decide)) hnew
    keys := ?_, length_le := ?_, live := ?_
    owned_nodup := hperm.nodup_iff.mpr hnodup
    owned_lt := fun x hx => hlt x (hperm.mem_iff.mp hx) }
  · simp only [State.register, map_append, map_cons]
    exact nodup_append.mpr ⟨h.keys, nodup_singleton _, fun a ha b hb heq =>
      hkey (mem_singleton.mp hb ▸ heq ▸ ha)⟩
  · simpa [State.register] using Nat.succ_le_of_lt hlen
  · exact forall_mem_concat h.live hlive

end

/-- Filling the hole with the last entry leaves the other entries. -/
theorem removeAt_perm {lt : List (ℕ × ℕ)} {i : ℕ} {e : ℕ × ℕ} (he : lt[i]? = some e) :
    lt.Perm (e :: removeAt lt i) := by
  rcases eq_nil_or_concat' lt with rfl | ⟨init, last, rfl⟩
  · simp at he
  · obtain ⟨hi, rfl⟩ := List.getElem?_eq_some_iff.mp he
    simp only [removeAt, getLast?_append, getLast?_singleton, Option.some_or]
    by_cases hlt : i < init.length
    · rw [set_append_left _ _ hlt, dropLast_concat, getElem_append_left hlt]
      refine (perm_append_singleton last init).trans ?_
      refine ((getElem_cons_eraseIdx_perm hlt).symm.cons last).trans ?_
      exact (List.Perm.swap _ _ _).trans ((set_perm_cons_eraseIdx hlt last).symm.cons _)
    · have hlast : i = init.length := by
        rw [length_append, length_singleton] at hi
        omega
      subst hlast
      simp only [getElem_concat_length, set_append_right _ _ (Nat.le_refl _),
        Nat.sub_self, set_cons_zero, dropLast_concat]
      exact perm_append_singleton last init

/-- What the removal of a loop does. -/
theorem ltRemove_cases (ht : s.ltRemove loop = some s') :
    loop ∈ s.live ∧ (∀ w ∈ s.spawning, w.loop ≠ loop) ∧
      ((∀ e ∈ s.lt, e.1 ≠ loop) ∧ s' = { s with live := s.live.filter (· ≠ loop) } ∨
        ∃ i t, s.lt[i]? = some (loop, t) ∧ s' = { s with
            live := s.live.filter (· ≠ loop)
            lt := removeAt s.lt i
            ih := Places.fill ltHcap ltIdHash (removeAt s.lt i)
            closing := ⟨loop, t, false⟩ :: s.closing }) := by
  unfold ltRemove at ht
  split at ht
  case isFalse => cases ht
  rename_i hcond
  refine ⟨hcond.1, hcond.2, ?_⟩
  dsimp only at ht
  split at ht
  · rename_i hnone
    cases ht
    exact .inl ⟨fun e he => by simpa using findIdx?_eq_none_iff.mp hnone e he, rfl⟩
  · rename_i i hfind
    cases ht
    obtain ⟨hi, hkey, -⟩ := findIdx?_eq_some_iff_getElem.mp hfind
    have he : s.lt[i]? = some s.lt[i] := getElem?_eq_getElem hi
    have hloop : s.lt[i].1 = loop := by simpa using hkey
    refine .inr ⟨i, s.lt[i].2, by rw [he, ← hloop], ?_⟩
    simp [he]

/-- A finalized loop takes its table out of the registry. -/
theorem ltRemove (h : Registered s) (hstep : s.ltRemove loop = some s') : Registered s' := by
  have hlive : ∀ x ∈ s.live.filter (· ≠ loop), x ∈ s.live ∧ x ≠ loop := fun x hx => by
    simpa using hx
  have hstay : ∀ x ∈ s.live, x ≠ loop → x ∈ s.live.filter (· ≠ loop) := fun x hx hne => by
    simpa using ⟨hx, hne⟩
  have hids : ∀ x ∈ s.live.filter (· ≠ loop), x ≤ s.loopIds := fun x hx =>
    h.le_loopIds x (hlive x hx).1
  have hdead : ∀ c ∈ s.closing, c.loop ∉ s.live.filter (· ≠ loop) ∧ c.loop ≤ s.loopIds :=
    fun c hc => (h.closing_dead c hc).imp_left fun hdead hx => hdead (hlive _ hx).1
  obtain ⟨hloop, -, ⟨hnone, rfl⟩ | ⟨i, t, he, rfl⟩⟩ := ltRemove_cases hstep
  · refine { h with live := ?_, le_loopIds := ?_, closing_dead := ?_ }
    · exact fun e he => hstay e.1 (h.live e he) (hnone e he)
    · exact hids
    · exact hdead
  · have hperm := removeAt_perm he
    have hkeys := nodup_cons.mp ((hperm.map Prod.fst).nodup_iff.mp h.keys)
    have hlen : s.lt.length = (removeAt s.lt i).length + 1 := hperm.length_eq
    have hle : (removeAt s.lt i).length ≤ loopTableMax := by
      have hold := h.length_le
      omega
    have howned : s.owned.Perm ((removeAt s.lt i).map Prod.snd ++
        ((t :: s.closing.map Unregister.tbl) ++ s.retired)) :=
      ((hperm.map Prod.snd).append_right _).trans perm_middle.symm
    refine ⟨?_, hkeys.2, hle, ?_, ?_, ?_, ?_, howned.nodup_iff.mp h.owned_nodup, ?_⟩
    · exact Places.filled_fill (List.Nodup.of_map _ hkeys.2) (Nat.le_trans hle (by decide))
    · intro e hin
      refine hstay e.1 (h.live e (hperm.mem_iff.mpr (mem_cons_of_mem _ hin))) fun heq => ?_
      exact hkeys.1 (mem_map.mpr ⟨e, hin, heq⟩)
    · exact hids
    · refine nodup_cons.mpr ⟨fun hin => ?_, h.closing_keys⟩
      obtain ⟨c, hc, heq⟩ := mem_map.mp hin
      exact (h.closing_dead c hc).1 ((show c.loop = loop from heq) ▸ hloop)
    · refine forall_mem_cons.mpr ⟨?_, hdead⟩
      exact ⟨fun hx => (hlive _ hx).2 rfl, h.le_loopIds _ hloop⟩
    · exact fun t ht => h.owned_lt t (howned.mem_iff.mpr ht)

/-- The calls in progress and the tables they hold, after one of them went on. -/
theorem setClosing (h : Registered s) {closing : List Unregister}
    (hloops : (closing.map Unregister.loop).Subperm (s.closing.map Unregister.loop))
    (howned : (closing.map Unregister.tbl ++ retired).Perm
      (s.closing.map Unregister.tbl ++ s.retired)) {tables : Heap Table} :
    Registered { s with closing := closing, retired := retired, tables := tables } := by
  have hperm := howned.append_left (s.lt.map Prod.snd)
  refine { h with closing_keys := ?_, closing_dead := ?_, owned_nodup := ?_, owned_lt := ?_ }
  · obtain ⟨l, hl, hsub⟩ := hloops
    exact hl.nodup_iff.mp (hsub.nodup h.closing_keys)
  · intro c hc
    obtain ⟨c', hc', heq⟩ := mem_map.mp (hloops.subset (mem_map_of_mem hc))
    rw [← heq]
    exact h.closing_dead c' hc'
  · exact hperm.nodup_iff.mpr h.owned_nodup
  · exact fun t ht => h.owned_lt t (hperm.mem_iff.mp ht)

end Registered

/-! ### Tables and processes -/

/-- Every process in a slot carries the pid of the slot, and the slot of a pid was handed out at
least as often as the pid says. -/
structure Occupied (s : State) : Prop where
  ok : ∀ t, (s.tables.get t).Ok
  vacant : ∀ t, t ∈ s.retired ∨ s.nextTable ≤ t → s.tables.get t = default
  emptied : ∀ c ∈ s.closing, c.emptied = true → s.tables.get c.tbl = default
  occupied : ∀ t k p, s.occupant t k = some p →
    ∃ P, s.procs[p]? = some P ∧ P.pid = ⟨P.loop, k, ((s.tables.get t).slot k).gen⟩ ∧ s.Owns P.loop t
  gen_le : ∀ P ∈ s.procs, ∀ t, (P.loop, t) ∈ s.lt →
    P.pid.gen ≤ ((s.tables.get t).slot P.pid.localId).gen
  loopId_eq : ∀ P ∈ s.procs, P.pid.loopId = P.loop
  loop_le : ∀ P ∈ s.procs, P.loop ≤ s.loopIds
  listed : ∀ P ∈ s.procs, P.loop ∈ s.live → ∃ t, (P.loop, t) ∈ s.lt
  spawn_listed : ∀ w ∈ s.spawning, (w.loop, w.tbl) ∈ s.lt
  spawn_occupies : ∀ w ∈ s.spawning, ∀ p, w.proc = some p →
    ∃ P, s.procs[p]? = some P ∧ s.occupant w.tbl P.pid.localId = some p
  spawn_nodup : (s.spawning.filterMap Spawn.proc).Nodup
  issued_inj : ∀ p q pid, s.Issued p pid → s.Issued q pid → p = q

namespace Occupied

variable {s s' : State} {loop t n k : ℕ} {v : Table}

section

variable (h : Occupied s)
include h

variable {p : ℕ}

/-- A table holds a process only while a loop owns it. -/
theorem lt_nextTable (hp : s.occupant t k = some p) : t < s.nextTable := by
  by_contra hle
  rw [occupant, h.vacant t (.inr (Nat.le_of_not_lt hle))] at hp
  cases hp

/-- A process is in a slot of its generation, in the table of its loop. -/
theorem of_issued {pid : Pid} (hissued : s.Issued p pid) (hp : s.occupant t k = some p) :
    ((s.tables.get t).slot k).gen = pid.gen ∧ s.Owns pid.loopId t := by
  obtain ⟨P, hP, hpid, howns⟩ := h.occupied t k p hp
  obtain ⟨P', hP', rfl⟩ := Option.map_eq_some_iff.mp hissued
  obtain rfl : P = P' := Option.some.inj (hP.symm.trans hP')
  rw [hpid]
  exact ⟨rfl, howns⟩

theorem loopInit : Occupied s.loopInit := by
  unfold State.loopInit
  split
  · exact h
  · refine { h with loop_le := ?_, listed := ?_ }
    · exact fun P hP => Nat.le_succ_of_le (h.loop_le P hP)
    · intro P hP hlive
      rcases mem_cons.mp hlive with heq | hlive
      · have hle := h.loop_le P hP
        omega
      · exact h.listed P hP hlive

/-- A spawn has got the table that its loop is registered with. -/
theorem beginSpawn (hmem : (loop, t) ∈ s.lt) :
    Occupied { s with spawning := ⟨loop, t, none⟩ :: s.spawning } := by
  refine { h with spawn_listed := ?_, spawn_occupies := ?_, spawn_nodup := ?_ }
  · exact forall_mem_cons.mpr ⟨hmem, h.spawn_listed⟩
  · exact forall_mem_cons.mpr ⟨nofun, h.spawn_occupies⟩
  · exact h.spawn_nodup

/-- A spawn has returned. -/
theorem endSpawn : Occupied { s with spawning := s.spawning.eraseIdx n } := by
  have hsub := eraseIdx_sublist s.spawning n
  exact { h with
    spawn_listed := fun w hw => h.spawn_listed w (hsub.subset hw)
    spawn_occupies := fun w hw => h.spawn_occupies w (hsub.subset hw)
    spawn_nodup := (hsub.filterMap _).nodup h.spawn_nodup }

/-- A loop that is alive and not registered has no process, and its table is empty. -/
theorem register (hreg : Registered s) (hlive : loop ∈ s.live) (hfind : s.ltFind loop = none)
    {retired : List ℕ} {next : ℕ} (hsub : retired ⊆ s.retired) (hnext : s.nextTable ≤ next) :
    Occupied { s.register loop t with retired := retired, nextTable := next } := by
  have hnone : ∀ P ∈ s.procs, P.loop ≠ loop := by
    intro P hP heq
    obtain ⟨t', ht'⟩ := h.listed P hP (heq ▸ hlive)
    exact hreg.not_mem_of_ltFind hfind (heq ▸ ht')
  refine { h with vacant := ?_, occupied := ?_, gen_le := ?_, listed := ?_, spawn_listed := ?_ }
  · rintro t' (ht' | ht')
    · exact h.vacant t' (.inl (hsub ht'))
    · exact h.vacant t' (.inr (Nat.le_trans hnext ht'))
  · intro t' k p hp
    obtain ⟨P, hP, hpid, howns⟩ := h.occupied t' k p hp
    exact ⟨P, hP, hpid, howns.imp_left (mem_append_left _)⟩
  · intro P hP t' ht'
    rcases mem_append.mp ht' with ht' | ht'
    · exact h.gen_le P hP t' ht'
    · exact absurd (congrArg Prod.fst (mem_singleton.mp ht')) (hnone P hP)
  · intro P hP hl
    obtain ⟨t', ht'⟩ := h.listed P hP hl
    exact ⟨t', mem_append_left _ ht'⟩
  · exact fun w hw => mem_append_left _ (h.spawn_listed w hw)

/-- A change to the table of a registered loop leaves the idle tables empty. -/
theorem setTable (hreg : Registered s) (hmem : (loop, t) ∈ s.lt) (hv : v.Ok) :
    (∀ t', ((s.tables.set t v).get t').Ok) ∧
      (∀ t', t' ∈ s.retired ∨ s.nextTable ≤ t' → (s.tables.set t v).get t' = default) ∧
      ∀ c ∈ s.closing, c.emptied = true → (s.tables.set t v).get c.tbl = default := by
  have howns : s.Owns loop t := .inl hmem
  refine ⟨fun t' => ?_, fun t' ht' => ?_, fun c hc hemptied => ?_⟩
  · rw [Heap.get_set]
    split
    · exact hv
    · exact h.ok t'
  · have hne : t' ≠ t := by
      rintro rfl
      rcases ht' with ht' | ht'
      · exact hreg.not_retired_of_owns howns ht'
      · exact Nat.not_lt_of_le ht' (hreg.owned_lt _ (Registered.mem_owned_of_owns howns))
    rw [Heap.get_set_of_ne _ hne]
    exact h.vacant t' ht'
  · have hne : c.tbl ≠ t := fun heq =>
      hreg.not_closing_of_mem hmem (heq ▸ mem_map_of_mem hc)
    rw [Heap.get_set_of_ne _ hne]
    exact h.emptied c hc hemptied

end

/-- One slot of one table changes. -/
theorem slot_set {x : Slot}
    (hv : ∀ j, v.slot j = if j = k then x else (s.tables.get t).slot j) (t' j : ℕ) :
    ((s.tables.set t v).get t').slot j =
      if t' = t ∧ j = k then x else (s.tables.get t').slot j := by
  rw [Heap.get_set]
  by_cases ht : t' = t
  · simp [ht, hv]
  · simp [ht]

section

variable (h : Occupied s)
include h

/-- A slot that the table hands out for the next time gives a pid that was not issued before. -/
theorem allocSlot (hreg : Registered s) {tbl : Table} {memory : Bool} (hmem : (loop, t) ∈ s.lt)
    (hpick : (s.tables.get t).pick memory = .ok (k, tbl))
    (hgen : ((s.tables.get t).slot k).gen + 1 < 2 ^ 64) :
    Occupied { s with
      tables := s.tables.set t (tbl.take k s.procs.length)
      procs := s.procs ++ [⟨loop, ⟨loop, k, ((tbl.take k s.procs.length).slot k).gen⟩⟩]
      spawning := ⟨loop, t, some s.procs.length⟩ :: s.spawning } := by
  obtain ⟨hpicked, hsame⟩ := (h.ok t).picked hpick
  have hfree : s.occupant t k = none := by
    rw [occupant, ← hsame]
    exact hpicked.proc_eq
  have htake : ∀ j, (tbl.take k s.procs.length).slot j = if j = k then
      { (s.tables.get t).slot k with
        proc := some s.procs.length, gen := ((s.tables.get t).slot k).gen + 1 }
      else (s.tables.get t).slot j := by
    intro j
    rw [slot_take hpicked.lt_cap, hsame, Nat.mod_eq_of_lt hgen]
  have hslot := slot_set htake
  obtain ⟨hok, hvacant, hemptied⟩ := h.setTable hreg hmem (hpicked.take)
  rw [htake, if_pos rfl]
  generalize s.tables.set t (tbl.take k s.procs.length) = tables at hslot hok hvacant hemptied
  -- an old process with the new pid would have the new generation already
  have hnew : ∀ (q : ℕ) (Q : Process), s.procs[q]? = some Q →
      Q.pid ≠ ⟨loop, k, ((s.tables.get t).slot k).gen + 1⟩ := by
    intro q Q hQ heq
    have hin := mem_of_getElem? hQ
    have hloop : Q.loop = loop := by rw [← h.loopId_eq Q hin, heq]
    have hle := h.gen_le Q hin t (by rw [hloop]; exact hmem)
    rw [heq] at hle
    exact Nat.not_succ_le_self _ hle
  refine ⟨hok, hvacant, hemptied, ?_, forall_mem_concat ?_ ?_, forall_mem_concat h.loopId_eq rfl,
    forall_mem_concat h.loop_le (hreg.le_loopIds _ (hreg.live _ hmem)),
    forall_mem_concat h.listed fun _ => ⟨t, hmem⟩,
    forall_mem_cons.mpr ⟨hmem, h.spawn_listed⟩, forall_mem_cons.mpr ⟨?_, ?_⟩,
    nodup_cons.mpr ⟨fun hin => ?_, h.spawn_nodup⟩, ?_⟩
  · intro t' j p hp
    rw [occupant, hslot] at hp
    rw [hslot]
    split at hp
    · rename_i hhere
      obtain ⟨rfl, rfl⟩ := hhere
      obtain rfl := Option.some.inj hp
      exact ⟨_, List.getElem?_concat_length, by rw [if_pos ⟨rfl, rfl⟩], .inl hmem⟩
    · rename_i hne
      obtain ⟨Q, hQ, hpid, howns⟩ := h.occupied t' j p hp
      exact ⟨Q, getElem?_concat_of_some hQ, by rw [if_neg hne, hpid], howns⟩
  · intro Q hQ t' ht'
    have hle := h.gen_le Q hQ t' ht'
    rw [hslot]
    split
    · rename_i hhere
      rw [hhere.1, hhere.2] at hle
      exact Nat.le_succ_of_le hle
    · exact hle
  · intro t' ht'
    obtain rfl : t' = t := hreg.owns_inj (.inl ht') (.inl hmem)
    rw [hslot, if_pos ⟨rfl, rfl⟩]
  · intro p hp
    obtain rfl := Option.some.inj hp
    refine ⟨_, List.getElem?_concat_length, ?_⟩
    rw [occupant, hslot, if_pos ⟨rfl, rfl⟩]
  · intro w hw p hp
    obtain ⟨Q, hQ, hocc⟩ := h.spawn_occupies w hw p hp
    refine ⟨Q, getElem?_concat_of_some hQ, ?_⟩
    have hne : ¬(w.tbl = t ∧ Q.pid.localId = k) := by
      rintro ⟨ht, hk⟩
      rw [ht, hk, hfree] at hocc
      cases hocc
    rw [occupant, hslot, if_neg hne]
    exact hocc
  · obtain ⟨w, hw, hp⟩ := mem_filterMap.mp hin
    obtain ⟨Q, hQ, -⟩ := h.spawn_occupies w hw _ hp
    exact absurd (List.getElem?_eq_some_iff.mp hQ).1 (Nat.lt_irrefl _)
  · intro p q pid hp hq
    obtain ⟨P₁, hP₁, rfl⟩ := Option.map_eq_some_iff.mp hp
    obtain ⟨Q₁, hQ₁, hpid⟩ := Option.map_eq_some_iff.mp hq
    rcases getElem?_concat_cases hP₁ with hold | ⟨rfl, rfl⟩ <;>
      rcases getElem?_concat_cases hQ₁ with hold' | ⟨rfl, rfl⟩
    · refine h.issued_inj p q P₁.pid ?_ ?_
      · rw [State.Issued, hold]
        rfl
      · rw [State.Issued, hold', ← hpid]
        rfl
    · exact absurd hpid.symm (hnew p P₁ hold)
    · exact absurd hpid (hnew q Q₁ hold')
    · rfl

/-- A process leaves its slot. -/
theorem vacate (hreg : Registered s) (hmem : (loop, t) ∈ s.lt)
    (hp : s.occupant t k = some p) (hspawn : ∀ w ∈ s.spawning, w.proc ≠ some p) :
    Occupied { s with tables := s.tables.set t ((s.tables.get t).vacate k) } := by
  have hocc : ((s.tables.get t).slot k).proc ≠ none := Option.ne_none_iff_exists'.mpr ⟨p, hp⟩
  have hslot := slot_set (slot_vacate ((h.ok t).lt_cap hocc))
  obtain ⟨hok, hvacant, hemptied⟩ := h.setTable hreg hmem ((h.ok t).vacate hocc)
  refine { h with
    ok := hok, vacant := hvacant, emptied := hemptied
    occupied := ?_, gen_le := ?_, spawn_occupies := ?_ }
  · intro t' j q hq
    rw [occupant, hslot] at hq
    rw [hslot]
    split at hq
    · cases hq
    · rename_i hne
      rw [if_neg hne]
      exact h.occupied t' j q hq
  · intro P hP t' ht'
    have hle := h.gen_le P hP t' ht'
    rw [hslot]
    split
    · rename_i hhere
      rw [hhere.1, hhere.2] at hle
      exact hle
    · exact hle
  · intro w hw q hq
    obtain ⟨P, hP, hocc'⟩ := h.spawn_occupies w hw q hq
    refine ⟨P, hP, ?_⟩
    have hne : ¬(w.tbl = t ∧ P.pid.localId = k) := by
      rintro ⟨ht, hk⟩
      rw [ht, hk, hp] at hocc'
      exact hspawn w hw (hq.trans hocc'.symm)
    rw [occupant, hslot, if_neg hne]
    exact hocc'

/-- A finalized loop keeps its table until it has emptied it. -/
theorem ltRemove (hreg : Registered s) (hstep : s.ltRemove loop = some s') : Occupied s' := by
  have hlive : ∀ x ∈ s.live.filter (· ≠ loop), x ∈ s.live ∧ x ≠ loop := fun x hx => by
    simpa using hx
  obtain ⟨hloop, hspawn, ⟨hnone, rfl⟩ | ⟨i, t, he, rfl⟩⟩ := Registered.ltRemove_cases hstep
  · exact { h with listed := fun P hP hl => h.listed P hP (hlive _ hl).1 }
  · have hperm := Registered.removeAt_perm he
    have hstay : ∀ {x t'}, (x, t') ∈ s.lt → x ≠ loop → (x, t') ∈ removeAt s.lt i := by
      intro x t' hx hne
      exact (mem_cons.mp (hperm.mem_iff.mp hx)).resolve_left fun heq =>
        hne (congrArg Prod.fst heq)
    have hmem : ∀ {x}, x ∈ removeAt s.lt i → x ∈ s.lt := fun hx =>
      hperm.mem_iff.mpr (mem_cons_of_mem _ hx)
    refine { h with
      emptied := ?_, occupied := ?_, gen_le := ?_, listed := ?_, spawn_listed := ?_ }
    · exact forall_mem_cons.mpr ⟨nofun, h.emptied⟩
    · intro t' k p hp
      obtain ⟨P, hP, hpid, howns⟩ := h.occupied t' k p hp
      refine ⟨P, hP, hpid, ?_⟩
      by_cases hne : P.loop = loop
      · have ht : t' = t := hreg.owns_inj (hne ▸ howns) (.inl (mem_of_getElem? he))
        exact .inr ⟨_, mem_cons_self, hne.symm, ht.symm⟩
      · exact howns.imp (fun hin => hstay hin hne) fun ⟨c, hc, heq⟩ =>
          ⟨c, mem_cons_of_mem _ hc, heq⟩
    · exact fun P hP t' ht' => h.gen_le P hP t' (hmem ht')
    · intro P hP hl
      obtain ⟨t', ht'⟩ := h.listed P hP (hlive _ hl).1
      exact ⟨t', hstay ht' (hlive _ hl).2⟩
    · exact fun w hw => hstay (h.spawn_listed w hw) (hspawn w hw)

/-- The table of a finalized loop is emptied. -/
theorem emptyTable (hreg : Registered s) (hn : s.closing[n]? = some ⟨loop, t, false⟩) :
    Occupied { s with
      tables := s.tables.set t default
      closing := ⟨loop, t, true⟩ :: s.closing.eraseIdx n } := by
  have hget := s.tables.get_set t
  have hin := mem_of_getElem? hn
  have hsub := (eraseIdx_sublist s.closing n).subset
  have hne : ∀ {x t'}, (x, t') ∈ s.lt → t' ≠ t := fun hx heq =>
    hreg.not_closing_of_mem hx (heq ▸ mem_map_of_mem hin)
  refine { h with
    ok := ?_, vacant := ?_, emptied := ?_, occupied := ?_, gen_le := ?_, spawn_occupies := ?_ }
  · intro t'
    rw [hget]
    split
    · exact ok_default
    · exact h.ok t'
  · intro t' ht'
    rw [hget]
    split
    · rfl
    · exact h.vacant t' ht'
  · intro c hc hemptied
    rw [hget]
    split
    · rfl
    · rename_i hct
      rcases mem_cons.mp hc with rfl | hc
      · exact absurd rfl hct
      · exact h.emptied c (hsub hc) hemptied
  · intro t' k p hp
    rw [occupant, hget] at hp
    split at hp
    · cases hp
    · rename_i ht'
      obtain ⟨P, hP, hpid, howns⟩ := h.occupied t' k p hp
      refine ⟨P, hP, by rw [hget, if_neg ht']; exact hpid, howns.imp_right ?_⟩
      rintro ⟨c, hc, heq, rfl⟩
      rcases mem_cons.mp ((perm_cons_eraseIdx hn).mem_iff.mp hc) with rfl | hc
      · exact absurd rfl ht'
      · exact ⟨c, mem_cons_of_mem _ hc, heq, rfl⟩
  · intro P hP t' ht'
    rw [hget, if_neg (hne ht')]
    exact h.gen_le P hP t' ht'
  · intro w hw p hp
    obtain ⟨P, hP, hocc⟩ := h.spawn_occupies w hw p hp
    refine ⟨P, hP, ?_⟩
    rw [occupant, hget, if_neg (hne (h.spawn_listed w hw))]
    exact hocc

/-- An emptied table is left for reuse. -/
theorem retire (hn : s.closing[n]? = some ⟨loop, t, true⟩) :
    Occupied { s with retired := t :: s.retired, closing := s.closing.eraseIdx n } := by
  have hempty : s.tables.get t = default := h.emptied _ (mem_of_getElem? hn) rfl
  have hsub := (eraseIdx_sublist s.closing n).subset
  refine { h with vacant := ?_, emptied := fun c hc => h.emptied c (hsub hc), occupied := ?_ }
  · rintro t' (ht' | ht')
    · rcases mem_cons.mp ht' with rfl | ht'
      · exact hempty
      · exact h.vacant t' (.inl ht')
    · exact h.vacant t' (.inr ht')
  · intro t' k p hp
    obtain ⟨P, hP, hpid, howns⟩ := h.occupied t' k p hp
    refine ⟨P, hP, hpid, howns.imp_right ?_⟩
    rintro ⟨c, hc, heq, rfl⟩
    rcases mem_cons.mp ((perm_cons_eraseIdx hn).mem_iff.mp hc) with rfl | hc
    · rw [occupant] at hp
      simp only [hempty] at hp
      cases hp
    · exact ⟨c, hc, heq, rfl⟩

end

end Occupied

/-! ### Resolvers -/

/-- What the other threads may have done: processes were added, and old ones left their slots. -/
structure Later (s s' : State) : Prop where
  procs : ∃ new, s'.procs = s.procs ++ new
  occupant : ∀ t k p, p < s.procs.length → s'.occupant t k = some p → s.occupant t k = some p

/-- What a call of `__resolve` may rely on. -/
def Resolve.Ok (s : State) (r : Resolve) : Prop :=
  match r.pc with
  | .lookup t => ∀ p, r.listed = some p → s.Issued p r.pid ∧
      ∀ t', s.occupant t' r.pid.localId = some p → t' = t
  | .compare q => q < s.procs.length ∧ (s.Issued q r.pid → r.present = some q) ∧
      ∀ p, r.listed = some p → r.present = some p → s.Issued p r.pid ∧ q = p

/-- An answer is the process with the pid, which was in a table, or nothing; and it is not nothing
if the process was in the table of a registered loop at the probe and still at the lookup. -/
def Answer.Ok (s : State) (a : Answer) : Prop :=
  (∀ p, a.result = some p → s.Issued p a.pid ∧ a.present = some p) ∧
    ∀ p, a.listed = some p → a.present = some p → a.result = some p

variable {s s' : State} {pid : Pid} {t : ℕ}

theorem State.Issued.lt_length (h : s.Issued p pid) : p < s.procs.length := by
  obtain ⟨P, hP, -⟩ := Option.map_eq_some_iff.mp h
  exact (List.getElem?_eq_some_iff.mp hP).1

namespace Later

theorem refl : Later s s := ⟨⟨[], (append_nil _).symm⟩, fun _ _ _ _ hp => hp⟩

theorem issued_iff (h : Later s s') (hp : p < s.procs.length) :
    s'.Issued p pid ↔ s.Issued p pid := by
  obtain ⟨new, hnew⟩ := h.procs
  rw [State.Issued, State.Issued, hnew, getElem?_append_left hp]

theorem issued (h : Later s s') (hp : s.Issued p pid) : s'.Issued p pid :=
  (h.issued_iff hp.lt_length).mpr hp

theorem resolve (h : Later s s') {r : Resolve} (hr : r.Ok s) : r.Ok s' := by
  unfold Resolve.Ok at hr ⊢
  cases hpc : r.pc with
  | lookup t =>
    simp only [hpc] at hr ⊢
    intro p hp
    obtain ⟨hissued, hat⟩ := hr p hp
    exact ⟨h.issued hissued, fun t' ht' => hat t' (h.occupant _ _ _ hissued.lt_length ht')⟩
  | compare q =>
    simp only [hpc] at hr ⊢
    obtain ⟨hlt, hpresent, hlisted⟩ := hr
    refine ⟨?_, fun hq => hpresent ((h.issued_iff hlt).mp hq), fun p hp hp' => ?_⟩
    · obtain ⟨new, hnew⟩ := h.procs
      rw [hnew, length_append]
      exact Nat.lt_add_right _ hlt
    · exact ⟨h.issued (hlisted p hp hp').1, (hlisted p hp hp').2⟩

theorem answer (h : Later s s') {a : Answer} (ha : a.Ok s) : a.Ok s' :=
  ⟨fun p hp => ⟨h.issued (ha.1 p hp).1, (ha.1 p hp).2⟩, ha.2⟩

end Later

/-- `holder` is the process with the pid, if it is in its slot of one of the tables. -/
theorem Occupied.holder_eq_some_iff (h : Occupied s) {tbls : List ℕ} : s.holder pid tbls = some p ↔
      s.Issued p pid ∧ ∃ t ∈ tbls, s.occupant t pid.localId = some p := by
  have hissued : ∀ {q}, s.procs.findIdx? (·.pid = pid) = some q → s.Issued q pid := by
    intro q hq
    obtain ⟨hlt, hpid, -⟩ := findIdx?_eq_some_iff_getElem.mp hq
    rw [State.Issued, getElem?_eq_getElem hlt]
    simpa using hpid
  rw [holder, Option.filter_eq_some_iff]
  refine and_congr ⟨hissued, fun hp => ?_⟩ (by simp [occupant])
  obtain ⟨P, hP, hpid⟩ := Option.map_eq_some_iff.mp hp
  obtain ⟨q, hq⟩ : ∃ q, s.procs.findIdx? (·.pid = pid) = some q := by
    rw [← Option.isSome_iff_exists, findIdx?_isSome, any_eq_true]
    exact ⟨P, mem_of_getElem? hP, decide_eq_true hpid⟩
  rw [hq, h.issued_inj q p pid (hissued hq) hp]

/-- The system's invariant. -/
structure Sound (s : State) : Prop where
  registered : Registered s
  occupied : Occupied s
  resolving : ∀ r ∈ s.resolving, r.Ok s
  answers : ∀ a ∈ s.answers, a.Ok s

namespace Sound

variable {n loop : ℕ} {memory : Bool}

theorem start : Sound State.start := by
  refine ⟨⟨Places.filled_empty, nodup_nil, Nat.zero_le _, ?_, ?_, nodup_nil, ?_,
    nodup_nil, ?_⟩, ⟨?_, ?_, ?_, ?_, ?_, ?_, ?_, ?_, ?_, ?_, nodup_nil, ?_⟩, ?_, ?_⟩ <;>
    simp [State.start, owned, occupant, State.Issued, ok_default]
  intro k p hp
  cases hp

/-- A step of another thread. -/
theorem advance (h : Sound s) (hreg : Registered s') (hocc : Occupied s') (hlater : Later s s')
    (hresolving : s'.resolving = s.resolving) (hanswers : s'.answers = s.answers) : Sound s' :=
  ⟨hreg, hocc, fun r hr => hlater.resolve (h.resolving r (hresolving ▸ hr)),
    fun a ha => hlater.answer (h.answers a (hanswers ▸ ha))⟩

theorem loopInit (h : Sound s) : Sound s.loopInit := by
  refine h.advance h.registered.loopInit h.occupied.loopInit ?_ ?_ ?_ <;>
    unfold State.loopInit <;> split
  · exact .refl
  · exact ⟨⟨[], (append_nil _).symm⟩, fun _ _ _ _ hp => hp⟩
  all_goals rfl

theorem register (h : Sound s) (hlive : loop ∈ s.live) (hfind : s.ltFind loop = none)
    (hlen : s.lt.length < loopTableMax) {retired : List ℕ} {next : ℕ} (hsub : retired ⊆ s.retired)
    (hnext : s.nextTable ≤ next)
    (hnodup : owned { s with retired := t :: retired } |>.Nodup)
    (hlt : ∀ x ∈ owned { s with retired := t :: retired }, x < next) :
    Sound { s.register loop t with
      retired := retired, nextTable := next, spawning := ⟨loop, t, none⟩ :: s.spawning } := by
  have hreg := h.registered.register hlive hfind hlen hnodup hlt
  have hocc := (h.occupied.register h.registered hlive hfind hsub hnext).beginSpawn
    (mem_append_right _ (mem_singleton.mpr rfl) : (loop, t) ∈ s.lt ++ [(loop, t)])
  exact h.advance { hreg with } hocc { Later.refl with } rfl rfl

/-- A spawn finds the table of its loop or registers an idle one. -/
theorem tableGet (h : Sound s) (hlive : loop ∈ s.live) : Sound (s.tableGet loop memory) := by
  have hreg := h.registered
  unfold State.tableGet
  split
  · rename_i t hfind
    have hmem := hreg.ltFind_eq_some_iff.mp hfind
    exact h.advance { hreg with } (h.occupied.beginSpawn hmem) { Later.refl with } rfl rfl
  · rename_i hfind
    split
    · exact h
    · rename_i hlen
      replace hlen := Nat.lt_of_not_le hlen
      split
      · rename_i t rest hretired
        refine h.register hlive hfind hlen ?_ (Nat.le_refl _) ?_ ?_
        · rw [hretired]
          exact subset_cons_self t rest
        · rw [← hretired]
          exact hreg.owned_nodup
        · rw [← hretired]
          exact hreg.owned_lt
      · split
        · have hperm : owned { s with retired := s.nextTable :: s.retired } |>.Perm
              (s.nextTable :: s.owned) := (perm_middle.append_left _).trans perm_middle
          refine h.register hlive hfind hlen (Subset.refl _) (Nat.le_succ _) ?_ ?_
          · refine hperm.nodup_iff.mpr (nodup_cons.mpr ⟨fun hmem => ?_, hreg.owned_nodup⟩)
            exact Nat.lt_irrefl _ (hreg.owned_lt _ hmem)
          · intro x hx
            rcases mem_cons.mp (hperm.mem_iff.mp hx) with rfl | hx
            · exact Nat.lt_succ_self _
            · exact Nat.lt_succ_of_lt (hreg.owned_lt x hx)
        · exact h

/-- A slot list is replaced in one table, with no old process in a new place. -/
theorem later_set {tbl : Table} {procs : List Process} {spawning : List Spawn}
    {closing : List Unregister} (hprocs : ∃ new, procs = s.procs ++ new)
    (hslot : ∀ k p, p < s.procs.length → (tbl.slot k).proc = some p → s.occupant t k = some p) :
    Later s { s with
      tables := s.tables.set t tbl, procs := procs, spawning := spawning, closing := closing } := by
  refine ⟨hprocs, fun t' k p hlt hp => ?_⟩
  rw [occupant, Heap.get_set] at hp
  split at hp
  · rename_i heq
    rw [heq]
    exact hslot k p hlt hp
  · exact hp

section

variable (h : Sound s)
include h

theorem allocSlot (hok : s.fewHandOuts (.allocSlot n memory))
    (ht : s.allocSlot n memory = some s') : Sound s' := by
  unfold State.allocSlot at ht
  split at ht
  case h_2 => cases ht
  rename_i loop t hn
  have hmem := h.occupied.spawn_listed _ (mem_of_getElem? hn)
  have hend := h.occupied.endSpawn (n := n)
  split at ht
  · cases ht
    exact h.advance { h.registered with } hend { Later.refl with } rfl rfl
  · rename_i k tbl hpick
    cases ht
    have hgen : ((s.tables.get t).slot k).gen + 1 < 2 ^ 64 := by
      simpa only [fewHandOuts, hn, hpick, decide_eq_true_eq] using hok
    obtain ⟨hpicked, hsame⟩ := (h.occupied.ok t).picked hpick
    refine h.advance { h.registered with } (hend.allocSlot { h.registered with } hmem hpick hgen)
        (later_set ⟨_, rfl⟩ ?_) rfl rfl
    intro j p hlt hp
    rw [slot_take hpicked.lt_cap] at hp
    split at hp
    · exact absurd (Option.some.inj hp) (Nat.ne_of_gt hlt)
    · rw [hsame] at hp
      exact hp

theorem spawned (ht : s.spawned n = some s') : Sound s' := by
  unfold State.spawned at ht
  split at ht
  case h_2 => cases ht
  cases ht
  exact h.advance { h.registered with } h.occupied.endSpawn { Later.refl with } rfl rfl

/-- A process that no running spawn holds leaves its slot. -/
theorem vacate {k : ℕ} (hmem : (loop, t) ∈ s.lt) (hp : s.occupant t k = some p)
    (hspawn : ∀ w ∈ s.spawning, w.proc ≠ some p) :
    Sound { s with tables := s.tables.set t ((s.tables.get t).vacate k) } := by
  have hocc : ((s.tables.get t).slot k).proc ≠ none := Option.ne_none_iff_exists'.mpr ⟨p, hp⟩
  have hcap := (h.occupied.ok t).lt_cap hocc
  refine h.advance { h.registered with } (h.occupied.vacate h.registered hmem hp hspawn)
      (later_set ⟨[], (append_nil _).symm⟩ ?_) rfl rfl
  intro j q _ hq
  rw [slot_vacate hcap] at hq
  split at hq
  · cases hq
  · exact hq

theorem release (ht : s.release n = some s') : Sound s' := by
  unfold State.release at ht
  split at ht
  case h_2 => cases ht
  rename_i loop t p hn
  have hin := mem_of_getElem? hn
  obtain ⟨P, hP, hocc⟩ := h.occupied.spawn_occupies _ hin p rfl
  have hend : Sound { s with spawning := s.spawning.eraseIdx n } :=
    h.advance { h.registered with } h.occupied.endSpawn { Later.refl with } rfl rfl
  -- no other spawn holds this process
  have hother : ∀ w ∈ s.spawning.eraseIdx n, w.proc ≠ some p := by
    intro w hw hwp
    have hnodup := h.occupied.spawn_nodup
    rw [((perm_cons_eraseIdx hn).filterMap Spawn.proc).nodup_iff] at hnodup
    exact (nodup_cons.mp hnodup).1 (mem_filterMap.mpr ⟨w, hw, hwp⟩)
  simp only [hP] at ht
  split at ht
  · cases ht
    exact hend.vacate (h.occupied.spawn_listed _ hin) hocc hother
  · cases ht
    exact hend

theorem exit (ht : s.exit p = some s') : Sound s' := by
  unfold State.exit at ht
  split at ht
  case h_1 => cases ht
  split at ht
  case isTrue => cases ht
  rename_i hspawn
  split at ht
  · cases ht
    exact h
  · rename_i t hfind
    dsimp only at ht
    split at ht
    · rename_i hhere
      cases ht
      refine h.vacate (h.registered.ltFind_eq_some_iff.mp hfind) hhere.2 fun w hw hwp => hspawn ?_
      exact any_eq_true.mpr ⟨w, hw, decide_eq_true hwp⟩
    · cases ht
      exact h

theorem ltRemove (ht : s.ltRemove loop = some s') : Sound s' := by
  have hreg := h.registered.ltRemove ht
  have hocc := h.occupied.ltRemove h.registered ht
  obtain ⟨-, -, ⟨-, rfl⟩ | ⟨i, t, -, rfl⟩⟩ := Registered.ltRemove_cases ht
  · exact h.advance hreg hocc { Later.refl with } rfl rfl
  · exact h.advance hreg hocc { Later.refl with } rfl rfl

theorem emptyTable (ht : s.emptyTable n = some s') : Sound s' := by
  unfold State.emptyTable at ht
  split at ht
  case h_2 => cases ht
  rename_i loop t hn
  cases ht
  have hperm := (perm_cons_eraseIdx hn).symm
  refine h.advance (h.registered.setClosing ?_ ?_) (h.occupied.emptyTable h.registered hn)
      (later_set ⟨[], (append_nil _).symm⟩ fun _ _ _ hp => by cases hp) rfl rfl
  · exact (hperm.map Unregister.loop).subperm
  · exact (hperm.map Unregister.tbl).append_right s.retired

theorem retire (ht : s.retire n = some s') : Sound s' := by
  unfold State.retire at ht
  split at ht
  case h_2 => cases ht
  rename_i loop t hn
  cases ht
  have hperm := (perm_cons_eraseIdx hn).symm
  refine h.advance (h.registered.setClosing ?_ ?_) (h.occupied.retire hn) { Later.refl with } rfl
    rfl
  · exact ((eraseIdx_sublist s.closing n).map Unregister.loop).subperm
  · exact perm_middle.trans ((hperm.map Unregister.tbl).append_right s.retired)

/-- The processes in registered tables are found by the probe. -/
theorem probe (pid : Pid) : Sound (s.probe pid) := by
  -- a process in a registered table is in the table of its own loop
  have hlisted : ∀ p, s.holder pid (s.lt.map Prod.snd) = some p →
      s.Issued p pid ∧ ∃ t, (pid.loopId, t) ∈ s.lt ∧ s.occupant t pid.localId = some p := by
    intro p hp
    obtain ⟨hissued, t, ht, hocc⟩ := h.occupied.holder_eq_some_iff.mp hp
    obtain ⟨⟨loop, t⟩, hmem, rfl⟩ := mem_map.mp ht
    have howns := (h.occupied.of_issued hissued hocc).2
    refine ⟨hissued, t, howns.resolve_right fun ⟨c, hc, _, heq⟩ => ?_, hocc⟩
    exact h.registered.not_closing_of_mem hmem (mem_map.mpr ⟨c, hc, heq⟩)
  unfold State.probe
  split
  · rename_i hnone
    refine ⟨{ h.registered with }, { h.occupied with }, h.resolving,
      forall_mem_cons.mpr ⟨⟨nofun, fun p hp _ => ?_⟩, h.answers⟩⟩
    obtain ⟨-, t, hmem, -⟩ := hlisted p hp
    rw [h.registered.ltFindId_eq_some_iff.mpr hmem] at hnone
    cases hnone
  · rename_i t hfind
    refine ⟨{ h.registered with }, { h.occupied with },
      forall_mem_cons.mpr ⟨fun p hp => ?_, h.resolving⟩, h.answers⟩
    obtain ⟨hissued, t', hmem, hocc⟩ := hlisted p hp
    rw [h.registered.ltFindId_eq_some_iff.mpr hmem] at hfind
    obtain rfl := Option.some.inj hfind
    refine ⟨hissued, fun t'' ht'' => h.registered.owns_inj ?_ (.inl hmem)⟩
    exact (h.occupied.of_issued hissued ht'').2

/-- A resolver that reads the slot sees the process that is in it now. -/
theorem lookup (ht : s.lookup n = some s') : Sound s' := by
  unfold State.lookup at ht
  split at ht
  case h_2 => cases ht
  rename_i pid t listed _ hn
  have hr : Resolve.Ok s ⟨pid, .lookup t, listed, _⟩ := h.resolving _ (mem_of_getElem? hn)
  have hresolving : ∀ r ∈ s.resolving.eraseIdx n, r.Ok s := fun r hr =>
    h.resolving r ((eraseIdx_sublist s.resolving n).subset hr)
  have hpresent : ∀ p, s.holder pid (range s.nextTable) = some p ↔
      s.Issued p pid ∧ ∃ t', s.occupant t' pid.localId = some p := by
    intro p
    rw [h.occupied.holder_eq_some_iff]
    refine and_congr_right fun _ => ⟨fun ⟨t', _, ht'⟩ => ⟨t', ht'⟩, fun ⟨t', ht'⟩ => ?_⟩
    exact ⟨t', mem_range.mpr (h.occupied.lt_nextTable ht'), ht'⟩
  -- what the lookup returns for a process that was listed and is still present
  have hfound : ∀ p, listed = some p → s.holder pid (range s.nextTable) = some p →
      (s.tables.get t).lookup pid.localId pid.gen = some p := by
    intro p hp hp'
    obtain ⟨hissued, t', ht'⟩ := (hpresent p).mp hp'
    obtain rfl := (hr p hp).2 t' ht'
    have hgen := (h.occupied.of_issued hissued ht').1
    have hproc : ((s.tables.get t').slot pid.localId).proc = some p := ht'
    have hcap := (h.occupied.ok t').lt_cap (by rw [hproc]; exact Option.some_ne_none p)
    rw [Table.lookup, if_pos ⟨hcap, hgen⟩, hproc]
  split at ht
  · rename_i hnone
    cases ht
    refine ⟨{ h.registered with }, { h.occupied with }, hresolving,
      forall_mem_cons.mpr ⟨⟨nofun, fun p hp hp' => ?_⟩, h.answers⟩⟩
    rw [hfound p hp hp'] at hnone
    cases hnone
  · rename_i q hq
    cases ht
    have hocc : s.occupant t pid.localId = some q := by
      rw [Table.lookup] at hq
      split at hq
      · exact hq
      · cases hq
    obtain ⟨P, hP, -, -⟩ := h.occupied.occupied _ _ _ hocc
    refine ⟨{ h.registered with }, { h.occupied with },
      forall_mem_cons.mpr ⟨⟨(List.getElem?_eq_some_iff.mp hP).1, fun hissued => ?_,
        fun p hp hp' => ?_⟩, hresolving⟩, h.answers⟩
    · exact (hpresent q).mpr ⟨hissued, t, hocc⟩
    · rw [hfound p hp hp'] at hq
      exact ⟨((hpresent p).mp hp').1, (Option.some.inj hq).symm⟩

theorem compare (ht : s.compare n = some s') : Sound s' := by
  unfold State.compare at ht
  split at ht
  case h_2 => cases ht
  rename_i pid q listed present hn
  cases ht
  obtain ⟨-, hpresent, hlisted⟩ : Resolve.Ok s ⟨pid, .compare q, listed, present⟩ :=
    h.resolving _ (mem_of_getElem? hn)
  refine ⟨{ h.registered with }, { h.occupied with },
    fun r hr => h.resolving r ((eraseIdx_sublist s.resolving n).subset hr),
    forall_mem_cons.mpr ⟨⟨fun p hp => ?_, fun p hp hp' => ?_⟩, h.answers⟩⟩
  · split at hp
    · rename_i hissued
      obtain rfl := Option.some.inj hp
      exact ⟨hissued, hpresent hissued⟩
    · cases hp
  · obtain ⟨hissued, rfl⟩ := hlisted p hp hp'
    exact if_pos hissued

theorem step {a : Act} (hok : s.fewHandOuts a) (ht : s.step a = some s') : Sound s' := by
  cases a with
  | loopInit =>
    cases ht
    exact h.loopInit
  | tableGet loop memory =>
    rw [State.step] at ht
    split at ht
    · cases ht
      exact h.tableGet ‹_›
    · cases ht
  | allocSlot n memory => exact h.allocSlot hok ht
  | spawned n => exact h.spawned ht
  | release n => exact h.release ht
  | exit p => exact h.exit ht
  | ltRemove loop => exact h.ltRemove ht
  | emptyTable n => exact h.emptyTable ht
  | retire n => exact h.retire ht
  | probe pid =>
    cases ht
    exact h.probe pid
  | lookup n => exact h.lookup ht
  | compare n => exact h.compare ht

end

end Sound

theorem sound_of_reachable (hs : system.ReachableUnder (fun s a => s.fewHandOuts a) s) :
    Sound s := by
  refine hs.invariant ?_ fun _ _ _ h hok ht => h.step hok ht
  rintro _ rfl
  exact .start

/-- Pids are issued once. Resolving a pid gives the process it was issued to, which was in a table
when its slot was read, or nothing, and not nothing if that process was in the table of a
registered loop at the probe and still in a table when its slot was read. The slots of a table
that were handed out and are free are the nodes of its free list, each once. -/
theorem pid_identity (hs : system.ReachableUnder (fun s a => s.fewHandOuts a) s) :
    (∀ p q pid, s.Issued p pid → s.Issued q pid → p = q) ∧ (∀ a ∈ s.answers, a.Ok s) ∧
      ∀ t, ∃ l, (s.tables.get t).FreeList l ∧ l.Nodup ∧
        ∀ k, k ∈ l ↔ k < (s.tables.get t).hw ∧ s.occupant t k = none := by
  have h := sound_of_reachable hs
  exact ⟨h.occupied.issued_inj, h.answers, fun t => (h.occupied.ok t).free⟩

/-- A resolver holds the table of the first loop while that loop is finalized and a second loop
takes the table over, with a process of the same slot and generation. -/
def staleTable : List Act :=
  [.loopInit, .tableGet 1 true, .allocSlot 0 true, .spawned 0, .probe ⟨1, 0, 1⟩, .exit 0,
    .ltRemove 1, .emptyTable 0, .retire 0, .loopInit, .tableGet 2 true, .allocSlot 0 true,
    .spawned 0, .lookup 0, .compare 0, .probe ⟨2, 0, 1⟩, .lookup 0, .compare 0]

theorem pid_identity_staleTable :
    ∃ s ∈ system.runUnder (fun s a => s.fewHandOuts a) .start staleTable,
      s.Issued 0 ⟨1, 0, 1⟩ ∧ s.Issued 1 ⟨2, 0, 1⟩ ∧
      s.answers = [⟨⟨2, 0, 1⟩, some 1, some 1, some 1⟩, ⟨⟨1, 0, 1⟩, some 0, none, none⟩] ∧
      (∀ p q pid, s.Issued p pid → s.Issued q pid → p = q) ∧
      (∀ a ∈ s.answers, a.Ok s) ∧
      ∀ t, ∃ l, (s.tables.get t).FreeList l ∧ l.Nodup ∧
        ∀ k, k ∈ l ↔ k < (s.tables.get t).hw ∧ s.occupant t k = none := by
  unfold State.Issued
  refine System.exists_run rfl (by decide) fun s eval hs _ => ⟨?_, ?_, pid_identity hs⟩
  · apply eval
    decide
  · apply eval
    decide

/-- A slot that was never handed out is free and not on the free list. -/
theorem unused_slot_off_free_list : ∃ s, system.ReachableUnder (fun s a => s.fewHandOuts a) s ∧
      ∃ t k, k < (s.tables.get t).cap ∧ s.occupant t k = none ∧
        ∀ l, (s.tables.get t).FreeList l → k ∉ l := by
  have hrun : ∃ s ∈ system.runUnder (fun s a => s.fewHandOuts a) .start
      [.loopInit, .tableGet 1 true, .allocSlot 0 true],
      1 < (s.tables.get 0).cap ∧ ((s.tables.get 0).slot 1).proc = none ∧
        (s.tables.get 0).freeHead = none := by
    decide
  obtain ⟨s, hmem, hcap, hfree, hhead⟩ := hrun
  refine ⟨s, .runUnder (.start rfl) hmem, 0, 1, hcap, hfree, fun l hl => ?_⟩
  have hnil : l = [] := by
    rw [← head?_eq_none_iff, ← hl.head?_eq, hhead]
  rw [hnil]
  exact not_mem_nil

end LibXtc.PidTable

import LibXtc.Proc.WellFormed

/-!
# What `xtc_unlink` leaves behind

`xtc_unlink` takes an entry off the caller's own list. The entry of the caller on the list of its
peer stays, and an exit goes through the list of the process that exits, so the link is severed in
both directions only if the peer has no entry of the caller at that time. A list that a push has
read before the removal, and writes back after it, brings the removed entry back.
-/

namespace LibXtc.Proc

open Foundations State List Option

/-- The peer that a call of `xtc_link`, or a linking spawn, is about to be linked with. -/
@[simp] def Call.linksWith : Call → Option Pid
  | .linkAlloc other | .linkStore other _ | .linkPeer other | .linkPush other
  | .linkPeerStore other _ => some other
  | .spawnEntries child .link | .spawnLinkStore child _ | .spawnOwnRead child
  | .spawnOwnStore child _ | .spawnAsyncLink child => some child
  | _ => none

/-- The list that a call of `r` has read and will write, with its owner. -/
def Call.held (r : Pid) : Call → Option (Pid × List Pid)
  | .linkStore _ head | .spawnOwnStore _ head | .unlinkStore _ head _ => some (r, head)
  | .linkPeerStore owner head | .spawnLinkStore owner head => some (owner, head)
  | _ => none

/-- The call of `r` has read the list of `p` when `q` was on it, and will write it. -/
def Call.Holds (r : Pid) (c : Call) (p q : Pid) : Prop :=
  ∃ head, c.held r = some (p, head) ∧ q ∈ head

/-- `q` is not on the list of `p`, not on a list about to be written there, and not being linked
with `p`, as far as the process `r` with the contents `P` goes. -/
structure Process.Free (r p q : Pid) (P : Process) : Prop where
  links : r = p → q ∉ P.links
  todo : r = p → q ∉ P.phase.todo
  held : ¬P.call.Holds r p q
  calls : r = p → P.call.linksWith ≠ some q
  called : r = q → P.call.linksWith ≠ some p

namespace State

/-- Nothing of a link is left on the side of `p`. -/
def Severed (s : State) (p q : Pid) : Prop := ∀ r, (s.procs r).Free r p q

/-- When `p` removes its last entry of `q`: `q` has no entry of `p` any more, and no other call has
read one of the two lists when it still held the entry. -/
def PeerUnlinked (s : State) (p q : Pid) : Prop :=
  p ∉ (s.procs q).links ∧ (∀ r, ¬(s.procs r).call.Holds r q p) ∧
    ∀ r, r ≠ p → ¬(s.procs r).call.Holds r p q

/-- `Q` is `P` after a step that sent it no signal of a linked exit. -/
@[simp] def Spared (P Q : Process) : Prop :=
  Q.killPending = P.killPending ∧
    Q.inbox.filter (· matches .exit ..) = P.inbox.filter (· matches .exit ..)

end State

namespace Act

/-- The steps of the exit of `p`. -/
def exits (p : Pid) : Act → Bool
  | .exit q _ | .detach q | .notify q _ => q = p
  | _ => false

/-- The step begins a new link between `p` and `q`. -/
def links (p q : Pid) : Act → Bool
  | .link a b | .spawnRel a b .link => a = p ∧ b = q ∨ a = q ∧ b = p
  | _ => false

theorem links_comm (p q : Pid) (a : Act) : a.links p q = a.links q p := by
  cases a <;> simp only [links]
  case link => simp only [or_comm]
  case spawnRel r child rel => cases rel <;> simp only [or_comm]

end Act

/-- A call that holds no list. -/
theorem Call.not_holds {r p q : Pid} {c : Call} (hheld : c.held r = none) : ¬c.Holds r p q := by
  rintro ⟨head, heq, -⟩
  rw [hheld] at heq
  cases heq

variable {head : List Pid} {s : State} {o : Pid} {a : Act}

/-- A removal adds nothing to the list it has read and the list it finds. -/
theorem State.mem_of_mem_unlinked {now : List Pid} {other y : Pid}
    (hmem : y ∈ unlinked head now other) : y ∈ head ∨ y ∈ now := by
  rw [unlinked] at hmem
  split at hmem
  · exact .inl (mem_of_mem_tail hmem)
  · rcases mem_append.mp hmem with hmem | hmem
    · exact .inr (mem_of_mem_take hmem)
    · exact .inl (mem_of_mem_erase hmem)

namespace State.Severed

variable {s t : State} {p q r : Pid} {f : Process → Process}

section

variable (h : s.Severed p q) {c : Call}
include h

theorem congr (hprocs : t.procs = s.procs) : t.Severed p q := by
  intro r
  rw [hprocs]
  exact h r

theorem linkUp (a b : Pid) : (s.linkUp a b).Severed p q := h.congr rfl

theorem linkDown (a b : Pid) : (s.linkDown a b).Severed p q := h.congr rfl

theorem grant (w c : Pid) (ref : ℕ) : (s.grant w c ref).Severed p q :=
  h.congr rfl

/-- A change of one process. -/
theorem upd (hf : (f (s.procs r)).Free r p q) : (s.upd r f).Severed p q := by
  intro r'
  rw [procs_upd]
  split
  · next heq => rw [heq]; exact hf
  · exact h r'

/-- The process goes on inside its call. -/
theorem setCall {c' : Call} (hcall : (s.procs r).call = c) (hheld : ¬c'.Holds r p q)
    (hpeer : c'.linksWith = c.linksWith := by rfl) : (s.setCall r c').Severed p q := by
  have hr := h r
  apply h.upd
  rw [← hcall] at hpeer
  exact ⟨hr.links, hr.todo, hheld, hpeer ▸ hr.calls, hpeer ▸ hr.called⟩

/-- The process goes on in a call that makes no link. -/
theorem setCall_free (hheld : ¬c.Holds r p q := by exact Call.not_holds rfl)
    (hpeer : c.linksWith = none := by rfl) : (s.setCall r c).Severed p q := by
  have hr := h r
  apply h.upd
  refine ⟨hr.links, hr.todo, hheld, fun _ => ?_, fun _ => ?_⟩ <;> rw [hpeer] <;> nofun

theorem ret (rc : Rc) : (s.ret r rc).Severed p q := by
  have hr := h r
  apply h.upd
  exact ⟨hr.links, hr.todo, nofun, fun _ => nofun, fun _ => nofun⟩

/-- The list of a process is written. -/
theorem setLinks (hlinks : r = p → q ∉ (f (s.procs r)).links)
    (hph : (f (s.procs r)).phase = (s.procs r).phase := by rfl)
    (hcall : (f (s.procs r)).call = (s.procs r).call := by rfl) : (s.upd r f).Severed p q := by
  have hr := h r
  apply h.upd
  constructor
  · exact hlinks
  · rw [hph]; exact hr.todo
  · rw [hcall]; exact hr.held
  · rw [hcall]; exact hr.calls
  · rw [hcall]; exact hr.called

/-- A change of data other than the list. -/
theorem data (hlinks : (f (s.procs r)).links = (s.procs r).links := by rfl)
    (hph : (f (s.procs r)).phase = (s.procs r).phase := by rfl)
    (hcall : (f (s.procs r)).call = (s.procs r).call := by rfl) : (s.upd r f).Severed p q := by
  refine h.setLinks ?_ hph hcall
  rw [hlinks]
  exact (h r).links

/-- The process goes on in its life. -/
theorem setPhase {φ : Phase} (htodo : ∀ x ∈ φ.todo, x ∈ (s.procs r).phase.todo) :
    (s.setPhase r φ).Severed p q := by
  have hr := h r
  apply h.upd
  exact { hr with todo := fun hrp hmem => hr.todo hrp (htodo q hmem) }

theorem discard : (s.discard r).Severed p q := by
  have hr := h r
  apply h.upd
  exact ⟨fun _ => nofun, fun _ => nofun, hr.held, hr.calls, hr.called⟩

theorem sendSys (msg : Message) (alloc : Bool) : (s.sendSys r msg alloc).Severed p q := by
  refine h.data ?_ ?_ ?_ <;> split <;> rfl

theorem exitPidOn (reason : ℤ) : (s.exitPidOn r reason).Severed p q := by
  refine h.data ?_ ?_ ?_ <;> split <;> rfl

theorem signalPeer (x : Pid) (trap : Bool) (sets : ℕ) (alloc : Bool) :
    (s.signalPeer r x trap sets alloc).Severed p q := by
  rw [State.signalPeer]
  split
  · exact sendSys (h.congr rfl) _ _
  · split
    · exact exitPidOn (h.congr rfl) _
    · exact h.congr rfl

theorem monWatchPush (me : ℕ) : (s.monWatchPush r me).Severed p q := by
  intro r'
  obtain ⟨_, _, _, heq⟩ := s.procs_monWatchPush r r' me
  rw [heq]
  have hr := h r'
  exact { hr with }

theorem undoWatch (c : Pid) : (s.undoWatch r c).Severed p q := by
  intro r'
  obtain ⟨_, _, heq⟩ := s.procs_undoWatch r r' c
  rw [heq]
  have hr := h r'
  exact { hr with }

/-- A list as it is now does not hold the entry. -/
theorem not_holds (hheld : c.held r = some (o, (s.procs o).links)) : ¬c.Holds r p q := by
  rintro ⟨head, heq, hmem⟩
  obtain ⟨rfl, rfl⟩ := Prod.mk.injEq .. ▸ some.inj (hheld.symm.trans heq)
  exact (h o).links rfl hmem

/-- A push of `y` on the list of `o`, which a call of `r` has read as `head`. -/
theorem push {y : Pid} (hcall : (s.procs r).call = c) (ht : t.Severed p q)
    (hy : o = p → y ≠ q) (hheld : c.held r = some (o, head) := by rfl)
    (hlinks : (f (t.procs o)).links = y :: head := by rfl)
    (hph : (f (t.procs o)).phase = (t.procs o).phase := by rfl)
    (hcall' : (f (t.procs o)).call = (t.procs o).call := by rfl) : (t.upd o f).Severed p q := by
  refine ht.setLinks ?_ hph hcall'
  rintro rfl
  rw [hlinks, mem_cons]
  rintro (heq | hmem)
  · exact hy rfl heq.symm
  · exact (h r).held ⟨head, hcall ▸ hheld, hmem⟩

theorem advanceLink {fst snd : Bool} (ht : s.advanceLink r fst snd (s.procs r).call = some t) :
    t.Severed p q := by
  have hr := h r
  cases hcall : (s.procs r).call <;> rw [hcall] at ht <;> simp only [State.advanceLink] at ht
  case linkAlloc other =>
    split at ht <;> cases ht
    · exact h.setCall hcall (h.not_holds rfl)
    · exact h.ret _
  case linkStore | spawnOwnStore =>
    cases ht
    refine h.push hcall (h.setCall hcall (Call.not_holds rfl)) ?_
    rintro rfl rfl
    exact hr.calls rfl (by rw [hcall]; rfl)
  case linkPeer other =>
    split at ht <;> cases ht
    · exact h.setCall hcall (Call.not_holds rfl)
    · exact (h.linkUp r other).ret _
  case linkPush other =>
    split at ht
    · cases ht
    · split at ht <;> cases ht
      · have hlock : (s.upd other fun P => { P with lock := some r }).Severed p q := h.data
        refine hlock.setCall (c := .linkPush other) ?_ (h.not_holds rfl)
        rw [procs_upd]
        split
        · next heq => subst heq; exact hcall
        · exact hcall
      · exact (h.linkUp r other).ret _
  case linkPeerStore other head =>
    cases ht
    refine linkUp ?_ r other
    refine h.push hcall (h.ret .ok) ?_
    rintro rfl rfl
    exact hr.called rfl (by rw [hcall]; rfl)
  case unlinkStore other head undo =>
    split at ht
    · cases ht
    · cases ht
      have hunlink : ((s.upd r fun P => { P with
          links := unlinked head P.links other }).linkDown r other).Severed p q := by
        refine linkDown (h.setLinks ?_) r other
        rintro rfl hmem
        rcases mem_of_mem_unlinked hmem with hmem | hmem
        · exact hr.held ⟨head, by rw [hcall]; rfl, hmem⟩
        · exact hr.links rfl hmem
      split
      · exact (hunlink.ret _).discard
      · exact hunlink.ret _
  case spawnEntries child rel =>
    cases rel with
    | monitor => cases ht
    | link =>
      dsimp only at ht
      split at ht
      · cases ht
        exact h.setCall hcall (h.not_holds rfl)
      · split at ht <;> cases ht
        exact (h.ret _).discard
  case spawnLinkStore child head =>
    cases ht
    refine h.push hcall (h.setCall hcall (Call.not_holds rfl)) ?_
    rintro rfl rfl
    exact hr.called rfl (by rw [hcall]; rfl)
  case spawnOwnRead child =>
    cases ht
    exact h.setCall hcall (h.not_holds rfl)
  case spawnAsyncLink child =>
    split at ht <;> cases ht
    · refine linkUp (setPhase (h.ret .ok) ?_) r child
      rintro _ ⟨⟩
    · exact h.setCall_free (h.not_holds rfl)
  all_goals cases ht

theorem advanceMonitor {fst snd : Bool}
    (ht : s.advanceMonitor r fst snd (s.procs r).call = some t) : t.Severed p q := by
  cases hcall : (s.procs r).call <;> rw [hcall] at ht <;>
    simp only [State.advanceMonitor] at ht
  case monitorDead target =>
    cases ht
    refine grant (sendSys ?_ _ _) r target s.nextRef
    exact (h.ret .ok).congr rfl
  case monitorAlloc target =>
    split at ht <;> cases ht
    · exact setCall_free (h.congr rfl)
    · exact h.ret _
  case monitorPeer target me ref =>
    split at ht <;> cases ht
    · exact setCall_free (h.congr rfl)
    · exact h.setCall_free
  case monitorPush target me ref =>
    split at ht
    · cases ht
    · split at ht <;> cases ht
      · exact setCall_free h.data
      · exact setCall_free (h.congr rfl)
  case monitorStore target me ref head | spawnMonStore child me ref head =>
    cases ht
    exact h.setCall_free.data
  case monitorWatch target me ref =>
    cases ht
    exact ((h.monWatchPush me).ret .ok).grant r target ref
  case spawnWatch child me ref =>
    cases ht
    exact (h.monWatchPush me).setCall_free
  case spawnAsyncMonitor child ref =>
    split at ht
    · cases ht
      refine grant (setPhase (h.ret .ok) ?_) r child ref
      rintro _ ⟨⟩
    · split at ht <;> cases ht
      exact ((h.undoWatch child).ret _).discard
  case spawnEntries child rel =>
    cases rel with
    | link => cases ht
    | monitor =>
      dsimp only at ht
      split at ht
      · cases ht
        exact setCall_free (h.congr rfl)
      · split at ht <;> cases ht
        exact (h.ret _).discard
  all_goals cases ht

theorem notify {alloc : Bool} (ht : s.notify r alloc (s.procs r).phase = some t) :
    t.Severed p q := by
  generalize hph : (s.procs r).phase = ψ at ht
  cases Notified.of_notify ht with
  | goOn watch _ _ _ htodo =>
    refine setPhase (h.congr rfl) ?_
    rw [htodo, ← hph]
    exact fun _ => id
  | lookUp => exact h.setPhase (by rw [hph]; exact fun _ => id)
  | skip => exact h.setPhase (by rw [hph]; exact fun _ => mem_cons_of_mem _)
  | signal =>
    refine (h.signalPeer _ _ _ _).setPhase fun y hy => ?_
    rw [procs_signalPeer, hph]
    exact mem_cons_of_mem _ hy
  | down => exact (h.sendSys _ _).setPhase nofun

/-- A step that begins no new link. -/
theorem step (hnew : a.links p q = false) (ht : s.step a = some t) : t.Severed p q := by
  cases a <;> simp only [step] at ht
  case spawn child =>
    split at ht <;> cases ht
    exact h.setPhase (by rintro _ ⟨⟩)
  case spawnRel r child rel =>
    split at ht <;> cases ht
    have hph : (s.setPhase child .unborn).Severed p q := h.setPhase (by rintro _ ⟨⟩)
    have hr := hph r
    apply hph.upd
    refine ⟨hr.links, hr.todo, Call.not_holds rfl, ?_, ?_⟩
    · rintro rfl heq
      cases rel with
      | monitor => cases heq
      | link => simp_all [Act.links]
    · rintro rfl heq
      cases rel with
      | monitor => cases heq
      | link => simp_all [Act.links]
  case monitor r target =>
    split at ht <;> cases ht
    split
    · exact h.setCall_free
    · exact h.setCall_free
  case link r other =>
    split at ht <;> cases ht
    split
    · have hr := h r
      apply h.upd
      refine ⟨hr.links, hr.todo, Call.not_holds rfl, ?_, ?_⟩
      · rintro rfl heq
        simp_all [Act.links]
      · rintro rfl heq
        simp_all [Act.links]
    · exact h.ret _
  case unlink r other =>
    split at ht <;> cases ht
    split
    · exact h.setCall_free (h.not_holds rfl)
    · exact (h.linkDown r other).ret _
  case trapExit r on =>
    split at ht <;> cases ht
    exact h.data
  case exitPid target reason =>
    cases ht
    exact h.exitPidOn reason
  case advance r fst snd =>
    split at ht
    · rcases or_eq_some_iff.mp ht with hm | ⟨-, hl⟩
      · exact h.advanceMonitor hm
      · exact h.advanceLink hl
    · cases ht
  case exit r ending =>
    split at ht <;> cases ht
    have hr := h r
    exact h.upd ⟨hr.links, by rintro _ ⟨⟩, Call.not_holds rfl, by rintro _ ⟨⟩, by rintro _ ⟨⟩⟩
  case detach r =>
    split at ht <;> cases ht
    next hhooks =>
    have hr := h r
    exact h.upd ⟨by rintro _ ⟨⟩, hr.links, hr.held, hr.calls, hr.called⟩
  case notify r alloc => exact h.notify ht

/-- The exit of `p` does not signal `q`. -/
theorem spared (hne : q ≠ p) (hexit : a.exits p = true) (ht : s.step a = some t) :
    State.Spared (s.procs q) (t.procs q) := by
  cases a <;> simp only [Act.exits, decide_eq_true_eq, Bool.false_eq_true] at hexit <;>
    simp only [State.step] at ht
  case exit r ending =>
    subst hexit
    split at ht <;> cases ht
    simp [beginExit, hne]
  case detach r =>
    subst hexit
    split at ht <;> cases ht
    simp [detach, hne]
  case notify r alloc =>
    subst hexit
    have htodo := (h r).todo rfl
    generalize (s.procs r).phase = ψ at ht htodo
    cases Notified.of_notify ht with
    | goOn | lookUp | skip => simp
    | signal =>
      have hx : q ≠ _ := fun heq => htodo (heq ▸ mem_cons_self)
      simp [hx]
    | down =>
      -- a DOWN is no signal of a link
      simp only [State.Spared, procs_setPhase, procs_sendSys]
      split <;> simp

/-- A run that begins no new link. -/
theorem run {ok : State → Act → Prop} [∀ s a, Decidable (ok s a)]
    (hok : ∀ s a, ok s a → a.links p q = false) {acts : List Act}
    (hrun : system.runUnder ok s acts = some t) : t.Severed p q := by
  induction acts generalizing s with
  | nil =>
    cases hrun
    exact h
  | cons a rest ih =>
    rw [System.runUnder] at hrun
    split at hrun
    · next hnew =>
      obtain ⟨s', ht, hrest⟩ := bind_eq_some_iff.mp hrun
      exact ih (h.step (hok s a hnew) ht) hrest
    · cases hrun

end

end State.Severed

/-- Who may hold the list of a process: itself, the holder of its lock and its spawner. -/
theorem WellFormed.not_holds (hwf : WellFormed s) {p q r : Pid}
    (hlock : (s.procs p).lock = none) (hborn : (s.procs p).phase ≠ .unborn) (hr : r ≠ p) :
    ¬(s.procs r).call.Holds r p q := by
  rintro ⟨head, hheld, -⟩
  have hlocks := hwf.not_locks hlock r
  have hspawns : (s.procs r).call.spawns ≠ some p := fun hs => hborn (hwf.unborn r p hs)
  cases hcall : (s.procs r).call <;> rw [hcall] at hheld hlocks hspawns <;>
    simp_all [Call.held, Call.locks, Call.spawns]

/-- The return of `xtc_unlink` changes the caller only. -/
theorem State.step_unlinkStore {t : State} {p q : Pid} {fst snd : Bool}
    (hcall : (s.procs p).call = .unlinkStore q head false)
    (hret : s.step (.advance p fst snd) = some t) :
    (s.procs p).phase.runs = true ∧ (t.procs p).phase = (s.procs p).phase ∧
      (t.procs p).call = .idle ∧ ∀ r, r ≠ p → t.procs r = s.procs r := by
  simp only [step, hcall, advanceMonitor] at hret
  split at hret
  · next hruns =>
    cases hret
    refine ⟨hruns, ?_, ?_, fun r hr => ?_⟩ <;> simp [*]
  · cases hret

/-- An unlink of `p` that removes its last entry of `q` severs the link if `q` has removed its
entries of `p` before: from then on, as long as no new link is made, no step of the exit of one of
them signals the other. -/
theorem unlink_severs {s t u u' : State} {p q : Pid} {head : List Pid} {fst snd : Bool}
    {acts : List Act} {a : Act} (hne : p ≠ q)
    (hcall : (s.procs p).call = .unlinkStore q head false)
    (halive : (s.procs q).phase.alive = true) (hquiet : (s.procs q).call.linksWith ≠ some p)
    (hpeer : s.PeerUnlinked p q) (hret : s.step (.advance p fst snd) = some t)
    (hlast : q ∉ (t.procs p).links)
    (hrun : system.runUnder (fun _ a => a.links p q = false) t acts = some u)
    (hstep : u.step a = some u') :
    (a.exits q = true → State.Spared (u.procs p) (u'.procs p)) ∧
      (a.exits p = true → State.Spared (u.procs q) (u'.procs q)) := by
  obtain ⟨hlinks, hheld, hheld'⟩ := hpeer
  obtain ⟨hruns, hphase, hidle, hother⟩ := step_unlinkStore hcall hret
  -- the side of `p`: its own list is clear, and nobody writes an older one
  have hp : t.Severed p q := by
    intro r
    by_cases hr : r = p
    · subst hr
      refine ⟨fun _ => hlast, fun _ => ?_, ?_, fun _ => ?_, fun heq => absurd heq hne⟩
      · cases hφ : (s.procs r).phase <;> simp_all [Phase.runs, Phase.todo]
      · rw [hidle]; exact Call.not_holds rfl
      · rw [hidle]; rintro ⟨⟩
    · rw [hother r hr]
      exact ⟨fun h => absurd h hr, fun h => absurd h hr, hheld' r hr, fun h => absurd h hr,
        fun h => h ▸ hquiet⟩
  -- the side of `q`: it had no entry of `p`
  have hq : t.Severed q p := by
    intro r
    by_cases hr : r = p
    · subst hr
      refine ⟨fun heq => absurd heq hne, fun heq => absurd heq hne, ?_, fun heq => absurd heq hne,
        fun _ => ?_⟩
      · rw [hidle]; exact Call.not_holds rfl
      · rw [hidle]; rintro ⟨⟩
    · rw [hother r hr]
      refine ⟨fun h => h ▸ hlinks, fun h => ?_, hheld r, fun h => h ▸ hquiet, fun h => absurd h hr⟩
      cases hφ : (s.procs r).phase <;> simp_all [Phase.alive, Phase.todo]
  have hp' := hp.run (fun _ _ h => h) hrun
  have hq' := hq.run (fun _ a h => (a.links_comm q p).trans h) hrun
  exact ⟨fun hexit => hq'.spared hne hexit hstep, fun hexit => hp'.spared hne.symm hexit hstep⟩

/-- Process 0 links process 1, both remove their entries, process 1 first. -/
def bothUnlink : List Act :=
  let w : Pid := ⟨1, 0, 1⟩
  let t : Pid := ⟨1, 1, 1⟩
  [.spawn w, .spawn t, .link w t] ++ replicate 5 (.advance w true true) ++
  [.unlink t w, .advance t true true, .unlink w t]

/-- Then process 1 exits with code 5 and signals nobody. -/
theorem unlink_severs_bothUnlink :
    ∃ s ∈ system.run empty bothUnlink, s.PeerUnlinked ⟨1, 0, 1⟩ ⟨1, 1, 1⟩ ∧
      ∃ t ∈ s.step (.advance ⟨1, 0, 1⟩ true true),
      ∃ u ∈ system.runUnder (fun _ a => a.links ⟨1, 0, 1⟩ ⟨1, 1, 1⟩ = false) t
        [.exit ⟨1, 1, 1⟩ (.exitSelf 5 none), .detach ⟨1, 1, 1⟩],
      ∃ u' ∈ u.step (.notify ⟨1, 1, 1⟩ true),
        State.Spared (u.procs ⟨1, 0, 1⟩) (u'.procs ⟨1, 0, 1⟩) := by
  have hrun : ∃ s ∈ system.run empty bothUnlink,
      (s.procs ⟨1, 0, 1⟩).call = .unlinkStore ⟨1, 1, 1⟩ [⟨1, 1, 1⟩] false ∧
      (s.procs ⟨1, 1, 1⟩).phase = .body ∧ (s.procs ⟨1, 1, 1⟩).call = .idle ∧
      (s.procs ⟨1, 1, 1⟩).links = [] ∧ (s.procs ⟨1, 1, 1⟩).lock = none ∧
      (s.procs ⟨1, 0, 1⟩).phase = .body ∧ (s.procs ⟨1, 0, 1⟩).lock = none ∧
      ∃ t ∈ s.step (.advance ⟨1, 0, 1⟩ true true), (t.procs ⟨1, 0, 1⟩).links = [] ∧
      ∃ u ∈ system.runUnder (fun _ a => a.links ⟨1, 0, 1⟩ ⟨1, 1, 1⟩ = false) t
        [.exit ⟨1, 1, 1⟩ (.exitSelf 5 none), .detach ⟨1, 1, 1⟩],
      (u.step (.notify ⟨1, 1, 1⟩ true)).isSome := by
    decide
  obtain ⟨s, hs, hcall, hbody, hidle, hnil, hlock, hbody', hlock', t, ht, hnil', u, hu, hsome⟩ :=
    hrun
  obtain ⟨u', hu'⟩ := isSome_iff_exists.mp hsome
  have hwf : WellFormed s :=
    wellFormed_of_reachable (.runUnder (.start rfl) hs : system.Reachable s)
  have hpeer : s.PeerUnlinked ⟨1, 0, 1⟩ ⟨1, 1, 1⟩ := by
    refine ⟨by rw [hnil]; nofun, fun r => ?_, fun r hr => ?_⟩
    · by_cases hr : r = ⟨1, 1, 1⟩
      · rw [hr, hidle]
        exact Call.not_holds rfl
      · exact hwf.not_holds hlock (by rw [hbody]; nofun) hr
    · exact hwf.not_holds hlock' (by rw [hbody']; nofun) hr
  refine ⟨s, hs, hpeer, t, ht, u, hu, u', hu', ?_⟩
  exact (unlink_severs (by decide) hcall (by rw [hbody]; rfl) (by rw [hidle]; nofun) hpeer ht
    (by rw [hnil']; nofun) hu hu').1 rfl

/-- Process 0 links process 1 and unlinks it again. -/
def oneUnlinks : List Act :=
  let w : Pid := ⟨1, 0, 1⟩
  let t : Pid := ⟨1, 1, 1⟩
  [.spawn w, .spawn t, .link w t] ++ replicate 5 (.advance w true true) ++ [.unlink w t]

/-- Process 1 still has its entry, so when it exits with code 5 a kill is left pending on
process 0. -/
theorem unlink_leaves_peer_entry : ∃ s ∈ system.run empty oneUnlinks,
      (s.procs ⟨1, 0, 1⟩).call = .unlinkStore ⟨1, 1, 1⟩ [⟨1, 1, 1⟩] false ∧
      (s.procs ⟨1, 1, 1⟩).phase = .body ∧ (s.procs ⟨1, 1, 1⟩).call = .idle ∧
      ∃ t ∈ s.step (.advance ⟨1, 0, 1⟩ true true), (t.procs ⟨1, 0, 1⟩).links = [] ∧
      (t.procs ⟨1, 0, 1⟩).call = .idle ∧ (t.procs ⟨1, 0, 1⟩).rc = .ok ∧
      ∃ u ∈ system.runUnder (fun _ a => a.links ⟨1, 0, 1⟩ ⟨1, 1, 1⟩ = false) t
        [.exit ⟨1, 1, 1⟩ (.exitSelf 5 none), .detach ⟨1, 1, 1⟩, .notify ⟨1, 1, 1⟩ true],
      (u.procs ⟨1, 0, 1⟩).killPending = 0 ∧
      ∃ u' ∈ u.step (.notify ⟨1, 1, 1⟩ true), (u'.procs ⟨1, 0, 1⟩).killPending = killCode 5 := by
  decide

end LibXtc.Proc

import LibXtc.Proc.Signals

/-!
# Who may touch a process

The discipline behind the link and monitor lists: a peer that pushes holds the stripe lock and
finds the process in its slot, a child is touched without the lock only by the one process that
spawns it, and a process that has left its slot has empty lists. These facts hold in every run,
whatever the allocator answers.
-/

namespace LibXtc.Proc

open State

/-- The push on a watcher's own list changes nothing that peers see. -/
theorem Process.watchPush_eq (P : Process) (unheld : ℕ → Bool) (me : ℕ) :
    ∃ monitors n m, P.watchPush unheld me =
      { P with monitors := monitors, monN := n, monSweepAt := m } := by
  unfold Process.watchPush
  split
  · exact ⟨_, _, _, rfl⟩
  · exact ⟨_, _, _, rfl⟩

variable {φ : Phase} {q : Pid}

theorem Phase.inTable_of_alive (h : φ.alive = true) : φ.inTable = true := by
  cases φ <;> simp_all [Phase.alive, Phase.inTable]

theorem Phase.inTable_of_runs (h : φ.runs = true) : φ.inTable = true := by
  cases φ <;> simp_all [Phase.runs, Phase.inTable]

theorem Phase.inTable_of_leaves (h : φ.leaves = true) : φ.inTable = false := by
  cases φ <;> simp_all [Phase.leaves, Phase.inTable]

theorem Phase.not_runs_of_leaves (h : φ.leaves = true) : φ.runs = false := by
  cases φ <;> simp_all [Phase.leaves, Phase.runs]

/-- The peer that is about to be signalled, with what was read of it. -/
def Phase.read : Phase → Option (Pid × Bool × ℕ)
  | .signal peer trap sets .. => some (peer, trap, sets)
  | _ => none

/-! ## What each operation does to a process -/

namespace State

variable (s : State) (p q : Pid)

@[simp] theorem procs_upd (f : Process → Process) :
    (s.upd p f).procs q = if q = p then f (s.procs p) else s.procs q := by
  simp [upd, Function.update_apply]

@[simp] theorem procs_setCall (c : Call) : (s.setCall p c).procs q =
    { s.procs q with call := if q = p then c else (s.procs q).call } := by
  rw [setCall, procs_upd]
  by_cases h : q = p <;> simp [h]

@[simp] theorem procs_ret (rc : Rc) : (s.ret p rc).procs q = { s.procs q with
      call := if q = p then .idle else (s.procs q).call
      rc := if q = p then rc else (s.procs q).rc } := by
  rw [ret, procs_upd]
  by_cases h : q = p <;> simp [h]

@[simp] theorem procs_setPhase (φ : Phase) : (s.setPhase p φ).procs q =
    { s.procs q with phase := if q = p then φ else (s.procs q).phase } := by
  rw [setPhase, procs_upd]
  by_cases h : q = p <;> simp [h]

@[simp] theorem procs_sendSys (msg : Message) (alloc : Bool) : (s.sendSys p msg alloc).procs q =
    { s.procs q with
      inbox := if q = p ∧ (s.procs q).phase.alive ∧ alloc then (s.procs q).inbox ++ [msg]
        else (s.procs q).inbox } := by
  rw [sendSys, procs_upd]
  by_cases h : q = p
  · subst h
    by_cases ha : (s.procs q).phase.alive ∧ alloc <;> simp [ha]
  · simp [h]

@[simp] theorem procs_exitPidOn (reason : ℤ) : (s.exitPidOn p reason).procs q = { s.procs q with
      killPending := if q = p ∧ (s.procs q).phase.alive ∧ (s.procs q).killPending = 0
        then killCode reason else (s.procs q).killPending } := by
  rw [exitPidOn, procs_upd]
  by_cases h : q = p
  · subst h
    by_cases ha : (s.procs q).phase.alive ∧ (s.procs q).killPending = 0 <;> simp [ha]
  · simp [h]

@[simp] theorem procs_discard : (s.discard p).procs q = { s.procs q with
      phase := if q = p then .discarded else (s.procs q).phase
      links := if q = p then [] else (s.procs q).links
      monitoredBy := if q = p then [] else (s.procs q).monitoredBy } := by
  rw [discard, procs_upd]
  by_cases h : q = p <;> simp [h]

theorem procs_monWatchPush (me : ℕ) : ∃ monitors n m, (s.monWatchPush p me).procs q =
    { s.procs q with monitors := monitors, monN := n, monSweepAt := m } := by
  rw [monWatchPush]
  simp only [procs_upd]
  split
  · next h =>
    subst h
    exact (s.procs q).watchPush_eq s.unheld me
  · exact ⟨_, _, _, rfl⟩

theorem procs_undoWatch (c : Pid) : ∃ monitors n, (s.undoWatch p c).procs q =
    { s.procs q with monitors := monitors, monN := n } := by
  rw [undoWatch]
  split
  · simp only [procs_upd]
    split
    · next h =>
      subst h
      exact ⟨_, _, rfl⟩
    · exact ⟨_, _, rfl⟩
  · exact ⟨_, _, rfl⟩

@[simp] theorem procs_signalPeer (r : Pid) (trap : Bool) (sets : ℕ) (alloc : Bool) :
    (s.signalPeer p r trap sets alloc).procs q = { s.procs q with
        inbox := if q = r ∧ trap ∧ (s.procs q).phase.alive ∧ alloc
          then (s.procs q).inbox ++ [.exit (s.procs p).exitReason p (s.procs p).exitKind]
          else (s.procs q).inbox
        killPending := if q = r ∧ trap = false ∧ (s.procs p).exitReason ≠ 0 ∧
            (s.procs q).phase.alive ∧ (s.procs q).killPending = 0
          then killCode (s.procs p).exitReason else (s.procs q).killPending } := by
  rw [signalPeer]
  cases trap
  · by_cases hr : (s.procs p).exitReason = 0 <;> simp [hr]
  · simp

@[simp] theorem procs_grant (w t : Pid) (ref : ℕ) : (s.grant w t ref).procs = s.procs := rfl

@[simp] theorem procs_linkUp : (s.linkUp p q).procs = s.procs := rfl

@[simp] theorem procs_linkDown : (s.linkDown p q).procs = s.procs := rfl

@[simp] theorem procs_drawRef : s.drawRef.procs = s.procs := rfl

@[simp] theorem procs_setRefs (a refs : ℕ) : (s.setRefs a refs).procs = s.procs := rfl

end State

/-- What a step of an exit after the lists are detached does. -/
inductive Notified (s : State) (p : Pid) (alloc : Bool) : Phase → State → Prop
  /-- It goes on to the next list, or puts a watcher's entry. -/
  | goOn {ψ φ : Phase} (watch : ℕ → Option MonEntry) : ψ.leaves = true → φ.leaves = true →
      φ.mons = ψ.mons → φ.todo = ψ.todo → φ.read = none →
      Notified s p alloc ψ ({ s with watch := watch }.setPhase p φ)
  /-- It looks up the next peer. -/
  | lookUp {q todo mons own} : Notified s p alloc (.links (q :: todo) mons own)
      (s.setPhase p (.signal q (s.procs q).trapExit (s.procs q).trapSets todo mons own))
  /-- The next peer is gone. -/
  | skip {q todo mons own} : ¬(s.procs q).phase.inTable →
      Notified s p alloc (.links (q :: todo) mons own) (s.setPhase p (.links todo mons own))
  /-- It signals a peer. -/
  | signal {q trap sets todo mons own} :
      Notified s p alloc (.signal q trap sets todo mons own)
        ((s.signalPeer p q trap sets alloc).setPhase p (.links todo mons own))
  /-- It sends a DOWN. -/
  | down {m mons own} : Notified s p alloc (.downs (m :: mons) own)
      ((s.sendSys m.watcher (.down m.ref p (s.procs p).exitReason (s.procs p).exitKind)
        alloc).setPhase p (.put m mons own))

theorem Notified.of_notify {s t : State} {p : Pid} {alloc : Bool}
    (ht : s.notify p alloc φ = some t) : Notified s p alloc φ t := by
  cases φ
  case links todo mons own =>
    cases todo with
    | nil =>
      cases ht
      exact .goOn s.watch rfl rfl rfl rfl rfl
    | cons q todo =>
      simp only [notify] at ht
      split at ht <;> cases ht
      · exact .lookUp
      · exact .skip ‹_›
  case signal =>
    cases ht
    exact .signal
  case downs mons own =>
    cases mons <;> cases ht
    · exact .goOn s.watch rfl rfl rfl rfl rfl
    · exact .down
  case put m mons own =>
    cases ht
    cases m.peer <;> exact .goOn _ rfl rfl rfl rfl rfl
  case puts own => cases own <;> cases ht <;> exact .goOn _ rfl rfl rfl rfl rfl
  all_goals cases ht

/-- The discipline of the shared lists. -/
structure WellFormed (s : State) : Prop where
  /-- Only a running process is inside a call. -/
  idle : ∀ p, (s.procs p).phase.runs = false → (s.procs p).call = .idle
  /-- A caller that holds a stripe lock is its holder, and the peer is in its slot. -/
  locked : ∀ p q, (s.procs p).call.locks = some q →
    (s.procs q).lock = some p ∧ (s.procs q).phase.inTable = true
  /-- A child whose spawn is not over does not run. -/
  unborn : ∀ p c, (s.procs p).call.spawns = some c → (s.procs c).phase = .unborn
  /-- A child has one spawner. -/
  spawner : ∀ p q c, (s.procs p).call.spawns = some c → (s.procs q).call.spawns = some c → p = q
  /-- A process outside its slot has no list that a peer could push on. -/
  detached : ∀ p, (s.procs p).phase.inTable = false →
    (s.procs p).links = [] ∧ (s.procs p).monitoredBy = []

namespace WellFormed

variable {s s' : State} {p : Pid} {f : Process → Process} {c : Call}

theorem empty : WellFormed empty where
  idle _ _ := rfl
  locked _ _ h := by cases h
  unborn _ _ h := by cases h
  spawner _ _ _ h := by cases h
  detached _ _ := ⟨rfl, rfl⟩

section

variable (h : WellFormed s)
include h

theorem grant (w t : Pid) (ref : ℕ) : WellFormed (s.grant w t ref) := { h with }

theorem linkUp (q : Pid) : WellFormed (s.linkUp p q) := { h with }

theorem linkDown (q : Pid) : WellFormed (s.linkDown p q) := { h with }

theorem drawRef : WellFormed s.drawRef := { h with }

theorem newWatch (t w : Pid) (refs : ℕ) : WellFormed (s.newWatch t w refs) := { h with }

theorem setRefs (a refs : ℕ) : WellFormed (s.setRefs a refs) := { h with }

/-- A change of one process that does not move its call forward. -/
theorem upd (hcall : (f (s.procs p)).call = (s.procs p).call ∨ (f (s.procs p)).call = .idle)
    (hidle : (f (s.procs p)).phase.runs = false → (f (s.procs p)).call = .idle)
    (hlock : (∀ q, (s.procs q).call.locks ≠ some p) ∨ ((f (s.procs p)).lock = (s.procs p).lock ∧
        (f (s.procs p)).phase.inTable = (s.procs p).phase.inTable))
    (hspawn : (∀ q, (s.procs q).call.spawns ≠ some p) ∨ (f (s.procs p)).phase = (s.procs p).phase)
    (hlists : (f (s.procs p)).phase.inTable = false →
      (f (s.procs p)).links = [] ∧ (f (s.procs p)).monitoredBy = []) : WellFormed (s.upd p f) := by
  -- the call of a process afterwards is its call before, or none
  have hcalls : ∀ q, ((s.upd p f).procs q).call = (s.procs q).call ∨
      ((s.upd p f).procs q).call = .idle := by
    intro q
    rw [procs_upd]
    split
    · next hq => rw [hq]; exact hcall
    · exact .inl rfl
  constructor
  · intro q hq
    rw [procs_upd] at hq ⊢
    split
    · next heq => rw [if_pos heq] at hq; exact hidle hq
    · next hne => rw [if_neg hne] at hq; exact h.idle q hq
  · intro q t hq
    rcases hcalls q with hsame | hidle'
    · rw [hsame] at hq
      obtain ⟨hl, ht⟩ := h.locked q t hq
      rw [procs_upd]
      split
      · next heq =>
        subst heq
        rcases hlock with hno | ⟨hlk, htab⟩
        · exact absurd hq (hno q)
        · exact ⟨hlk.trans hl, htab.trans ht⟩
      · exact ⟨hl, ht⟩
    · rw [hidle'] at hq
      cases hq
  · intro q c hq
    rcases hcalls q with hsame | hidle'
    · rw [hsame] at hq
      rw [procs_upd]
      split
      · next heq =>
        subst heq
        rcases hspawn with hno | hph
        · exact absurd hq (hno q)
        · exact hph.trans (h.unborn q _ hq)
      · exact h.unborn q c hq
    · rw [hidle'] at hq
      cases hq
  · intro q r c hq hr
    rcases hcalls q with hq' | hq'
    · rcases hcalls r with hr' | hr'
      · rw [hq'] at hq
        rw [hr'] at hr
        exact h.spawner q r c hq hr
      · rw [hr'] at hr
        cases hr
    · rw [hq'] at hq
      cases hq
  · intro q hq
    rw [procs_upd] at hq ⊢
    split
    · next heq => rw [if_pos heq] at hq; exact hlists hq
    · next hne => rw [if_neg hne] at hq; exact h.detached q hq

/-- A change of the data of one process. -/
theorem updData (hlists : (s.procs p).phase.inTable = true ∨
      ((f (s.procs p)).links = (s.procs p).links ∧
        (f (s.procs p)).monitoredBy = (s.procs p).monitoredBy) := by exact .inr ⟨rfl, rfl⟩)
    (hlock : (∀ q, (s.procs q).call.locks ≠ some p) ∨
      (f (s.procs p)).lock = (s.procs p).lock := by exact .inr rfl)
    (hph : (f (s.procs p)).phase = (s.procs p).phase := by rfl)
    (hcall : (f (s.procs p)).call = (s.procs p).call := by rfl) : WellFormed (s.upd p f) := by
  apply h.upd (.inl hcall)
  · intro hruns
    rw [hcall]
    exact h.idle p (hph ▸ hruns)
  · exact hlock.imp_right fun hl => ⟨hl, by rw [hph]⟩
  · exact .inr hph
  · intro hout
    rw [hph] at hout
    rcases hlists with hin | ⟨hl, hm⟩
    · rw [hin] at hout
      cases hout
    · rw [hl, hm]
      exact h.detached p hout

/-- The caller goes on: it may take a lock that it holds now, or go on with its own spawn. -/
theorem setCall (hruns : (s.procs p).phase.runs = true) (hlocks : ∀ q, c.locks = some q →
      (s.procs q).lock = some p ∧ (s.procs q).phase.inTable = true)
    (hspawns : ∀ x, c.spawns = some x →
      (s.procs x).phase = .unborn ∧ ∀ q, (s.procs q).call.spawns = some x → q = p) :
    WellFormed (s.setCall p c) := by
  constructor
  · intro q hq
    simp only [procs_setCall] at hq ⊢
    split
    · next heq =>
      rw [heq, hruns] at hq
      cases hq
    · exact h.idle q hq
  · intro q t hq
    simp only [procs_setCall] at hq ⊢
    split at hq
    · next heq => rw [heq]; exact hlocks t hq
    · exact h.locked q t hq
  · intro q x hq
    simp only [procs_setCall] at hq ⊢
    split at hq
    · exact (hspawns x hq).1
    · exact h.unborn q x hq
  · intro q r x hq hr
    simp only [procs_setCall] at hq hr
    split at hq
    · next heq =>
      split at hr
      · next heq' => rw [heq, heq']
      · rw [heq]; exact ((hspawns x hq).2 r hr).symm
    · split at hr
      · next heq' => rw [heq']; exact (hspawns x hr).2 q hq
      · exact h.spawner q r x hq hr
  · intro q hq
    simp only [procs_setCall] at hq ⊢
    exact h.detached q hq

/-- The caller goes on without a lock, with the spawn it was in or with none. -/
theorem setCall_free {d : Call} (hruns : (s.procs p).phase.runs = true)
    (hcall : (s.procs p).call = d) (hlocks : c.locks = none := by rfl)
    (hspawns : c.spawns = none ∨ c.spawns = d.spawns := by
      first | exact .inl rfl | exact .inr rfl) : WellFormed (s.setCall p c) := by
  apply h.setCall hruns
  · intro q hq
    rw [hlocks] at hq
    cases hq
  · intro x hx
    rcases hspawns with hnone | hsame
    · rw [hnone] at hx
      cases hx
    · rw [hsame, ← hcall] at hx
      exact ⟨h.unborn p x hx, fun q hq => h.spawner q p x hq hx⟩

theorem ret (rc : Rc) : WellFormed (s.ret p rc) := by
  apply h.upd (.inr rfl) (fun _ => rfl) (.inr ⟨rfl, rfl⟩) (.inr rfl)
  exact h.detached p

theorem sendSys (msg : Message) (alloc : Bool) : WellFormed (s.sendSys p msg alloc) := by
  refine h.updData (.inr ⟨?_, ?_⟩) (.inr ?_) ?_ ?_ <;> split <;> rfl

theorem exitPidOn (reason : ℤ) : WellFormed (s.exitPidOn p reason) := by
  refine h.updData (.inr ⟨?_, ?_⟩) (.inr ?_) ?_ ?_ <;> split <;> rfl

theorem monWatchPush (me : ℕ) : WellFormed (s.monWatchPush p me) := by
  obtain ⟨monitors, n, m, heq⟩ := (s.procs p).watchPush_eq s.unheld me
  have hupd : WellFormed (s.upd p fun P => P.watchPush s.unheld me) := by
    refine h.updData (.inr ⟨?_, ?_⟩) (.inr ?_) ?_ ?_ <;> rw [heq]
  exact { hupd with }

theorem undoWatch (c : Pid) : WellFormed (s.undoWatch p c) := by
  rw [State.undoWatch]
  split
  · have hupd := fun a => h.updData (p := p) (f := fun P =>
      { P with monitors := P.monitors.erase a, monN := P.monN - 1 })
    exact { hupd _ with }
  · exact h

/-- Nobody pushes on a process whose stripe lock is free. -/
theorem not_locks (hlock : (s.procs p).lock = none) (q : Pid) :
    (s.procs q).call.locks ≠ some p := by
  intro hq
  rw [(h.locked q p hq).1] at hlock
  cases hlock

/-- Nobody spawns a process that is not unborn. -/
theorem not_spawns (hph : (s.procs p).phase = φ) (hφ : φ ≠ .unborn) (q : Pid) :
    (s.procs q).call.spawns ≠ some p :=
  fun hq => hφ (hph.symm.trans (h.unborn q p hq))

/-- Once the spawner of a child has left its call, nobody spawns the child. -/
theorem not_spawns_of_left {c : Pid} (hspawn : (s.procs p).call.spawns = some c)
    (hleft : ∀ q, (s'.procs q).call = if q = p then .idle else (s.procs q).call) (q : Pid) :
    (s'.procs q).call.spawns ≠ some c := by
  intro hq
  rw [hleft] at hq
  split at hq
  · cases hq
  · next hne => exact hne (h.spawner q p c hq hspawn)

/-- A failed spawn frees the child. -/
theorem retDiscard {c : Pid} (rc : Rc) (hspawn : (s.procs p).call.spawns = some c)
    (hlock : (s.procs c).lock = none) : WellFormed ((s.ret p rc).discard c) := by
  have hunborn := h.unborn p c hspawn
  have hidle : (s.procs c).call = .idle := h.idle c (by rw [hunborn]; rfl)
  apply (h.ret rc).upd
  · exact .inl rfl
  · intro _
    simp [hidle]
  · exact .inl ((h.ret rc).not_locks (by simpa using hlock))
  · exact .inl (h.not_spawns_of_left hspawn fun q => by simp)
  · exact fun _ => ⟨rfl, rfl⟩

/-- A successful spawn makes the child runnable. -/
theorem retBody {c : Pid} (rc : Rc) (hspawn : (s.procs p).call.spawns = some c) :
    WellFormed ((s.ret p rc).setPhase c .body) := by
  have hunborn := h.unborn p c hspawn
  apply (h.ret rc).upd
  · exact .inl rfl
  · intro hruns
    cases hruns
  · exact .inr ⟨rfl, by simp [hunborn, Phase.inTable]⟩
  · exact .inl (h.not_spawns_of_left hspawn fun q => by simp)
  · intro hout
    cases hout

/-- A peer takes the stripe lock and goes on. -/
theorem takeLock (hruns : (s.procs p).phase.runs = true)
    (hlock : (s.procs q).lock = none) (hin : (s.procs q).phase.inTable = true)
    (hc : c.locks = some q) (hspawns : c.spawns = none) :
    WellFormed ((s.upd q fun P => { P with lock := some p }).setCall p c) := by
  have hupd : WellFormed (s.upd q fun P => { P with lock := some p }) :=
    h.updData (.inr ⟨rfl, rfl⟩) (.inl (h.not_locks hlock))
  apply hupd.setCall
  · rw [procs_upd]
    split
    · next heq => rw [← heq]; exact hruns
    · exact hruns
  · intro r hr
    rw [hc] at hr
    cases hr
    simp [hin]
  · intro x hx
    rw [hspawns] at hx
    cases hx

/-- The peer that holds the stripe lock pushes and releases it. -/
theorem releaseLock {s₁ : State} (hlocks : (s.procs p).call.locks = some q) (h₁ : WellFormed s₁)
    (hcall : ∀ r, (s₁.procs r).call.locks = if r = p then none else (s.procs r).call.locks)
    (hin : (s₁.procs q).phase.inTable = (s.procs q).phase.inTable)
    (hf : (f (s₁.procs q)).phase = (s₁.procs q).phase ∧
      (f (s₁.procs q)).call = (s₁.procs q).call := by exact ⟨rfl, rfl⟩) :
    WellFormed (s₁.upd q f) := by
  obtain ⟨hl, hintab⟩ := h.locked p q hlocks
  refine h₁.updData (.inl (hin.trans hintab)) (.inl ?_) hf.1 hf.2
  · intro r hr
    rw [hcall] at hr
    split at hr
    · cases hr
    · next hne =>
      have hr' := (h.locked r q hr).1
      rw [hl] at hr'
      exact hne (Option.some.inj hr').symm

/-- The steps of a monitor call or monitoring spawn. -/
theorem advanceMonitor {fst snd : Bool} (hruns : (s.procs p).phase.runs = true)
    (ht : s.advanceMonitor p fst snd (s.procs p).call = some s') : WellFormed s' := by
  cases hcall : (s.procs p).call <;> rw [hcall] at ht <;>
    simp only [State.advanceMonitor, reduceCtorEq] at ht
  case monitorDead target =>
    cases ht
    exact ((h.ret _).drawRef.sendSys _ _).grant _ _ _
  case monitorAlloc target =>
    split at ht <;> cases ht
    · exact (h.newWatch _ _ _).setCall_free hruns hcall
    · exact h.ret _
  case monitorPeer target me ref =>
    split at ht <;> cases ht
    · exact (h.setRefs _ _).setCall_free hruns hcall
    · exact h.setCall_free hruns hcall
  case monitorPush target me ref =>
    split at ht
    · cases ht
    · next hfree =>
      split at ht <;> cases ht
      · next halive =>
        have hin := Phase.inTable_of_alive halive
        apply h.takeLock hruns _ hin rfl rfl
        simpa [hin] using hfree
      · exact (h.setRefs _ _).setCall_free hruns hcall
  case monitorStore target me ref head =>
    cases ht
    refine h.releaseLock (by rw [hcall]; rfl) (h.setCall_free hruns hcall) ?_ (by simp)
    intro r
    simp only [procs_setCall]
    split <;> rfl
  case monitorWatch target me ref =>
    cases ht
    exact ((h.monWatchPush me).ret _).grant _ _ _
  case spawnEntries child rel =>
    cases rel <;> simp only [reduceCtorEq] at ht
    split at ht
    · cases ht
      exact (h.newWatch _ _ _).setCall_free hruns hcall
    · split at ht <;> cases ht
      next hlock => exact h.retDiscard _ (by rw [hcall]; rfl) (by simpa using hlock)
  case spawnWatch child me ref =>
    cases ht
    obtain ⟨_, _, _, hp⟩ := s.procs_monWatchPush p p me
    refine (h.monWatchPush me).setCall_free (d := .spawnWatch child me ref) ?_ ?_ <;> rwa [hp]
  case spawnMonStore child me ref head =>
    cases ht
    have hin : (s.procs child).phase = .unborn := h.unborn p child (by rw [hcall]; rfl)
    refine (h.setCall_free hruns hcall).updData (.inl ?_)
    simp [hin, Phase.inTable]
  case spawnAsyncMonitor child ref =>
    split at ht
    · cases ht
      exact (h.retBody _ (by rw [hcall]; rfl)).grant _ _ _
    · split at ht
      · cases ht
      · next hlock =>
        cases ht
        obtain ⟨_, _, hp⟩ := s.procs_undoWatch p p child
        obtain ⟨_, _, hc⟩ := s.procs_undoWatch p child child
        exact (h.undoWatch child).retDiscard _ (by rw [hp, hcall]; rfl)
          (by rw [hc]; simpa using hlock)

/-- The steps of a link call or linking spawn. -/
theorem advanceLink {fst snd : Bool} (hruns : (s.procs p).phase.runs = true)
    (ht : s.advanceLink p fst snd (s.procs p).call = some s') : WellFormed s' := by
  cases hcall : (s.procs p).call <;> rw [hcall] at ht <;>
    simp only [State.advanceLink, reduceCtorEq] at ht
  case linkAlloc other =>
    split at ht <;> cases ht
    · exact h.setCall_free hruns hcall
    · exact h.ret _
  case linkStore other head | spawnOwnStore child head =>
    cases ht
    refine (h.setCall_free hruns hcall).updData (.inl ?_)
    simpa using Phase.inTable_of_runs hruns
  case linkPeer other =>
    split at ht <;> cases ht
    · exact h.setCall_free hruns hcall
    · exact (h.linkUp _).ret _
  case linkPush other =>
    split at ht
    · cases ht
    · next hfree =>
      split at ht <;> cases ht
      · next halive =>
        have hin := Phase.inTable_of_alive halive
        apply h.takeLock hruns _ hin rfl rfl
        simpa [hin] using hfree
      · exact (h.linkUp _).ret _
  case linkPeerStore other head =>
    cases ht
    apply linkUp
    refine h.releaseLock (by rw [hcall]; rfl) (h.ret _) ?_ (by simp)
    intro r
    simp only [procs_ret]
    split <;> rfl
  case unlinkStore other head undo =>
    have hlinks : WellFormed ((s.upd p fun P =>
        { P with links := unlinked head P.links other }).linkDown p other) :=
      (h.updData (.inl (Phase.inTable_of_runs hruns))).linkDown _
    split at ht
    · cases ht
    · next hlock =>
      cases ht
      split
      · next hundo =>
        apply hlinks.retDiscard
        · simp [hcall, hundo, Call.spawns]
        · have hnone : (s.procs other).lock = none := by simpa [hundo] using hlock
          simp only [procs_linkDown, procs_upd]
          split
          · next heq => rw [← heq]; exact hnone
          · exact hnone
      · exact hlinks.ret _
  case spawnEntries child rel =>
    cases rel <;> simp only [reduceCtorEq] at ht
    split at ht
    · cases ht
      exact h.setCall_free hruns hcall
    · split at ht <;> cases ht
      next hlock => exact h.retDiscard _ (by rw [hcall]; rfl) (by simpa using hlock)
  case spawnLinkStore child head =>
    cases ht
    have hin : (s.procs child).phase = .unborn := h.unborn p child (by rw [hcall]; rfl)
    refine (h.setCall_free hruns hcall).updData (.inl ?_)
    simp [hin, Phase.inTable]
  case spawnOwnRead child =>
    cases ht
    exact h.setCall_free hruns hcall
  case spawnAsyncLink child =>
    split at ht <;> cases ht
    · exact (h.retBody _ (by rw [hcall]; rfl)).linkUp _
    · exact h.setCall_free hruns hcall

/-- A process that is out of its slot is out of everybody's reach. -/
theorem setPhase_out {ψ : Phase} (hph : (s.procs p).phase = ψ) (hψ : ψ.leaves = true := by rfl)
    (hφ : φ.leaves = true := by rfl) : WellFormed (s.setPhase p φ) := by
  subst hph
  have hout := Phase.inTable_of_leaves hψ
  apply h.upd (.inl rfl) fun _ => h.idle p (Phase.not_runs_of_leaves hψ)
  · exact .inr ⟨rfl, (Phase.inTable_of_leaves hφ).trans hout.symm⟩
  · left
    intro q hq
    rw [h.unborn q p hq] at hout
    cases hout
  · exact fun _ => h.detached p hout

theorem signalPeer (q : Pid) (trap : Bool) (sets : ℕ) (alloc : Bool) :
    WellFormed (s.signalPeer p q trap sets alloc) := by
  have hrec : WellFormed { s with
      signals := ⟨p, q, trap, sets, (s.procs q).killPending⟩ :: s.signals } := { h with }
  rw [State.signalPeer]
  split
  · exact hrec.sendSys _ _
  · split
    · exact hrec.exitPidOn _
    · exact hrec

/-- The steps of an exit after the lists are detached. -/
theorem notify {alloc : Bool} (ht : s.notify p alloc (s.procs p).phase = some s') :
    WellFormed s' := by
  generalize hph : (s.procs p).phase = ψ at ht
  cases Notified.of_notify ht with
  | goOn watch hψ hφ => exact setPhase_out { h with } hph hψ hφ
  | lookUp | skip => exact h.setPhase_out hph
  | signal => exact (h.signalPeer _ _ _ _).setPhase_out (by simpa using hph)
  | down => exact (h.sendSys _ _).setPhase_out (by simpa using hph)

/-- A process that appears in its slot was in nobody's hands. -/
theorem setPhase_spawned (habs : (s.procs p).phase = .absent) (hφ : φ.inTable = true) :
    WellFormed (s.setPhase p φ) := by
  have hidle : (s.procs p).call = .idle := h.idle p (by rw [habs]; rfl)
  apply h.upd (.inl rfl) (fun _ => hidle)
  · left
    intro q hq
    have hin := (h.locked q p hq).2
    rw [habs] at hin
    cases hin
  · exact .inl (h.not_spawns habs nofun)
  · intro hout
    rw [hφ] at hout
    cases hout

theorem step {a : Act} (ht : s.step a = some s') : WellFormed s' := by
  cases a <;> simp only [State.step] at ht
  case spawn child =>
    split at ht <;> cases ht
    next habs => exact h.setPhase_spawned habs rfl
  case spawnRel p child rel =>
    split at ht <;> cases ht
    next hcan =>
    obtain ⟨⟨hruns, hidle⟩, habs⟩ := hcan
    apply (h.setPhase_spawned habs rfl).setCall
    · rw [procs_setPhase]
      split
      · next heq =>
        rw [heq, habs] at hruns
        cases hruns
      · exact hruns
    · intro q hq
      cases hq
    · intro x hx
      cases hx
      refine ⟨by simp, ?_⟩
      intro q hq
      simp only [procs_setPhase] at hq
      exact absurd hq (h.not_spawns habs nofun q)
  case monitor p target =>
    split at ht <;> cases ht
    next hcan =>
    split <;> exact h.setCall_free hcan.1 hcan.2
  case link p other =>
    split at ht <;> cases ht
    next hcan =>
    split
    · exact h.setCall_free hcan.1 hcan.2
    · exact h.ret _
  case unlink p other =>
    split at ht <;> cases ht
    next hcan =>
    split
    · exact h.setCall_free hcan.1 hcan.2
    · exact (h.linkDown _).ret _
  case trapExit p on =>
    split at ht <;> cases ht
    exact h.updData
  case exitPid target reason =>
    cases ht
    exact h.exitPidOn reason
  case advance p fst snd =>
    split at ht
    · next hruns =>
      rcases Option.or_eq_some_iff.mp ht with hm | ⟨-, hl⟩
      · exact h.advanceMonitor hruns hm
      · exact h.advanceLink hruns hl
    · cases ht
  case exit p ending =>
    split at ht <;> cases ht
    next hbody =>
    exact h.upd (.inr rfl) (fun _ => rfl) (.inr ⟨rfl, by rw [hbody.1]; rfl⟩)
      (.inl (h.not_spawns hbody.1 nofun)) nofun
  case detach p =>
    split at ht <;> cases ht
    next hhooks =>
    obtain ⟨hph, hidle, hlock⟩ := hhooks
    exact h.upd (.inl rfl) (fun _ => hidle) (.inl (h.not_locks hlock))
      (.inl (h.not_spawns hph nofun)) fun _ => ⟨rfl, rfl⟩
  case notify p alloc => exact h.notify ht

end

end WellFormed

/-- The discipline holds in every run. -/
theorem wellFormed_of_reachable {ok : State → Act → Prop} {s : State}
    (hs : system.ReachableUnder ok s) : WellFormed s := by
  refine hs.invariant ?_ ?_
  · rintro _ rfl
    exact .empty
  · exact fun _ _ _ h _ ht => h.step ht

end LibXtc.Proc

import LibXtc.Foundations.Ledger
import LibXtc.Proc.WellFormed

/-!
# One DOWN for each monitor

A reference is a ticket of a ledger: its owner draws it, puts it in the target's `monitored_by`
list and returns, and the target's exit works the list off. Every step of the processes is a move
of this ledger, as long as `xtc_monitor` gets its second entry and finds its target still alive
under the stripe lock, so a monitor that returned `XTC_OK` yields exactly one DOWN.
-/

namespace LibXtc.Proc

open Foundations State
open Function (update update_apply update_eq_self update_idem update_self update_of_ne)

/-- The reference that a caller has drawn and not put in a list yet. -/
def Call.hand : Call → Option ℕ
  | .monitorPeer _ _ ref | .monitorPush _ _ ref | .monitorStore _ _ ref _
  | .spawnWatch _ _ ref | .spawnMonStore _ _ ref _ => some ref
  | _ => none

/-- The reference that a caller is about to return, with its target. -/
def Call.slip : Call → Option (Pid × ℕ)
  | .monitorWatch target _ ref | .spawnAsyncMonitor target ref => some (target, ref)
  | _ => none

/-- The target and the reference of a DOWN. -/
def Message.notice : Message → Option (Pid × ℕ)
  | .down ref pid _ _ => some (pid, ref)
  | .exit _ _ _ => none

namespace Process

/-- The DOWNs that the process has still to send. -/
def owed (P : Process) : List (Pid × ℕ) :=
  (P.monitoredBy ++ P.phase.mons).map fun m => (m.watcher, m.ref)

/-- The DOWNs put in its mailbox. -/
def got (P : Process) : List (Pid × ℕ) := P.inbox.filterMap Message.notice

end Process

/-- The references of a state. -/
def State.ledger (s : State) : Ledger Pid where
  owed t := (s.procs t).owed
  got w := (s.procs w).got
  live w := (s.procs w).phase.alive = true
  known w := (s.procs w).phase ≠ .absent
  void t := (s.procs t).phase = .discarded
  hand p := (s.procs p).call.hand
  slip p := (s.procs p).call.slip
  granted := s.granted
  seq := s.refSeq

/-! ## Steps that move no reference -/

/-- A change of one process that moves no reference. -/
structure Process.Quiet (P Q : Process) : Prop where
  owed_subset : Q.owed ⊆ P.owed
  owed : Q.phase ≠ .discarded → Q.owed = P.owed
  got : Q.got = P.got
  live : Q.phase.alive = true → P.phase.alive = true ∨ P.phase = .absent
  known : P.phase ≠ .absent → Q.phase ≠ .absent
  void : P.phase = .discarded → Q.phase = .discarded
  hand : ∀ r, Q.call.hand = some r → P.call.hand = some r
  slip : ∀ x, Q.call.slip = some x → P.call.slip = some x

namespace Process.Quiet

variable {P Q R : Process}

theorem trans (h : P.Quiet Q) (h' : Q.Quiet R) : P.Quiet R := by
  constructor
  · exact fun _ hx => h.owed_subset (h'.owed_subset hx)
  · intro hvoid
    rw [h'.owed hvoid, h.owed fun hQ => hvoid (h'.void hQ)]
  · rw [h'.got, h.got]
  · intro hlive
    rcases h'.live hlive with hQ | hQ
    · exact h.live hQ
    · exact .inr (by_contra fun hP => h.known hP hQ)
  · exact fun hP => h'.known (h.known hP)
  · exact fun hP => h'.void (h.void hP)
  · exact fun r hr => h.hand r (h'.hand r hr)
  · exact fun x hx => h.slip x (h'.slip x hx)

/-- The process stays where it is in its life. -/
theorem of_call (hhand : Q.call.hand = none ∨ Q.call.hand = P.call.hand)
    (hslip : Q.call.slip = none ∨ Q.call.slip = P.call.slip) (hph : Q.phase = P.phase := by rfl)
    (hmon : Q.monitoredBy = P.monitoredBy := by rfl) (hgot : Q.got = P.got := by rfl) :
    P.Quiet Q := by
  have howed : Q.owed = P.owed := by rw [Process.owed, Process.owed, hph, hmon]
  constructor
  · rw [howed]
    exact List.Subset.refl _
  · exact fun _ => howed
  · exact hgot
  · rw [hph]
    exact .inl
  · rw [hph]
    exact id
  · rw [hph]
    exact id
  · intro r hr
    rcases hhand with hnone | hsame
    · rw [hnone] at hr
      cases hr
    · exact hsame ▸ hr
  · intro x hx
    rcases hslip with hnone | hsame
    · rw [hnone] at hx
      cases hx
    · exact hsame ▸ hx

/-- The process goes on in its life. -/
theorem of_phase (howed : Q.owed = P.owed) (hgot : Q.got = P.got)
    (hlive : Q.phase.alive = true → P.phase.alive = true ∨ P.phase = .absent)
    (hknown : Q.phase ≠ .absent) (hvoid : P.phase ≠ .discarded)
    (hcall : Q.call = P.call ∨ Q.call = .idle) : P.Quiet Q := by
  constructor
  · rw [howed]
    exact List.Subset.refl _
  · exact fun _ => howed
  · exact hgot
  · exact hlive
  · exact fun _ => hknown
  · exact fun hP => absurd hP hvoid
  · intro r hr
    rcases hcall with hsame | hidle
    · exact hsame ▸ hr
    · rw [hidle] at hr
      cases hr
  · intro x hx
    rcases hcall with hsame | hidle
    · exact hsame ▸ hx
    · rw [hidle] at hx
      cases hx

end Process.Quiet

/-- A step that moves no reference. -/
structure State.Quiet (s s' : State) : Prop where
  procs : ∀ q, (s.procs q).Quiet (s'.procs q)
  granted : s'.granted = s.granted
  refSeq : s'.refSeq = s.refSeq

namespace State.Quiet

variable {s t : State} {p : Pid}

theorem refl (s : State) : s.Quiet s :=
  ⟨fun _ => .of_call (.inr rfl) (.inr rfl), rfl, rfl⟩

section

variable (h : s.Quiet t)
include h

theorem move : Ledger.Move s.ledger t.ledger := by
  apply Ledger.Move.quiet
  constructor
  · exact fun q => (h.procs q).owed_subset
  · exact fun q hvoid => (h.procs q).owed hvoid
  · exact fun w => (h.procs w).got
  · intro w hlive
    rcases (h.procs w).live hlive with hw | hw
    · exact .inl hw
    · exact .inr fun hknown => hknown hw
  · exact fun w => (h.procs w).known
  · exact fun q => (h.procs q).void
  · exact fun q => (h.procs q).hand
  · exact fun q => (h.procs q).slip
  · exact h.granted
  · exact h.refSeq

variable {f : Process → Process}

/-- One process changes. -/
theorem upd (hf : (t.procs p).Quiet (f (t.procs p))) : s.Quiet (t.upd p f) := by
  refine ⟨fun q => (h.procs q).trans ?_, h.granted, h.refSeq⟩
  rw [procs_upd]
  split
  · next heq => rw [heq]; exact hf
  · exact .of_call (.inr rfl) (.inr rfl)

/-- The processes do not change. -/
theorem keep {u : State} (hprocs : u.procs = t.procs) (hgrant : u.granted = t.granted)
    (hseq : u.refSeq = t.refSeq) : s.Quiet u :=
  ⟨fun q => hprocs ▸ h.procs q, hgrant.trans h.granted, hseq.trans h.refSeq⟩

theorem linkUp (q : Pid) : s.Quiet (t.linkUp p q) := h.keep rfl rfl rfl

theorem linkDown (q : Pid) : s.Quiet (t.linkDown p q) := h.keep rfl rfl rfl

theorem setRefs (a refs : ℕ) : s.Quiet (t.setRefs a refs) := h.keep rfl rfl rfl

theorem setCall {c : Call}
    (hhand : c.hand = none ∨ c.hand = (t.procs p).call.hand := by exact .inl rfl)
    (hslip : c.slip = none ∨ c.slip = (t.procs p).call.slip := by exact .inl rfl) :
    s.Quiet (t.setCall p c) :=
  h.upd (.of_call hhand hslip)

theorem ret (rc : Rc) : s.Quiet (t.ret p rc) :=
  h.upd (.of_call (.inl rfl) (.inl rfl))

/-- The data of a process change that no monitor depends on. -/
theorem updData (hph : (f (t.procs p)).phase = (t.procs p).phase := by rfl)
    (hmon : (f (t.procs p)).monitoredBy = (t.procs p).monitoredBy := by rfl)
    (hgot : (f (t.procs p)).got = (t.procs p).got := by rfl)
    (hcall : (f (t.procs p)).call = (t.procs p).call := by rfl) : s.Quiet (t.upd p f) :=
  h.upd (.of_call (.inr (by rw [hcall])) (.inr (by rw [hcall])) hph hmon hgot)

theorem monWatchPush (me : ℕ) : s.Quiet (t.monWatchPush p me) := by
  obtain ⟨_, _, _, heq⟩ := (t.procs p).watchPush_eq t.unheld me
  have hupd : s.Quiet (t.upd p fun P => P.watchPush t.unheld me) := by
    refine h.updData ?_ ?_ ?_ ?_ <;> rw [heq]
    rfl
  exact hupd.keep rfl rfl rfl

theorem undoWatch (c : Pid) : s.Quiet (t.undoWatch p c) := by
  rw [State.undoWatch]
  split
  · have hupd := fun a => h.updData (p := p) (f := fun P =>
      { P with monitors := P.monitors.erase a, monN := P.monN - 1 })
    exact (hupd _).keep rfl rfl rfl
  · exact h

theorem exitPidOn (reason : ℤ) : s.Quiet (t.exitPidOn p reason) := by
  refine h.updData ?_ ?_ ?_ ?_ <;> split <;> rfl

/-- An `'E'` message is no DOWN. -/
theorem sendExit (reason : ℤ) (q : Pid) (kind : DownKind) (alloc : Bool) :
    s.Quiet (t.sendSys p (.exit reason q kind) alloc) := by
  refine h.updData ?_ ?_ ?_ ?_ <;> split <;> first | rfl | simp [Process.got, Message.notice]

theorem signalPeer (q : Pid) (trap : Bool) (sets : ℕ) (alloc : Bool) :
    s.Quiet (t.signalPeer p q trap sets alloc) := by
  have hrec : s.Quiet { t with
      signals := ⟨p, q, trap, sets, (t.procs q).killPending⟩ :: t.signals } := h.keep rfl rfl rfl
  rw [State.signalPeer]
  split
  · exact hrec.sendExit _ _ _ _
  · split
    · exact hrec.exitPidOn _
    · exact hrec

/-- A process that was never run is freed. -/
theorem discard (hcall : (t.procs p).call = .idle) : s.Quiet (t.discard p) := by
  apply h.upd
  constructor
  · intro x hx
    cases hx
  · exact fun hne => absurd rfl hne
  · rfl
  · intro hlive
    cases hlive
  · intro _ hne
    cases hne
  · exact fun _ => rfl
  · intro r hr
    simp only [hcall] at hr
    cases hr
  · intro x hx
    simp only [hcall] at hx
    cases hx

variable {φ : Phase} {c : Pid}

/-- A process goes on in its life without a word to its monitors. -/
theorem setPhase (hmons : φ.mons = (t.procs p).phase.mons)
    (hlive : φ.alive = true → (t.procs p).phase.alive = true ∨ (t.procs p).phase = .absent)
    (hknown : φ ≠ .absent) (hvoid : (t.procs p).phase ≠ .discarded) : s.Quiet (t.setPhase p φ) := by
  apply h.upd
  apply Process.Quiet.of_phase
  · rw [Process.owed, Process.owed, hmons]
  · rfl
  · exact hlive
  · exact hknown
  · exact hvoid
  · exact .inl rfl

/-- A process on its way out goes on. -/
theorem setPhase_out {ψ : Phase} (hph : (t.procs p).phase = ψ)
    (hmons : φ.mons = ψ.mons := by rfl) (hφ : φ.leaves = true := by rfl)
    (hψ : ψ.leaves = true := by rfl) : s.Quiet (t.setPhase p φ) := by
  subst hph
  apply h.setPhase hmons
  · intro halive
    cases φ <;> cases halive <;> cases hφ
  · rintro rfl
    cases hφ
  · intro hvoid
    rw [hvoid] at hψ
    cases hψ

/-- A failed spawn returns and frees the child. -/
theorem retDiscard (hwf : WellFormed t) (hspawn : (t.procs p).call.spawns = some c)
    (rc : Rc) : s.Quiet ((t.ret p rc).discard c) := by
  have hidle : (t.procs c).call = .idle := hwf.idle c (by rw [hwf.unborn p c hspawn]; rfl)
  apply (h.ret rc).discard
  simp [hidle]

/-- A successful spawn returns and makes the child runnable. -/
theorem retBody (hwf : WellFormed t) (hspawn : (t.procs p).call.spawns = some c)
    (rc : Rc) : s.Quiet ((t.ret p rc).setPhase c .body) := by
  have hunborn := hwf.unborn p c hspawn
  apply (h.ret rc).setPhase
  · simp [hunborn, Phase.mons]
  · simp [hunborn, Phase.alive]
  · simp
  · simp [hunborn]

end

/-- Links move no reference. -/
theorem advanceLink (hwf : WellFormed s) {fst snd : Bool}
    (ht : s.advanceLink p fst snd (s.procs p).call = some t) : s.Quiet t := by
  have hs := refl s
  cases hcall : (s.procs p).call <;> rw [hcall] at ht <;>
    simp only [State.advanceLink, reduceCtorEq] at ht
  case linkAlloc other =>
    split at ht <;> cases ht
    · exact hs.setCall
    · exact hs.ret _
  case linkStore other head | spawnLinkStore child head | spawnOwnStore child head =>
    cases ht
    exact hs.setCall.updData
  case linkPeer other =>
    split at ht <;> cases ht
    · exact hs.setCall
    · exact (hs.linkUp _).ret _
  case linkPush other =>
    split at ht
    · cases ht
    · split at ht <;> cases ht
      · exact hs.updData.setCall
      · exact (hs.linkUp _).ret _
  case linkPeerStore other head =>
    cases ht
    exact ((hs.ret _).updData).linkUp _
  case unlinkStore other head undo =>
    have hlinks : s.Quiet ((s.upd p fun P =>
        { P with links := unlinked head P.links other }).linkDown p other) :=
      hs.updData.linkDown _
    split at ht
    · cases ht
    · cases ht
      split
      · next hundo =>
        apply (hlinks.ret _).discard
        have hspawn : (s.procs p).call.spawns = some other := by rw [hcall, hundo]; rfl
        have hidle : (s.procs other).call = .idle :=
          hwf.idle other (by rw [hwf.unborn p other hspawn]; rfl)
        by_cases heq : other = p
        · simp [heq]
        · simp [heq, hidle]
      · exact hlinks.ret _
  case spawnEntries child rel =>
    cases rel <;> simp only [reduceCtorEq] at ht
    split at ht
    · cases ht
      exact hs.setCall
    · split at ht <;> cases ht
      exact hs.retDiscard hwf (by rw [hcall]; rfl) _
  case spawnOwnRead child =>
    cases ht
    exact hs.setCall
  case spawnAsyncLink child =>
    split at ht <;> cases ht
    · exact (hs.retBody hwf (by rw [hcall]; rfl) _).linkUp _
    · exact hs.setCall

end State.Quiet

/-! ## Every step is a move of the ledger -/

/-- What the next step of a call must meet, with the answer of the allocator. -/
def State.MonitorCallOk (s : State) (fst : Bool) : Call → Prop
  | .monitorDead _ => fst = true ∧ s.refSeq + 1 < 2 ^ 64
  | .monitorAlloc _ => s.refSeq + 1 < 2 ^ 64
  | .spawnEntries _ rel => rel = .monitor → s.refSeq + 1 < 2 ^ 64
  | .monitorPeer _ _ _ => fst = true
  | .monitorPush target _ _ => (s.procs target).phase.alive = true
  | .monitorStore target _ _ head => head = (s.procs target).monitoredBy
  | .spawnMonStore child _ _ head => head = (s.procs child).monitoredBy
  | _ => True

instance (s : State) (fst : Bool) (c : Call) : Decidable (s.MonitorCallOk fst c) := by
  induction c using Call.casesOn <;> unfold State.MonitorCallOk <;> infer_instance

/-- What a step must meet for every monitor to be followed by its DOWN: a message is allocated and
the counter of references does not wrap; `xtc_monitor` gets its second entry and finds its target
alive under the stripe lock; and a `monitored_by` list has not changed since its head was read. -/
def MonitorOk (s : State) : Act → Prop
  | .advance p fst _ => s.MonitorCallOk fst (s.procs p).call
  | .notify _ alloc => alloc = true
  | _ => True

instance (s : State) (a : Act) : Decidable (MonitorOk s a) := by
  induction a using Act.casesOn <;> unfold MonitorOk <;> infer_instance

section Moves

variable {s s' : State} {p target w : Pid} {m : MonEntry} {alloc : Bool} {ref : ℕ} {c : Call}

theorem nextRef_eq (h : s.refSeq + 1 < 2 ^ 64) : s.nextRef = s.refSeq + 1 := Nat.mod_eq_of_lt h

/-- What the processes show changes where one process changes. -/
theorem State.comp_upd {β : Type*} (s : State) (p : Pid) (f : Process → Process)
    (g : Process → β) : (fun q => g ((s.upd p f).procs q)) =
      update (fun q => g (s.procs q)) p (g (f (s.procs p))) := by
  funext q
  rw [procs_upd, update_apply]
  split <;> rfl

theorem ledger_upd (f : Process → Process) : (s.upd p f).ledger =
    { owed := update s.ledger.owed p (f (s.procs p)).owed
      got := update s.ledger.got p (f (s.procs p)).got
      live := update s.ledger.live p ((f (s.procs p)).phase.alive = true)
      known := update s.ledger.known p ((f (s.procs p)).phase ≠ .absent)
      void := update s.ledger.void p ((f (s.procs p)).phase = .discarded)
      hand := update s.ledger.hand p (f (s.procs p)).call.hand
      slip := update s.ledger.slip p (f (s.procs p)).call.slip
      granted := s.granted
      seq := s.refSeq } := by
  apply Ledger.ext
  · exact s.comp_upd p f Process.owed
  · exact s.comp_upd p f Process.got
  · exact s.comp_upd p f fun P => P.phase.alive = true
  · exact s.comp_upd p f fun P => P.phase ≠ .absent
  · exact s.comp_upd p f fun P => P.phase = .discarded
  · exact s.comp_upd p f fun P => P.call.hand
  · exact s.comp_upd p f fun P => P.call.slip
  all_goals rfl

theorem ledger_setCall (c : Call) : (s.setCall p c).ledger = { s.ledger with
    hand := update s.ledger.hand p c.hand
    slip := update s.ledger.slip p c.slip } := by
  rw [setCall, ledger_upd]
  congr 1 <;> exact update_eq_self p _

theorem ledger_ret (rc : Rc) : (s.ret p rc).ledger = { s.ledger with
    hand := update s.ledger.hand p none
    slip := update s.ledger.slip p none } := by
  rw [ret, ledger_upd]
  congr 1 <;> exact update_eq_self p _

/-- A push on `monitored_by`. -/
theorem ledger_push {t : Pid} (hmon : (f (s.procs t)).monitoredBy = m :: (s.procs t).monitoredBy)
    (hph : (f (s.procs t)).phase = (s.procs t).phase)
    (hinbox : (f (s.procs t)).inbox = (s.procs t).inbox)
    (hcall : (f (s.procs t)).call = (s.procs t).call) :
    (s.upd t f).ledger = { s.ledger with
      owed := update s.ledger.owed t ((m.watcher, m.ref) :: s.ledger.owed t) } := by
  rw [ledger_upd, hph, hcall]
  congr 1
  · rw [Process.owed, hmon, hph]
    rfl
  · rw [Process.got, hinbox]
    exact update_eq_self t _
  all_goals exact update_eq_self t _

/-- A DOWN to a live process. -/
theorem ledger_sendDown (hlive : (s.procs w).phase.alive = true) (t : Pid) (ref : ℕ)
    (reason : ℤ) (kind : DownKind) :
    (s.sendSys w (.down ref t reason kind) true).ledger = { s.ledger with
      got := update s.ledger.got w (s.ledger.got w ++ [(t, ref)]) } := by
  rw [sendSys, ledger_upd, if_pos ⟨hlive, rfl⟩]
  congr 1
  · exact update_eq_self w _
  · congr 1
    simp [Process.got, ledger, Message.notice]
  all_goals exact update_eq_self w _

/-- A message to a dead process is lost. -/
theorem sendSys_dead {msg : Message}
    (hdead : (s.procs w).phase.alive = false) : s.sendSys w msg alloc = s := by
  rw [sendSys, upd, if_neg (by simp [hdead]), update_eq_self]

/-- The caller draws a reference. -/
theorem move_draw {refs : ℕ} (hbound : s.refSeq + 1 < 2 ^ 64)
    (hhand : c.hand = some s.nextRef) (hslip : c.slip = none)
    (hcall : (s.procs p).call.slip = none) :
    Ledger.Move s.ledger ((s.newWatch target p refs).setCall p c).ledger := by
  have hslip' : update s.ledger.slip p none = s.ledger.slip :=
    hcall ▸ update_eq_self p s.ledger.slip
  have hmove := Ledger.Move.draw s.ledger p
  rw [ledger_setCall, hhand, hslip, nextRef_eq hbound]
  change Ledger.Move _ { s.ledger with
    hand := _, slip := update s.ledger.slip p none, seq := s.nextRef }
  rw [hslip', nextRef_eq hbound]
  exact hmove

/-- The caller puts its entry in the target's list. -/
theorem move_register {me : ℕ}
    (hknown : (s.procs p).phase ≠ .absent) (hhand : (s.procs p).call.hand = some ref)
    (hc : c.hand = none ∧ c.slip = some (target, ref))
    (hf : ∀ P, f P = { P with
      monitoredBy := ⟨ref, target, p, some me, 0⟩ :: (s.procs target).monitoredBy
      lock := (f P).lock }) :
    Ledger.Move s.ledger ((s.setCall p c).upd target f).ledger := by
  rw [ledger_push (m := ⟨ref, target, p, some me, 0⟩), ledger_setCall, hc.1, hc.2]
  · exact Ledger.Move.register target hknown hhand
  · rw [hf, procs_setCall]
  · rw [hf]
  · rw [hf]
  · rw [hf]

/-- The caller returns its reference. -/
theorem move_grant (rc : Rc)
    (hslip : (s.procs p).call.slip = some (target, ref)) (hhand : (s.procs p).call.hand = none) :
    Ledger.Move s.ledger ((s.ret p rc).grant p target ref).ledger := by
  have hhand' : update s.ledger.hand p none = s.ledger.hand :=
    hhand ▸ update_eq_self p s.ledger.hand
  have hmove := Ledger.Move.grant (L := s.ledger) hslip
  change Ledger.Move _ { (s.ret p rc).ledger with granted := _ }
  rw [ledger_ret, hhand']
  exact hmove

theorem ledger_monWatchPush (me : ℕ) : (s.monWatchPush p me).ledger = s.ledger := by
  obtain ⟨_, _, _, heq⟩ := (s.procs p).watchPush_eq s.unheld me
  have hupd : (s.upd p fun P => P.watchPush s.unheld me).ledger = s.ledger := by
    rw [ledger_upd, heq]
    apply Ledger.ext <;> first | rfl | exact update_eq_self p _
  exact hupd

/-- A process goes on in its life, as alive as before. -/
theorem ledger_setPhase (halive : φ.alive = (s.procs p).phase.alive)
    (hknown : φ ≠ .absent ↔ (s.procs p).phase ≠ .absent)
    (hvoid : φ = .discarded ↔ (s.procs p).phase = .discarded) :
    (s.setPhase p φ).ledger = { s.ledger with
      owed := update s.ledger.owed p
        (((s.procs p).monitoredBy ++ φ.mons).map fun m => (m.watcher, m.ref)) } := by
  rw [setPhase, ledger_upd, halive]
  simp only [hknown, hvoid]
  congr 1 <;> exact update_eq_self p _

/-- A child becomes runnable. -/
theorem ledger_body (hunborn : (s.procs p).phase = .unborn) :
    (s.setPhase p .body).ledger = s.ledger := by
  have howed : ((s.procs p).monitoredBy ++ Phase.body.mons).map (fun m => (m.watcher, m.ref)) =
      s.ledger.owed p := by
    simp [ledger, Process.owed, hunborn, Phase.mons]
  rw [ledger_setPhase, howed, update_eq_self]
  · rw [hunborn]
    rfl
  · simp [hunborn]
  · simp [hunborn]

/-- A call that holds no reference returns. -/
theorem ledger_ret_of_none (rc : Rc) (hhand : (s.procs p).call.hand = none)
    (hslip : (s.procs p).call.slip = none) : (s.ret p rc).ledger = s.ledger := by
  have hhand' : update s.ledger.hand p none = s.ledger.hand :=
    hhand ▸ update_eq_self p s.ledger.hand
  have hslip' : update s.ledger.slip p none = s.ledger.slip :=
    hslip ▸ update_eq_self p s.ledger.slip
  rw [ledger_ret, hhand', hslip']

/-- The immediate DOWN of a monitor on a dead target. -/
theorem move_notice (hbound : s.refSeq + 1 < 2 ^ 64) (hknown : (s.procs p).phase ≠ .absent)
    (target : Pid) (reason : ℤ) (kind : DownKind) :
    Ledger.Move s.ledger ((s.drawRef.sendSys p (.down s.nextRef target reason kind) true).grant
      p target s.nextRef).ledger := by
  have hseq : s.drawRef.ledger = { s.ledger with seq := s.ledger.seq + 1 } := by
    rw [drawRef, nextRef_eq hbound]
    rfl
  rw [nextRef_eq hbound]
  by_cases hlive : (s.procs p).phase.alive = true
  · have hmove := Ledger.Move.notice (L := s.ledger) target hknown hlive
    change Ledger.Move _ { (s.drawRef.sendSys p _ true).ledger with granted := _ }
    rw [ledger_sendDown (s := s.drawRef) hlive, hseq]
    exact hmove
  · have hmove := Ledger.Move.noticeLost (L := s.ledger) target hknown hlive
    rw [sendSys_dead (by simpa using hlive)]
    change Ledger.Move _ { s.drawRef.ledger with granted := _ }
    rw [hseq]
    exact hmove

/-- The next DOWN of an exit. -/
theorem move_down (hwf : WellFormed s) {mons : List MonEntry} {own : List ℕ}
    (hph : (s.procs p).phase = .downs (m :: mons) own) (reason : ℤ) (kind : DownKind) :
    Ledger.Move s.ledger ((s.sendSys m.watcher (.down m.ref p reason kind) true).setPhase p
      (.put m mons own)).ledger := by
  have hmon : (s.procs p).monitoredBy = [] := (hwf.detached p (by rw [hph]; rfl)).2
  have howed : s.ledger.owed p = (m.watcher, m.ref) :: mons.map fun m => (m.watcher, m.ref) := by
    change (s.procs p).owed = _
    rw [Process.owed, hmon, hph]
    rfl
  rw [ledger_setPhase]
  · simp only [procs_sendSys, hmon]
    by_cases hlive : (s.procs m.watcher).phase.alive = true
    · rw [ledger_sendDown hlive]
      exact Ledger.Move.send howed hlive
    · rw [sendSys_dead (by simpa using hlive)]
      exact Ledger.Move.drop howed hlive
  · simp [hph, Phase.alive]
  · simp [hph]
  · simp [hph]

/-- The steps of a monitor call or monitoring spawn. -/
theorem move_advanceMonitor (hwf : WellFormed s) {fst snd : Bool}
    (hruns : (s.procs p).phase.runs = true) (hok : s.MonitorCallOk fst (s.procs p).call)
    (ht : s.advanceMonitor p fst snd (s.procs p).call = some s') :
    Ledger.Move s.ledger s'.ledger := by
  have hs := State.Quiet.refl s
  have hknown : (s.procs p).phase ≠ .absent := by
    intro habs
    rw [habs] at hruns
    cases hruns
  cases hcall : (s.procs p).call <;> rw [hcall] at ht hok <;>
    simp only [advanceMonitor, reduceCtorEq] at ht
  case monitorDead target =>
    cases ht
    rw [← ledger_ret_of_none .ok (by rw [hcall]; rfl) (by rw [hcall]; rfl), hok.1]
    exact move_notice (s := s.ret p .ok) hok.2 (by simpa using hknown) _ _ _
  case monitorAlloc target =>
    split at ht <;> cases ht
    · exact move_draw hok rfl rfl (by rw [hcall]; rfl)
    · exact (hs.ret _).move
  case monitorPeer target me ref =>
    have halloc : fst = true := hok
    rw [if_pos halloc] at ht
    cases ht
    exact ((hs.setRefs _ _).setCall (.inr (by simp [hcall, Call.hand]))).move
  case monitorPush target me ref =>
    split at ht
    · cases ht
    · have halive : (s.procs target).phase.alive = true := hok
      rw [if_pos halive] at ht
      cases ht
      refine ((hs.updData rfl rfl rfl rfl).setCall (.inr ?_)).move
      by_cases hp : p = target
      · subst hp
        simp [hcall, Call.hand]
      · simp [hp, hcall, Call.hand]
  case monitorStore target me ref head | spawnMonStore child me ref head =>
    cases ht
    cases hok
    exact move_register hknown (by rw [hcall]; rfl) ⟨rfl, rfl⟩ fun _ => rfl
  case monitorWatch target me ref =>
    cases ht
    obtain ⟨_, _, _, hp⟩ := s.procs_monWatchPush p p me
    rw [← ledger_monWatchPush me]
    exact move_grant _ (by rw [hp, hcall]; rfl) (by rw [hp, hcall]; rfl)
  case spawnEntries child rel =>
    cases rel <;> simp only [reduceCtorEq] at ht
    split at ht
    · cases ht
      exact move_draw (hok rfl) rfl rfl (by rw [hcall]; rfl)
    · split at ht <;> cases ht
      exact (hs.retDiscard hwf (by rw [hcall]; rfl) _).move
  case spawnWatch child me ref =>
    cases ht
    obtain ⟨_, _, _, hp⟩ := s.procs_monWatchPush p p me
    exact ((hs.monWatchPush me).setCall (.inr (by rw [hp, hcall]; rfl))).move
  case spawnAsyncMonitor child ref =>
    have hspawn : (s.procs p).call.spawns = some child := by rw [hcall]; rfl
    split at ht
    · cases ht
      have hbody := ledger_body (s := s.ret p .ok) (by simpa using hwf.unborn p child hspawn)
      have hslip : (s.procs p).call.slip = some (child, ref) := by rw [hcall]; rfl
      have hgrant := move_grant .ok hslip (by rw [hcall]; rfl)
      change Ledger.Move _ { ((s.ret p .ok).setPhase child .body).ledger with granted := _ }
      rw [hbody]
      exact hgrant
    · split at ht <;> cases ht
      obtain ⟨_, _, hp⟩ := s.procs_undoWatch p p child
      exact ((hs.undoWatch child).retDiscard (hwf.undoWatch child) (by rw [hp]; exact hspawn)
        _).move

/-- The steps of an exit after the lists are detached. -/
theorem move_notify (hwf : WellFormed s) (halloc : alloc = true)
    (ht : s.notify p alloc (s.procs p).phase = some s') :
    Ledger.Move s.ledger s'.ledger := by
  have hs := State.Quiet.refl s
  subst halloc
  generalize hph : (s.procs p).phase = ψ at ht
  cases Notified.of_notify ht with
  | goOn watch hψ hφ hmons => exact ((hs.keep rfl rfl rfl).setPhase_out hph hmons hφ hψ).move
  | lookUp | skip => exact (hs.setPhase_out hph).move
  | signal => exact ((hs.signalPeer _ _ _ true).setPhase_out (by simpa using hph)).move
  | down => exact move_down hwf hph _ _

/-- Every step that meets the condition is a move of the ledger. -/
theorem move_step (hwf : WellFormed s) {a : Act} (hok : MonitorOk s a)
    (ht : s.step a = some s') : Ledger.Move s.ledger s'.ledger := by
  have hs := State.Quiet.refl s
  cases a <;> simp only [step] at ht
  case spawn child =>
    split at ht <;> cases ht
    next habs => exact (hs.setPhase (by rw [habs]; rfl) (fun _ => .inr habs) (by simp)
      (by simp [habs])).move
  case spawnRel p child rel =>
    split at ht <;> cases ht
    next hcan =>
    have hchild := hs.setPhase (φ := .unborn) (by rw [hcan.2]; rfl)
      (fun _ => .inr hcan.2) (by simp) (by simp [hcan.2])
    exact hchild.setCall.move
  case monitor p target =>
    split at ht <;> cases ht
    split
    · exact hs.setCall.move
    · exact hs.setCall.move
  case link p other =>
    split at ht <;> cases ht
    split
    · exact hs.setCall.move
    · exact (hs.ret _).move
  case unlink p other =>
    split at ht <;> cases ht
    split
    · exact hs.setCall.move
    · exact ((hs.linkDown _).ret _).move
  case trapExit p on =>
    split at ht <;> cases ht
    exact hs.updData.move
  case exitPid target reason =>
    cases ht
    exact (hs.exitPidOn reason).move
  case advance p fst snd =>
    split at ht
    · next hruns =>
      rcases Option.or_eq_some_iff.mp ht with hm | ⟨-, hl⟩
      · exact move_advanceMonitor hwf hruns hok hm
      · exact (State.Quiet.advanceLink hwf hl).move
    · cases ht
  case exit p ending =>
    split at ht <;> cases ht
    next hbody =>
    refine (hs.upd (Process.Quiet.of_phase ?_ rfl ?_ ?_ ?_ (.inr rfl))).move
    · rw [Process.owed, Process.owed, hbody.1]
      rfl
    · exact fun _ => .inl (by rw [hbody.1]; rfl)
    · simp
    · simp [hbody.1]
  case detach p =>
    split at ht <;> cases ht
    next hhooks =>
    refine (hs.upd (Process.Quiet.of_phase ?_ rfl ?_ ?_ ?_ (.inl rfl))).move
    · simp [Process.owed, hhooks.1, Phase.mons]
    · intro halive
      cases halive
    · simp
    · simp [hhooks.1]
  case notify p alloc => exact move_notify hwf hok ht

end Moves

/-- The ledger of every run balances. -/
theorem balanced_of_reachable {s : State} (hs : system.ReachableUnder MonitorOk s) :
    s.ledger.Balanced := by
  induction hs with
  | start h =>
    cases h
    constructor
    · rintro r (⟨t, w, hmem⟩ | ⟨w, t, hmem⟩ | ⟨w, t, hmem | hmem⟩) <;> cases hmem
    · exact fun _ _ h => by cases h
    · exact fun _ _ _ h => by cases h
    · exact fun _ _ h => by cases h
    · rintro w t r (hmem | hmem) <;> cases hmem
    · rintro w t r (hmem | hmem) <;> cases hmem
  | next hs hok ht ih => exact ih.move (move_step (wellFormed_of_reachable hs) hok ht)

/-- The exit of `t` is over, or `t` was never spawned. -/
def State.Finished (s : State) (t : Pid) : Prop :=
  (s.procs t).phase = .gone ∨ (s.procs t).phase = .absent

instance (s : State) (t : Pid) : Decidable (s.Finished t) := inferInstanceAs (Decidable (_ ∨ _))

/-- The number of DOWNs from `t` with reference `ref` that were put in the mailbox of `w`. -/
def State.downs (s : State) (w t : Pid) (ref : ℕ) : ℕ :=
  (s.procs w).inbox.countP fun msg => msg.notice == some (t, ref)

/-- A monitor that returned `XTC_OK` with reference `ref` is followed by exactly one DOWN that
carries `ref` and the target's pid, once the target has exited and while the watcher lives. -/
theorem monitor_down_once {s : State} (hs : system.ReachableUnder MonitorOk s) {w t : Pid}
    {ref : ℕ} (hgrant : (w, t, ref) ∈ s.granted) (halive : (s.procs w).phase.alive = true)
    (hfinished : s.Finished t) : s.downs w t ref = 1 := by
  have hwf := wellFormed_of_reachable hs
  have howed : s.ledger.owed t = [] := by
    change (s.procs t).owed = []
    rcases hfinished with hphase | hphase
    · rw [Process.owed, (hwf.detached t (by rw [hphase]; rfl)).2, hphase]
      rfl
    · rw [Process.owed, (hwf.detached t (by rw [hphase]; rfl)).2, hphase]
      rfl
  have hvoid : ¬s.ledger.void t := by
    change (s.procs t).phase ≠ .discarded
    rcases hfinished with hphase | hphase
    · simp [hphase]
    · simp [hphase]
  have hcount := (balanced_of_reachable hs).count_got_eq_one hgrant halive hvoid howed
  change ((s.procs w).inbox.filterMap Message.notice).count (t, ref) = 1 at hcount
  rwa [List.count_filterMap] at hcount

/-- Process 0 monitors process 1, which exits; it monitors it again, too late; and it spawns
process 2 with a monitor, which exits with code 7. -/
def threeMonitors : List Act :=
  let w : Pid := ⟨1, 0, 1⟩
  let t : Pid := ⟨1, 1, 1⟩
  let c : Pid := ⟨1, 2, 1⟩
  [.spawn w, .spawn t, .monitor w t] ++ List.replicate 5 (.advance w true true) ++
  [.exit t .returned, .detach t] ++ List.replicate 5 (.notify t true) ++
  [.monitor w t, .advance w true true] ++
  [.spawnRel w c .monitor] ++ List.replicate 4 (.advance w true true) ++
  [.exit c (.exitSelf 7 none), .detach c] ++ List.replicate 5 (.notify c true)

/-- All three are followed by their DOWN. -/
theorem monitor_down_once_threeMonitors : ∃ s ∈ system.runUnder MonitorOk empty threeMonitors,
      s.granted = [(⟨1, 0, 1⟩, ⟨1, 2, 1⟩, 3), (⟨1, 0, 1⟩, ⟨1, 1, 1⟩, 2),
        (⟨1, 0, 1⟩, ⟨1, 1, 1⟩, 1)] ∧
      ∀ t ref, (⟨1, 0, 1⟩, t, ref) ∈ s.granted → s.downs ⟨1, 0, 1⟩ t ref = 1 := by
  refine System.exists_run rfl (by decide) fun s eval hs _ t ref hmem => ?_
  have hfinished : ∀ g ∈ s.granted, s.Finished g.2.1 := by apply eval; decide
  exact monitor_down_once hs hmem (by apply eval; decide) (hfinished _ hmem)

/-- Process 0 finds process 1 alive, process 1 clears its `alive` flag, and process 0 gets both
entries but is refused under the stripe lock. -/
def exitDuringMonitor : List Act :=
  let w : Pid := ⟨1, 0, 1⟩
  let t : Pid := ⟨1, 1, 1⟩
  [.spawn w, .spawn t, .monitor w t, .exit t .returned] ++
  List.replicate 4 (.advance w true true) ++ [.detach t] ++ List.replicate 3 (.notify t true)

/-- Process 0 gets no memory for the target's entry. -/
def monitorWithoutMemory : List Act :=
  let w : Pid := ⟨1, 0, 1⟩
  let t : Pid := ⟨1, 1, 1⟩
  [.spawn w, .spawn t, .monitor w t, .advance w true true, .advance w false true,
    .advance w true true, .exit t .returned, .detach t] ++ List.replicate 3 (.notify t true)

/-- Process 0's call has returned `XTC_OK` with reference 1, process 1 is gone, and no DOWN was
sent. -/
def State.MonitoredWithoutDown (s : State) : Prop :=
  (⟨1, 0, 1⟩, ⟨1, 1, 1⟩, 1) ∈ s.granted ∧ (s.procs ⟨1, 0, 1⟩).rc = .ok ∧
  (s.procs ⟨1, 0, 1⟩).phase.alive = true ∧ (s.procs ⟨1, 1, 1⟩).phase = .gone ∧
  s.downs ⟨1, 0, 1⟩ ⟨1, 1, 1⟩ 1 = 0

instance (s : State) : Decidable s.MonitoredWithoutDown :=
  inferInstanceAs (Decidable (_ ∧ _ ∧ _ ∧ _ ∧ _))

theorem monitor_without_down : (∃ s ∈ system.run empty exitDuringMonitor, s.MonitoredWithoutDown) ∧
    (∃ s ∈ system.run empty monitorWithoutMemory, s.MonitoredWithoutDown) := by
  decide

end LibXtc.Proc

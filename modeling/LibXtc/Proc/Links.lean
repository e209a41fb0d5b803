import LibXtc.Proc.WellFormed

/-!
# Linked processes are signalled

A link is two entries, one on the list of each side. From the moment both are in place, each side
is on the other's list until the other has exited and signalled it. The lists are shared, and
`xtc_link` neither reports that it could not install the second entry nor takes the lock when it
changes its own list, so this holds for runs in which the second entry is installed and no list
changes between the read and the write of its head.
-/

namespace LibXtc.Proc

open State List

/-- The peers that the process still has to signal when it exits. -/
def Process.pend (P : Process) : List Pid := P.links ++ P.phase.todo

namespace State

variable (s : State)

/-- `trap` is the setting of `trap_exit` that `q` had after `sets` calls of `xtc_proc_trap_exit`, so
it is the present one if `q` has made no other call since. -/
def TrapRead (q : Pid) (trap : Bool) (sets : ℕ) : Prop :=
  sets ≤ (s.procs q).trapSets ∧ (sets = (s.procs q).trapSets → trap = (s.procs q).trapExit)

instance (q : Pid) (trap : Bool) (sets : ℕ) : Decidable (s.TrapRead q trap sets) :=
  inferInstanceAs (Decidable (_ ∧ _))

/-- `p` has signalled `q` as the `trap_exit` setting of `q` said: by an `'E'` message, or by a
pending kill with its reason if that was not 0. A kill that was pending before stays, as it does for
`xtc_exit_pid`. -/
def Signalled (p q : Pid) : Prop :=
  ∃ r ∈ s.signals, r.exiter = p ∧ r.peer = q ∧ s.TrapRead q r.trap r.sets ∧
    (r.trap = true → .exit (s.procs p).exitReason p (s.procs p).exitKind ∈ (s.procs q).inbox) ∧
    (r.trap = false → (s.procs p).exitReason ≠ 0 → (s.procs q).killPending ≠ 0 ∧
      (s.procs q).killPending = if r.kill = 0 then killCode (s.procs p).exitReason else r.kill)

instance (p q : Pid) : Decidable (s.Signalled p q) :=
  inferInstanceAs (Decidable (∃ r ∈ s.signals, _))

/-- The exit of `p` is bound to signal `q`, or has done so. -/
def Toward (p q : Pid) : Prop :=
  (s.procs q).phase ≠ .absent ∧ ((s.procs q).phase.alive = true → (s.procs p).phase ≠ .discarded →
      q ∈ (s.procs p).pend ∨ ((s.procs p).phase.leaves = true ∧ s.Signalled p q))

/-- What a caller has established so far. -/
@[simp] def CallLinks (p : Pid) : Call → Prop
  | .linkAlloc other | .linkStore other _ => (s.procs other).phase ≠ .absent
  | .linkPeer other | .linkPush other | .linkPeerStore other _ => s.Toward p other
  | .unlinkStore _ head _ => head <:+ (s.procs p).links
  | .spawnOwnRead child | .spawnOwnStore child _ => s.Toward child p
  | .spawnAsyncLink child => s.Toward child p ∧ s.Toward p child
  | _ => True

end State

variable {f : Process → Process} {φ ψ : Phase} {todo : List Pid} {own : List ℕ}
  {trap fst snd : Bool} {sets : ℕ} {s : State} {c : Call}

/-- A change of data leaves the calls alone. -/
theorem State.call_upd (s : State) (p q : Pid) (hf : (f (s.procs q)).call = (s.procs q).call) :
    ((s.upd q f).procs p).call = (s.procs p).call := by
  rw [procs_upd]
  split
  · next heq => rw [heq, hf]
  · rfl

namespace State

variable (s : State) (p q : Pid) (trap : Bool) (sets : ℕ) (alloc : Bool)

theorem signals_signalPeer : (s.signalPeer p q trap sets alloc).signals =
    ⟨p, q, trap, sets, (s.procs q).killPending⟩ :: s.signals := by
  rw [signalPeer]
  split
  · rfl
  · split <;> rfl

theorem linked_signalPeer : (s.signalPeer p q trap sets alloc).linked = s.linked := by
  rw [signalPeer]
  split
  · rfl
  · split <;> rfl

/-- A signal does not depend on how far a process has come. -/
theorem signalled_setPhase (r : Pid) (φ : Phase) :
    (s.setPhase r φ).Signalled p q ↔ s.Signalled p q := by
  have hsignals : (s.setPhase r φ).signals = s.signals := rfl
  simp [Signalled, TrapRead, hsignals]

/-- A kill with a reason other than -1 is pending. -/
theorem killCode_ne_zero {reason : ℤ} (h : reason ≠ -1) : killCode reason ≠ 0 := by
  rw [killCode]
  split <;> omega

end State

/-- No process exits with the reason -1. -/
theorem Ending.reason_ne (ending : Ending) (kill : ℤ) : ending.reason kill ≠ -1 := by
  cases ending <;> simp only [Ending.reason, unwindReason]
  case returned | exitSelf => split <;> omega
  case fault => omega

/-! ## Steps that keep the entries -/

/-- A change of one process that keeps its entries, those of `ex` apart. If it is not the actor of
the step (`acts`), its call stays and its list at most grows. -/
structure Process.Keeps (ex : Pid → Prop) (acts : Prop) (P Q : Process) : Prop where
  known : P.phase ≠ .absent → Q.phase ≠ .absent
  alive : Q.phase.alive = true → P.phase.alive = true ∨ P.phase = .absent
  discarded : P.phase = .discarded → Q.phase = .discarded
  pend : Q.phase ≠ .discarded → ∀ y, ¬ex y → y ∈ P.pend → y ∈ Q.pend
  leaves : P.phase.leaves = true →
    Q.phase.leaves = true ∧ Q.exitReason = P.exitReason ∧ Q.exitKind = P.exitKind
  reason : P.exitReason ≠ -1 → Q.exitReason ≠ -1
  inbox : P.inbox ⊆ Q.inbox
  kill : P.phase ≠ .absent → Q.phase.alive = true → P.killPending ≠ 0 →
    Q.killPending = P.killPending
  trap : P.trapSets ≤ Q.trapSets ∧ (P.trapSets = Q.trapSets → P.trapExit = Q.trapExit)
  read : ∀ x, Q.phase.read = some x → P.phase.read = some x
  other : ¬acts → Q.call = P.call ∧ (P.links <:+ Q.links ∨ P.call = .idle)

namespace Process.Keeps

variable {ex : Pid → Prop} {acts : Prop} {P Q R : Process}

theorem trans (h : P.Keeps ex acts Q) (h' : Q.Keeps ex acts R) : P.Keeps ex acts R := by
  have hback : R.phase.alive = true → P.phase ≠ .absent → Q.phase.alive = true :=
    fun hR hP => (h'.alive hR).resolve_right fun hQ => h.known hP hQ
  constructor
  · exact fun hP => h'.known (h.known hP)
  · intro hR
    rcases h'.alive hR with hQ | hQ
    · exact h.alive hQ
    · exact .inr (by_contra fun hP => h.known hP hQ)
  · exact fun hP => h'.discarded (h.discarded hP)
  · exact fun hR y hy hmem =>
      h'.pend hR y hy (h.pend (fun hQ => hR (h'.discarded hQ)) y hy hmem)
  · intro hP
    obtain ⟨hQ, hreason, hkind⟩ := h.leaves hP
    obtain ⟨hR, hreason', hkind'⟩ := h'.leaves hQ
    exact ⟨hR, hreason'.trans hreason, hkind'.trans hkind⟩
  · exact fun hP => h'.reason (h.reason hP)
  · exact fun _ hmem => h'.inbox (h.inbox hmem)
  · intro hP hR hkill
    have hQ := h.kill hP (hback hR hP) hkill
    rw [h'.kill (h.known hP) hR (by rw [hQ]; exact hkill), hQ]
  · obtain ⟨hle, hsame⟩ := h.trap
    obtain ⟨hle', hsame'⟩ := h'.trap
    exact ⟨Nat.le_trans hle hle', fun heq => (hsame (by omega)).trans (hsame' (by omega))⟩
  · exact fun x hx => h.read x (h'.read x hx)
  · intro hacts
    obtain ⟨hcall, hlinks⟩ := h.other hacts
    obtain ⟨hcall', hlinks'⟩ := h'.other hacts
    refine ⟨hcall'.trans hcall, ?_⟩
    rcases hlinks with hlinks | hidle
    · rcases hlinks' with hlinks' | hidle
      · exact .inl (hlinks.trans hlinks')
      · exact .inr (hcall ▸ hidle)
    · exact .inr hidle

/-- The process stays where it is in its life. -/
theorem of_eq (hlinks : ∀ y, ¬ex y → y ∈ P.links → y ∈ Q.links) (hinbox : P.inbox ⊆ Q.inbox)
    (hkill : Q.killPending = P.killPending ∨ P.killPending = 0)
    (hother : ¬acts → Q.call = P.call ∧ (P.links <:+ Q.links ∨ P.call = .idle))
    (hph : Q.phase = P.phase := by rfl) (hreason : Q.exitReason = P.exitReason := by rfl)
    (hkind : Q.exitKind = P.exitKind := by rfl)
    (htrap : P.trapSets = Q.trapSets ∧ P.trapExit = Q.trapExit := by exact ⟨rfl, rfl⟩) :
    P.Keeps ex acts Q := by
  constructor
  · rw [hph]
    exact id
  · rw [hph]
    exact .inl
  · rw [hph]
    exact id
  · intro _ y hy hmem
    rw [Process.pend, hph]
    rcases mem_append.mp hmem with hmem | hmem
    · exact mem_append_left _ (hlinks y hy hmem)
    · exact mem_append_right _ hmem
  · rw [hph]
    exact fun hP => ⟨hP, hreason, hkind⟩
  · rw [hreason]
    exact id
  · exact hinbox
  · exact fun _ _ hne => hkill.resolve_right hne
  · exact ⟨Nat.le_of_eq htrap.1, fun _ => htrap.2⟩
  · rw [hph]
    exact fun _ => id
  · exact hother

/-- Data change that no link depends on. -/
theorem of_data (hcall : ¬acts → Q.call = P.call) (hph : Q.phase = P.phase := by rfl)
    (hlinks : Q.links = P.links := by rfl) (hreason : Q.exitReason = P.exitReason := by rfl)
    (hkind : Q.exitKind = P.exitKind := by rfl) (hinbox : Q.inbox = P.inbox := by rfl)
    (hkill : Q.killPending = P.killPending := by rfl)
    (htrap : P.trapSets = Q.trapSets ∧ P.trapExit = Q.trapExit := by exact ⟨rfl, rfl⟩) :
    P.Keeps ex acts Q :=
  of_eq (fun _ _ hmem => hlinks ▸ hmem) (by rw [hinbox]; exact List.Subset.refl _) (.inl hkill)
    (fun hacts => ⟨hcall hacts, .inl (hlinks ▸ suffix_refl _)⟩) hph hreason hkind htrap

theorem refl (P : Process) : P.Keeps ex acts P :=
  of_data (fun _ => rfl) rfl rfl rfl rfl rfl rfl ⟨rfl, rfl⟩

theorem mono {ex' : Pid → Prop} (h : P.Keeps ex acts Q) (hex : ∀ y, ex y → ex' y) :
    P.Keeps ex' acts Q :=
  { h with pend := fun hQ y hy => h.pend hQ y fun hy' => hy (hex y hy') }

/-- The process goes on in its life. -/
theorem of_phase (hknown : Q.phase ≠ .absent)
    (halive : Q.phase.alive = true → (P.phase.alive = true ∨ P.phase = .absent) ∧
      Q.killPending = P.killPending)
    (hdisc : P.phase ≠ .discarded) (hpend : ∀ y, ¬ex y → y ∈ P.pend → y ∈ Q.pend)
    (hleaves : P.phase.leaves = true →
      Q.phase.leaves = true ∧ Q.exitReason = P.exitReason ∧ Q.exitKind = P.exitKind)
    (hreason : P.exitReason ≠ -1 → Q.exitReason ≠ -1) (hread : Q.phase.read = none)
    (hother : ¬acts → Q.call = P.call ∧ (P.links <:+ Q.links ∨ P.call = .idle))
    (hinbox : Q.inbox = P.inbox) (htrap : P.trapSets = Q.trapSets ∧ P.trapExit = Q.trapExit) :
    P.Keeps ex acts Q := by
  constructor
  · exact fun _ => hknown
  · exact fun hQ => (halive hQ).1
  · exact fun hP => absurd hP hdisc
  · exact fun _ => hpend
  · exact hleaves
  · exact hreason
  · rw [hinbox]
    exact List.Subset.refl _
  · exact fun _ hQ _ => (halive hQ).2
  · exact ⟨Nat.le_of_eq htrap.1, fun _ => htrap.2⟩
  · simp [hread]
  · exact hother

end Process.Keeps

/-- A step of the processes `acts` that keeps the entries, those of `ex` apart. -/
structure State.Keeps (ex : Pid → Pid → Prop) (acts : Pid → Prop) (s t : State) : Prop where
  procs : ∀ q, (s.procs q).Keeps (ex q) (acts q) (t.procs q)
  signals : s.signals ⊆ t.signals

namespace State.Keeps

variable {ex : Pid → Pid → Prop} {acts : Pid → Prop} {s t : State} {p q a b other y c : Pid}
  {head : List Pid}

theorem trapRead (h : s.Keeps ex acts t) (hread : s.TrapRead q trap sets) :
    t.TrapRead q trap sets := by
  obtain ⟨hle, hsame⟩ := (h.procs q).trap
  refine ⟨Nat.le_trans hread.1 hle, fun heq => ?_⟩
  have hle' := hread.1
  exact (hread.2 (by omega)).trans (hsame (by omega))

/-- A signal that was sent is not taken back. -/
theorem signalled (h : s.Keeps ex acts t) (hleaves : (s.procs a).phase.leaves = true)
    (hknown : (s.procs b).phase ≠ .absent) (halive : (t.procs b).phase.alive = true)
    (hsig : s.Signalled a b) : t.Signalled a b := by
  obtain ⟨r, hr, hexiter, hpeer, hread, htrap, hkill⟩ := hsig
  obtain ⟨-, hreason, hkind⟩ := (h.procs a).leaves hleaves
  refine ⟨r, h.signals hr, hexiter, hpeer, h.trapRead hread, fun ht => ?_, fun ht hne => ?_⟩
  · rw [hreason, hkind]
    exact (h.procs b).inbox (htrap ht)
  · rw [hreason] at hne ⊢
    obtain ⟨hne0, hval⟩ := hkill ht hne
    rw [(h.procs b).kill hknown halive hne0]
    exact ⟨hne0, hval⟩

/-- A promised signal stays promised. -/
theorem toward (h : s.Keeps ex acts t) (hex : ¬ex a b) (hto : s.Toward a b) : t.Toward a b := by
  obtain ⟨hknown, hpend⟩ := hto
  refine ⟨(h.procs b).known hknown, fun halive hdisc => ?_⟩
  have halive' := ((h.procs b).alive halive).resolve_right hknown
  rcases hpend halive' (fun ha => hdisc ((h.procs a).discarded ha)) with hmem | ⟨hleaves, hsig⟩
  · exact .inl ((h.procs a).pend hdisc b hex hmem)
  · exact .inr ⟨((h.procs a).leaves hleaves).1, h.signalled hleaves hknown halive hsig⟩

theorem refl (s : State) : s.Keeps ex acts s := ⟨fun _ => .refl _, List.Subset.refl _⟩

section

variable (h : s.Keeps ex acts t)
include h

theorem mono {ex' : Pid → Pid → Prop} (hex : ∀ a b, ex a b → ex' a b) : s.Keeps ex' acts t :=
  ⟨fun q => (h.procs q).mono (hex q), h.signals⟩

theorem upd (hf : (t.procs q).Keeps (ex q) (acts q) (f (t.procs q))) :
    s.Keeps ex acts (t.upd q f) := by
  refine ⟨fun r => (h.procs r).trans ?_, h.signals⟩
  rw [procs_upd]
  split
  · next heq => rw [heq]; exact hf
  · exact .refl _

/-- The processes do not change. -/
theorem keep {u : State} (hprocs : u.procs = t.procs) (hsignals : t.signals ⊆ u.signals) :
    s.Keeps ex acts u :=
  ⟨fun r => hprocs ▸ h.procs r, fun _ hmem => hsignals (h.signals hmem)⟩

theorem setCall (hp : acts p) (c : Call) : s.Keeps ex acts (t.setCall p c) :=
  h.upd (.of_data (fun hne => absurd hp hne) rfl rfl rfl rfl rfl rfl ⟨rfl, rfl⟩)

theorem ret (hp : acts p) (rc : Rc) : s.Keeps ex acts (t.ret p rc) :=
  h.upd (.of_data (fun hne => absurd hp hne) rfl rfl rfl rfl rfl rfl ⟨rfl, rfl⟩)

/-- A push on a link list. -/
theorem push (hf : f (t.procs q) = { t.procs q with
      links := y :: (t.procs q).links, lock := (f (t.procs q)).lock }) :
    s.Keeps ex acts (t.upd q f) := by
  apply h.upd
  rw [hf]
  exact .of_eq (fun _ _ hmem => mem_cons_of_mem _ hmem) (List.Subset.refl _) (.inl rfl)
    fun _ => ⟨rfl, .inl (suffix_cons _ _)⟩

end

/-- A removal loses no entry but the one it removes, if the entries before that one are those it
has read. -/
theorem mem_unlinked {now : List Pid}
    (hfirst : head.head? = some other → head = now) (hsuffix : head <:+ now) (hy : y ≠ other)
    (hmem : y ∈ now) : y ∈ unlinked head now other := by
  rw [unlinked]
  split
  · next hhead =>
    obtain rfl := hfirst hhead
    cases head with
    | nil => cases hmem
    | cons x rest =>
      cases hhead
      exact (mem_cons.mp hmem).resolve_left hy
  · obtain ⟨front, rfl⟩ := hsuffix
    have htake : (front ++ head).length - head.length = front.length := by
      rw [length_append, Nat.add_sub_cancel]
    rw [htake, take_left]
    rcases mem_append.mp hmem with hmem | hmem
    · exact mem_append_left _ hmem
    · exact mem_append_right _ ((mem_erase_of_ne hy).mpr hmem)

/-- The removal of an entry. -/
theorem unlink (h : s.Keeps (fun a b => a = p ∧ b = other) acts t) (hp : acts p)
    (hfirst : head.head? = some other → head = (t.procs p).links)
    (hsuffix : head <:+ (t.procs p).links) :
    s.Keeps (fun a b => a = p ∧ b = other) acts ((t.upd p fun P =>
      { P with links := unlinked head P.links other }).linkDown p other) := by
  have hupd := h.upd (f := fun P =>
    { P with links := unlinked head P.links other }) (.of_eq
      (fun y hy hmem => mem_unlinked hfirst hsuffix (fun heq => hy ⟨rfl, heq⟩) hmem)
      (List.Subset.refl _) (.inl rfl) fun hne => absurd hp hne)
  exact hupd.keep rfl fun _ => id

section

variable (h : s.Keeps ex acts t)
include h

theorem linkUp (a b : Pid) : s.Keeps ex acts (t.linkUp a b) := h.keep rfl fun _ => id

theorem linkDown (a b : Pid) : s.Keeps ex acts (t.linkDown a b) := h.keep rfl fun _ => id

theorem drawRef : s.Keeps ex acts t.drawRef := h.keep rfl fun _ => id

theorem grant (a b : Pid) (ref : ℕ) : s.Keeps ex acts (t.grant a b ref) := h.keep rfl fun _ => id

theorem newWatch (a b : Pid) (refs : ℕ) : s.Keeps ex acts (t.newWatch a b refs) :=
  h.keep rfl fun _ => id

theorem setRefs (a refs : ℕ) : s.Keeps ex acts (t.setRefs a refs) := h.keep rfl fun _ => id

theorem monWatchPush (me : ℕ) : s.Keeps ex acts (t.monWatchPush q me) := by
  obtain ⟨_, _, _, heq⟩ := (t.procs q).watchPush_eq t.unheld me
  have hupd : s.Keeps ex acts (t.upd q fun P => P.watchPush t.unheld me) := by
    apply h.upd
    rw [heq]
    exact .of_data fun _ => rfl
  exact hupd.keep rfl fun _ => id

theorem undoWatch (c : Pid) : s.Keeps ex acts (t.undoWatch q c) := by
  rw [State.undoWatch]
  split
  · next a _ =>
    have hupd := h.upd (q := q) (f := fun P =>
      { P with monitors := P.monitors.erase a, monN := P.monN - 1 })
      (.of_data fun _ => rfl)
    exact hupd.keep rfl fun _ => id
  · exact h

theorem sendSys (msg : Message) (alloc : Bool) : s.Keeps ex acts (t.sendSys q msg alloc) := by
  apply h.upd
  split
  · exact .of_eq (fun _ _ => id) (subset_append_left _ _) (.inl rfl)
      fun _ => ⟨rfl, .inl (suffix_refl _)⟩
  · exact .refl _

theorem exitPidOn (reason : ℤ) : s.Keeps ex acts (t.exitPidOn q reason) := by
  apply h.upd
  split
  · next hkill =>
    exact .of_eq (fun _ _ => id) (List.Subset.refl _) (.inr hkill.2)
      fun _ => ⟨rfl, .inl (suffix_refl _)⟩
  · exact .refl _

theorem signalPeer (a b : Pid) (trap : Bool) (sets : ℕ) (alloc : Bool) :
    s.Keeps ex acts (t.signalPeer a b trap sets alloc) := by
  have hrec : s.Keeps ex acts { t with
      signals := ⟨a, b, trap, sets, (t.procs b).killPending⟩ :: t.signals } :=
    h.keep rfl (subset_cons_self _ _)
  rw [State.signalPeer]
  split
  · exact hrec.sendSys _ _
  · split
    · exact hrec.exitPidOn _
    · exact hrec

/-- A setting of `trap_exit` is counted. -/
theorem trapExit {on : Bool} : s.Keeps ex acts (t.upd q fun P =>
    { P with trapExit := on, trapSets := P.trapSets + 1 }) := by
  have hrefl : (t.procs q).Keeps (ex q) (acts q) (t.procs q) := .refl _
  exact h.upd { hrefl with trap := ⟨Nat.le_succ _,
    fun heq => absurd heq (Nat.succ_ne_self _).symm⟩ }

/-- A failed spawn returns and frees the child. -/
theorem retDiscard (hp : acts p) (hwf : WellFormed t) (rc : Rc)
    (hspawn : (t.procs p).call.spawns = some c) : s.Keeps ex acts ((t.ret p rc).discard c) := by
  have hunborn := hwf.unborn p c hspawn
  have hidle : (t.procs c).call = .idle := hwf.idle c (by rw [hunborn]; rfl)
  apply (h.ret hp rc).upd
  simp only [procs_ret, hunborn]
  constructor
  · intro _ habs
    cases habs
  · intro halive
    cases halive
  · exact fun _ => rfl
  · exact fun hne => absurd rfl hne
  · intro hleaves
    cases hleaves
  · exact id
  · exact List.Subset.refl _
  · intro _ halive
    cases halive
  · exact ⟨Nat.le_refl _, fun _ => rfl⟩
  · intro x hx
    cases hx
  · intro hne
    exact ⟨rfl, .inr (by simp [hidle])⟩

/-- A successful spawn returns and makes the child runnable. -/
theorem retBody (hp : acts p) (hwf : WellFormed t) (rc : Rc)
    (hspawn : (t.procs p).call.spawns = some c) :
    s.Keeps ex acts ((t.ret p rc).setPhase c .body) := by
  have hunborn := hwf.unborn p c hspawn
  apply (h.ret hp rc).upd
  simp only [procs_ret, hunborn]
  refine Process.Keeps.of_phase ?_ ?_ ?_ ?_ ?_ ?_ ?_ ?_ rfl ⟨rfl, rfl⟩
  · simp
  · exact fun _ => ⟨.inl rfl, rfl⟩
  · simp
  · exact fun y _ hmem => by exact hmem
  · intro hleaves
    cases hleaves
  · exact id
  · rfl
  · exact fun _ => ⟨rfl, .inl (suffix_refl _)⟩

/-- A process appears in its slot. -/
theorem spawned (habs : (t.procs q).phase = .absent) (hφ : φ.alive = true) :
    s.Keeps ex acts (t.setPhase q φ) := by
  apply h.upd
  refine Process.Keeps.of_phase ?_ ?_ ?_ ?_ ?_ ?_ ?_ ?_ rfl ⟨rfl, rfl⟩
  · rintro rfl
    cases hφ
  · exact fun _ => ⟨.inr habs, rfl⟩
  · simp [habs]
  · intro y _ hmem
    rcases mem_append.mp hmem with hmem | hmem
    · exact mem_append_left _ hmem
    · rw [habs] at hmem
      cases hmem
  · intro hleaves
    rw [habs] at hleaves
    cases hleaves
  · exact id
  · cases φ <;> first | rfl | cases hφ
  · exact fun _ => ⟨rfl, .inl (suffix_refl _)⟩

/-- A process on its way out goes on. -/
theorem setPhase_out (htodo : ∀ y, ¬ex q y → y ∈ (t.procs q).phase.todo → y ∈ φ.todo)
    (hφ : φ.leaves = true) (hread : φ.read = none) (hout : (t.procs q).phase.leaves = true) :
    s.Keeps ex acts (t.setPhase q φ) := by
  apply h.upd
  refine Process.Keeps.of_phase ?_ ?_ ?_ ?_ ?_ ?_ ?_ ?_ rfl ⟨rfl, rfl⟩
  · rintro rfl
    cases hφ
  · intro halive
    cases φ <;> cases halive <;> cases hφ
  · intro hdisc
    rw [hdisc] at hout
    cases hout
  · intro y hy hmem
    rcases mem_append.mp hmem with hmem | hmem
    · exact mem_append_left _ hmem
    · exact mem_append_right _ (htodo y hy hmem)
  · exact fun _ => ⟨hφ, rfl, rfl⟩
  · exact id
  · exact hread
  · exact fun _ => ⟨rfl, .inl (suffix_refl _)⟩

end

end State.Keeps

/-! ## Links along a run -/

/-- What the next step of a link call must meet, with the answer of the allocator. -/
def State.LinkCallOk (s : State) (p : Pid) (fst : Bool) : Call → Prop
  | .linkStore _ head | .spawnOwnStore _ head => head = (s.procs p).links
  | .unlinkStore other head _ => head.head? = some other → head = (s.procs p).links
  | .linkPeer _ => fst = true
  | .linkPush other => (s.procs other).phase.alive = true
  | .linkPeerStore other head => head = (s.procs other).links
  | .spawnLinkStore child head => head = (s.procs child).links
  | _ => True

instance (s : State) (p : Pid) (fst : Bool) (c : Call) : Decidable (s.LinkCallOk p fst c) := by
  cases c <;> unfold State.LinkCallOk <;> infer_instance

/-- What a step must meet for every link to be followed by its signal: a message is allocated;
`xtc_link` gets its second entry and finds its peer alive under the stripe lock; and the head of a
link list has not changed between its read and its write. -/
def LinkOk (s : State) : Act → Prop
  | .advance p fst _ => s.LinkCallOk p fst (s.procs p).call
  | .notify _ alloc => alloc = true
  | _ => True

instance (s : State) (a : Act) : Decidable (LinkOk s a) := by
  cases a <;> unfold LinkOk <;> infer_instance

/-- The links of a state are in place. -/
structure Tied (s : State) : Prop where
  /-- The reason -1 does not survive `longjmp`, so that a kill with any reason is pending. -/
  reason : ∀ p, (s.procs p).exitReason ≠ -1
  linked : ∀ a b, (a, b) ∈ s.linked → s.Toward a b ∧ s.Toward b a
  calls : ∀ p, s.CallLinks p (s.procs p).call
  read : ∀ p q trap sets, (s.procs p).phase.read = some (q, trap, sets) → s.TrapRead q trap sets

/-- What a caller has established lasts as long as what it rests on. -/
theorem State.CallLinks.mono {t : State} {p : Pid} (h : s.CallLinks p c)
    (hknown : ∀ q, (s.procs q).phase ≠ .absent → (t.procs q).phase ≠ .absent)
    (hown : ∀ q, s.Toward p q → t.Toward p q)
    (hchild : ∀ q, c.spawns = some q → s.Toward q p → t.Toward q p)
    (hlinks : (s.procs p).links <:+ (t.procs p).links ∨ c = .idle) : t.CallLinks p c := by
  cases c
  case linkAlloc other | linkStore other head => exact hknown other h
  case linkPeer other | linkPush other | linkPeerStore other head => exact hown other h
  case unlinkStore other head undo =>
    rcases hlinks with hlinks | hidle
    · exact List.IsSuffix.trans h hlinks
    · cases hidle
  case spawnOwnRead child | spawnOwnStore child head => exact hchild child rfl h
  case spawnAsyncLink child => exact ⟨hchild child rfl h.1, hown child h.2⟩
  all_goals trivial

namespace Tied

variable {ex : Pid → Pid → Prop} {acts : Pid → Prop} {s t : State} {p q : Pid}

section

variable (h : Tied s)
include h

section

variable (hwf : WellFormed s)
include hwf

/-- A step that breaks no promise but those of `e`, which belong to its actors. -/
theorem of_keeps {e : Pid → Pid → Prop} (hk : s.Keeps ex acts t)
    (hto : ∀ a b, ¬e a b → s.Toward a b → t.Toward a b)
    (hex : ∀ a b, e a b → acts a ∧ (s.procs a).phase ≠ .unborn)
    (hlink : ∀ a b, (a, b) ∈ t.linked →
      ((a, b) ∈ s.linked ∧ ¬e a b ∧ ¬e b a) ∨ (t.Toward a b ∧ t.Toward b a))
    (hcall : ∀ r, acts r → t.CallLinks r (t.procs r).call) : Tied t := by
  constructor
  · exact fun r => (hk.procs r).reason (h.reason r)
  · intro a b hab
    rcases hlink a b hab with ⟨hab, hab', hba'⟩ | hdone
    · obtain ⟨hto₁, hto₂⟩ := h.linked a b hab
      exact ⟨hto a b hab' hto₁, hto b a hba' hto₂⟩
    · exact hdone
  · intro r
    by_cases hr : acts r
    · exact hcall r hr
    · obtain ⟨hsame, hlinks⟩ := (hk.procs r).other hr
      rw [hsame]
      exact (h.calls r).mono (fun b => (hk.procs b).known)
        (fun b => hto r b fun he => hr (hex r b he).1)
        (fun b hb => hto b r fun he => (hex b r he).2 (hwf.unborn r b hb)) hlinks
  · exact fun r q trap sets hr => hk.trapRead (h.read r q trap sets ((hk.procs r).read _ hr))

section

variable (hk : s.Keeps (fun _ _ => False) (· = p) t)
include hk

/-- A step of `p` that removes no entry and completes no link. -/
theorem keep (hlink : t.linked ⊆ s.linked) (hc : (t.procs p).call = c)
    (hcall : t.CallLinks p c) : Tied t := by
  apply h.of_keeps hwf hk
  · exact fun _ _ hex hto => hk.toward hex hto
  · exact fun _ _ hex => hex.elim
  · exact fun a b hab => .inl ⟨hlink hab, id, id⟩
  · rintro r rfl
    rw [hc]
    exact hcall

/-- A step of `p` that completes its link with `q`. -/
theorem complete (hlink : t.linked = (p, q) :: s.linked) (hpq : t.Toward p q) (hqp : t.Toward q p)
    (hc : (t.procs p).call = .idle) : Tied t := by
  apply h.of_keeps hwf hk
  · exact fun _ _ hex hto => hk.toward hex hto
  · exact fun _ _ hex => hex.elim
  · intro a b hab
    rw [hlink] at hab
    rcases mem_cons.mp hab with heq | hab
    · cases heq
      exact .inr ⟨hpq, hqp⟩
    · exact .inl ⟨hab, id, id⟩
  · rintro r rfl
    rw [hc]
    trivial

/-- A step of `p` that links nothing, after which its call has no link in hand. -/
theorem keepFree (hlink : t.linked = s.linked := by rfl)
    (hcall : ∀ u : State, u.CallLinks p (t.procs p).call := by simp) : Tied t :=
  h.keep hwf hk (fun _ hmem => hlink ▸ hmem) rfl (hcall t)

end

/-- The steps of a monitor call touch no link. -/
theorem advanceMonitor (ht : s.advanceMonitor p fst snd (s.procs p).call = some t) : Tied t := by
  have hs : s.Keeps (fun _ _ => False) (· = p) s := .refl s
  cases hcall : (s.procs p).call <;> rw [hcall] at ht <;>
    simp only [State.advanceMonitor, reduceCtorEq] at ht
  case monitorDead target =>
    cases ht
    exact h.keepFree hwf (((hs.ret rfl _).drawRef.sendSys _ _).grant _ _ _)
  case monitorAlloc target =>
    split at ht <;> cases ht
    · exact h.keepFree hwf ((hs.newWatch _ _ _).setCall rfl _)
    · exact h.keepFree hwf (hs.ret rfl _)
  case monitorPeer target me ref =>
    split at ht <;> cases ht
    · exact h.keepFree hwf ((hs.setRefs _ _).setCall rfl _)
    · exact h.keepFree hwf (hs.setCall rfl _)
  case monitorPush target me ref =>
    split at ht
    · cases ht
    · split at ht <;> cases ht
      · have hlock := hs.upd (q := target) (f := fun P => { P with lock := some p })
          (.of_data fun _ => rfl)
        exact h.keepFree hwf (hlock.setCall rfl _)
      · exact h.keepFree hwf ((hs.setRefs _ _).setCall rfl _)
  case monitorStore target me ref head | spawnMonStore child me ref head =>
    cases ht
    refine h.keepFree hwf ((hs.setCall rfl _).upd (.of_data fun _ => rfl)) rfl ?_
    rw [call_upd _ _ _ rfl]
    simp
  case monitorWatch target me ref =>
    cases ht
    exact h.keepFree hwf (((hs.monWatchPush _).ret rfl _).grant _ _ _)
  case spawnWatch child me ref =>
    cases ht
    exact h.keepFree hwf ((hs.monWatchPush _).setCall rfl _)
  case spawnAsyncMonitor child ref =>
    have hspawns : (s.procs p).call.spawns = some child := by rw [hcall]; rfl
    split at ht
    · cases ht
      exact h.keepFree hwf ((hs.retBody rfl hwf _ hspawns).grant _ _ _)
    · split at ht <;> cases ht
      obtain ⟨_, _, hp⟩ := s.procs_undoWatch p p child
      have hback := (hs.undoWatch child).retDiscard rfl (hwf.undoWatch child) .nomem
        (by rw [hp]; exact hspawns)
      refine h.keepFree hwf hback ?_ ?_
      · simp only [State.discard, ret, upd, State.undoWatch]
        split <;> rfl
      · simp
  case spawnEntries child rel =>
    cases rel <;> simp only [reduceCtorEq] at ht
    split at ht
    · cases ht
      exact h.keepFree hwf ((hs.newWatch _ _ _).setCall rfl _)
    · split at ht <;> cases ht
      exact h.keepFree hwf (hs.retDiscard rfl hwf _ (by rw [hcall]; rfl))

/-- A step of `p` that takes `q` off its list and ends their link. -/
theorem unlink (hruns : (s.procs p).phase.runs = true)
    (hk : s.Keeps (fun a b => a = p ∧ b = q) (· = p) t)
    (hlink : t.linked = (s.linkDown p q).linked) (hc : (t.procs p).call = .idle) : Tied t := by
  apply h.of_keeps hwf hk
  · exact fun _ _ hex hto => hk.toward hex hto
  · rintro a b ⟨rfl, -⟩
    refine ⟨rfl, fun hunborn => ?_⟩
    rw [hunborn] at hruns
    cases hruns
  · intro a b hab
    rw [hlink] at hab
    obtain ⟨hab, hne⟩ := mem_filter.mp hab
    obtain ⟨hpq, hqp⟩ := of_decide_eq_true hne
    refine .inl ⟨hab, ?_, ?_⟩
    · rintro ⟨rfl, rfl⟩
      exact hpq rfl
    · rintro ⟨rfl, rfl⟩
      exact hqp rfl
  · rintro r rfl
    rw [hc]
    trivial

end

end

/-- `q` is on the list of `p`. -/
theorem toward_of_mem (hknown : (t.procs q).phase ≠ .absent) (hmem : q ∈ (t.procs p).links) :
    t.Toward p q :=
  ⟨hknown, fun _ _ => .inl (mem_append_left _ hmem)⟩

section

variable (h : Tied s) {mons : List MonEntry}
include h

/-- The steps of a link call. -/
theorem advanceLink (hwf : WellFormed s) (hruns : (s.procs p).phase.runs = true)
    (hok : s.LinkCallOk p fst (s.procs p).call)
    (ht : s.advanceLink p fst snd (s.procs p).call = some t) : Tied t := by
  have hs : s.Keeps (fun _ _ => False) (· = p) s := .refl s
  have hlinks : s.linked ⊆ s.linked := List.Subset.refl _
  have hp : (s.procs p).phase ≠ .absent := by
    intro habs
    rw [habs] at hruns
    cases hruns
  have hcalls := h.calls p
  have hunborn := hwf.unborn p
  cases hcall : (s.procs p).call <;> rw [hcall] at ht hok hcalls hunborn <;>
    simp only [State.advanceLink, reduceCtorEq] at ht
  case linkAlloc other =>
    split at ht <;> cases ht
    · have hk := hs.setCall rfl (.linkStore other (s.procs p).links)
      apply h.keep hwf hk hlinks (c := .linkStore other (s.procs p).links) (by simp)
      exact (hk.procs other).known hcalls
    · exact h.keepFree hwf (hs.ret rfl _)
  case linkStore other head =>
    cases ht
    obtain rfl : head = _ := hok
    have hk := (hs.setCall rfl (.linkPeer other)).push (q := p) (y := other) (f := fun P =>
      { P with links := other :: (s.procs p).links }) (by simp)
    apply h.keep hwf hk hlinks (c := .linkPeer other)
    · simp
    · exact toward_of_mem ((hk.procs other).known hcalls) (by simp)
  case linkPeer other =>
    obtain rfl : fst = true := hok
    cases ht
    have hk := hs.setCall rfl (.linkPush other)
    exact h.keep hwf hk hlinks (c := .linkPush other) (by simp) (hk.toward id hcalls)
  case linkPush other =>
    split at ht
    · cases ht
    · have halive : (s.procs other).phase.alive = true := hok
      rw [if_pos halive] at ht
      cases ht
      have hlock := hs.upd (q := other) (f := fun P => { P with lock := some p })
        (.of_data fun _ => rfl)
      have hk := hlock.setCall rfl (.linkPeerStore other (s.procs other).links)
      exact h.keep hwf hk hlinks (c := .linkPeerStore other (s.procs other).links) (by simp)
        (hk.toward id hcalls)
  case linkPeerStore other head =>
    cases ht
    obtain rfl : head = _ := hok
    have hk := (hs.ret rfl .ok).push (q := other) (y := p) (f := fun P =>
      { P with links := p :: (s.procs other).links, lock := none }) (by simp)
    apply h.complete hwf (hk.linkUp p other) rfl
    · exact (hk.linkUp p other).toward id hcalls
    · apply toward_of_mem
      · exact (hk.procs p).known hp
      · simp
    · rw [procs_linkUp, call_upd _ _ _ rfl]
      simp
  case unlinkStore other head undo =>
    have hs' : s.Keeps (fun a b => a = p ∧ b = other) (· = p) s := .refl s
    have hdown := hs'.unlink rfl hok hcalls
    have hwf' := (hwf.updData (f := fun P =>
      { P with links := unlinked head P.links other })
      (.inl (Phase.inTable_of_runs hruns))).linkDown (p := p) other
    split at ht <;> cases ht
    split
    · next hundo =>
      have hspawns : (s.procs p).call.spawns = some other := by
        rw [hcall, hundo]
        rfl
      exact h.unlink hwf hruns (hdown.retDiscard rfl hwf' _ (by simpa using hspawns)) rfl (by simp)
    · exact h.unlink hwf hruns (hdown.ret rfl _) rfl (by simp)
  case spawnEntries child rel =>
    cases rel <;> simp only [reduceCtorEq] at ht
    split at ht
    · cases ht
      exact h.keepFree hwf (hs.setCall rfl _)
    · split at ht <;> cases ht
      exact h.keepFree hwf (hs.retDiscard rfl hwf _ (by rw [hcall]; rfl))
  case spawnLinkStore child head =>
    cases ht
    obtain rfl : head = _ := hok
    have hk := (hs.setCall rfl (.spawnOwnRead child)).push (q := child) (y := p) (f := fun P =>
      { P with links := p :: (s.procs child).links }) (by simp)
    apply h.keep hwf hk hlinks (c := .spawnOwnRead child)
    · rw [call_upd _ _ _ rfl]
      simp
    · exact toward_of_mem ((hk.procs p).known hp) (by simp)
  case spawnOwnRead child =>
    cases ht
    have hk := hs.setCall rfl (.spawnOwnStore child (s.procs p).links)
    exact h.keep hwf hk hlinks (c := .spawnOwnStore child (s.procs p).links) (by simp)
      (hk.toward id hcalls)
  case spawnOwnStore child head =>
    cases ht
    obtain rfl : head = _ := hok
    have hk := (hs.setCall rfl (.spawnAsyncLink child)).push (q := p) (y := child) (f := fun P =>
      { P with links := child :: (s.procs p).links }) (by simp)
    apply h.keep hwf hk hlinks (c := .spawnAsyncLink child)
    · simp
    · have hchild : (s.procs child).phase ≠ .absent := by
        rw [hunborn child rfl]
        simp
      exact ⟨hk.toward id hcalls, toward_of_mem ((hk.procs child).known hchild) (by simp)⟩
  case spawnAsyncLink child =>
    split at ht <;> cases ht
    · have hk := (hs.retBody rfl hwf .ok (by rw [hcall]; rfl)).linkUp p child
      exact h.complete hwf hk rfl (hk.toward id hcalls.2) (hk.toward id hcalls.1) (by simp)
    · exact h.keep hwf (hs.setCall rfl _) hlinks (c := .unlinkStore child (s.procs p).links true)
        (by simp) (by simp)

/-- A process on its way out goes on and has signalled nobody. -/
theorem setPhase_out (hwf : WellFormed s) (hk : s.Keeps (fun _ _ => False) (· = p) t)
    (hph : (s.procs p).phase = ψ)
    (hsame : (t.procs p).phase = (s.procs p).phase := by first | rfl | simp)
    (hcall : (t.procs p).call = (s.procs p).call := by first | rfl | simp)
    (hlink : t.linked = s.linked := by rfl) (hψ : ψ.leaves = true := by rfl)
    (hφ : φ.leaves = true := by rfl) (hread : φ.read = none := by rfl)
    (htodo : ψ.todo ⊆ φ.todo := by exact nil_subset _) : Tied (t.setPhase p φ) := by
  subst hph
  have hidle : (s.procs p).call = .idle := hwf.idle p (Phase.not_runs_of_leaves hψ)
  refine h.keepFree hwf
    (hk.setPhase_out (fun y _ hmem => htodo (by rwa [hsame] at hmem)) hφ hread (by rwa [hsame]))
    hlink ?_
  simp [hcall, hidle]

/-- A process on its way out has dealt with the first of its detached links. -/
theorem setPhase_next (hwf : WellFormed s) (hk : s.Keeps (fun _ _ => False) (· = p) t)
      (hph : (s.procs p).phase = ψ)
    (hq : (s.procs q).phase.alive = true → t.Signalled p q) (hlink : t.linked = s.linked)
    (hsame : (t.procs p).phase = (s.procs p).phase := by first | rfl | simp)
    (hcall : (t.procs p).call = (s.procs p).call := by first | rfl | simp)
    (hψ : ψ.leaves = true := by rfl) (htodo : ψ.todo = q :: todo := by rfl) :
    Tied (t.setPhase p (.links todo mons own)) := by
  subst hph
  have hidle : (s.procs p).call = .idle := hwf.idle p (Phase.not_runs_of_leaves hψ)
  have hk' : s.Keeps (fun a b => a = p ∧ b = q) (· = p) (t.setPhase p (.links todo mons own)) := by
    apply (hk.mono fun _ _ => False.elim).setPhase_out _ rfl rfl (by rwa [hsame])
    intro y hy hmem
    rw [hsame, htodo] at hmem
    exact (mem_cons.mp hmem).resolve_left fun heq => hy ⟨rfl, heq⟩
  apply h.of_keeps hwf hk' (e := fun _ _ => False)
  · intro a b _ hto
    by_cases hab : a = p ∧ b = q
    · obtain ⟨rfl, rfl⟩ := hab
      refine ⟨(hk'.procs b).known hto.1, fun halive _ => .inr ⟨by simp [Phase.leaves], ?_⟩⟩
      have hsig := hq (((hk'.procs b).alive halive).resolve_right hto.1)
      exact (t.signalled_setPhase _ _ _ _).mpr hsig
    · exact hk'.toward hab hto
  · exact fun _ _ hex => hex.elim
  · exact fun a b hab => .inl ⟨hlink ▸ hab, id, id⟩
  · rintro r rfl
    simp [hcall, hidle]

/-- An exiting process has read the setting of the peer that it will signal. -/
theorem lookUp (hph : (s.procs p).phase = .links (q :: todo) mons own) :
    Tied (s.setPhase p (.signal q (s.procs q).trapExit (s.procs q).trapSets todo mons own)) := by
  set t := s.setPhase p (.signal q (s.procs q).trapExit (s.procs q).trapSets todo mons own) with ht
  have hphases : ∀ r, ((t.procs r).phase = .absent ↔ (s.procs r).phase = .absent) ∧
      ((t.procs r).phase = .discarded ↔ (s.procs r).phase = .discarded) ∧
      (t.procs r).phase.alive = (s.procs r).phase.alive ∧
      (t.procs r).phase.leaves = (s.procs r).phase.leaves ∧
      (t.procs r).pend = (s.procs r).pend := by
    intro r
    by_cases hr : r = p
    · subst hr
      simp [ht, hph, Process.pend, Phase.alive, Phase.leaves, Phase.todo]
    · simp [ht, hr, Process.pend]
  have hto : ∀ a b, s.Toward a b → t.Toward a b := by
    rintro a b ⟨hknown, hpend⟩
    obtain ⟨-, hdisc, -, hleaves, hsame⟩ := hphases a
    obtain ⟨habs, -, halive, -⟩ := hphases b
    refine ⟨fun h => hknown (habs.mp h), fun hb ha => ?_⟩
    rw [hsame, hleaves, ht, signalled_setPhase]
    exact hpend (halive ▸ hb) fun h => ha (hdisc.mpr h)
  constructor
  · simpa [ht] using h.reason
  · intro a b hab
    obtain ⟨hab', hba'⟩ := h.linked a b hab
    exact ⟨hto a b hab', hto b a hba'⟩
  · intro r
    have hsame : (t.procs r).call = (s.procs r).call ∧ (t.procs r).links = (s.procs r).links := by
      simp [ht]
    rw [hsame.1]
    exact (h.calls r).mono (fun b hb habs => hb ((hphases b).1.mp habs)) (hto r)
      (fun b _ => hto b r) (.inl (hsame.2 ▸ suffix_refl _))
  · intro r x trap sets hr
    by_cases hrp : r = p
    · simp only [ht, hrp, procs_setPhase, if_true, Phase.read, Option.some.injEq,
        Prod.mk.injEq] at hr
      obtain ⟨rfl, rfl, rfl⟩ := hr
      simp [ht, State.TrapRead]
    · have hr' : (s.procs r).phase.read = some (x, trap, sets) := by simpa [ht, hrp] using hr
      simpa [ht, State.TrapRead] using h.read r x trap sets hr'

/-- The signal reaches a peer that is alive. -/
theorem signalled_signalPeer
    (hread : (s.procs p).phase.read = some (q, trap, sets)) (hq : (s.procs q).phase.alive = true) :
    (s.signalPeer p q trap sets true).Signalled p q := by
  have hkill := killCode_ne_zero (h.reason p)
  refine ⟨⟨p, q, trap, sets, (s.procs q).killPending⟩, ?_, rfl, rfl, ?_, ?_, ?_⟩
  · rw [signals_signalPeer]
    exact mem_cons_self
  · simpa [State.TrapRead] using h.read p q trap sets hread
  · rintro rfl
    simp [hq]
  · rintro rfl hne
    rw [procs_signalPeer] at hne
    by_cases hpend : (s.procs q).killPending = 0
    · simpa [hq, hne, hpend] using hkill
    · simp [hpend]

/-- The steps of an exit after the lists are detached. -/
theorem notify (hwf : WellFormed s) (ht : s.notify p true (s.procs p).phase = some t) :
    Tied t := by
  have hs : s.Keeps (fun _ _ => False) (· = p) s := .refl s
  generalize hph : (s.procs p).phase = ψ at ht
  cases Notified.of_notify ht with
  | goOn watch hψ hφ _ htodo hread =>
    refine h.setPhase_out hwf (hs.keep rfl fun _ => id) hph rfl rfl rfl hψ hφ hread ?_
    rw [htodo]
    exact List.Subset.refl _
  | lookUp => exact h.lookUp hph
  | skip hout =>
    exact h.setPhase_next hwf hs hph
      (fun halive => absurd (Phase.inTable_of_alive halive) hout) rfl
  | signal =>
    exact h.setPhase_next hwf (hs.signalPeer p _ _ _ true) hph
      (h.signalled_signalPeer (by rw [hph]; rfl)) (s.linked_signalPeer p _ _ _ true)
  | down => exact h.setPhase_out hwf (hs.sendSys _ _) hph

/-- The end of a process's function. -/
theorem beginExit (hwf : WellFormed s) (hbody : (s.procs p).phase = .body) (ending : Ending) :
    Tied (s.beginExit p ending) := by
  have hk : s.Keeps (fun _ _ => False) (· = p) (s.beginExit p ending) := by
    apply (State.Keeps.refl s).upd
    refine Process.Keeps.of_phase ?_ ?_ ?_ ?_ ?_ ?_ ?_ ?_ rfl ⟨rfl, rfl⟩
    · simp
    · intro halive
      cases halive
    · simp [hbody]
    · exact fun y _ hmem => by simpa [Process.pend, hbody, Phase.todo] using hmem
    · intro hleaves
      rw [hbody] at hleaves
      cases hleaves
    · exact fun _ => ending.reason_ne _
    · rfl
    · exact fun hne => absurd rfl hne
  exact h.keepFree hwf hk rfl (by simp [State.beginExit])

/-- The critical section of an exit moves the list to the detached links. -/
theorem detach (hwf : WellFormed s) (hhooks : (s.procs p).phase = .hooks)
    (hidle : (s.procs p).call = .idle) : Tied (s.detach p) := by
  have hk : s.Keeps (fun _ _ => False) (· = p) (s.detach p) := by
    apply (State.Keeps.refl s).upd
    refine Process.Keeps.of_phase ?_ ?_ ?_ ?_ ?_ ?_ ?_ ?_ rfl ⟨rfl, rfl⟩
    · simp
    · intro halive
      cases halive
    · simp [hhooks]
    · exact fun y _ hmem => by simpa [Process.pend, hhooks, Phase.todo] using hmem
    · intro hleaves
      rw [hhooks] at hleaves
      cases hleaves
    · exact id
    · rfl
    · exact fun hne => absurd rfl hne
  exact h.keepFree hwf hk rfl (by simp [State.detach, hidle])

/-- A step of a run keeps the links in place. -/
theorem step (hwf : WellFormed s) {a : Act} (hok : LinkOk s a) (ht : s.step a = some t) :
    Tied t := by
  have hs (p : Pid) : s.Keeps (fun _ _ => False) (· = p) s := .refl s
  cases a <;> simp only [State.step] at ht
  case spawn child =>
    split at ht <;> cases ht
    next habs =>
    have hidle : (s.procs child).call = .idle := hwf.idle child (by rw [habs]; rfl)
    exact h.keepFree hwf ((hs child).spawned habs rfl) rfl (by simp [hidle])
  case spawnRel p child rel =>
    split at ht <;> cases ht
    next hcan =>
    exact h.keepFree hwf (((hs p).spawned hcan.2 rfl).setCall rfl _)
  case monitor p target =>
    split at ht <;> cases ht
    split
    · exact h.keepFree hwf ((hs p).setCall rfl _)
    · exact h.keepFree hwf ((hs p).setCall rfl _)
  case link p other =>
    split at ht <;> cases ht
    split
    · next halive =>
      have hk := (hs p).setCall rfl (.linkAlloc other)
      have hknown : (s.procs other).phase ≠ .absent := by
        intro habs
        rw [habs] at halive
        cases halive
      exact h.keep hwf hk (List.Subset.refl _) (c := .linkAlloc other) (by simp)
        ((hk.procs other).known hknown)
    · exact h.keepFree hwf ((hs p).ret rfl _)
  case unlink p other =>
    split at ht <;> cases ht
    split
    · exact h.keep hwf ((hs p).setCall rfl _) (List.Subset.refl _)
        (c := .unlinkStore other (s.procs p).links false) (by simp) (by simp)
    · exact h.keep hwf (((hs p).linkDown p other).ret rfl _) (fun _ hmem => (mem_filter.mp hmem).1)
        (c := .idle) (by simp) trivial
  case trapExit p on =>
    split at ht <;> cases ht
    next hcan =>
    exact h.keepFree hwf (hs p).trapExit rfl (by simp [hcan.2])
  case exitPid target reason =>
    cases ht
    have hk : s.Keeps (fun _ _ => False) (fun _ => False) (s.exitPidOn target reason) :=
      (State.Keeps.refl s).exitPidOn reason
    exact h.of_keeps hwf hk (fun _ _ hex hto => hk.toward hex hto) (fun _ _ hex => hex.elim)
      (fun _ _ hab => .inl ⟨hab, id, id⟩) fun _ hacts => hacts.elim
  case advance p fst snd =>
    split at ht
    · next hruns =>
      rcases Option.or_eq_some_iff.mp ht with hm | ⟨-, hl⟩
      · exact h.advanceMonitor hwf hm
      · exact h.advanceLink hwf hruns hok hl
    · cases ht
  case exit p ending =>
    split at ht <;> cases ht
    next hbody => exact h.beginExit hwf hbody.1 ending
  case detach p =>
    split at ht <;> cases ht
    next hhooks => exact h.detach hwf hhooks.1 hhooks.2.1
  case notify p alloc =>
    obtain rfl : alloc = true := hok
    exact h.notify hwf ht

end

end Tied

/-- The links are in place along every run that meets the condition. -/
theorem tied_of_reachable (hs : system.ReachableUnder LinkOk s) : Tied s := by
  induction hs with
  | start h =>
    cases h
    refine ⟨?_, ?_, fun _ => trivial, ?_⟩
    · simp [empty, Process.fresh]
    · simp [empty]
    · simp [empty, Process.fresh, Phase.read]
  | next hs hok ht ih => exact ih.step (wellFormed_of_reachable hs) hok ht

/-- Every link is followed by its signal: when one of two linked processes exits with a reason other
than 0 while the other is alive and the link was not removed, the exit has put an `'E'` message with
its reason in the mailbox of a peer that traps exits, and left a kill pending on a peer that does
not: its own, with its reason, if there was none before. -/
theorem link_signalled {s : State} (hs : system.ReachableUnder LinkOk s) {a b p q : Pid}
    (hlinked : (a, b) ∈ s.linked) (hends : p = a ∧ q = b ∨ p = b ∧ q = a)
    (hgone : (s.procs p).phase = .gone) (halive : (s.procs q).phase.alive = true) :
    s.Signalled p q := by
  have hto : s.Toward p q := by
    obtain ⟨hab, hba⟩ := (tied_of_reachable hs).linked a b hlinked
    rcases hends with ⟨rfl, rfl⟩ | ⟨rfl, rfl⟩
    · exact hab
    · exact hba
  rcases hto.2 halive (by simp [hgone]) with hpend | hsig
  · have hempty := ((wellFormed_of_reachable hs).detached p (by rw [hgone]; rfl)).1
    simp [Process.pend, hempty, hgone, Phase.todo] at hpend
  · exact hsig.2

/-- Process 0 links process 1 and traps exits, process 1 spawns process 2 with a link, and process 1
exits with code 5. -/
def twoLinks : List Act :=
  let w : Pid := ⟨1, 0, 1⟩
  let t : Pid := ⟨1, 1, 1⟩
  let c : Pid := ⟨1, 2, 1⟩
  [.spawn w, .spawn t, .link w t] ++ replicate 5 (.advance w true true) ++
  [.trapExit w true, .spawnRel t c .link] ++ replicate 5 (.advance t true true) ++
  [.exit t (.exitSelf 5 none), .detach t] ++ replicate 7 (.notify t true)

/-- Both peers are signalled. -/
theorem link_signalled_twoLinks : ∃ s ∈ system.runUnder LinkOk empty twoLinks,
      s.Signalled ⟨1, 1, 1⟩ ⟨1, 0, 1⟩ ∧ s.Signalled ⟨1, 1, 1⟩ ⟨1, 2, 1⟩ ∧
      (s.procs ⟨1, 0, 1⟩).inbox = [.exit 5 ⟨1, 1, 1⟩ .exit] ∧
      (s.procs ⟨1, 2, 1⟩).killPending = killCode 5 := by
  have hrun : ∃ s ∈ system.runUnder LinkOk empty twoLinks,
      s.linked = [(⟨1, 1, 1⟩, ⟨1, 2, 1⟩), (⟨1, 0, 1⟩, ⟨1, 1, 1⟩)] ∧
      (s.procs ⟨1, 1, 1⟩).phase = .gone ∧ (s.procs ⟨1, 0, 1⟩).phase.alive = true ∧
      (s.procs ⟨1, 2, 1⟩).phase.alive = true ∧
      (s.procs ⟨1, 0, 1⟩).inbox = [.exit 5 ⟨1, 1, 1⟩ .exit] ∧
      (s.procs ⟨1, 2, 1⟩).killPending = killCode 5 := by decide
  obtain ⟨s, hrun, hlinked, hgone, hw, hc, hinbox, hkill⟩ := hrun
  have hreach : system.ReachableUnder LinkOk s := .runUnder (.start rfl) hrun
  refine ⟨s, hrun, ?_, ?_, hinbox, hkill⟩
  · exact link_signalled hreach (by simp [hlinked]) (.inr ⟨rfl, rfl⟩) hgone hw
  · exact link_signalled hreach (by simp [hlinked]) (.inl ⟨rfl, rfl⟩) hgone hc

/-- Process 0 gets no memory for the entry of process 1. -/
def linkWithoutMemory : List Act :=
  let w : Pid := ⟨1, 0, 1⟩
  let t : Pid := ⟨1, 1, 1⟩
  [.spawn w, .spawn t, .link w t, .advance w true true, .advance w true true,
    .advance w false true, .exit t (.exitSelf 5 none), .detach t] ++
  replicate 3 (.notify t true)

/-- Process 0 finds process 1 alive, process 1 clears its `alive` flag, and process 0 gets both
entries but is refused under the stripe lock. -/
def exitDuringLink : List Act :=
  let w : Pid := ⟨1, 0, 1⟩
  let t : Pid := ⟨1, 1, 1⟩
  [.spawn w, .spawn t, .link w t, .exit t (.exitSelf 5 none)] ++
  replicate 4 (.advance w true true) ++ [.detach t] ++ replicate 3 (.notify t true)

/-- Process 1 links process 2 and has read the head of its own list when process 0, under the
stripe lock, puts its entry there; the store of process 1 then drops it. -/
def lostEntry : List Act :=
  let w : Pid := ⟨1, 0, 1⟩
  let t : Pid := ⟨1, 1, 1⟩
  let c : Pid := ⟨1, 2, 1⟩
  [.spawn w, .spawn t, .spawn c, .link t c, .advance t true true, .link w t] ++
  replicate 5 (.advance w true true) ++ replicate 4 (.advance t true true) ++
  [.exit t (.exitSelf 5 none), .detach t] ++ replicate 5 (.notify t true)

/-- Process 0's `xtc_link` has returned `XTC_OK`, process 1 has exited with code 5, and process 0
lives on and has heard nothing. -/
def State.LinkedWithoutSignal (s : State) : Prop :=
  (⟨1, 0, 1⟩, ⟨1, 1, 1⟩) ∈ s.linked ∧ (s.procs ⟨1, 0, 1⟩).rc = .ok ∧
  (s.procs ⟨1, 1, 1⟩).phase = .gone ∧ (s.procs ⟨1, 1, 1⟩).exitReason = 5 ∧
  (s.procs ⟨1, 0, 1⟩).phase.alive = true ∧ (s.procs ⟨1, 0, 1⟩).inbox = [] ∧
  (s.procs ⟨1, 0, 1⟩).killPending = 0

instance (s : State) : Decidable s.LinkedWithoutSignal :=
  inferInstanceAs (Decidable (_ ∧ _ ∧ _ ∧ _ ∧ _ ∧ _ ∧ _))

theorem link_without_signal : (∃ s ∈ system.run empty linkWithoutMemory, s.LinkedWithoutSignal) ∧
    (∃ s ∈ system.run empty exitDuringLink, s.LinkedWithoutSignal) ∧
    (∃ s ∈ system.run empty lostEntry, s.LinkedWithoutSignal) := by
  decide

end LibXtc.Proc

import LibXtc.Proc.Finalizers

/-!
# Guaranteed release

The walk pops the marker of a scope before it runs the scope, so a jump out of one of its finalizers
loses the older ones. In every other case what an unwinding leaves behind is found again by the walk
on the exit path, before the links and the monitors are notified.
-/

namespace LibXtc.Unwind

open Foundations Registry List Function

/-- Scopes that are closed stay so. -/
def Registry.Keeps (r r' : Registry) : Prop :=
  ∀ sc, sc < r.next → (r.scopes sc).closed = true → sc < r'.next ∧ (r'.scopes sc).closed = true

namespace Registry.Keeps

variable {r r' : Registry} {sc f : ℕ}

theorem refl (r : Registry) : r.Keeps r := fun _ hlt hcl => ⟨hlt, hcl⟩

theorem trans {r'' : Registry} (h : r.Keeps r') (h' : r'.Keeps r'') : r.Keeps r'' :=
  fun sc hlt hcl => h' sc (h sc hlt hcl).1 (h sc hlt hcl).2

theorem accept (r : Registry) (o : Option ℕ) : r.Keeps (r.accept o) :=
  fun _ hlt hcl => ⟨Nat.lt_succ_of_lt hlt, hcl⟩

theorem setScope {v : Scope} (hv : (r.scopes sc).closed = true → v.closed = true) :
    r.Keeps (r.setScope sc v) := by
  refine fun x hlt hcl => ⟨hlt, ?_⟩
  by_cases hx : x = sc
  · subst hx
    simp only [Registry.setScope, update_self]
    exact hv hcl
  · simp only [Registry.setScope, update_of_ne hx]
    exact hcl

theorem scopeOpen (r : Registry) : r.Keeps r.scopeOpen := by
  refine fun x hlt hcl => ⟨Nat.lt_succ_of_lt hlt, ?_⟩
  simp only [Registry.scopeOpen, update_of_ne (Nat.ne_of_lt hlt)]
  exact hcl

theorem recoveryTrack (r : Registry) (f : ℕ) : r.Keeps (r.recoveryTrack f) := by
  unfold Registry.recoveryTrack
  split
  · exact accept r none
  · exact refl r

theorem deferred (r : Registry) (sc f : ℕ) : r.Keeps (r.deferred sc f) :=
  (setScope (v := { r.scopes sc with fins := ⟨r.next, f⟩ :: (r.scopes sc).fins }) id).trans
    (accept _ (some sc))

end Registry.Keeps

/-- The invariant of a process that has not notified. -/
structure Guarded (s : State) : Prop where
  accounted : Accounted s.reg s.control
  ordered : Ordered s.reg
  shaped : Shaped s.control
  run : ∀ sc, s.control.head? = some (.closeEnd sc) ∨ s.control.head? = some (.recoverEnd sc) →
    (s.reg.scopes sc).fins = []
  released : s.control.head? = some .notify → s.reg.recov = []
  closing : ∀ sc, .scopeRun sc ∈ s.control →
    sc < s.reg.next ∧ (s.reg.scopes sc).closed = true
  frame : ∀ f rest, s.frame = some (f, rest) → Free (under rest)
  running : s.notified = false

/-- A scope leaves the walk only when it is empty. -/
def State.KeepsWalk (s : State) (ctl : List Ins) : Prop :=
  ∀ sc ∈ walked s.control, (s.reg.scopes sc).fins ≠ [] → sc ∈ walked ctl

namespace Guarded

variable {code : ℕ → List Op} {s s' : State} {i : Ins} {ctl : List Ins} {r : Registry} {sc : ℕ}
  {ok scope entry : Bool}

theorem start (main : ℕ) : Guarded (State.start code main) := by
  have hend : Shaped [Ins.bodyReturned] := nofun
  have hfree : Free [Ins.bodyReturned] := .cons rfl
  have hhead := hfree.ops (code main)
  have hwalk : walked (body code main ++ [.bodyReturned]) = [] := walked_ops (code main) _
  refine ⟨?_, ?_, hend.ops hfree (code main), ?_, ?_, ?_, nofun, rfl⟩
  · have hempty : Accounted (State.start code main).reg [] :=
      ⟨.refl _, .nil, nofun, .nil, nofun, nofun, fun _ => nofun⟩
    exact hempty.control hwalk
  · exact ⟨nofun, fun _ => nofun, nofun, nofun, .nil, fun _ => .nil, nofun, nofun⟩
  · rintro sc (h | h) <;> cases hhead _ h
  · intro h
    cases hhead _ h
  · intro sc hsc
    rcases mem_append.mp hsc with hop | hlast
    · obtain ⟨o, -, ho⟩ := mem_map.mp hop
      cases ho
    · cases mem_singleton.mp hlast

theorem setKill (h : Guarded s) (k : Kill) : Guarded { s with kill := k } :=
  { h with }

/-- The control stack is replaced. -/
theorem setControl (h : Guarded s) {l : List ℕ} (hwalk : walked s.control = l ++ walked ctl)
    (hkeep : s.KeepsWalk ctl) (hshaped : Shaped ctl) (hfree : Free ctl)
    (hruns : ∀ sc, .scopeRun sc ∈ ctl → .scopeRun sc ∈ s.control) :
    Guarded { s with control := ctl } := by
  refine { h with
    accounted := h.accounted.drop hwalk fun sc hsc => ?_
    shaped := hshaped
    run := ?_
    released := ?_
    closing := fun sc hsc => h.closing sc (hruns sc hsc) }
  · by_contra hfins
    have hnodup := (nodup_append.mp h.accounted.nodup).2.1
    rw [hwalk] at hnodup
    have hin := hkeep sc (hwalk ▸ mem_append_left _ hsc) hfins
    exact (nodup_append.mp hnodup).2.2 sc hsc sc hin rfl
  · rintro sc (hhead | hhead) <;> cases hfree _ hhead
  · intro hhead
    cases hfree _ hhead

/-- The walk stays where it is. -/
theorem keepWalk (h : Guarded s) (hwalk : walked s.control = walked ctl) (hshaped : Shaped ctl)
    (hfree : Free ctl) (hruns : ∀ sc, .scopeRun sc ∈ ctl → .scopeRun sc ∈ s.control) :
    Guarded { s with control := ctl } :=
  h.setControl (l := []) hwalk (fun _ hsc _ => hwalk ▸ hsc) hshaped hfree hruns

/-- The first instruction is taken off. -/
theorem pop (h : Guarded { s with control := i :: s.control }) (hwalks : i.walks = none)
    (hfree : Free s.control) : Guarded s :=
  keepWalk (s := { s with control := i :: s.control }) h (walked_cons hwalks _) h.shaped.tail hfree
    fun _ hsc => .tail _ hsc

section

variable (h : Guarded s)
include h

section

variable (hfree : Free s.control)
include hfree

theorem push (hi : i.plain = true ∨ i = .recovRelease) :
    Guarded { s with control := i :: s.control } := by
  obtain ⟨hwalks, hfollows, hrun⟩ := Ins.of_plain hi
  refine h.keepWalk (walked_cons hwalks _).symm (h.shaped.cons hfree hi) (.cons hfollows) ?_
  exact fun sc hsc => (mem_cons.mp hsc).resolve_left fun heq => hrun sc heq.symm

theorem pushOps (ops : List Op) : Guarded { s with control := ops.map .op ++ s.control } := by
  refine h.keepWalk (walked_ops ops _).symm (h.shaped.ops hfree ops) (hfree.ops ops) ?_
  intro sc hsc
  rcases mem_append.mp hsc with hop | hold
  · obtain ⟨o, -, ho⟩ := mem_map.mp hop
    cases ho
  · exact hold

/-- A call whose end leaves a plain instruction. -/
theorem call (hi : i.plain = true) (code : ℕ → List Op) (f : ℕ) : Guarded (s.call code f [i]) := by
  exact pushOps (h.push hfree (.inl hi)) (.cons (Ins.of_plain (.inl hi)).2.1) (code f)

/-- The registry changes. -/
theorem setReg (hacc : Accounted r s.control) (hord : Ordered r) (hkeeps : s.reg.Keeps r) :
    Guarded { s with reg := r } := by
  refine { h with accounted := hacc, ordered := hord, run := ?_, released := ?_, closing := ?_ }
  · rintro sc (hhead | hhead) <;> cases hfree _ hhead
  · intro hhead
    cases hfree _ hhead
  · exact fun sc hsc => hkeeps sc (h.closing sc hsc).1 (h.closing sc hsc).2

end

/-- The process leaves for the exit path, or for the default frame. -/
theorem jump (hkeep : s.KeepsWalk ctl)
    (hwalk : walked ctl = []) (hshaped : Shaped ctl) (hfree : Free ctl)
    (hruns : ∀ sc, .scopeRun sc ∉ ctl) : Guarded { s with control := ctl } :=
  h.setControl (by rw [hwalk, append_nil]) hkeep hshaped hfree fun sc hsc => absurd hsc (hruns sc)

theorem unwind (reason : ℤ) (death : Death)
    (hkeep : s.KeepsWalk [.procExit]) : Guarded (s.unwind reason death) := by
  exact { h.jump hkeep rfl nofun (.cons rfl) (by simp) with }

theorem killDeliver (hkeep : s.KeepsWalk s.killDeliver.control) : Guarded s.killDeliver := by
  unfold State.killDeliver at hkeep ⊢
  split
  · exact h
  split
  · exact { h with }
  · simp only [*] at hkeep
    exact h.unwind _ _ hkeep

theorem maskDrain (hkeep : s.KeepsWalk s.maskDrain.control) : Guarded s.maskDrain := by
  unfold State.maskDrain at hkeep ⊢
  split
  · exact h
  · simp only [*] at hkeep
    exact (h.setKill _).unwind _ _ hkeep

theorem maskLeave (hkeep : s.KeepsWalk s.maskLeave.control) : Guarded s.maskLeave :=
  (h.setKill _).maskDrain hkeep

theorem fault {sig : ℕ} (ht : s.fault code sig = some s')
    (hkeep : s.KeepsWalk s'.control) : Guarded s' := by
  unfold State.fault at ht
  split at ht
  · split at ht
    · cases ht
      exact { h.jump hkeep rfl ⟨nofun, nofun⟩ (.cons rfl) (by simp) with }
    · next f rest hframe =>
      split at ht <;> cases ht
      next hsuffix =>
      obtain ⟨l, hl⟩ := hsuffix
      obtain ⟨ops, hops⟩ := exists_ops rest
      have hfree := h.frame f rest hframe
      have hwalk : walked rest = walked (under rest) := by
        rw [hops, walked_ops, ← hops]
      have hunder : Guarded { s with control := under rest } := by
        refine h.setControl (l := walked l) ?_ ?_ (h.shaped.of_suffix ⟨l, hl⟩) hfree
          fun sc hsc => hl ▸ mem_append_right l hsc
        · rw [← hl, walked_append]
        · simpa only [State.KeepsWalk, body, walked_ops, hwalk] using hkeep
      have hrest : Guarded { s with control := rest } := hops ▸ hunder.pushOps hfree ops
      have hfreerest : Free rest := hops ▸ hfree.ops ops
      exact { hrest.pushOps hfreerest (code f) with }
  · cases ht
    exact { h with }

/-- The loop of a closed scope begins. -/
theorem runScope {j : Ins} (hacc : Accounted r (.scopeRun sc :: j :: ctl)) (hord : Ordered r)
    (hkeeps : s.reg.Keeps r) (hj : j = .closeEnd sc ∨ j = .recoverEnd sc) (hshaped : Shaped ctl)
    (hfree : Free ctl) (hruns : ∀ sc, .scopeRun sc ∈ ctl → .scopeRun sc ∈ s.control)
    (hsc : sc < r.next ∧ (r.scopes sc).closed = true) :
    Guarded { s with reg := r, control := .scopeRun sc :: j :: ctl } := by
  refine { h with
    accounted := hacc
    ordered := hord
    shaped := hshaped.scope hfree hj
    run := nofun
    released := nofun
    closing := fun x hx => ?_ }
  rcases mem_cons.mp hx with heq | hx
  · cases heq
    exact hsc
  rcases mem_cons.mp hx with rfl | hx
  · rcases hj with hj | hj <;> cases hj
  · have hold := h.closing x (hruns x hx)
    exact hkeeps x hold.1 hold.2

section

variable (hfree : Free s.control)
include hfree

/-- A scope is closed: its marker stays until the finalizers have run. -/
theorem scopeClose (ht : s.scopeClose sc = some s') : Guarded s' := by
  unfold State.scopeClose at ht
  split at ht <;> cases ht
  next hopen =>
  obtain ⟨hlive, hcl⟩ := hopen
  have hmark := (h.accounted.placed sc hlive).1 (by simpa using hcl)
  have hloc : sc ∈ s.reg.located s.control := mem_append_left _ hmark
  have hacc : Accounted (s.reg.setScope sc { s.reg.scopes sc with closed := true, closing := true })
      s.control := h.accounted.setScope rfl (fun _ => hlive) fun _ => ⟨nofun, fun _ => hloc⟩
  refine { h.runScope (hacc.control rfl) (h.ordered.setFlags rfl fun _ => rfl)
    (.setScope fun _ => rfl) (.inl rfl) h.shaped hfree (fun _ hsc => hsc)
    ⟨h.accounted.scope_lt sc hloc, ?_⟩ with }
  simp only [setScope, update_self]

theorem acquired (use release : ℕ) (scope entry : Bool) :
    Guarded (s.acquired code use release scope entry) := by
  unfold State.acquired
  have hopen := h.accounted.scopeOpen
  have hself : s.reg.scopeOpen.scopes s.reg.next = ⟨[], false, false, true⟩ :=
    update_self ..
  split
  · split
    · -- the release is registered in the new scope
      have hlive : (s.reg.scopeOpen.scopes s.reg.next).live = true := by rw [hself]
      have hcl : (s.reg.scopeOpen.scopes s.reg.next).closed = false := by rw [hself]
      have hset := h.setReg hfree (hopen.deferred hlive hcl release)
        (h.ordered.scopeOpen.deferred_open hopen hlive hcl release)
        ((Registry.Keeps.scopeOpen s.reg).trans (.deferred _ _ release))
      have hpush := hset.push hfree (i := .closeScope s.reg.next) (.inl rfl)
      have hbody := hpush.pushOps (.cons rfl) (code use)
      exact hbody.push (Free.ops (.cons rfl) (code use)) (.inl rfl)
    · have hfins : (s.reg.scopeOpen.scopes s.reg.next).fins = [] := by rw [hself]
      have hclose := hopen.close hfins
      have hord := (h.ordered.scopeOpen.sublist (erase_sublist (a := .scope s.reg.next))).free
        s.reg.next
      have hkeeps : s.reg.Keeps ((s.reg.scopeOpen.scopeDropMarker s.reg.next).free s.reg.next) :=
        (Registry.Keeps.scopeOpen s.reg).trans (.setScope id)
      exact (h.setReg hfree hclose.acceptStart (hord.acceptStart hclose)
        (hkeeps.trans (.accept _ none))).call hfree rfl code release
  · exact (h.setReg hfree h.accounted.acceptStart (h.ordered.acceptStart h.accounted)
      (.accept _ none)).call hfree rfl code release

theorem scopeDefer (hlive : (s.reg.scopes sc).live = true) (f : ℕ) :
    Guarded { s with reg := s.reg.scopeDefer sc f } := by
  unfold Registry.scopeDefer
  split
  · exact h
  · next hroom =>
    have hopen : (s.reg.scopes sc).closed = false := by
      cases hcl : (s.reg.scopes sc).closed with
      | false => rfl
      | true => exact absurd (.inl hcl) hroom
    exact h.setReg hfree (h.accounted.deferred hlive hopen f)
      (h.ordered.deferred_open h.accounted hlive hopen f) (.deferred _ sc f)

theorem execOp {ok : Bool} {o : Op} (ht : s.execOp code ok o = some s')
    (hkeep : s.KeepsWalk s'.control) : Guarded s' := by
  cases o <;> simp only [State.execOp] at ht
  case park =>
    cases ht
    exact h.killDeliver hkeep
  case exitSelf reason =>
    cases ht
    exact h.unwind _ _ hkeep
  case fault sig => exact h.fault ht hkeep
  case recoveryTrack f =>
    cases ht
    exact h.setReg hfree (h.accounted.recoveryTrack f) (h.ordered.recoveryTrack h.accounted f)
      (.recoveryTrack _ f)
  case scopeOpen v =>
    split at ht <;> cases ht
    · exact h.setReg hfree { h.accounted.scopeOpen with } { h.ordered.scopeOpen with }
        (.scopeOpen _)
    · exact h.setReg hfree { h.accounted with } { h.ordered with } (.refl _)
  case scopeDefer v f =>
    split at ht
    · cases ht
      exact h
    · split at ht <;> cases ht
      next hlive => exact h.scopeDefer hfree hlive f
  case scopeClose v =>
    split at ht
    · cases ht
      exact h
    · exact h.scopeClose hfree ht
  case bracket acquire use release =>
    cases ht
    exact (h.setKill s.kill.mask).call hfree rfl code acquire
  case uncancelable f | masked f =>
    cases ht
    exact (h.setKill s.kill.mask).call hfree rfl code f
  case cancelPoll f =>
    split at ht
    · cases ht
      exact h.pushOps hfree (code f)
    · split at ht <;> cases ht
      · exact (h.setKill { s.kill with depth := 0 }).call hfree rfl code f
      · exact (h.setKill _).maskDrain hkeep
  case recoveryArm f =>
    cases ht
    refine { h with frame := ?_ }
    rintro _ _ ⟨⟩
    exact h.shaped.free_under hfree
  case recoveryCleanup =>
    cases ht
    exact { (h.push hfree (.inl rfl)).push (.cons rfl) (.inr rfl) with }

end

end

/-- One turn of the walk. -/
theorem recovRelease (h : Guarded { s with control := .recovRelease :: s.control })
    (ht : s.recovRelease code = some s') : Guarded s' := by
  have hfree : Free (Ins.recovRelease :: s.control) := .cons rfl
  unfold State.recovRelease at ht
  split at ht
  · -- the registry is empty: the walk ends
    next hrecov =>
    cases ht
    refine { h with
      accounted := h.accounted.control rfl
      shaped := h.shaped.tail
      run := ?_
      released := fun _ => hrecov
      closing := fun sc hsc => h.closing sc (.tail _ hsc) }
    rintro sc (hhead | hhead) <;> cases h.shaped.before hhead rfl
  · next id f rest hrecov =>
    cases ht
    have hset := h.setReg hfree (h.accounted.popCallback hrecov)
      (h.ordered.popCallback h.accounted hrecov) (.refl _)
    exact hset.pushOps hfree (code f)
  · next sc rest hrecov =>
    split at ht <;> cases ht
    have hacc : Accounted _ (.scopeRun sc :: .recoverEnd sc :: .recovRelease :: s.control) :=
      h.accounted.unmark (v := { s.reg.scopes sc with closed := true }) (.of_eq hrecov) rfl rfl
        fun _ => rfl
    have hsub : rest.Sublist s.reg.recov := hrecov ▸ sublist_cons_self _ rest
    have hord : Ordered ({ s.reg with recov := rest }.setScope sc
        { s.reg.scopes sc with closed := true }) :=
      (h.ordered.sublist hsub).setFlags rfl fun _ => rfl
    have hsc : sc ∈ s.reg.located s.control := by
      refine mem_append_left _ ?_
      rw [marked, hrecov]
      exact mem_cons_self
    refine { h.runScope hacc hord (.setScope fun _ => rfl)
      (.inr rfl) h.shaped hfree (fun _ hsc => hsc)
      ⟨h.accounted.scope_lt sc hsc, ?_⟩ with }
    simp only [setScope, update_self]

/-- One turn of the loop of a scope. -/
theorem scopeRun (h : Guarded { s with control := .scopeRun sc :: s.control })
    (ht : s.scopeRun code sc = some s') : Guarded s' := by
  have hfree : Free (Ins.scopeRun sc :: s.control) := .cons rfl
  unfold State.scopeRun at ht
  split at ht
  case isFalse => cases ht
  next hlive =>
  split at ht <;> cases ht
  · next hfins =>
    refine { h with
      accounted := h.accounted.control rfl
      shaped := h.shaped.tail
      run := ?_
      released := ?_
      closing := fun sc hsc => h.closing sc (.tail _ hsc) }
    · rintro sc' (hhead | hhead)
      · rcases h.shaped.before hhead with heq | heq <;> cases heq
        exact hfins
      · rcases h.shaped.before hhead with heq | heq <;> cases heq
        exact hfins
    · intro hhead
      rcases h.shaped.before hhead with heq | heq <;> cases heq
  · next fin fins hfins =>
    have hset := h.setReg hfree (h.accounted.popFin hlive hfins)
      (h.ordered.popFin h.accounted (h.closing sc mem_cons_self).2 hfins)
      (.setScope (fun h => h))
    exact hset.pushOps hfree (code fin.f)

/-- The end of a scope that the program closes. -/
theorem closeEnd (h : Guarded { s with control := .closeEnd sc :: s.control })
    (ht : s.exec code ok scope entry (.closeEnd sc) = some s')
    (hkeep : s.KeepsWalk s'.control) : Guarded s' := by
  have hfree : Free s.control := fun j hj => h.shaped.before hj
  have hpop : Guarded s := h.pop rfl hfree
  simp only [State.exec] at ht
  split at ht <;> cases ht
  refine (hpop.setReg hfree (hpop.accounted.close (h.run sc (.inl rfl)))
    ((hpop.ordered.sublist erase_sublist).free sc)
    (.setScope fun h => h)).maskLeave fun x hx hxfins => ?_
  exact hkeep x hx (fins_free (s.reg.scopeDropMarker sc) sc x ▸ hxfins)

/-- The end of a scope that the walk ran. -/
theorem recoverEnd (h : Guarded { s with control := .recoverEnd sc :: s.control }) :
    Guarded { s with reg := s.reg.free sc } := by
  have hfree : Free s.control := fun j hj => h.shaped.before hj
  have hpop : Guarded s := by
    refine h.setControl (l := [sc]) rfl (fun x hx hxfins => ?_) h.shaped.tail hfree
      fun _ hsc => .tail _ hsc
    rcases mem_cons.mp hx with rfl | hx
    · exact absurd (h.run x (.inr rfl)) hxfins
    · exact hx
  have hnot : sc ∉ s.reg.marked := fun hmem =>
    (nodup_append.mp h.accounted.nodup).2.2 sc hmem sc mem_cons_self rfl
  exact hpop.setReg hfree (hpop.accounted.free hnot) (hpop.ordered.free sc) (.setScope fun h => h)

/-- The last instruction of a function is replaced by the next one of the exit path. -/
theorem leave (h : Guarded { s with control := [i] }) (hwalks : i.walks = none)
    (hshaped : Shaped ctl) (hfree : Free ctl) (hwalk : walked ctl = [])
    (hruns : ∀ sc, .scopeRun sc ∉ ctl) : Guarded { s with control := ctl } := by
  refine jump (s := { s with control := [i] }) h (fun sc hsc => ?_) hwalk hshaped hfree hruns
  rw [walked_cons hwalks] at hsc
  cases hsc

theorem procExit (h : Guarded { s with control := [i] }) (hwalks : i.walks = none) :
    Guarded { s with control := [.procExit] } := by
  exact h.leave hwalks nofun (.cons rfl) rfl (by simp)

theorem exec (h : Guarded { s with control := i :: s.control })
    (ht : s.exec code ok scope entry i = some s') (hnotify : i ≠ .notify)
    (hkeep : s.KeepsWalk s'.control) : Guarded s' := by
  by_cases hplain : i.plain = true
  · have hfree := h.shaped.free hplain
    have hpop : Guarded s := h.pop (Ins.of_plain (.inl hplain)).1 hfree
    cases i <;> simp only [State.exec] at ht
    case op o => exact hpop.execOp hfree ht hkeep
    case maskLeave =>
      cases ht
      exact hpop.maskLeave hkeep
    case acquired use release =>
      split at ht <;> cases ht
      · exact hpop.acquired hfree use release scope entry
      · exact hpop.maskLeave hkeep
    case closeScope sc => exact hpop.scopeClose hfree ht
    case restore saved | cleanupEnd =>
      cases ht
      exact hpop.setKill _
    all_goals cases hplain
  · cases i
    case scopeRun sc => exact h.scopeRun ht
    case closeEnd sc => exact h.closeEnd ht hkeep
    case recoverEnd sc =>
      cases ht
      exact h.recoverEnd
    case recovRelease => exact h.recovRelease ht
    case bodyReturned | faultExit sig =>
      cases ht
      have hnil := h.shaped.eq_nil fun j hj => by cases hj.1
      rw [hnil] at h
      exact { h.procExit rfl with }
    case procExit =>
      cases ht
      have hnil := h.shaped.eq_nil fun j hj => by cases hj.1
      rw [hnil] at h
      have hshaped : Shaped [.recovRelease, .notify] := ⟨fun _ => rfl, nofun⟩
      exact { h.leave rfl hshaped (.cons rfl) rfl (by simp) with }
    case notify => exact absurd rfl hnotify
    all_goals exact absurd rfl hplain

end Guarded

/-- The process has notified its links and monitors. -/
structure Released (s : State) : Prop where
  accounted : Accounted s.reg s.control
  ordered : Ordered s.reg
  control : s.control = []
  recov : s.reg.recov = []

/-- The walk's run of a scope is not left before the last finalizer of the scope is started. -/
def State.walkOk (code : ℕ → List Op) (s : State) (a : Act) : Bool :=
  (s.step code a).all fun s' =>
    (walked s.control).all fun sc =>
      (s.reg.scopes sc).fins.isEmpty || (walked s'.control).contains sc

variable {code : ℕ → List Op} {s s' : State} {a : Act}

theorem Guarded.notify (h : Guarded { s with control := .notify :: s.control }) :
    Released { s with notified := true, control := [] } where
  accounted := by
    have hnil := h.shaped.eq_nil fun j hj => by cases hj.1
    rw [hnil] at h
    exact h.accounted.control rfl
  ordered := h.ordered
  control := rfl
  recov := h.released rfl

theorem Guarded.step (h : Guarded s) (hok : s.walkOk code a = true)
    (ht : s.step code a = some s') : Guarded s' ∨ Released s' := by
  have hkeep : s.KeepsWalk s'.control := by
    intro sc hsc hfins
    rw [State.walkOk, ht] at hok
    have hone := all_eq_true.mp hok sc hsc
    rcases Bool.or_eq_true_iff.mp hone with hnil | hin
    · exact absurd (isEmpty_iff.mp hnil) hfins
    · exact contains_iff_mem.mp hin
  cases a with
  | kill reason =>
    cases ht
    exact .inl (h.setKill _)
  | step ok scope entry =>
    simp only [State.step] at ht
    split at ht
    · cases ht
    next i rest hctl =>
    split at ht
    · cases ht
    have hi : Guarded { s with control := i :: rest } := hctl ▸ h
    by_cases hnotify : i = .notify
    · subst hnotify
      cases ht
      exact .inr (notify hi)
    · refine .inl (exec hi ht hnotify fun sc hsc => hkeep sc ?_)
      rw [hctl, walked]
      exact (List.Sublist.filterMap _ (sublist_cons_self i rest)).subset hsc

theorem Released.step (h : Released s) (ht : s.step code a = some s') :
    Released s' := by
  cases a with
  | kill reason =>
    cases ht
    exact { h with }
  | step ok scope entry =>
    rw [State.step, h.control] at ht
    cases ht

theorem guarded_or_released
    (hs : (system code).ReachableUnder (fun s a => s.walkOk code a = true) s) :
    Guarded s ∨ Released s := by
  refine hs.invariant (I := fun s => Guarded s ∨ Released s) ?_ ?_
  · rintro _ ⟨main, rfl⟩
    exact .inl (.start main)
  · rintro s a s' (h | h) hok ht
    · exact h.step hok ht
    · exact .inr (h.step ht)

/-- A marker in the registry is that of a scope in memory, so a turn of the walk is always possible.
-/
theorem Guarded.walk_isSome (h : Guarded s) (hhead : s.control.head? = some .recovRelease)
    (habort : s.aborted = false) (ok scope entry : Bool) :
    (s.step code (.step ok scope entry)).isSome = true := by
  obtain ⟨rest, hctl⟩ := head?_eq_some_iff.mp hhead
  simp only [State.step, hctl, habort, Bool.false_eq_true, if_false, State.exec, State.recovRelease]
  split
  · rfl
  · rfl
  · next sc recov hrecov =>
    have hmem : sc ∈ s.reg.marked := by
      rw [marked, hrecov]
      exact mem_cons_self
    rw [if_pos (h.accounted.live sc hmem)]
    rfl

/-- Guaranteed release. As long as the walk's run of a scope is not left while finalizers of the
scope wait, every callback that is started was accepted and is started once, and all that were
accepted have been started when the links and the monitors are notified. The finalizers of a scope
are started in the reverse order of their registration, the registry lists its records and markers
in the reverse order of theirs, and the walk, which takes the first, never meets a scope that was
freed. -/
theorem guaranteed_release
    (hs : (system code).ReachableUnder (fun s a => s.walkOk code a = true) s) :
    s.reg.started.Nodup ∧ (∀ x ∈ s.reg.started, ∃ o, (x, o) ∈ s.reg.accepted) ∧
      (s.notified = true → ∀ x o, (x, o) ∈ s.reg.accepted → x ∈ s.reg.started) ∧
      s.reg.Lifo ∧ s.reg.recov.Pairwise (fun a b => b.seq < a.seq) ∧
      (s.control.head? = some .recovRelease → s.aborted = false →
        ∀ ok scope entry, (s.step code (.step ok scope entry)).isSome = true) := by
  have hinv := guarded_or_released hs
  have hacc : Accounted s.reg s.control := hinv.elim (·.accounted) (·.accounted)
  have hord : Ordered s.reg := hinv.elim (·.ordered) (·.ordered)
  have hnodup := nodup_append.mp (hacc.perm.nodup_iff.mpr hacc.keys)
  refine ⟨hnodup.1, fun x hx => ?_, fun hnotified x o hx => ?_, hord.lifo, hord.recov, ?_⟩
  · obtain ⟨⟨y, o⟩, hy, rfl⟩ :=
      mem_map.mp (hacc.perm.mem_iff.mp (mem_append_left _ hx))
    exact ⟨o, hy⟩
  · rcases hinv with hguarded | hreleased
    · rw [hguarded.running] at hnotified
      cases hnotified
    · have hmem := hacc.perm.mem_iff.mpr (mem_map_of_mem hx)
      rcases mem_append.mp hmem with hstarted | hpending
      · exact hstarted
      · rw [pending, tracked, located, marked, hreleased.recov, hreleased.control] at hpending
        cases hpending
  · intro hhead haborted ok scope entry
    rcases hinv with hguarded | hreleased
    · exact hguarded.walk_isSome hhead haborted ok scope entry
    · rw [hreleased.control] at hhead
      cases hhead

/-- A bracket inside an open scope with two finalizers, the last of which parks and exits. -/
def nestedScopes : ℕ → List Op
  | 0 => [.recoveryTrack 9, .scopeOpen 0, .scopeDefer 0 9, .scopeDefer 0 1, .bracket 9 9 9,
      .scopeClose 0]
  | 1 => [.park, .exitSelf 7]
  | _ => []

/-- The process is killed when it has left the bracket. -/
def nestedRun : List Act :=
  replicate 11 (.step true true true) ++ [.kill 3] ++ replicate 12 (.step true true true)

theorem guaranteed_release_nestedScopes :
    ∃ s ∈ (system nestedScopes).runUnder (fun s a => s.walkOk nestedScopes a = true)
        (.start nestedScopes 0) nestedRun,
      s.notified = true ∧ s.reg.started.Nodup ∧
        ∀ x o, (x, o) ∈ s.reg.accepted → x ∈ s.reg.started := by
  refine System.exists_run ⟨0, rfl⟩ (by decide) fun s _ hs hnotified => ?_
  have h := guaranteed_release hs
  exact ⟨h.1, h.2.2.1 hnotified⟩

/-- The last finalizer of a scope exits while the walk runs it. -/
def exitInWalk : ℕ → List Op
  | 0 => [.scopeOpen 0, .scopeDefer 0 2, .scopeDefer 0 1, .exitSelf 5]
  | 1 => [.exitSelf 7]
  | _ => []

/-- A record is tracked between the opening of a scope and the registration of its finalizer. -/
def trackInScope : ℕ → List Op
  | 0 => [.scopeOpen 0, .recoveryTrack 1, .scopeDefer 0 2, .exitSelf 5]
  | _ => []

/-- A finalizer that exits in the walk loses the older ones of its scope: the process notifies with
one that was accepted and never started. And a finalizer that was registered last is started after
a record that was tracked before it, because its scope is older. -/
theorem finalizer_lost_in_walk : (∃ s ∈ (system exitInWalk).run (.start exitInWalk 0)
        (replicate 11 (.step true true true)),
      s.notified = true ∧ s.reg.accepted = [(2, some 0), (1, some 0)] ∧ s.reg.started = [2]) ∧
    ∃ s ∈ (system trackInScope).run (.start trackInScope 0) (replicate 12 (.step true true true)),
      s.notified = true ∧ s.reg.accepted = [(2, some 0), (1, none)] ∧ s.reg.started = [2, 1] := by
  decide

end LibXtc.Unwind

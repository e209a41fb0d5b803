import Mathlib.Algebra.Order.Ring.Int

/-!
# Runs of a transition system

A component is a set of initial states and a partial step function labelled by actions. The
scheduler, the allocator and the callers of the component choose the action. This file packages
the induction over runs once: a property of every reachable state follows from its initial and
its step case, and a run may be restricted to steps meeting a condition on the state before them.
-/

namespace LibXtc.Foundations

variable {σ τ α β : Type*} {ok : σ → α → Prop} {acts : List α}

/-- A transition system. `step s a = none` says that action `a` is not enabled in `s`. -/
structure System (σ α : Type*) where
  /-- The states in which a run may begin. -/
  init : σ → Prop
  /-- The state after one action. -/
  step : σ → α → Option σ

namespace System

/-- The states reached by runs in which every step, taken from `s` by `a`, satisfies `ok s a`. -/
inductive ReachableUnder (M : System σ α) (ok : σ → α → Prop) : σ → Prop
  | start {s : σ} : M.init s → ReachableUnder M ok s
  | next {s s' : σ} {a : α} :
      ReachableUnder M ok s → ok s a → M.step s a = some s' → ReachableUnder M ok s'

/-- The states reached by unrestricted runs. -/
abbrev Reachable (M : System σ α) : σ → Prop := M.ReachableUnder fun _ _ => True

/-- The state after a finite list of actions, each of which must satisfy `ok`. -/
def runUnder (M : System σ α) (ok : σ → α → Prop) [∀ s a, Decidable (ok s a)] :
    σ → List α → Option σ
  | s, [] => some s
  | s, a :: rest => if ok s a then (M.step s a).bind fun s' => M.runUnder ok s' rest else none

/-- The state after a finite list of actions. -/
abbrev run (M : System σ α) : σ → List α → Option σ := M.runUnder fun _ _ => True

variable {M : System σ α} {s : σ}

theorem run_cons {a : α} : M.run s (a :: acts) = (M.step s a).bind fun s' => M.run s' acts :=
  if_pos trivial

theorem run_append {acts' : List α} :
    M.run s (acts ++ acts') = (M.run s acts).bind fun s' => M.run s' acts' := by
  induction acts generalizing s with
  | nil => rfl
  | cons a acts ih =>
    rw [List.cons_append, run_cons, run_cons, Option.bind_assoc]
    exact congrArg _ (funext fun s' => ih)

/-- The induction rule for runs. The step case may use the condition on the step. -/
theorem ReachableUnder.invariant {I : σ → Prop} (hinit : ∀ s, M.init s → I s)
    (ht : ∀ s a s', I s → ok s a → M.step s a = some s' → I s') {s : σ}
    (hs : M.ReachableUnder ok s) : I s := by
  induction hs with
  | start h => exact hinit _ h
  | next _ hok hstep' ih => exact ht _ _ _ ih hok hstep'

/-- A weaker condition on the steps admits at least the same states. -/
theorem ReachableUnder.mono {ok' : σ → α → Prop}
    (h : ∀ s a, ok s a → ok' s a) (hs : M.ReachableUnder ok s) : M.ReachableUnder ok' s := by
  induction hs with
  | start h0 => exact .start h0
  | next _ hok ht ih => exact .next ih (h _ _ hok) ht

/-- The end of a finite list of actions is reachable from a reachable state. -/
theorem ReachableUnder.runUnder [∀ s a, Decidable (ok s a)] {s' : σ} (hs : M.ReachableUnder ok s)
    (hrun : M.runUnder ok s acts = some s') : M.ReachableUnder ok s' := by
  induction acts generalizing s with
  | nil =>
    cases hrun
    exact hs
  | cons a rest ih =>
    rw [System.runUnder] at hrun
    split at hrun
    · rename_i hok
      obtain ⟨t, ht, hrest⟩ := Option.bind_eq_some_iff.mp hrun
      exact ih (.next hs hok ht) hrest
    · cases hrun

/-- The end of a computed run is reachable. The argument may compute more of it. -/
theorem exists_run [∀ s a, Decidable (ok s a)] {s₀ : σ} {P G : σ → Prop}
    (hinit : M.init s₀) (hrun : ∃ s ∈ M.runUnder ok s₀ acts, P s)
    (h : ∀ s, (∀ {Q : σ → Prop}, (∃ s ∈ M.runUnder ok s₀ acts, Q s) → Q s) →
      M.ReachableUnder ok s → P s → G s) : ∃ s ∈ M.runUnder ok s₀ acts, P s ∧ G s := by
  obtain ⟨s, hs, hP⟩ := hrun
  refine ⟨s, hs, hP, h s (fun hQ => ?_) (.runUnder (.start hinit) hs) hP⟩
  obtain ⟨s', hs', hQ⟩ := hQ
  cases hs.symm.trans hs'
  exact hQ

/-- A computed run shows that a reachable state meets `P`. -/
theorem exists_reachable [∀ s a, Decidable (ok s a)] {s₀ : σ} {P G : σ → Prop}
    (acts : List α) (hinit : M.init s₀) (hrun : ∃ s ∈ M.runUnder ok s₀ acts, P s)
    (h : ∀ s, M.ReachableUnder ok s → P s → G s) : ∃ s, M.ReachableUnder ok s ∧ P s ∧ G s := by
  obtain ⟨s, hs, hP⟩ := hrun
  have hreach : M.ReachableUnder ok s := .runUnder (.start hinit) hs
  exact ⟨s, hreach, hP, h s hreach hP⟩

/-- A forward simulation: every step of the concrete system is matched by at most one step of
the abstract system from any related state. -/
structure Simulation (C : System σ α) (B : System τ β) (ok : σ → α → Prop) (R : σ → τ → Prop) :
    Prop where
  /-- Related initial states exist. -/
  init : ∀ s, C.init s → ∃ t, B.init t ∧ R s t
  /-- A concrete step is matched by an abstract step or by none. -/
  step : ∀ s t a s', R s t → ok s a → C.step s a = some s' →
    R s' t ∨ ∃ b t', B.step t b = some t' ∧ R s' t'

/-- Every state reached by the concrete system represents a reachable abstract state. -/
theorem Simulation.reachable {C : System σ α} {B : System τ β} {R : σ → τ → Prop}
    (hsim : Simulation C B ok R) (hs : C.ReachableUnder ok s) :
    ∃ t, B.Reachable t ∧ R s t := by
  induction hs with
  | start h =>
    obtain ⟨t, ht, hR⟩ := hsim.init _ h
    exact ⟨t, .start ht, hR⟩
  | next _ hok hstep ih =>
    obtain ⟨t, ht, hR⟩ := ih
    rcases hsim.step _ t _ _ hR hok hstep with hR' | ⟨b, t', hb, hR'⟩
    · exact ⟨t, ht, hR'⟩
    · exact ⟨t', .next ht trivial hb, hR'⟩

end System

end LibXtc.Foundations

import LibXtc.Evt.LaneTasks
import Mathlib.Algebra.Order.Group.Abs

/-!
# Proportional shares

Without a policy the ready lane with the smallest virtual time is served, and what its task used is
added to the virtual time of the lane. While the same lanes stay ready their virtual times stay
together, and so does the weighted service that they get.
-/

namespace LibXtc.Lanes

open Foundations State

/-- At the end of a run the task has the class from whose lane it was taken, and neither the
product nor the virtual time leaves the range of an `uint64_t`. -/
def State.exact (s : State) : Act → Bool
  | .finish elapsed _ =>
    match s.running with
    | none => true
    | some (t, lane) =>
      s.laneOf t = lane ∧ costOf elapsed * s.reciprocal lane < 2 ^ 64 ∧
        s.vruntime lane + accrual (costOf elapsed) (s.reciprocal lane) < 2 ^ 64
  | _ => true

/-- The lanes `R`, and no others, are ready at every pick, and no run costs `2 ^ 32` nanoseconds or
accrues more than `a`. -/
def State.during (R : List Lane) (a : ℕ) (s : State) : Act → Bool
  | .pop _ => R.all s.ready && s.lanes.all fun l => !s.ready l || decide (l ∈ R)
  | .finish elapsed _ =>
    match s.running with
    | none => true
    | some (_, lane) =>
      costOf elapsed < 2 ^ 32 ∧ accrual (costOf elapsed) (s.reciprocal lane) ≤ a
  | _ => true

/-- The loop from a state `s₀` on. -/
def interval (s₀ : State) : System State Act where
  init s := s = s₀
  step := State.act

/-- The weighted service of a lane in some runs. -/
def weighted (reciprocal : ℕ) (lane : Lane) (runs : List (Lane × ℕ)) : ℕ :=
  (runs.map fun r => if r.1 = lane then accrual r.2 reciprocal else 0).sum

theorem weighted_concat {reciprocal : ℕ} {lane l : Lane} {runs : List (Lane × ℕ)} {cost : ℕ} :
    weighted reciprocal l (runs ++ [(lane, cost)]) =
      weighted reciprocal l runs + if lane = l then accrual cost reciprocal else 0 := by
  unfold weighted
  simp

variable {s s₀ s' : State} {t : Task} {lane l A B : Lane} {R : List Lane} {a : ℕ}

/-- In an interval in which the lanes `R` are ready, since its start at `s₀`. -/
structure Together (s₀ : State) (R : List Lane) (a : ℕ) (s : State) : Prop where
  policy : s.maxBypass = none
  classes : s₀.classes.length ≤ s.classes.length
  reciprocal : ∀ l ∈ R, s.reciprocal l = s₀.reciprocal l
  served : ∃ runs, s.log = s₀.log ++ runs ∧
    ∀ l ∈ R, s.vruntime l = s₀.vruntime l + weighted (s₀.reciprocal l) l runs
  running : ∀ t lane, s.running = some (t, lane) →
    0 < s.classes.length ∧ lane ∈ R ∧ ∀ l ∈ R, s.vruntime lane ≤ s.vruntime l
  apart : ∀ A ∈ R, ∀ B ∈ R,
    (s.vruntime A : ℤ) - s.vruntime B ≤ max ((s₀.vruntime A : ℤ) - s₀.vruntime B) a

section

variable (h : Together s₀ R a s)
include h

/-- A step that changes no virtual time of these lanes, and begins or ends no run. -/
theorem Together.keep (hpol : s'.maxBypass = s.maxBypass)
    (hclasses : s.classes.length ≤ s'.classes.length)
    (hreciprocal : ∀ l ∈ R, s'.reciprocal l = s.reciprocal l)
    (hvr : ∀ l ∈ R, s'.vruntime l = s.vruntime l) (hlog : s'.log = s.log)
    (hrun : ∀ t lane, s'.running = some (t, lane) →
      0 < s'.classes.length ∧ lane ∈ R ∧ ∀ l ∈ R, s.vruntime lane ≤ s.vruntime l) :
    Together s₀ R a s' := by
  obtain ⟨runs, hruns, hserved⟩ := h.served
  refine ⟨hpol.trans h.policy, h.classes.trans hclasses,
    fun l hl => (hreciprocal l hl).trans (h.reciprocal l hl), ⟨runs, hlog.trans hruns, ?_⟩, ?_, ?_⟩
  · intro l hl
    rw [hvr l hl]
    exact hserved l hl
  · intro t lane ht
    obtain ⟨hpos, hlane, hleast⟩ := hrun t lane ht
    refine ⟨hpos, hlane, fun l hl => ?_⟩
    rw [hvr lane hlane, hvr l hl]
    exact hleast l hl
  · intro A hA B hB
    rw [hvr A hA, hvr B hB]
    exact h.apart A hA B hB

theorem Together.finish {elapsed : ℕ} {resched : Option Bool}
    (hduring : s.during R a (.finish elapsed resched) = true)
    (hexact : s.exact (.finish elapsed resched) = true) (hs' : s.finish elapsed resched = some s') :
    Together s₀ R a s' := by
  obtain ⟨t, lane, hf⟩ := Finished.of_finish hs'
  obtain ⟨hpos, hlane, hleast⟩ := h.running t lane hf.running
  simp only [exact, during, hf.running, decide_eq_true_eq] at hexact hduring
  obtain ⟨htag, -, hfits⟩ := hexact
  have hvr : ∀ l, s'.vruntime l = s.vruntime l +
      if lane = l then accrual (costOf elapsed) (s.reciprocal l) else 0 := by
    intro l
    rw [hf.vruntime_exact htag hfits]
    by_cases hl : lane = l
    · subst hl
      rw [if_pos ⟨hpos, rfl⟩, if_pos rfl]
    · rw [if_neg fun hc => hl hc.2.symm, if_neg hl]
  obtain ⟨runs, hruns, hserved⟩ := h.served
  refine ⟨hf.maxBypass.trans h.policy, h.classes.trans_eq hf.length.symm,
    fun l hl => (hf.reciprocal l).trans (h.reciprocal l hl),
    ⟨runs ++ [(lane, costOf elapsed)], ?_, fun l hl => ?_⟩, ?_, ?_⟩
  · rw [hf.log, hruns, List.append_assoc]
  · rw [hvr, weighted_concat, hserved l hl, h.reciprocal l hl, Nat.add_assoc]
  · intro t' lane' hrun
    rw [hf.idle] at hrun
    cases hrun
  · intro A hA B hB
    have hold := h.apart A hA B hB
    have hB' := hleast B hB
    rw [hvr A, hvr B]
    by_cases hAl : lane = A
    · subst hAl
      split <;> omega
    · rw [if_neg hAl]
      split <;> omega

theorem Together.pop {choice : Option Lane} (hA : A ∈ R) (hB : B ∈ R) (hAB : A ≠ B)
    (hduring : s.during R a (.pop choice) = true) (hs' : s.pop choice = some s') :
    Together s₀ R a s' := by
  rcases pop_cases h.policy hs' with rfl | ⟨t, lane, s₁, -, htook, hleast, rfl⟩
  · exact h
  · obtain ⟨hready, hothers⟩ := Bool.and_eq_true_iff.mp hduring
    rw [List.all_eq_true] at hready hothers
    have hpos : 0 < s.classes.length :=
      classes_pos (mem_lanes_of_ready (hready A hA)) (mem_lanes_of_ready (hready B hB)) hAB
    have hlane : lane ∈ R := by
      simpa [htook.ready] using hothers lane (mem_lanes_of_ready htook.ready)
    refine h.keep htook.maxBypass htook.length.ge (fun l _ => htook.reciprocal l)
      (fun l _ => htook.vruntime l) htook.log ?_
    intro t' lane' hrun
    cases hrun
    exact ⟨htook.length.symm ▸ hpos, hlane, fun l hl => hleast hpos l (hready l hl)⟩

theorem Together.act {act : Act} (hR : ∀ l ∈ R, l ∈ s₀.lanes) (hA : A ∈ R) (hB : B ∈ R)
    (hAB : A ≠ B) (hduring : s.during R a act = true) (hexact : s.exact act = true)
    (hs' : s.act act = some s') : Together s₀ R a s' := by
  have hlanes : ∀ l ∈ R, l ∈ s.lanes := by
    intro l hl
    refine mem_lanes.mpr fun c hc => ?_
    exact (mem_lanes.mp (hR l hl) c hc).trans_le h.classes
  cases act with
  | enqueue t pushed =>
    cases hs'
    have hput := put_enqueue s t pushed
    refine h.keep hput.maxBypass hput.length.ge (fun l _ => hput.reciprocal l)
      (fun l _ => hput.vruntime l) hput.log ?_
    rw [hput.running, hput.length]
    exact h.running
  | classCreate shares =>
    cases hs'
    rcases classCreate_cases s shares with ⟨-, hsame⟩ | ⟨-, hcreated⟩
    · rw [hsame]
      exact h
    · refine h.keep hcreated.maxBypass ?_ (fun l hl => hcreated.reciprocal l (hlanes l hl))
        (fun l hl => hcreated.vruntime l (hlanes l hl)) hcreated.log ?_
      · rw [hcreated.length]
        exact Nat.le_succ _
      · rw [hcreated.running, hcreated.length]
        intro t lane hrun
        obtain ⟨hpos, hrest⟩ := h.running t lane hrun
        exact ⟨Nat.lt_succ_of_lt hpos, hrest⟩
  | pop choice => exact h.pop hA hB hAB hduring hs'
  | setClass schedClass =>
    unfold State.act setClass at hs'
    dsimp only at hs'
    split at hs'
    · cases hs'
    · rename_i t lane hrun
      cases hs'
      refine h.keep rfl (Nat.le_refl _) (fun l _ => rfl) (fun l _ => rfl) rfl ?_
      intro t' lane' ht'
      cases ht'
      exact h.running t lane hrun
  | finish elapsed resched => exact h.finish hduring hexact hs'

end

/-- In an interval in which the lanes `R` and no others are ready, the virtual times of two of them
stay within the larger of their distance at the start and the largest accrual, and the weighted
service that they get differs by no more than that distance and twice the largest accrual: as long
as every task ends its run in the class from whose lane it was taken and no number wraps. -/
theorem proportional_share {D : ℕ} (hidle : s₀.running = none) (hpolicy : s₀.maxBypass = none)
    (hR : ∀ l ∈ R, l ∈ s₀.lanes)
    (hs : (interval s₀).ReachableUnder
      (fun s act => s.during R a act = true ∧ s.exact act = true) s)
    (hA : A ∈ R) (hB : B ∈ R)
    (hD : |(s₀.vruntime A : ℤ) - s₀.vruntime B| ≤ D) :
    |(s.vruntime A : ℤ) - s.vruntime B| ≤ max D a ∧
      |(weighted (s.reciprocal A) A (s.log.drop s₀.log.length) : ℤ) -
        weighted (s.reciprocal B) B (s.log.drop s₀.log.length)| ≤ D + 2 * a := by
  by_cases hAB : A = B
  · subst hAB
    simp
    omega
  have h : Together s₀ R a s := by
    refine hs.invariant ?_ ?_
    · rintro s rfl
      refine ⟨hpolicy, Nat.le_refl _, fun l _ => rfl, ⟨[], ?_, ?_⟩, ?_, ?_⟩
      · simp
      · simp [weighted]
      · intro t lane hrunning
        rw [hidle] at hrunning
        cases hrunning
      · intro A _ B _
        exact le_max_left _ _
    · intro s act s' h ⟨hduring, hexact⟩ hs'
      exact h.act hR hA hB hAB hduring hexact hs'
  obtain ⟨runs, hlog, hserved⟩ := h.served
  have hAB' := h.apart A hA B hB
  have hBA' := h.apart B hB A hA
  rw [abs_le] at hD
  rw [hlog, List.drop_left, h.reciprocal A hA, h.reciprocal B hB]
  have hAv := hserved A hA
  have hBv := hserved B hB
  constructor
  · rw [abs_le]
    omega
  · rw [abs_le]
    omega

/-- A class of 100 shares and the default lane, both with the virtual time `v`: the queue of the
class and that of the default lane. -/
def twoLanes (v : ℕ) (queue fifo : List Task) : State :=
  { create none with
    classes := [⟨100, 41943, v, queue⟩], fifo := fifo, defaultVruntime := v }

/-- Three runs of two lanes with the same shares. -/
theorem proportional_share_even : ∃ s, (interval (twoLanes 0 [⟨some 0⟩] [⟨none⟩])).ReachableUnder
        (fun s act => s.during [none, some 0] 10239 act = true ∧ s.exact act = true) s ∧
      s.log.length = 3 ∧ |(s.vruntime none : ℤ) - s.vruntime (some 0)| ≤ max 0 10239 := by
  refine System.exists_reachable
    [.pop none, .finish 7 (some false), .pop none, .finish 1000 (some false), .pop none,
      .finish 900 (some false)] rfl (by decide) fun s hs _ => ?_
  have hshare := proportional_share (A := none) (B := some 0) (D := 0) rfl rfl (by decide) hs
    (by decide) (by decide) (by decide)
  exact hshare.1

/-- Tasks of the default lane that take a class in their run are charged to it, so that the default
lane does not move on; and a virtual time that wraps is far behind. -/
theorem virtual_times_part :
    (∃ s ∈ (interval (twoLanes 0 [⟨some 0⟩] [⟨none⟩, ⟨none⟩, ⟨none⟩])).runUnder
      (fun s act => s.during [none, some 0] 10239 act = true)
      (twoLanes 0 [⟨some 0⟩] [⟨none⟩, ⟨none⟩, ⟨none⟩])
      [.pop none, .setClass (some 0), .finish 1000 none, .pop none, .setClass (some 0),
        .finish 1000 none],
      s.vruntime none = 0 ∧ s.vruntime (some 0) = 2 * 10239 ∧
        ¬ |(s.vruntime none : ℤ) - s.vruntime (some 0)| ≤ max 0 10239) ∧
    ∃ s ∈ (interval (twoLanes (2 ^ 64 - 1) [⟨some 0⟩] [⟨none⟩])).runUnder
      (fun s act => s.during [none, some 0] 10239 act = true)
      (twoLanes (2 ^ 64 - 1) [⟨some 0⟩] [⟨none⟩])
      [.pop none, .finish 1000 (some false)],
      s.vruntime none = 10238 ∧ s.vruntime (some 0) = 2 ^ 64 - 1 ∧
        ¬ |(s.vruntime none : ℤ) - s.vruntime (some 0)| ≤ max 0 10239 := by
  decide

end LibXtc.Lanes

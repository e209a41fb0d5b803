import LibXtc.Evt.LaneShares
import LibXtc.Foundations.Catchup

/-!
# How long a ready lane waits

Virtual times are compared as they are: a lane that was idle keeps its old one. If it is far behind
when it becomes ready again, it is served until it has caught up, for as long as that takes. If no
lane is far behind at that moment, a ready lane waits for a number of picks that depends only on the
largest cost.
-/

namespace LibXtc.Lanes

open Foundations State List

/-- No accrual of a run that costs at most `cost` is larger, whatever the shares. -/
def largestAccrual (cost : ℕ) : ℕ := 1024 * max cost minQuantum

/-- No accrual is smaller. -/
def smallestAccrual : ℕ := 1023

/-- Within how many picks a ready lane is served. -/
def pickBound (cost : ℕ) : ℕ :=
  maxClasses * (2 * (2 * largestAccrual cost) / smallestAccrual) + 1

namespace State

/-- A lane with a task that waits or runs. -/
def busy (s : State) (lane : Lane) : Bool :=
  s.ready lane || s.running.any fun r => r.2 == lane

/-- No run takes longer than `cost`. -/
def cheap (cost : ℕ) : Act → Bool
  | .finish elapsed _ => elapsed ≤ cost
  | _ => true

/-- When a task is enqueued on a lane that is not busy, that lane is not behind any other by more
than the largest accrual. -/
def caughtUp (cost : ℕ) (s : State) : Act → Bool
  | .enqueue t _ =>
    s.busy (s.laneOf t) ||
      s.lanes.all fun l => s.vruntime l ≤ s.vruntime (s.laneOf t) + largestAccrual cost
  | _ => true

/-- Whether `lane` is being passed over. -/
def passing (s : State) (lane : Lane) : ℕ :=
  match s.running with
  | none => 0
  | some (_, l) => if l = lane then 0 else 1

end State

variable {s s' : State} {t : Task} {lane l : Lane} {cost elapsed r : ℕ} {resched : Option Bool}

theorem busy_iff : s.busy l = true ↔ s.ready l = true ∨ ∃ t, s.running = some (t, l) := by
  unfold busy
  rw [Bool.or_eq_true_iff]
  refine or_congr_right ?_
  cases s.running with
  | none => simp
  | some r =>
    obtain ⟨t, lane⟩ := r
    simp

theorem passing_congr (h : s'.running = s.running) (y : Lane) : s'.passing y = s.passing y := by
  unfold passing
  rw [h]

/-! ## Bounds on one accrual -/

theorem accrual_eq {c : ℕ} (h : c * r < 2 ^ 64) : accrual c r = c * r / 2 ^ 12 := by
  unfold accrual
  rw [Nat.mod_eq_of_lt h, Nat.shiftRight_eq_div_pow]

theorem smallest_le_accrual (hr : 4194 ≤ r) (hfits : costOf elapsed * r < 2 ^ 64) :
    smallestAccrual ≤ accrual (costOf elapsed) r := by
  rw [accrual_eq hfits, Nat.le_div_iff_mul_le (by decide)]
  have hcost : 1000 ≤ costOf elapsed := by
    unfold costOf minQuantum
    split <;> omega
  calc smallestAccrual * 2 ^ 12 ≤ 1000 * 4194 := by decide
    _ ≤ costOf elapsed * r := Nat.mul_le_mul hcost hr

theorem accrual_le_largest (hr : r ≤ 2 ^ 22) (helapsed : elapsed ≤ cost)
    (hfits : costOf elapsed * r < 2 ^ 64) :
    accrual (costOf elapsed) r ≤ largestAccrual cost := by
  rw [accrual_eq hfits]
  have hcost : costOf elapsed ≤ max cost minQuantum := by
    unfold costOf
    split <;> omega
  calc costOf elapsed * r / 2 ^ 12 ≤ max cost minQuantum * 2 ^ 22 / 2 ^ 12 :=
        Nat.div_le_div_right (Nat.mul_le_mul hcost hr)
    _ = largestAccrual cost := by
        unfold largestAccrual
        omega

/-- A new class starts no later than any class that is there. -/
theorem minVruntime_le {rcs : List RunClass} {rc : RunClass} (h : rc ∈ rcs) :
    minVruntime rcs ≤ rc.vruntime := by
  -- the bound is `m` itself or a virtual time of the list
  have hfold : ∀ (l : List RunClass) (m x : ℕ), x ∈ m :: l.map RunClass.vruntime →
      l.foldl (fun minvr rc => if rc.vruntime < minvr then rc.vruntime else minvr) m ≤ x := by
    intro l
    induction l with
    | nil => simp
    | cons y l ih =>
      intro m x hx
      have hle := ih (if y.vruntime < m then y.vruntime else m) _ mem_cons_self
      rw [map_cons, mem_cons, mem_cons] at hx
      rcases hx with rfl | rfl | hx
      · exact hle.trans (by split <;> omega)
      · exact hle.trans (by split <;> omega)
      · exact ih _ x (mem_cons_of_mem _ hx)
  cases rcs with
  | nil => cases h
  | cons x l => exact hfold l _ _ (mem_map_of_mem h)

/-- What holds of a loop without a policy whose lanes are never far behind. -/
structure Near (cost : ℕ) (s : State) : Prop where
  policy : s.maxBypass = none
  classes : s.classes.length ≤ maxClasses
  reciprocal : ∀ l ∈ s.lanes, 4194 ≤ s.reciprocal l ∧ s.reciprocal l ≤ 2 ^ 22
  running : ∀ t lane, s.running = some (t, lane) → lane ∈ s.lanes ∧ s.bypassed lane = 0
  behind : ∀ y, s.busy y = true → ∀ z ∈ s.lanes,
    s.vruntime z ≤ s.vruntime y + 2 * largestAccrual cost
  served : ∀ t z, s.running = some (t, z) → ∀ y, s.busy y = true →
    s.vruntime z ≤ s.vruntime y + largestAccrual cost
  idle : ∀ l, s.ready l = false → s.bypassed l = 0
  waited : ∀ y, s.ready y = true → s.bypassed y ≤
    credits s.lanes.toFinset (2 * largestAccrual cost) smallestAccrual s.vruntime y + s.passing y

section

variable (h : Near cost s)
include h

theorem Near.enqueue {pushed : Bool}
    (hcaught : s.caughtUp cost (.enqueue t pushed) = true) : Near cost (s.enqueue t pushed) := by
  have hput := put_enqueue s t pushed
  generalize s.enqueue t pushed = s' at hput
  have hvr : s'.vruntime = s.vruntime := funext hput.vruntime
  have hlanes := lanes_congr hput.length
  -- a lane is busy for the first time only if it has caught up
  have hbusy : ∀ y, s'.busy y = true → s.busy y = true ∨
      ∀ z ∈ s.lanes, s.vruntime z ≤ s.vruntime y + largestAccrual cost := by
    intro y hy
    by_cases hlane : y = s.laneOf t
    · subst hlane
      rcases Bool.or_eq_true_iff.mp hcaught with hbusy | hall
      · exact .inl hbusy
      · exact .inr fun z hz => of_decide_eq_true (all_eq_true.mp hall z hz)
    · left
      rw [busy_iff, hput.running] at hy
      rw [busy_iff]
      rwa [ready_congr (hput.others y hlane)] at hy
  refine ⟨hput.maxBypass.trans h.policy, hput.length.trans_le h.classes, ?_, ?_, ?_, ?_, ?_, ?_⟩
  · rw [hlanes]
    intro l hl
    rw [hput.reciprocal]
    exact h.reciprocal l hl
  · rw [hput.running, hlanes, hput.bypassed]
    exact h.running
  · rw [hlanes, hvr]
    intro y hy z hz
    rcases hbusy y hy with hy | hall
    · exact h.behind y hy z hz
    · have hle := hall z hz
      omega
  · rw [hput.running, hvr]
    intro t' z hz y hy
    rcases hbusy y hy with hy | hall
    · exact h.served t' z hz y hy
    · exact hall z (h.running t' z hz).1
  · rw [hput.bypassed]
    intro l hl
    refine h.idle l ?_
    by_contra hready
    rw [hput.ready (by simpa using hready)] at hl
    cases hl
  · intro y hy
    rw [hlanes, hvr, hput.bypassed, passing_congr hput.running]
    cases hready : s.ready y with
    | true => exact h.waited y hready
    | false =>
      rw [h.idle y hready]
      exact Nat.zero_le _

theorem Near.classCreate {shares : ℕ} : Near cost (s.classCreate shares) := by
  rcases classCreate_cases s shares with ⟨-, hsame⟩ | ⟨-, hcreated⟩
  · rw [hsame]
    exact h
  · generalize s.classCreate shares = s' at hcreated
    have hready : s'.ready = s.ready := funext fun l => ready_congr (hcreated.tasks l)
    have hbusy : s'.busy = s.busy := by
      funext l
      unfold busy
      rw [hready, hcreated.running]
    have hlanes : ∀ l, l ∈ s'.lanes ↔ l ∈ s.lanes ∨ l = some s.classes.length := by
      intro l
      rw [mem_lanes, mem_lanes, hcreated.length]
      cases l with
      | none => simp
      | some c =>
        simp only [Option.some.injEq, forall_eq']
        omega
    have hlane : ∀ y, s.busy y = true → y ∈ s.lanes := by
      intro y hy
      rcases busy_iff.mp hy with hy | ⟨t, ht⟩
      · exact mem_lanes_of_ready hy
      · exact (h.running t y ht).1
    refine ⟨hcreated.maxBypass.trans h.policy, hcreated.le, ?_, ?_, ?_, ?_, ?_, ?_⟩
    · intro l hl
      rcases (hlanes l).mp hl with hl | rfl
      · rw [hcreated.reciprocal l hl]
        exact h.reciprocal l hl
      · obtain ⟨n, hpos, hle, hrecip⟩ := hcreated.shares
        rw [hrecip]
        refine ⟨?_, Nat.div_le_self _ _⟩
        rw [Nat.le_div_iff_mul_le (by omega)]
        omega
    · rw [hcreated.running, hcreated.bypassed]
      intro t lane ht
      exact ⟨(hlanes lane).mpr (.inl (h.running t lane ht).1), (h.running t lane ht).2⟩
    · rw [hbusy]
      intro y hy z hz
      rw [hcreated.vruntime y (hlane y hy)]
      rcases (hlanes z).mp hz with hz | rfl
      · rw [hcreated.vruntime z hz]
        exact h.behind y hy z hz
      · -- the new class starts with the smallest virtual time of a class
        rw [hcreated.seed]
        cases hclasses : s.classes with
        | nil => exact Nat.zero_le _
        | cons rc rest =>
          have hfirst : some 0 ∈ s.lanes := by
            refine mem_lanes.mpr fun c hc => ?_
            cases hc
            simp [hclasses]
          have hbehind := h.behind y hy (some 0) hfirst
          have hmin : minVruntime (rc :: rest) ≤ rc.vruntime :=
            minVruntime_le mem_cons_self
          have hv : s.vruntime (some 0) = rc.vruntime := by simp [vruntime, hclasses]
          omega
    · rw [hcreated.running, hbusy]
      intro t z hz y hy
      rw [hcreated.vruntime z (h.running t z hz).1, hcreated.vruntime y (hlane y hy)]
      exact h.served t z hz y hy
    · rw [hready, hcreated.bypassed]
      exact h.idle
    · rw [hready]
      intro y hy
      rw [hcreated.bypassed, passing_congr hcreated.running]
      refine (h.waited y hy).trans (Nat.add_le_add_right (credits_extend ?_ ?_ ?_) _)
      · intro l hl
        rw [mem_toFinset] at hl ⊢
        exact (hlanes l).mpr (.inl hl)
      · exact mem_toFinset.mpr (mem_lanes_of_ready hy)
      · intro z hz
        exact hcreated.vruntime z (mem_toFinset.mp hz)

theorem Near.pop {choice : Option Lane} (hs' : s.pop choice = some s') :
    Near cost s' := by
  rcases pop_cases h.policy hs' with rfl | ⟨t, lane, s₁, hrun, htook, hleast, rfl⟩
  · exact h
  have hvr : (s₁.start t lane s.ready).vruntime = s.vruntime := funext htook.vruntime
  have hlanes : (s₁.start t lane s.ready).lanes = s.lanes := lanes_congr htook.length
  have hready : ∀ l, l ≠ lane → (s₁.start t lane s.ready).ready l = s.ready l :=
    fun l hl => htook.ready_other hl
  have hlane : lane ∈ s.lanes := mem_lanes_of_ready htook.ready
  -- without classes the default lane is the only one
  have hmin : ∀ l, s.ready l = true → s.vruntime lane ≤ s.vruntime l := by
    intro l hl
    by_cases hll : l = lane
    · rw [hll]
    · exact hleast (classes_pos (mem_lanes_of_ready hl) hlane hll) l hl
  have hbusy : ∀ y, (s₁.start t lane s.ready).busy y = true → s.ready y = true := by
    intro y hy
    by_cases hyl : y = lane
    · rw [hyl]
      exact htook.ready
    · rcases busy_iff.mp hy with hy | ⟨u, hu⟩
      · rw [← hready y hyl]
        exact hy
      · cases hu
        exact absurd rfl hyl
  refine ⟨htook.maxBypass.trans h.policy, htook.length.trans_le h.classes, ?_, ?_, ?_, ?_, ?_, ?_⟩
  · rw [hlanes]
    intro l hl
    have hsame : (s₁.start t lane s.ready).reciprocal l = s.reciprocal l := htook.reciprocal l
    rw [hsame]
    exact h.reciprocal l hl
  · intro u l hu
    cases hu
    rw [hlanes]
    exact ⟨hlane, if_pos rfl⟩
  · rw [hlanes, hvr]
    intro y hy z hz
    exact h.behind y (busy_iff.mpr (.inl (hbusy y hy))) z hz
  · rw [hvr]
    intro u z hz y hy
    cases hz
    have hle := hmin y (hbusy y hy)
    omega
  · intro l hl
    change (if l = lane then 0 else if s.ready l then s₁.bypassed l + 1 else 0) = 0
    by_cases heq : l = lane
    · rw [if_pos heq]
    · rw [hready l heq] at hl
      rw [if_neg heq, hl]
      rfl
  · intro y hy
    rw [hlanes, hvr]
    change (if y = lane then 0 else if s.ready y then s₁.bypassed y + 1 else 0) ≤ _
    by_cases heq : y = lane
    · rw [if_pos heq]
      exact Nat.zero_le _
    · have hwaits := hready y heq ▸ hy
      have hpassing : (s₁.start t lane s.ready).passing y = 1 := if_neg (Ne.symm heq)
      have hzero : s.passing y = 0 := by
        unfold passing
        rw [hrun]
      have hold := h.waited y hwaits
      rw [if_neg heq, if_pos hwaits, htook.bypassed, hpassing]
      omega

theorem Near.finish (hcheap : cheap cost (.finish elapsed resched) = true)
    (hexact : s.exact (.finish elapsed resched) = true) (hs' : s.finish elapsed resched = some s') :
    Near cost s' := by
  obtain ⟨t, lane, hf⟩ := Finished.of_finish hs'
  obtain ⟨hlane, hserved⟩ := h.running t lane hf.running
  simp only [exact, hf.running, decide_eq_true_eq] at hexact
  obtain ⟨htag, hproduct, hfits⟩ := hexact
  have helapsed : elapsed ≤ cost := of_decide_eq_true hcheap
  have hsmall := smallest_le_accrual (h.reciprocal lane hlane).1 hproduct
  have hlarge := accrual_le_largest (h.reciprocal lane hlane).2 helapsed hproduct
  have hvr := hf.vruntime_exact htag hfits
  generalize accrual (costOf elapsed) (s.reciprocal lane) = x at hsmall hlarge hvr
  have hmono : ∀ l, s.vruntime l ≤ s'.vruntime l := by
    intro l
    rw [hvr]
    exact Nat.le_add_right _ _
  have hlanes := lanes_congr hf.length
  have hothers : ∀ y, y ≠ lane → s'.ready y = s.ready y :=
    fun y hy => ready_congr (hf.others y (htag ▸ hy))
  have hbusy : ∀ y, s'.busy y = true → s.busy y = true := by
    intro y hy
    rcases busy_iff.mp hy with hy | ⟨u, hu⟩
    · by_cases hyl : y = lane
      · subst hyl
        exact busy_iff.mpr (.inr ⟨t, hf.running⟩)
      · rw [hothers y hyl] at hy
        exact busy_iff.mpr (.inl hy)
    · rw [hf.idle] at hu
      cases hu
  refine ⟨hf.maxBypass.trans h.policy, hf.length.trans_le h.classes, ?_, ?_, ?_, ?_, ?_, ?_⟩
  · rw [hlanes]
    intro l hl
    rw [hf.reciprocal]
    exact h.reciprocal l hl
  · intro u l hu
    rw [hf.idle] at hu
    cases hu
  · rw [hlanes]
    intro y hy z hz
    have hbehind := h.behind y (hbusy y hy) z hz
    have hlast := h.served t lane hf.running y (hbusy y hy)
    have hy' := hmono y
    rw [hvr z]
    split
    · rename_i hzl
      rw [hzl.2]
      omega
    · omega
  · intro u l hu
    rw [hf.idle] at hu
    cases hu
  · rw [hf.bypassed]
    intro l hl
    by_cases hll : l = lane
    · rw [hll]
      exact hserved
    · rw [hothers l hll] at hl
      exact h.idle l hl
  · intro y hy
    rw [hf.bypassed]
    by_cases hyl : y = lane
    · rw [hyl, hserved]
      exact Nat.zero_le _
    · have hwaits := hothers y hyl ▸ hy
      have hpos := classes_pos (mem_lanes_of_ready hwaits) hlane hyl
      have hold := h.waited y hwaits
      have hpassing : s.passing y = 1 := by
        unfold passing
        rw [hf.running]
        exact if_neg (Ne.symm hyl)
      have hbehind := h.behind lane (busy_iff.mpr (.inr ⟨t, hf.running⟩)) y
        (mem_lanes_of_ready hwaits)
      have hserve := credits_serve (q := smallestAccrual) (w := s'.vruntime) (by decide)
        (mem_toFinset.mpr hlane)
        (Ne.symm hyl) hbehind ?_ ?_
      · rw [hlanes]
        omega
      · rw [hvr, if_pos ⟨hpos, rfl⟩]
        omega
      · intro l hl
        rw [hvr, if_neg fun hc => hl hc.2, Nat.add_zero]

theorem Near.act {a : Act} (hcheap : cheap cost a = true)
    (hexact : s.exact a = true) (hcaught : s.caughtUp cost a = true) (hs' : s.act a = some s') :
    Near cost s' := by
  cases a with
  | enqueue t pushed =>
    cases hs'
    exact h.enqueue hcaught
  | classCreate shares =>
    cases hs'
    exact h.classCreate
  | pop choice => exact h.pop hs'
  | setClass schedClass =>
    unfold State.act setClass at hs'
    dsimp only at hs'
    split at hs'
    · cases hs'
    · rename_i t lane hrun
      cases hs'
      -- only the tag of the running task changes
      have hbusy : ∀ y, busy { s with running := some (⟨schedClass⟩, lane) } y = s.busy y := by
        intro y
        unfold busy
        rw [hrun]
        rfl
      refine ⟨h.policy, h.classes, h.reciprocal, ?_, ?_, ?_, h.idle, ?_⟩
      · intro u l hu
        cases hu
        exact h.running t lane hrun
      · intro y hy
        exact h.behind y (hbusy y ▸ hy)
      · intro u z hz y hy
        cases hz
        exact h.served t lane hrun y (hbusy y ▸ hy)
      · intro y hy
        have hwaited := h.waited y hy
        unfold passing at hwaited ⊢
        rw [hrun] at hwaited
        exact hwaited
  | finish elapsed resched => exact h.finish hcheap hexact hs'

end

section

variable {v w : ℕ} {b : Lane → ℕ} {g : List (Lane × ℕ)}

/-- A class of 100 shares with the virtual time `v`, and a default lane with the virtual time
`w`. -/
def worn (v w : ℕ) (queue fifo : List Task) (running : Option (Task × Lane)) (b : Lane → ℕ)
    (g : List (Lane × ℕ)) : State :=
  { create none with
    classes := [⟨100, 41943, v, queue⟩], fifo := fifo, defaultVruntime := w, running := running,
    bypassed := b, log := g }

/-- The class is served while the default lane is empty. -/
theorem pop_worn_class : ∃ b', (worn v w [⟨some 0⟩] [] none b g).pop none =
      some (worn v w [] [] (some (⟨some 0⟩, some 0)) b' g) ∧ b' (some 0) = 0 :=
  ⟨_, rfl, rfl⟩

theorem finish_worn_class (h : v + 10239 < 2 ^ 64) :
    (worn v w [] [] (some (⟨some 0⟩, some 0)) b g).finish 1000 (some false) =
      some (worn (v + 10239) w [⟨some 0⟩] [] none b (g ++ [(some 0, 1000)])) := by
  have hsum : (v + accrual (costOf 1000) 41943) % 2 ^ 64 = v + 10239 :=
    Nat.mod_eq_of_lt h
  rw [← hsum]
  rfl

theorem exact_worn_class (h : v + 10239 < 2 ^ 64) :
    (worn v w [] [] (some (⟨some 0⟩, some 0)) b g).exact (.finish 1000 resched) = true := by
  have hproduct : costOf 1000 * 41943 < 2 ^ 64 := by decide
  have hsum : v + accrual (costOf 1000) 41943 < 2 ^ 64 := h
  exact decide_eq_true ⟨rfl, hproduct, hsum⟩

/-- The default lane is served while it is not ahead of the class. -/
theorem pop_worn_default (h : w ≤ v) : ∃ b', (worn v w [⟨some 0⟩] [⟨none⟩] none b g).pop none =
      some (worn v w [⟨some 0⟩] [] (some (⟨none⟩, none)) b' g) ∧ b' (some 0) = b (some 0) + 1 := by
  have hbest : (worn v w [⟨some 0⟩] [⟨none⟩] none b g).best = some none := by
    change (if decide (v < w) then some (some 0) else some none) = some none
    simpa using h
  unfold pop queuePop
  rw [hbest]
  exact ⟨_, rfl, rfl⟩

theorem finish_worn_default (h : w + 10239 < 2 ^ 64) :
    (worn v w [⟨some 0⟩] [] (some (⟨none⟩, none)) b g).finish 1000 (some false) =
      some (worn v (w + 10239) [⟨some 0⟩] [⟨none⟩] none b (g ++ [(none, 1000)])) := by
  have hsum : (w + accrual (costOf 1000) defaultRecip) % 2 ^ 64 = w + 10239 :=
    Nat.mod_eq_of_lt h
  rw [← hsum]
  rfl

theorem exact_worn_default (h : w + 10239 < 2 ^ 64) :
    (worn v w [⟨some 0⟩] [] (some (⟨none⟩, none)) b g).exact (.finish 1000 resched) = true := by
  have hproduct : costOf 1000 * defaultRecip < 2 ^ 64 := by decide
  have hsum : w + accrual (costOf 1000) defaultRecip < 2 ^ 64 := h
  exact decide_eq_true ⟨rfl, hproduct, hsum⟩

/-- The class runs alone for `n` runs. -/
theorem reachable_worn {n : ℕ} (hn : n * 10239 < 2 ^ 64) : ∃ b g, (system none).ReachableUnder
        (fun s a => cheap 1000 a = true ∧ s.exact a = true)
        (worn (n * 10239) 0 [⟨some 0⟩] [] none b g) ∧ b (some 0) = 0 := by
  induction n with
  | zero =>
    have hcreate : (system none).ReachableUnder (fun s a => cheap 1000 a = true ∧ s.exact a = true)
        (worn 0 0 [] [] none (fun _ => 0) []) :=
      .next (a := Act.classCreate 100) (.start rfl) ⟨rfl, rfl⟩ rfl
    exact ⟨_, _, hcreate.next (a := Act.enqueue ⟨some 0⟩ false) ⟨rfl, rfl⟩ rfl, rfl⟩
  | succ n ih =>
    rw [Nat.succ_mul] at hn ⊢
    obtain ⟨b, g, hs, -⟩ := ih ((Nat.le_add_right _ _).trans_lt hn)
    obtain ⟨b', hpop, hb'⟩ := pop_worn_class
    have hs' := hs.next (a := Act.pop none) ⟨rfl, rfl⟩ hpop
    exact ⟨_, _, hs'.next (a := Act.finish 1000 (some false)) ⟨rfl, exact_worn_class hn⟩
      (finish_worn_class hn), hb'⟩

/-- The default lane wakes up and is served alone until it has caught up. -/
theorem reachable_worn_default {n k : ℕ} (hn : n * 10239 < 2 ^ 64) (hk : k ≤ n) :
    ∃ b g, (system none).ReachableUnder (fun s a => cheap 1000 a = true ∧ s.exact a = true)
        (worn (n * 10239) (k * 10239) [⟨some 0⟩] [⟨none⟩] none b g) ∧ b (some 0) = k := by
  induction k with
  | zero =>
    obtain ⟨b, g, hs, hb⟩ := reachable_worn hn
    exact ⟨b, g, hs.next (a := Act.enqueue ⟨none⟩ false) ⟨rfl, rfl⟩ rfl, hb⟩
  | succ k ih =>
    obtain ⟨b, g, hs, hb⟩ := ih (Nat.le_of_succ_le hk)
    have hbehind : (k + 1) * 10239 ≤ n * 10239 := Nat.mul_le_mul_right 10239 hk
    rw [Nat.succ_mul] at hbehind ⊢
    have hfits := hbehind.trans_lt hn
    obtain ⟨b', hpop, hb'⟩ := pop_worn_default ((Nat.le_add_right _ _).trans hbehind)
    have hs' := hs.next (a := Act.pop none) ⟨rfl, rfl⟩ hpop
    exact ⟨_, _, hs'.next (a := Act.finish 1000 (some false)) ⟨rfl, exact_worn_default hfits⟩
      (finish_worn_default hfits), hb'.trans (congrArg (· + 1) hb)⟩

/-- Tasks of the default lane take the class in their runs, so that the default lane stays first. -/
theorem reachable_worn_tagged (n : ℕ) :
    ∃ v b g, (system none).ReachableUnder (fun _ a => cheap 1000 a = true)
        (worn v 0 [⟨some 0⟩] [] none b g) ∧ b (some 0) = n := by
  induction n with
  | zero =>
    obtain ⟨b, g, hs, hb⟩ := reachable_worn (n := 0) (by decide)
    exact ⟨_, b, g, hs.mono fun s a h => h.1, hb⟩
  | succ n ih =>
    obtain ⟨v, b, g, hs, hb⟩ := ih
    obtain ⟨b', hpop, hb'⟩ := pop_worn_default (Nat.zero_le v)
    have hready := hs.next (a := Act.enqueue ⟨none⟩ false) rfl rfl
    have hpopped := hready.next (a := Act.pop none) rfl hpop
    have htagged := hpopped.next (a := Act.setClass (some 0)) rfl rfl
    have hdone := htagged.next (a := Act.finish 1000 none) rfl rfl
    exact ⟨_, _, _, hdone, hb'.trans (congrArg (· + 1) hb)⟩

end

end LibXtc.Lanes

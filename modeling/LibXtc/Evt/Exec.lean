import LibXtc.Foundations.Lists
import LibXtc.Foundations.Runs

/-!
# When the executor stops

The thread in `xtc_exec_run` reads, loop after loop, the number of tasks alive, the length of the
deque, the published number of timers and the inbox. When two scans in a row find nothing, it stops
the workers. A scan reads the loops one after the other, so a task that is alive throughout is seen,
but a chain of tasks that spawn one another may hop from a loop not yet read to one already read.
If in one of the two scans no task is spawned behind the reader, every task has completed.
-/

namespace LibXtc.Exec

open Foundations Option List Function

/-- Where a task is. A run in the middle of a spawn has counted its child and not pushed it yet; a
task that has returned `XTC_TASK_DONE` is still counted until the worker takes it off. -/
inductive Place
  | counted
  | inbox (loop : ℕ)
  | queued (loop : ℕ)
  | running (loop : ℕ)
  | spawning (loop child : ℕ)
  | parked (loop : ℕ)
  | ended (loop : ℕ)
  | done
  deriving DecidableEq

/-- The worker of the loop is busy with the task. -/
def Place.on (j : ℕ) : Place → Bool
  | .running i | .spawning i _ | .ended i => i = j
  | _ => false

/-- A task, with the loop that it was spawned on. A steal does not change it. -/
structure Task where
  home : ℕ
  place : Place

/-- The reads of `__exec_has_work` for one loop, in their order. -/
inductive Read
  | alive | deque | timers | inbox
  deriving DecidableEq

/-- Where the supervising thread is. `again` is whether the scan is the second one. -/
inductive Sup
  | top
  | scan (again : Bool) (i : ℕ) (r : Read)
  | sleep
  | join
  | returned
  deriving DecidableEq

namespace Sup

/-- The scan under way has read `n_alive` of the loop. -/
def passed (h : ℕ) : Sup → Bool
  | .scan _ i r => h < i || (h = i && r ≠ .alive)
  | _ => false

def second : Sup → Bool
  | .scan again _ _ => again
  | _ => false

end Sup

structure State where
  loops : ℕ
  tasks : List Task
  /-- `n_alive` of each loop. -/
  alive : ℕ → ℕ
  /-- `n_timers_pub` of each loop. -/
  timers : ℕ → ℕ
  stop : Bool
  exited : ℕ → Bool
  sup : Sup
  /-- A task was spawned on a loop that the first scan had already read. -/
  missed : Bool

/-- The verdict of a task's run. -/
inductive Verdict
  | pending | scheduled | done

/-- What can happen. Task `k` is drained from an inbox, taken by the worker of loop `j`, spawns on
loop `h`, pushes its child, returns, is taken off the count, or is woken from its own loop's thread
or another; a worker publishes its timers or leaves; the supervising thread takes its next step. -/
inductive Act
  | drain (k : ℕ)
  | take (k j : ℕ)
  | spawn (k h : ℕ)
  | push (k : ℕ)
  | finish (k : ℕ) (v : Verdict)
  | retire (k : ℕ)
  | wake (k : ℕ) (remote : Bool)
  | timers (j n : ℕ)
  | leave (j : ℕ)
  | supervise

namespace State

variable (s : State)

def busy (j : ℕ) : Bool := s.tasks.any fun t => t.place.on j

/-- Task `k` goes where `g` says, if it is where `g` expects it. -/
def move (k : ℕ) (g : Task → Option Place) : Option State :=
  s.tasks[k]?.bind fun t => (g t).map fun p =>
    { s with tasks := s.tasks.set k { t with place := p } }

/-- The spawn counts the child on its loop. -/
def spawn (k h : ℕ) : Option State :=
  if h < s.loops then
    (s.move k fun t => match t.place with
      | .running j => some (.spawning j s.tasks.length)
      | _ => none).map fun s' =>
    { s' with
      tasks := s'.tasks ++ [⟨h, .counted⟩]
      alive := update s.alive h (s.alive h + 1)
      missed := s.missed || s.sup.passed h }
  else none

/-- The spawn pushes the child to the queue of its own loop, or to the inbox of another. -/
def push (k : ℕ) : Option State :=
  s.tasks[k]?.bind fun t => match t.place with
    | .spawning j c =>
      (s.move k fun _ => some (.running j)).bind fun s' => s'.move c fun u =>
        if u.place = .counted then some (if u.home = j then .queued j else .inbox u.home) else none
    | _ => none

/-- The worker takes a completed task off the count of its home loop. -/
def retire (k : ℕ) : Option State :=
  s.tasks[k]?.bind fun t => match t.place with
    | .ended _ => some { s with
      tasks := s.tasks.set k { t with place := .done }
      alive := update s.alive t.home (s.alive t.home - 1) }
    | _ => none

/-- The value of one read. -/
def read (i : ℕ) : Read → ℕ
  | .alive => s.alive i
  | .deque => s.tasks.countP fun t => t.place = .queued i
  | .timers => s.timers i
  | .inbox => s.tasks.countP fun t => t.place = .inbox i

/-- The loop of `xtc_exec_run`. A scan that finds work goes back to its top. -/
def supervise : Option State :=
  match s.sup with
  | .top => some (if s.stop then { s with sup := .join }
    else { s with sup := .scan false 0 .alive, missed := false })
  | .scan again i r =>
    if i = s.loops then
      some (if again then { s with sup := .join, stop := true } else { s with sup := .sleep })
    else if 0 < s.read i r then some { s with sup := .top }
    else some { s with sup := match r with
      | .alive => .scan again i .deque
      | .deque => .scan again i .timers
      | .timers => .scan again i .inbox
      | .inbox => .scan again (i + 1) .alive }
  | .sleep => some { s with sup := .scan true 0 .alive }
  | .join => if ∀ j < s.loops, s.exited j then some { s with sup := .returned } else none
  | .returned => none

def act : Act → Option State
  | .drain k => s.move k fun t => match t.place with
    | .inbox j => if s.exited j then none else some (.queued j)
    | _ => none
  | .take k j => if s.exited j || s.busy j then none else s.move k fun t => match t.place with
    | .queued _ => some (.running j)
    | _ => none
  | .spawn k h => s.spawn k h
  | .push k => s.push k
  | .finish k v => s.move k fun t => match t.place with
    | .running j => some (match v with
      | .pending => .parked j
      | .scheduled => .queued j
      | .done => .ended j)
    | _ => none
  | .retire k => s.retire k
  | .wake k remote => s.move k fun t => match t.place with
    | .parked j => some (if remote then .inbox j else .queued j)
    | _ => none
  | .timers j n => some { s with timers := update s.timers j n }
  | .leave j => if s.stop && !s.busy j then
      some { s with exited := update s.exited j true } else none
  | .supervise => s.supervise

end State

/-- An executor whose tasks were spawned on the given loops before the run. -/
def start (loops : ℕ) (homes : List ℕ) : State :=
  ⟨loops, homes.map fun h => ⟨h, .inbox h⟩, homes.count, fun _ => 0, false, fun _ => false, .top,
    false⟩

def system : System State Act where
  init s := ∃ loops homes, (∀ h ∈ homes, h < loops) ∧ s = start loops homes
  step s a := s.act a

/-- The second scan is under way, a task was spawned behind the first one, and now another is
spawned behind the second. -/
def hops (s : State) : Act → Bool
  | .spawn _ h => s.missed && s.sup.second && s.sup.passed h
  | _ => false

/-! ## What a scan knows -/

variable {s s' : State} {a : Act} {i k j : ℕ} {r : Read} {t : Task} {again m b : Bool} {u : Sup}

/-- The task is still counted. -/
def Task.live (t : Task) : Bool := t.place ≠ .done

def State.AllDone (s : State) : Prop := ∀ t ∈ s.tasks, t.live = false

/-- The tasks of the loops that were read have completed. -/
def State.Clear (s : State) : Prop := ∀ t ∈ s.tasks, s.sup.passed t.home = true → t.live = false

/-- The supervising thread has finished a scan, and no task was spawned behind it. -/
def Sup.sure (missed : Bool) : Sup → Bool
  | .join | .returned => true
  | .sleep => !missed
  | .scan again _ _ => again && !missed
  | .top => false

/-- No task was spawned behind the scan under way. -/
def Sup.unhopped (missed : Bool) : Sup → Bool
  | .scan again _ _ => again || !missed
  | _ => true

structure Ok (s : State) : Prop where
  alive : ∀ j, s.alive j = s.tasks.countP fun t => t.home = j && t.live
  home : ∀ t ∈ s.tasks, t.home < s.loops
  stop : s.stop = true → s.AllDone
  sure : s.sup.sure s.missed = true → s.AllDone
  clear : s.sup.unhopped s.missed = true → s.Clear

theorem not_allDone (ht : t ∈ s.tasks) (hlive : t.live = true) : ¬ s.AllDone :=
  fun hall => absurd (hlive.symm.trans (hall t ht)) nofun

theorem sure_of_or (h : u.sure (m || b) = true) : u.sure m = true := by
  cases u <;> simp_all [Sup.sure]

theorem unhopped_of_or (h : u.unhopped (m || b) = true) : u.unhopped m = true := by
  cases u <;> simp_all [Sup.unhopped]
  exact h.imp_right And.left

theorem ok_start {loops : ℕ} {homes : List ℕ} (hhomes : ∀ h ∈ homes, h < loops) :
    Ok (start loops homes) := by
  refine ⟨fun j => ?_, fun t ht => ?_, nofun, nofun, nofun⟩
  · unfold start
    rw [countP_map]
    refine countP_congr fun h _ => ?_
    simp [Task.live]
  · obtain ⟨h, hh, rfl⟩ := mem_map.mp ht
    exact hhomes h hh

section

variable (h : Ok s)
include h

/-- A task that is alive goes elsewhere, or is taken off the count. The supervising thread learns
nothing from it: it is not sure of anything, and the task's loop was not passed. -/
theorem Ok.set {u : Task} {alive : ℕ → ℕ} (ht : s.tasks[k]? = some t) (hlive : t.live = true)
    (hhome : u.home = t.home := by rfl)
    (halive : ∀ j, alive j + (t.home = j : Bool).toNat =
      s.alive j + (t.home = j && u.live : Bool).toNat) :
    Ok { s with tasks := s.tasks.set k u, alive } := by
  have hmem := mem_of_getElem? ht
  have hnot := not_allDone hmem hlive
  refine ⟨fun j => ?_, ?_, fun hs => absurd (h.stop hs) hnot, fun hs => absurd (h.sure hs) hnot,
    fun hun v hv hpassed => ?_⟩
  · have hcnt := countP_set_add (p := fun t => t.home = j && t.live) (b := u) ht
    rw [hhome, hlive, Bool.and_true, ← h.alive j, ← halive j] at hcnt
    exact (Nat.add_right_cancel hcnt).symm
  · exact forall_mem_set h.home (hhome ▸ h.home t hmem)
  · rcases mem_or_eq_of_mem_set hv with hv | rfl
    · exact h.clear hun v hv hpassed
    · rw [hhome] at hpassed
      exact absurd (hlive.symm.trans (h.clear hun t hmem hpassed)) nofun

/-- A move between two places of tasks that are alive. -/
theorem Ok.move {g : Task → Option Place} (hs' : s.move k g = some s')
    (hnew : ∀ t, g t ≠ some .done := by intro t ht; split at ht <;> cases ht)
    (hold : ∀ home, g ⟨home, .done⟩ = none := by exact fun _ => rfl) :
    Ok s' ∧ ∃ tasks, s' = { s with tasks } ∧ ∃ t ∈ tasks, t.live = true := by
  obtain ⟨⟨home, place⟩, ht, hs'⟩ := bind_eq_some_iff.mp hs'
  obtain ⟨p, hp, rfl⟩ := map_eq_some_iff.mp hs'
  have hlive : Task.live ⟨home, place⟩ = true := decide_eq_true fun hdone => by
    cases hdone
    cases (hold home).symm.trans hp
  have hlive' : Task.live ⟨home, p⟩ = true :=
    decide_eq_true fun hdone => hnew _ (hp.trans (congrArg some hdone))
  refine ⟨h.set ht hlive rfl fun j => by simp [hlive'], _, rfl, ⟨home, p⟩, ?_, hlive'⟩
  exact mem_set_new ht

/-- The spawned task is behind the scan only where the scan is the first, and takes note. -/
theorem Ok.spawned (ht : t ∈ s.tasks) (hlive : t.live = true) (hj : j < s.loops)
    (hok : (s.missed && s.sup.second && s.sup.passed j) = false) :
    Ok { s with
      tasks := s.tasks ++ [⟨j, .counted⟩]
      alive := update s.alive j (s.alive j + 1)
      missed := s.missed || s.sup.passed j } := by
  have hnot := not_allDone ht hlive
  refine ⟨fun i => ?_, ?_, fun hs => absurd (h.stop hs) hnot,
    fun hs => absurd (h.sure (sure_of_or hs)) hnot, fun hun => ?_⟩
  · simp only [countP_append, ← h.alive]
    by_cases hij : i = j <;> simp [hij, Task.live, eq_comm]
  · exact forall_mem_concat h.home hj
  · refine forall_mem_concat (h.clear (unhopped_of_or hun)) fun hpassed => ?_
    -- The first scan takes note of the hop; before the second a hop has been noted.
    rw [hpassed, Bool.or_true] at hun
    have hsecond : s.sup.second = true := by
      cases hsup : s.sup <;> simp_all [Sup.passed, Sup.unhopped, Sup.second]
    have hmissed : s.missed = true := by
      by_contra hm
      refine hnot (h.sure ?_)
      cases hsup : s.sup <;> simp_all [Sup.sure, Sup.second]
    rw [hmissed, hsecond, hpassed] at hok
    cases hok

theorem Ok.spawn (hok : hops s (.spawn k j) = false) (hs' : s.spawn k j = some s') :
    Ok s' := by
  unfold State.spawn at hs'
  split at hs'
  · rename_i hj
    obtain ⟨s₁, hmove, rfl⟩ := map_eq_some_iff.mp hs'
    obtain ⟨h₁, tasks, rfl, t, ht, hlive⟩ := h.move hmove
    exact h₁.spawned ht hlive hj hok
  · cases hs'

theorem Ok.push (hs' : s.push k = some s') : Ok s' := by
  obtain ⟨t, ht, hs'⟩ := bind_eq_some_iff.mp hs'
  split at hs'
  · rename_i j c hplace
    obtain ⟨s₁, hmove, hs'⟩ := bind_eq_some_iff.mp hs'
    have h₁ : Ok s₁ := by
      unfold State.move at hmove
      rw [ht] at hmove
      cases hmove
      refine h.set ht (by simp [Task.live, hplace]) rfl fun j => ?_
      simp [Task.live]
    refine (h₁.move hs' fun u hu => ?_).1
    split at hu
    · split at hu <;> cases hu
    · cases hu
  · cases hs'

theorem Ok.retire (hs' : s.retire k = some s') : Ok s' := by
  obtain ⟨t, ht, hs'⟩ := bind_eq_some_iff.mp hs'
  split at hs' <;> cases hs'
  rename_i hplace
  have hlive : t.live = true := by simp [Task.live, hplace]
  refine h.set ht hlive rfl fun j => ?_
  have hpos : 0 < s.alive t.home := by
    rw [h.alive, countP_pos_iff]
    exact ⟨t, mem_of_getElem? ht, by simp [hlive]⟩
  by_cases hj : t.home = j
  · subst hj
    simp [Task.live, Nat.sub_add_cancel hpos]
  · simp [hj, Ne.symm hj]

/-- The read of the number of tasks alive is what the judgement rests on; the other reads only make
the scan find work more often. -/
theorem Ok.read_alive (hclear : ∀ t ∈ s.tasks, t.home < i → t.live = false)
    (hread : ¬ 0 < s.alive i) (ht : t ∈ s.tasks) (hi : t.home ≤ i) : t.live = false := by
  rcases Nat.lt_or_eq_of_le hi with hi | rfl
  · exact hclear t ht hi
  · have hzero := Nat.eq_zero_of_not_pos hread
    rw [h.alive, countP_eq_zero] at hzero
    simpa using hzero t ht

theorem Ok.supervise (hs' : s.supervise = some s') : Ok s' := by
  unfold State.supervise at hs'
  split at hs'
  · cases hs'
    split
    · rename_i hstop
      exact { h with sure := fun _ => h.stop hstop, clear := nofun }
    · exact { h with sure := nofun, clear := fun _ t _ hpassed => by simp [Sup.passed] at hpassed }
  · rename_i again i r hsup
    have hclear (hun : (again || !s.missed) = true) (t) (ht : t ∈ s.tasks)
        (hp : t.home < i ∨ t.home = i ∧ r ≠ .alive) : t.live = false := by
      refine h.clear ?_ t ht ?_ <;> rw [hsup]
      · exact hun
      · simpa [Sup.passed] using hp
    have hsure := h.sure
    rw [hsup] at hsure
    split at hs'
    · rename_i hi
      have hall (hun : (again || !s.missed) = true) : s.AllDone := fun t ht =>
        hclear hun t ht (.inl (hi ▸ h.home t ht))
      cases again <;> cases hs'
      · exact { h with sure := hall, clear := nofun }
      · exact { h with stop := fun _ => hall rfl, sure := fun _ => hall rfl, clear := nofun }
    · split at hs' <;> cases hs'
      · exact { h with sure := nofun, clear := nofun }
      · rename_i hread
        have hgo (i' : ℕ) (r' : Read) (hnext : ∀ t ∈ s.tasks, t.home < i' ∨
            t.home = i' ∧ r' ≠ .alive → (again || !s.missed) = true → t.live = false) :
            Ok { s with sup := .scan again i' r' } :=
          { h with
            sure := hsure
            clear := fun hun t ht hp => hnext t ht (by simpa [Sup.passed] using hp) hun }
        cases r with
        | alive =>
          refine hgo i .deque fun t ht hp hun => ?_
          have hi : t.home ≤ i := by omega
          exact h.read_alive (fun t ht hi => hclear hun t ht (.inl hi)) hread ht hi
        | deque =>
          exact hgo i .timers fun t ht hp hun => hclear hun t ht (hp.imp_right (⟨·.1, nofun⟩))
        | timers =>
          exact hgo i .inbox fun t ht hp hun => hclear hun t ht (hp.imp_right (⟨·.1, nofun⟩))
        | inbox =>
          refine hgo (i + 1) .alive fun t ht hp hun => hclear hun t ht ?_
          rcases hp with hp | hp
          · exact (Nat.lt_or_eq_of_le (Nat.le_of_lt_succ hp)).imp_right (⟨·, nofun⟩)
          · exact absurd rfl hp.2
  · rename_i hsup
    cases hs'
    have hsure := hsup ▸ h.sure
    refine { h with sure := hsure, clear := fun _ t _ hpassed => by simp [Sup.passed] at hpassed }
  · rename_i hsup
    split at hs' <;> cases hs'
    have hsure := hsup ▸ h.sure
    exact { h with sure := hsure, clear := nofun }
  · cases hs'

theorem Ok.act (hok : hops s a = false) (hs' : s.act a = some s') : Ok s' := by
  cases a with
  | spawn k j => exact h.spawn hok hs'
  | push k => exact h.push hs'
  | retire k => exact h.retire hs'
  | supervise => exact h.supervise hs'
  | timers j n =>
    cases hs'
    exact { h with }
  | leave j =>
    simp only [State.act] at hs'
    split at hs' <;> cases hs'
    exact { h with }
  | drain k =>
    refine (h.move hs' fun t ht => ?_).1
    split at ht
    · split at ht <;> cases ht
    · cases ht
  | take k j =>
    simp only [State.act] at hs'
    split at hs'
    · cases hs'
    · exact (h.move hs').1
  | finish k v | wake k v => cases v <;> exact (h.move hs').1

end

/-- If no task is spawned behind the second scan when one was spawned behind the first, then
`xtc_exec_run` returns only after every task has completed. -/
theorem run_returns_after_all_done
    (hreach : system.ReachableUnder (fun s a => hops s a = false) s) (hreturned : s.sup = .returned)
    (ht : t ∈ s.tasks) : t.place = .done := by
  have h : Ok s := by
    refine hreach.invariant ?_ ?_
    · rintro _ ⟨loops, homes, hhomes, rfl⟩
      exact ok_start hhomes
    · intro s a s' h hok hs'
      exact h.act hok hs'
  have hdead : t.live = false := h.sure (by rw [hreturned]; rfl) t ht
  simpa [Task.live] using hdead

/-- One task runs to its end between the reads of a scan, and the next two scans find nothing. -/
theorem run_returns_after_all_done_once : ∃ s, s.sup = .returned ∧
    ∃ t ∈ s.tasks, system.ReachableUnder (fun s a => hops s a = false) s ∧ t.place = .done := by
  obtain ⟨s, hrun, hreturned, t, ht, -⟩ : ∃ s ∈ system.runUnder (fun s a => hops s a = false)
      (start 1 [0]) ([.supervise, .drain 0, .supervise, .take 0 0, .finish 0 .done, .retire 0] ++
        replicate 12 .supervise ++ [.leave 0, .supervise]),
      s.sup = .returned ∧ ∃ t ∈ s.tasks[0]?, t.home = 0 := by
    decide
  have hinit : system.init (start 1 [0]) := ⟨1, [0], by decide, rfl⟩
  have hreach := System.ReachableUnder.runUnder (.start hinit) hrun
  have hmem := mem_of_getElem? ht
  exact ⟨s, hreturned, t, hmem, hreach, run_returns_after_all_done hreach hreturned hmem⟩

/-- Task `k` is drained on loop `j`, spawns a task on loop `h` and completes. -/
def hop (k j h : ℕ) : List Act :=
  [.drain k, .take k j, .spawn k h, .push k, .finish k .done, .retire k]

/-- A chain of tasks on two loops hops behind the reader in both scans, and is back on the loop
that is read last in between. The executor returns and leaves the last task in its inbox. -/
theorem run_misses_hopping_task :
    ∃ s ∈ system.run (start 2 [1]) (replicate 5 .supervise ++ hop 0 1 0 ++
      replicate 5 .supervise ++ hop 1 0 1 ++ replicate 5 .supervise ++ hop 2 1 0 ++
      replicate 5 .supervise ++ [.leave 0, .leave 1, .supervise]),
      s.sup = .returned ∧ ∃ t ∈ s.tasks[3]?, t.place = .inbox 0 := by
  decide

end LibXtc.Exec

import LibXtc.Evt.Timer
import LibXtc.Foundations.Lists

/-!
# What holds of the timers in every state

Everything that concerns one timer is collected in its view: its record, whether it is in the
heap, in the hand of the drain, and held by its other owner (the slot of the fiber that parks on
it, or the caller's handle), and how often it left the heap, fired, was cancelled and was freed.
A step changes the view of one timer; the views of the others stay.
-/

namespace LibXtc.Timers

open Foundations State Function

variable {s s' : State} {t u i created : ℕ} {f f' : Fiber} {r : Timer} {α : Type}
  {g : Timer → Timer} {timer timer' : ℕ → Timer} {drain d : Drain} {l : List ℕ}

/-- The timer whose slot reference a fiber in the middle of a call has. -/
def Pc.holds (t : ℕ) : Pc → Bool
  | .store u | .cas u true | .mark u true | .remove u true | .release u => u = t
  | _ => false

/-- The fiber has the slot reference of `t`. -/
@[simp] def Fiber.holds (f : Fiber) (t : ℕ) : Bool := f.parkTimer = some t || f.pc.holds t

/-- The drain has the heap's reference of `t`. -/
def Drain.inHand (t : ℕ) : Drain → Bool
  | .popped _ u | .callback _ u | .wake _ u _ | .releaseSlot _ u | .letGo _ u => u = t
  | _ => false

/-- The timer was claimed and is about to fire. -/
def Drain.isPopped (t : ℕ) : Drain → Bool
  | .popped _ u => u = t
  | _ => false

/-- The drain has the slot reference of `t`. -/
def Drain.hasSlot (t : ℕ) : Drain → Bool
  | .releaseSlot _ u => u = t
  | _ => false

/-- The owner of `t` besides the heap has not let go. -/
def State.held (s : State) (t : ℕ) : Bool :=
  match (s.timer t).waiter with
  | some w => s.fibers[w]?.any (fun f => f.holds t) || s.drain.hasSlot t
  | none => (s.timer t).handle

/-- What concerns one timer. -/
structure View where
  timer : Timer
  queued : Bool
  inHand : Bool
  isPopped : Bool
  held : Bool
  left : ℕ
  fires : ℕ
  cancels : ℕ
  freed : ℕ

def State.view (s : State) (t : ℕ) : View where
  timer := s.timer t
  queued := (s.heap.find t).isSome
  inHand := s.drain.inHand t
  isPopped := s.drain.isPopped t
  held := s.held t
  left := s.left.count t
  fires := s.fires.count t
  cancels := s.cancels.count t
  freed := s.freed.count t

/-- The reference count is the number of owners; the arbiter says where the timer is and what
happened to it. -/
structure View.Ok (v : View) : Prop where
  refs : v.timer.refs = v.queued.toNat + v.inHand.toNat + v.held.toNat
  left : v.left = (!v.queued).toNat
  freed : v.freed = if v.timer.refs = 0 then 1 else 0
  pending : v.timer.fired = .pending → v.queued = true
  fired : v.timer.fired = .fired → v.queued = false
  inHand : v.inHand = true → v.timer.fired = .fired
  isPopped : v.isPopped = true → v.inHand = true
  fires : v.fires = if v.timer.fired = .fired ∧ v.isPopped = false then 1 else 0
  cancels : v.cancels = if v.timer.fired = .cancelled then 1 else 0
  marked : v.timer.cancelled = true → v.timer.fired = .cancelled
  plain : v.timer.handle = true → v.timer.waiter = none

/-! ## Steps of one timer -/

section Views

variable {v : View}

/-- A reference is dropped. -/
def View.release (v : View) : View :=
  { v with
    timer := { v.timer with refs := v.timer.refs - 1 }
    freed := v.freed + if v.timer.refs = 1 then 1 else 0 }

section

variable (h : v.Ok)
include h

theorem View.Ok.inHand_eq_false (hfired : v.timer.fired ≠ .fired) : v.inHand = false := by
  cases hhand : v.inHand with
  | true => exact absurd (h.inHand hhand) hfired
  | false => rfl

/-- A cancelled timer leaves the heap. -/
theorem View.Ok.drop (hqueue : v.queued = true) (hfired : v.timer.fired = .cancelled) :
    View.Ok { v.release with queued := false, left := v.left + 1 } := by
  have hhand : v.inHand = false := h.inHand_eq_false (by rw [hfired]; nofun)
  have hrefs := h.refs
  rw [hqueue, hhand] at hrefs
  have hleft := h.left
  rw [hqueue] at hleft
  have hfreed := h.freed
  refine ⟨?_, ?_, ?_, ?_, ?_, h.inHand, h.isPopped, h.fires, h.cancels, h.marked, h.plain⟩
  · simp [release, hrefs, hhand]
  · simp [hleft]
  · simp [release, hrefs, hfreed]
  · intro hpend
    have hpend : v.timer.fired = .pending := hpend
    rw [hfired] at hpend
    cases hpend
  · exact fun _ => rfl

/-- The drain claims a due timer and pops it. -/
theorem View.Ok.claim (hfired : v.timer.fired = .pending) : View.Ok { v with
      timer := { v.timer with fired := .fired }
      queued := false, inHand := true, isPopped := true, left := v.left + 1 } := by
  have hqueue := h.pending hfired
  have hhand : v.inHand = false := h.inHand_eq_false (by rw [hfired]; nofun)
  have hrefs := h.refs
  have hleft := h.left
  have hfires := h.fires
  have hcancels := h.cancels
  rw [hqueue, hhand] at hrefs
  rw [hqueue] at hleft
  rw [hfired] at hfires hcancels
  refine ⟨?_, ?_, h.freed, nofun, fun _ => rfl, fun _ => rfl, fun _ => rfl, ?_, ?_, ?_, h.plain⟩
  · simpa using hrefs
  · simp [hleft]
  · simpa using hfires
  · simpa using hcancels
  · intro hmark
    have hmark := h.marked hmark
    rw [hfired] at hmark
    cases hmark

/-- The claimed timer fires. -/
theorem View.Ok.fire (hpop : v.isPopped = true) : View.Ok { v with
      timer := { v.timer with fired := .fired }, isPopped := false, fires := v.fires + 1 } := by
  have hfired := h.inHand (h.isPopped hpop)
  have hfires := h.fires
  have hcancels := h.cancels
  rw [hpop] at hfires
  rw [hfired] at hcancels
  refine ⟨h.refs, h.left, h.freed, nofun, fun _ => h.fired hfired, fun _ => rfl, nofun, ?_, ?_, ?_,
    h.plain⟩
  · simpa using hfires
  · simpa using hcancels
  · intro hmark
    have hmark := h.marked hmark
    rw [hfired] at hmark
    cases hmark

/-- A cancel wins. -/
theorem View.Ok.cancel (hfired : v.timer.fired = .pending) : View.Ok { v with
      timer := { v.timer with fired := .cancelled }, cancels := v.cancels + 1 } := by
  have hhand : v.inHand = false := h.inHand_eq_false (by rw [hfired]; nofun)
  have hfires := h.fires
  have hcancels := h.cancels
  rw [hfired] at hfires hcancels
  refine ⟨h.refs, h.left, h.freed, nofun, nofun, fun hne => ?_, h.isPopped, ?_, ?_, fun _ => rfl,
    h.plain⟩
  · rw [hhand] at hne
    cases hne
  · simpa using hfires
  · simpa using hcancels

theorem View.Ok.mark (hfired : v.timer.fired = .cancelled) :
    View.Ok { v with timer := { v.timer with cancelled := true } } :=
  { h with marked := fun _ => hfired }

/-- The drain lets go of a timer that has fired. -/
theorem View.Ok.letGo (hhand : v.inHand = true) (hpop : v.isPopped = false) :
    View.Ok { v.release with inHand := false } := by
  have hqueue := h.fired (h.inHand hhand)
  have hrefs := h.refs
  rw [hqueue, hhand] at hrefs
  have hfreed := h.freed
  refine { h with refs := ?_, freed := ?_, inHand := nofun, isPopped := fun hne => ?_ }
  · simp [release, hrefs, hqueue]
  · simp [release, hrefs, hfreed]
  · have hne : v.isPopped = true := hne
    rw [hpop] at hne
    cases hne

/-- The other owner lets go. -/
theorem View.Ok.unhold (hheld : v.held = true) : View.Ok { v.release with held := false } := by
  have hrefs := h.refs
  rw [hheld] at hrefs
  have hfreed := h.freed
  refine { h with refs := ?_, freed := ?_ }
  · simp [release, hrefs]
  · simp [release, hrefs, hfreed]

/-- The handle is given up; its reference is dropped next. -/
theorem View.Ok.unhandle : View.Ok { v with timer := { v.timer with handle := false } } :=
  { h with plain := nofun }

end

end Views

/-! ## The invariant -/

/-- The instant of the drain. -/
def Drain.time : Drain → Option ℤ
  | .top now | .claim now | .popped now _ | .callback now _ | .wake now _ _ | .releaseSlot now _
  | .letGo now _ => some now
  | .idle | .peek _ => none

/-- A timer that was made and not pushed yet. -/
structure Fresh (r : Timer) (i : ℕ) (f : Fiber) : Prop where
  fired : r.fired = .pending
  cancelled : r.cancelled = false
  owner : r.waiter = some i ∧ r.refs = 2 ∧ r.handle = false ∧ f.parkTimer = none ∨
    r.waiter = none ∧ r.refs = 1 + r.handle.toNat

structure FiberOk (created : ℕ) (timer : ℕ → Timer) (i : ℕ) (f : Fiber) : Prop where
  slot : ∀ t, f.pc.holds t = true → f.parkTimer = none
  mine : ∀ t, f.holds t = true → t < created ∧ (timer t).waiter = some i
  handle : ∀ t, f.usesHandle t = true → t < created ∧ (timer t).handle = true
  cancelled : ∀ t park, f.pc = .mark t park ∨ f.pc = .remove t park → (timer t).fired = .cancelled

structure DrainOk (created : ℕ) (timer : ℕ → Timer) (fibers : List Fiber) (drain : Drain) :
    Prop where
  known : ∀ t, drain.inHand t = true → t < created
  wake : ∀ now t w, drain = .wake now t w → (timer t).waiter = some w
  slot : ∀ t, drain.hasSlot t = true → ∃ w, (timer t).waiter = some w ∧
    ∀ f, fibers[w]? = some f → f.holds t = false

/-- What was fired in the current drain is not after anything that is still queued. -/
structure OrderOk (heap : IndexedHeap ℤ ℕ) (timer : ℕ → Timer) (drain : Drain)
    (sweep : Option Sweep) (drained : List ℤ) (armedEarly : Bool) : Prop where
  le_now : ∀ now, drain.time = some now → ∀ d ∈ drained, d ≤ now
  sorted : armedEarly = false → drained.Pairwise (· ≤ ·)
  above : armedEarly = false → drain.time.isSome = true → ∀ d ∈ drained, ∀ t k,
    heap.find t = some k → d ≤ k
  claim : ∀ now, drain = .claim now → 0 < heap.size ∧ (heap.slots 0).1 ≤ now
  popped : ∀ now t, drain = .popped now t → (timer t).deadline ≤ now ∧
    (armedEarly = false → ∀ d ∈ drained, d ≤ (timer t).deadline) ∧
    ∀ u k, heap.find u = some k → (timer t).deadline ≤ k
  alone : sweep.isSome = true → drain = .idle ∨ ∃ now t, drain = .callback now t

/-- The fiber whose push sweeps the heap. -/
def SweepOk (fibers : List Fiber) (w : Sweep) : Prop :=
  ∃ f, fibers[w.fiber]? = some f ∧ f.pc = .arming ∧ Fresh w.timer w.fiber f

structure Ok (s : State) : Prop where
  valid : s.sweep = none → s.heap.Valid
  sweep : ∀ w, s.sweep = some w → s.heap.Compacting w.next w.kept ∧ SweepOk s.fibers w
  key : ∀ t d, s.heap.find t = some d → t < s.created ∧ d = (s.timer t).deadline
  pushed : s.pushed = List.range s.created
  old : ∀ t, t ∈ s.left ∨ t ∈ s.fires ∨ t ∈ s.cancels ∨ t ∈ s.freed → t < s.created
  views : ∀ t, t < s.created → (s.view t).Ok
  fibers : ∀ i f, s.fibers[i]? = some f → FiberOk s.created s.timer i f
  drain : DrainOk s.created s.timer s.fibers s.drain
  order : OrderOk s.heap s.timer s.drain s.sweep s.drained s.armedEarly

/-- What no step takes back. -/
structure Later (created : ℕ) (timer : ℕ → Timer) (created' : ℕ) (timer' : ℕ → Timer) : Prop where
  le : created ≤ created'
  waiter : ∀ t, t < created → (timer' t).waiter = (timer t).waiter
  cancelled : ∀ t, t < created → (timer t).fired = .cancelled → (timer' t).fired = .cancelled

theorem holds_or_usesHandle (park : Bool) (h : f.pc = .mark t park ∨ f.pc = .remove t park) :
    f.holds t = true ∨ f.usesHandle t = true := by
  cases park with
  | true => exact .inl (by rcases h with h | h <;> simp [h, Pc.holds])
  | false => exact .inr (by rcases h with h | h <;> simp [Fiber.usesHandle, h])

/-- The handle that a fiber uses is not given up meanwhile. -/
theorem FiberOk.later {created' : ℕ} (h : FiberOk created timer i f)
    (hlater : Later created timer created' timer')
    (hhandle : ∀ t, t < created → f.usesHandle t = true →
      (timer' t).handle = (timer t).handle) : FiberOk created' timer' i f := by
  refine ⟨h.slot, fun t ht => ?_, fun t ht => ?_, fun t park hpc => ?_⟩
  · obtain ⟨hlt, hw⟩ := h.mine t ht
    exact ⟨Nat.lt_of_lt_of_le hlt hlater.le, (hlater.waiter t hlt).trans hw⟩
  · obtain ⟨hlt, hold⟩ := h.handle t ht
    exact ⟨Nat.lt_of_lt_of_le hlt hlater.le, (hhandle t hlt ht).trans hold⟩
  · have hlt : t < created := (holds_or_usesHandle park hpc).elim
      (fun hholds => (h.mine t hholds).1) (fun hhandle => (h.handle t hhandle).1)
    exact hlater.cancelled t hlt (h.cancelled t park hpc)

theorem Drain.inHand_of_isPopped (h : d.isPopped t = true) : d.inHand t = true := by
  cases d with
  | popped now u => exact h
  | _ => cases h

theorem Drain.inHand_of_hasSlot (h : d.hasSlot t = true) : d.inHand t = true := by
  cases d with
  | releaseSlot now u => exact h
  | _ => cases h

theorem DrainOk.rewait {fibers : List Fiber}
    (h : DrainOk created timer fibers drain) (hw : ∀ u, (timer' u).waiter = (timer u).waiter) :
    DrainOk created timer' fibers drain := by
  refine ⟨h.known, fun now u w hu => ?_, fun u hu => ?_⟩
  · rw [hw]
    exact h.wake now u w hu
  · rw [hw]
    exact h.slot u hu

section Order

variable {heap : IndexedHeap ℤ ℕ} {timer timer' : ℕ → Timer} {d : Drain}
  {sweep : Option Sweep} {drained : List ℤ} {armedEarly : Bool}

theorem OrderOk.retime (h : OrderOk heap timer d sweep drained armedEarly)
    (hdl : ∀ u, (timer' u).deadline = (timer u).deadline) :
    OrderOk heap timer' d sweep drained armedEarly := by
  refine { h with popped := fun now u hu => ?_ }
  rw [hdl]
  exact h.popped now u hu

/-- The loop goes on in the same drain, or ends it. -/
theorem OrderOk.move (h : OrderOk heap timer d sweep drained armedEarly) (e : Drain)
    (hsw : sweep = none) (htime : e.time = none ∨ e.time = d.time)
    (hclaim : ∀ now, e = .claim now → 0 < heap.size ∧ (heap.slots 0).1 ≤ now)
    (hpop : ∀ now t, e ≠ .popped now t) : OrderOk heap timer e sweep drained armedEarly := by
  refine ⟨fun now hnow => ?_, h.sorted, fun hearly hsome => ?_, hclaim,
    fun now t ht => absurd ht (hpop now t), fun hsome => ?_⟩
  · rcases htime with htime | htime
    · rw [htime] at hnow
      cases hnow
    · exact h.le_now now (htime ▸ hnow)
  · rcases htime with htime | htime
    · rw [htime] at hsome
      cases hsome
    · exact h.above hearly (htime ▸ hsome)
  · rw [hsw] at hsome
    cases hsome

end Order

/-! ## One timer changes -/

/-- The other timers are as before, and `t` keeps its waiter, its deadline and its cancel. -/
structure Only (t : ℕ) (s s' : State) : Prop where
  created : s'.created = s.created
  pushed : s'.pushed = s.pushed
  views : ∀ u, u ≠ t → s'.view u = s.view u
  waiter : (s'.timer t).waiter = (s.timer t).waiter
  deadline : (s'.timer t).deadline = (s.timer t).deadline
  cancelled : (s.timer t).fired = .cancelled → (s'.timer t).fired = .cancelled
  find : ∀ u d, s'.heap.find u = some d → s.heap.find u = some d

theorem Only.timer_eq (h : Only t s s') (hu : u ≠ t) : s'.timer u = s.timer u :=
  congrArg View.timer (h.views u hu)

/-- A field that `t` keeps stays for all timers. -/
theorem Only.same {p : Timer → α} (h : Only t s s') (hp : p (s'.timer t) = p (s.timer t)) (u : ℕ) :
    p (s'.timer u) = p (s.timer u) := by
  by_cases hu : u = t
  · rw [hu, hp]
  · rw [h.timer_eq hu]

theorem Only.fiberOk (ho : Only t s s') (h : FiberOk s.created s.timer i f)
    (hhandle : f.usesHandle t = true → (s'.timer t).handle = (s.timer t).handle) :
    FiberOk s'.created s'.timer i f := by
  refine h.later ⟨Nat.le_of_eq ho.created.symm, fun u _ => ho.same ho.waiter u, ?_⟩ ?_
  · intro u _ hu
    by_cases hut : u = t
    · subst hut
      exact ho.cancelled hu
    · rw [ho.timer_eq hut]
      exact hu
  · intro u _ hu
    by_cases hut : u = t
    · subst hut
      exact hhandle hu
    · rw [ho.timer_eq hut]

/-- What was recorded of a timer concerns one that was made. -/
theorem Ok.old_only (h : Ok s) (ho : Only t s s') (ht : t < s.created)
    (hu : u ∈ s'.left ∨ u ∈ s'.fires ∨ u ∈ s'.cancels ∨ u ∈ s'.freed) : u < s.created := by
  by_cases hut : u = t
  · rw [hut]
    exact ht
  · have hview := ho.views u hut
    have hleft : s'.left.count u = s.left.count u := congrArg View.left hview
    have hfires : s'.fires.count u = s.fires.count u := congrArg View.fires hview
    have hcancels : s'.cancels.count u = s.cancels.count u := congrArg View.cancels hview
    have hfreed : s'.freed.count u = s.freed.count u := congrArg View.freed hview
    simp only [← List.count_pos_iff, hleft, hfires, hcancels, hfreed] at hu
    simp only [List.count_pos_iff] at hu
    exact h.old u hu

/-- A step of `t` keeps what holds if the new view of `t` is right, and what the step does to the
fibers, the loop and the order of the heap. -/
theorem Ok.only (h : Ok s) (ho : Only t s s') (ht : t < s.created) (hview : (s'.view t).Ok)
    (hvalid : s'.sweep = none → s'.heap.Valid)
    (hsw : ∀ w, s'.sweep = some w → s'.heap.Compacting w.next w.kept ∧ SweepOk s'.fibers w)
    (hfibers : ∀ i f, s'.fibers[i]? = some f → FiberOk s'.created s'.timer i f)
    (hdr : DrainOk s.created s'.timer s'.fibers s'.drain)
    (horder : OrderOk s'.heap s'.timer s'.drain s'.sweep s'.drained s'.armedEarly) : Ok s' := by
  refine ⟨hvalid, hsw, fun u d hu => ?_, ?_, fun u hu => ?_, fun u hu => ?_, hfibers, ?_, horder⟩
  · rw [ho.created, ho.same ho.deadline]
    exact h.key u d (ho.find u d hu)
  · rw [ho.pushed, ho.created]
    exact h.pushed
  · rw [ho.created]
    exact h.old_only ho ht hu
  · by_cases hut : u = t
    · rw [hut]
      exact hview
    · rw [ho.views u hut]
      exact h.views u (ho.created ▸ hu)
  · rw [ho.created]
    exact hdr

theorem count_concat_self : (l ++ [t]).count t = l.count t + 1 := by
  rw [List.count_append, List.count_singleton_self]

theorem count_concat_of_ne (h : u ≠ t) : (l ++ [t]).count u = l.count u := by
  simp [Ne.symm h]

/-! ## Changes of one fiber -/

theorem getElem?_put_self (hf : s.fibers[i]? = some f) : (s.put i f').fibers[i]? = some f' :=
  getElem?_set_new hf

theorem getElem?_put_ne {j : ℕ} (h : i ≠ j) : (s.put i f').fibers[j]? = s.fibers[j]? :=
  List.getElem?_set_ne h

/-- A fiber that goes on holding `t` or not holding it leaves the view of `t` as it is. -/
theorem view_put (hf : s.fibers[i]? = some f) (hholds : f'.holds t = f.holds t) :
    (s.put i f').view t = s.view t := by
  have hheld : (s.put i f').held t = s.held t := by
    unfold held
    have hany (w : ℕ) : (s.put i f').fibers[w]?.any (fun f => f.holds t) =
        s.fibers[w]?.any (fun f => f.holds t) := by
      by_cases hw : i = w
      · subst hw
        rw [getElem?_put_self hf, hf]
        exact hholds
      · rw [getElem?_put_ne hw]
    simp only [hany]
    rfl
  unfold view
  rw [hheld]
  rfl

theorem SweepOk.put {w : Sweep} (h : SweepOk s.fibers w) (hf : s.fibers[i]? = some f)
    (harming : f.pc ≠ .arming) : SweepOk (s.put i f').fibers w := by
  obtain ⟨g, hg, hpc, hfresh⟩ := h
  refine ⟨g, ?_, hpc, hfresh⟩
  rw [getElem?_put_ne, hg]
  rintro rfl
  rw [hf] at hg
  cases hg
  exact harming hpc

/-- A property of every fiber, after one of them went on. -/
theorem forall_put {P : ℕ → Fiber → Prop} (hnew : P i f')
    (hold : ∀ j g, i ≠ j → s.fibers[j]? = some g → P j g) :
    ∀ j g, (s.put i f').fibers[j]? = some g → P j g := by
  intro j g hg
  rcases getElem?_set_cases hg with ⟨rfl, rfl⟩ | ⟨hij, hg⟩
  · exact hnew
  · exact hold j g hij hg

theorem DrainOk.put (h : DrainOk created timer s.fibers drain)
    (hf : s.fibers[i]? = some f) (hholds : ∀ t, f'.holds t = true → f.holds t = true) :
    DrainOk created timer (s.put i f').fibers drain := by
  refine ⟨h.known, h.wake, fun t ht => ?_⟩
  obtain ⟨w, hw, hnot⟩ := h.slot t ht
  refine ⟨w, hw, fun g hg => ?_⟩
  refine forall_put (P := fun j g => j = w → g.holds t = false) ?_ ?_ w g hg rfl
  · rintro rfl
    exact Bool.eq_false_iff.mpr fun hnew => Bool.eq_false_iff.mp (hnot f hf) (hholds t hnew)
  · rintro j g' - hg' rfl
    exact hnot g' hg'

/-- A fiber goes on, holding what it held. -/
theorem Ok.put (h : Ok s) (hf : s.fibers[i]? = some f)
    (harming : f.pc ≠ .arming ∨ s.sweep = none) (hholds : ∀ t, f'.holds t = f.holds t)
    (hslot : ∀ t, f'.pc.holds t = true → f'.parkTimer = none := by rintro _ ⟨⟩)
    (hhandle : ∀ t, f'.usesHandle t = true → t < s.created ∧ (s.timer t).handle = true := by
      rintro _ ⟨⟩)
    (hcan : ∀ t park, f'.pc = .mark t park ∨ f'.pc = .remove t park →
      (s.timer t).fired = .cancelled := by rintro _ _ (hpc | hpc) <;> cases hpc) :
    Ok (s.put i f') := by
  have hmine (t : ℕ) (ht : f'.holds t = true) := (h.fibers i f hf).mine t ((hholds t).symm.trans ht)
  refine ⟨h.valid, fun w hw => ?_, h.key, h.pushed, h.old, fun t ht => ?_,
    forall_put ⟨hslot, hmine, hhandle, hcan⟩ fun j g _ hg => h.fibers j g hg,
    h.drain.put hf fun t ht => (hholds t).symm.trans ht, h.order⟩
  · obtain ⟨hcomp, hsw⟩ := h.sweep w hw
    rcases harming with harming | hnone
    · exact ⟨hcomp, hsw.put hf harming⟩
    · rw [show s.sweep = some w from hw] at hnone
      cases hnone
  · rw [view_put hf (hholds t)]
    exact h.views t ht

/-! ## Changes of one timer's record -/

theorem view_modify_ne (h : u ≠ t) : (s.modify t g).view u = s.view u := by
  have htimer : (s.modify t g).timer u = s.timer u := update_of_ne h _ _
  unfold view held
  rw [htimer]
  rfl

theorem timer_modify_self : (s.modify t g).timer t = g (s.timer t) :=
  update_self _ _ _

/-- Where a record is changed in one field only, the other fields stay. -/
theorem update_same (p : Timer → α) {timer : ℕ → Timer} {r : Timer} (hr : p r = p (timer t))
    (u : ℕ) : p (update timer t r u) = p (timer u) := by
  by_cases hu : u = t
  · rw [hu, update_self]
    exact hr
  · rw [update_of_ne hu]

theorem modify_same (p : Timer → α) (hp : p (g (s.timer t)) = p (s.timer t)) (u : ℕ) :
    p ((s.modify t g).timer u) = p (s.timer u) := update_same p hp u

theorem view_modify_self (hw : (g (s.timer t)).waiter = (s.timer t).waiter)
    (hhandle : (g (s.timer t)).handle = (s.timer t).handle) :
    (s.modify t g).view t = { s.view t with timer := g (s.timer t) } := by
  unfold view held
  rw [timer_modify_self, hw, hhandle]
  rfl

/-- The record of `t` changes, but not its owners. -/
theorem Ok.modify {cancels : List ℕ} (h : Ok s) (ht : t < s.created)
    (hw : (g (s.timer t)).waiter = (s.timer t).waiter)
    (hhandle : (g (s.timer t)).handle = (s.timer t).handle)
    (hdl : (g (s.timer t)).deadline = (s.timer t).deadline)
    (hcan : (s.timer t).fired = .cancelled → (g (s.timer t)).fired = .cancelled)
    (hcnt : ∀ u, u ≠ t → cancels.count u = s.cancels.count u)
    (hview : View.Ok { s.view t with timer := g (s.timer t), cancels := cancels.count t }) :
    Ok { s.modify t g with cancels := cancels } := by
  have hv (u : ℕ) : view { s.modify t g with cancels := cancels } u =
      { (s.modify t g).view u with cancels := cancels.count u } := rfl
  have ho : Only t s { s.modify t g with cancels := cancels } := by
    refine ⟨rfl, rfl, fun u hu => ?_, modify_same Timer.waiter hw t,
      modify_same Timer.deadline hdl t, fun hold => ?_, fun _ _ hd => hd⟩
    · rw [hv, view_modify_ne hu, hcnt u hu]
      rfl
    · rw [show timer { s.modify t g with cancels := cancels } t = g (s.timer t) from
        timer_modify_self]
      exact hcan hold
  refine h.only ho ht ?_ h.valid h.sweep
    (fun i f hf => ho.fiberOk (h.fibers i f hf) fun _ => modify_same Timer.handle hhandle t)
    (h.drain.rewait (ho.same ho.waiter)) (h.order.retime (ho.same ho.deadline))
  rw [hv, view_modify_self hw hhandle]
  exact hview

/-- A cancel wins the arbiter. -/
theorem Ok.cancel (h : Ok s) (ht : t < s.created) (hfired : (s.timer t).fired = .pending) :
    Ok { s.modify t fun r => { r with fired := .cancelled } with cancels := s.cancels ++ [t] } := by
  refine h.modify ht rfl rfl rfl (fun _ => rfl) (fun u hu => count_concat_of_ne hu) ?_
  rw [count_concat_self]
  exact (h.views t ht).cancel hfired

theorem Ok.mark (h : Ok s) (ht : t < s.created) (hfired : (s.timer t).fired = .cancelled) :
    Ok (s.modify t fun r => { r with cancelled := true }) :=
  have hmark : Ok { s.modify t (fun r => { r with cancelled := true }) with
      cancels := s.cancels } :=
    h.modify ht rfl rfl rfl id (fun _ _ => rfl) ((h.views t ht).mark hfired)
  hmark

/-! ## Dropping a reference -/

theorem timer_release_ne (h : u ≠ t) : (s.release t).timer u = s.timer u :=
  update_of_ne h _ _

theorem timer_release_self :
    (s.release t).timer t = { s.timer t with refs := (s.timer t).refs - 1 } :=
  update_self _ _ _

/-- Only the count of references changes. -/
theorem release_same (p : Timer → α) (u : ℕ)
    (hp : ∀ r n, p { r with refs := n } = p r := by exact fun _ _ => rfl) :
    p ((s.release t).timer u) = p (s.timer u) := update_same p (hp _ _) u

theorem held_release : (s.release t).held u = s.held u := by
  unfold held
  rw [release_same Timer.waiter, release_same Timer.handle]
  rfl

theorem view_release_ne (h : u ≠ t) : (s.release t).view u = s.view u := by
  have hfreed : (s.release t).freed.count u = s.freed.count u := by
    unfold release
    split
    · exact count_concat_of_ne h
    · rfl
  unfold view
  rw [held_release, hfreed, timer_release_ne h]
  rfl

theorem view_release_self : (s.release t).view t = (s.view t).release := by
  have hfreed : (s.release t).freed.count t =
      s.freed.count t + if (s.timer t).refs = 1 then 1 else 0 := by
    unfold release
    split
    · exact count_concat_self
    · rfl
  unfold view
  rw [held_release, hfreed, timer_release_self]
  rfl

/-- Dropping a reference of `t`, after or before changes that keep the record of `t` and the
heap. -/
theorem only_release {a : State} (ha : a.timer = (s.release t).timer)
    (hcreated : a.created = s.created) (hpush : a.pushed = s.pushed)
    (hfind : ∀ u d, a.heap.find u = some d → s.heap.find u = some d)
    (hviews : ∀ u, u ≠ t → a.view u = s.view u) : Only t s a := by
  refine ⟨hcreated, hpush, hviews, ?_, ?_, fun hold => ?_, hfind⟩
  · rw [ha, release_same Timer.waiter]
  · rw [ha, release_same Timer.deadline]
  · rw [ha, release_same Timer.fired]
    exact hold

theorem Only.fiberOk_release (ho : Only t s s') (ha : s'.timer = (s.release t).timer)
    (h : FiberOk s.created s.timer i f) : FiberOk s'.created s'.timer i f :=
  ho.fiberOk h fun _ => by rw [ha, release_same Timer.handle]

section

variable {heap : IndexedHeap ℤ ℕ} {sweep : Option Sweep}
  (hfind : ∀ u, heap.find u = s.heap.findWithout t u)
include hfind

theorem view_unqueue_ne (h : u ≠ t) :
    view { s with heap := heap, left := s.left ++ [t], sweep := sweep } u = s.view u := by
  unfold view held
  rw [hfind, IndexedHeap.findWithout, if_neg h, count_concat_of_ne h]

theorem view_unqueue_self : view { s with heap := heap, left := s.left ++ [t], sweep := sweep } t =
      { s.view t with queued := false, left := (s.view t).left + 1 } := by
  unfold view held
  rw [hfind, IndexedHeap.findWithout, if_pos rfl, count_concat_self]
  rfl

end

/-- A cancelled timer leaves the heap. -/
theorem Ok.drop {heap : IndexedHeap ℤ ℕ} {sweep : Option Sweep} (h : Ok s)
    (hfind : ∀ u, heap.find u = s.heap.findWithout t u)
    (hqueue : (s.heap.find t).isSome = true) (hcan : (s.timer t).fired = .cancelled)
    (hvalid : sweep = none → heap.Valid)
    (hsw : ∀ w, sweep = some w → heap.Compacting w.next w.kept ∧ SweepOk s.fibers w)
    (halone : sweep.isSome = true → s.sweep.isSome = true)
    (hclaim : ∀ now, s.drain ≠ .claim now) (hpop : ∀ now u, s.drain ≠ .popped now u) :
    Ok ({ s with heap := heap, left := s.left ++ [t], sweep := sweep }.release t) := by
  have hsub (u : ℕ) (k : ℤ) (hu : heap.find u = some k) : s.heap.find u = some k := by
    rw [hfind] at hu
    exact IndexedHeap.find_of_findWithout hu
  obtain ⟨d, hd⟩ := Option.isSome_iff_exists.mp hqueue
  have ht : t < s.created := (h.key t d hd).1
  have ho : Only t s
      ({ s with heap := heap, left := s.left ++ [t], sweep := sweep }.release t) := by
    exact only_release rfl rfl rfl hsub fun u hut =>
      (view_release_ne hut).trans (view_unqueue_ne hfind hut)
  refine h.only ho ht ?_ hvalid hsw
    (fun i f hf => ho.fiberOk_release rfl (h.fibers i f hf)) (h.drain.rewait (ho.same ho.waiter))
    (OrderOk.retime
      ⟨h.order.le_now, h.order.sorted, ?_, ?_, ?_, fun hsome => h.order.alone (halone hsome)⟩
      (ho.same ho.deadline))
  · rw [view_release_self, view_unqueue_self hfind]
    exact (h.views t ht).drop hqueue hcan
  · intro hearly htime d hd u k hu
    exact h.order.above hearly htime d hd u k (hsub u k hu)
  · exact fun now hnow => absurd hnow (hclaim now)
  · exact fun now u hu => absurd hu (hpop now u)

/-- A fiber drops the slot's reference that it has taken. -/
theorem Ok.releasePark (h : Ok s) (hf : s.fibers[i]? = some f) (hpc : f.pc = .release t) :
    Ok ((s.release t).put i { f with pc := .idle }) := by
  have hfiber := h.fibers i f hf
  have hpcHolds : f.pc.holds t = true := by simp [hpc, Pc.holds]
  have hholds : f.holds t = true := by simp [hpcHolds]
  obtain ⟨ht, hwaiter⟩ := hfiber.mine t hholds
  have hslot : f.parkTimer = none := hfiber.slot t hpcHolds
  have hnothing (u : ℕ) : Fiber.holds { f with pc := .idle } u = false := by
    simp [hslot, Pc.holds]
  have hf' : (s.release t).fibers[i]? = some f := hf
  have ho : Only t s ((s.release t).put i { f with pc := .idle }) := by
    refine only_release rfl rfl rfl (fun _ _ hd => hd) fun u hut => ?_
    rw [view_put hf', view_release_ne hut]
    simp [hpc, Pc.holds, Ne.symm hut]
  refine h.only ho ht ?_ h.valid (fun w hw => ?_) (forall_put ?_ ?_)
    ((h.drain.rewait (ho.same ho.waiter)).put hf fun u hu => ?_)
    (h.order.retime (ho.same ho.deadline))
  · have hheld : s.held t = true := by
      unfold held
      simp only [hwaiter, hf, Option.any_some, hholds, Bool.true_or]
    have hgone : ((s.release t).put i { f with pc := .idle }).held t = false := by
      have hnotSlot : s.drain.hasSlot t = false := by
        cases hslotDrain : s.drain.hasSlot t with
        | false => rfl
        | true =>
          obtain ⟨w, hw, hnot⟩ := h.drain.slot t hslotDrain
          rw [hwaiter] at hw
          cases hw
          rw [hnot f hf] at hholds
          cases hholds
      have hput : ((s.release t).put i { f with pc := .idle }).fibers[i]? =
          some { f with pc := .idle } := getElem?_put_self hf'
      have hdr : ((s.release t).put i { f with pc := .idle }).drain = s.drain := rfl
      unfold held
      simp only [ho.waiter.trans hwaiter, hput, hdr, Option.any_some, hnothing, hnotSlot,
        Bool.or_self]
    have hview : ((s.release t).put i { f with pc := .idle }).view t = { (s.release t).view t with
          held := ((s.release t).put i { f with pc := .idle }).held t } := rfl
    rw [hview, hgone, view_release_self]
    exact (h.views t ht).unhold hheld
  · obtain ⟨hcomp, hsw⟩ := h.sweep w hw
    exact ⟨hcomp, hsw.put hf (by rw [hpc]; nofun)⟩
  · refine ⟨nofun, fun u hu => ?_, nofun, fun u park hu => ?_⟩
    · rw [hnothing u] at hu
      cases hu
    · rcases hu with hu | hu <;> cases hu
  · exact fun j g _ hg => ho.fiberOk_release rfl (h.fibers j g hg)
  · rw [hnothing u] at hu
    cases hu

/-- The caller releases its handle. -/
theorem Ok.releaseHandle (h : Ok s) (ht : t < s.created) (hhandle : (s.timer t).handle = true)
    (hunused : ∀ f ∈ s.fibers, f.usesHandle t = false) :
    Ok ((s.modify t fun r => { r with handle := false }).release t) := by
  have hw : (s.timer t).waiter = none := (h.views t ht).plain hhandle
  have hheld : s.held t = true := by
    unfold held
    simp only [hw, hhandle]
  have hkept {α : Type} (p : Timer → α) (hrefs : ∀ r n, p { r with refs := n } = p r)
      (hp : p { s.timer t with handle := false } = p (s.timer t)) :
      p (((s.modify t fun r => { r with handle := false }).release t).timer t) = p (s.timer t) :=
    (release_same p t hrefs).trans (modify_same p hp t)
  have ho : Only t s ((s.modify t fun r => { r with handle := false }).release t) := by
    refine ⟨rfl, rfl, fun u hut => ?_, hkept _ (fun _ _ => rfl) rfl, hkept _ (fun _ _ => rfl) rfl,
      fun hold => (hkept _ (fun _ _ => rfl) rfl).trans hold, fun _ _ hd => hd⟩
    rw [view_release_ne hut, view_modify_ne hut]
  refine h.only ho ht ?_ h.valid h.sweep (fun i f hf => ho.fiberOk (h.fibers i f hf) fun hu => ?_)
    (h.drain.rewait (ho.same ho.waiter)) (h.order.retime (ho.same ho.deadline))
  · have hview : (s.modify t fun r => { r with handle := false }).view t = { s.view t with
          timer := { s.timer t with handle := false }, held := false } := by
      unfold view held
      rw [timer_modify_self]
      simp only [hw]
      rfl
    rw [view_release_self, hview]
    exact (h.views t ht).unhandle.unhold hheld
  · rw [hunused f (List.mem_of_getElem? hf)] at hu
    cases hu

end LibXtc.Timers

import LibXtc.Evt.Deque
import LibXtc.Foundations.Lists
import LibXtc.Foundations.Ring

/-!
# Every pushed task is returned once

The deque refines a list with operations at both ends. A push takes effect when it publishes
`bottom`, a steal and a pop of the last task when their compare-and-swap succeeds, and a pop of
any other task when it loads a `top` below it. What makes this work for stale thieves is that
`top` only grows: a thief that has loaded `t` can win only if `top` is still `t`, and as long as
it is, the oldest task is the one in the slot of `t`.
-/

namespace LibXtc.Deque

open Foundations Option State List

variable {τ : Type*} {k : ℕ}

/-! ## The list -/

/-- A list of tasks, with the tasks ever taken from it and ever pushed to it. -/
structure Ideal (τ : Type*) where
  items : List τ
  taken : List τ
  pushed : List τ

namespace Ideal

inductive Op (τ : Type*)
  | pushBack (v : τ)
  | popBack
  | popFront

def step (a : Ideal τ) : Op τ → Option (Ideal τ)
  | .pushBack v => some { a with items := a.items ++ [v], pushed := a.pushed ++ [v] }
  | .popBack =>
    a.items.getLast?.map fun v => { a with items := a.items.dropLast, taken := a.taken ++ [v] }
  | .popFront =>
    a.items.head?.map fun v => { a with items := a.items.tail, taken := a.taken ++ [v] }

def system (τ : Type*) : System (Ideal τ) (Op τ) where
  init a := a = ⟨[], [], []⟩
  step := step

/-- The tasks pushed are those taken and those still there. -/
theorem conserved {a : Ideal τ} (ha : (system τ).Reachable a) :
    a.pushed.Perm (a.taken ++ a.items) := by
  refine ha.invariant (I := fun a => a.pushed.Perm (a.taken ++ a.items)) ?_ ?_
  · rintro a rfl
    exact .nil
  · rintro a op a' h - ht
    cases op with
    | pushBack v =>
      cases ht
      rw [← append_assoc]
      exact h.append_right [v]
    | popBack =>
      obtain ⟨v, hv, rfl⟩ := map_eq_some_iff.mp ht
      obtain ⟨front, hitems⟩ := getLast?_eq_some_iff.mp hv
      rw [hitems] at h ⊢
      rw [dropLast_concat, append_assoc]
      exact h.trans (perm_append_comm.append_left _)
    | popFront =>
      obtain ⟨v, hv, rfl⟩ := map_eq_some_iff.mp ht
      obtain ⟨rest, hitems⟩ := head?_eq_some_iff.mp hv
      rw [hitems] at h ⊢
      rwa [append_assoc]

end Ideal

/-! ## The window of the ring -/

theorem slot_eq_mod {i : ℤ} : slot k i = i.toNat % cap k :=
  Nat.and_two_pow_sub_one_eq_mod _ _

/-- The ring holds `items` between the indices `top` and `stop`. -/
structure Window (k : ℕ) (top stop : ℤ) (buf : ℕ → Option τ) (items : List τ) : Prop where
  nonneg : 0 ≤ top
  size : top + items.length = stop
  room : items.length ≤ cap k
  ring : Ring.Holds (cap k) buf top.toNat items

namespace Window

variable {top stop : ℤ} {buf : ℕ → Option τ} {items rest : List τ} {v : τ}

theorem slot_stop (h : Window k top stop buf items) :
    slot k stop = (top.toNat + items.length) % cap k := by
  have hnonneg := h.nonneg
  have hsize := h.size
  have hstop : stop.toNat = top.toNat + items.length := by omega
  rw [slot_eq_mod, hstop]

theorem head (h : Window k top stop buf (v :: rest)) : buf (slot k top) = some v := by
  rw [slot_eq_mod]
  exact h.ring.head

theorem popFront (h : Window k top stop buf (v :: rest)) : Window k (top + 1) stop buf rest := by
  obtain ⟨hnonneg, hsize, hroom, hring⟩ := h
  rw [length_cons] at hsize hroom
  refine ⟨by omega, by omega, by omega, ?_⟩
  have hnat : (top + 1).toNat = top.toNat + 1 := by omega
  rw [hnat]
  exact hring.tail

theorem popBack (h : Window k top stop buf (rest ++ [v])) :
    Window k top (stop - 1) buf rest ∧ buf (slot k (stop - 1)) = some v := by
  obtain ⟨hnonneg, hsize, hroom, hring⟩ := h
  rw [length_append, length_singleton] at hsize hroom
  have hrest : Window k top (stop - 1) buf rest :=
    ⟨hnonneg, by omega, by omega, hring.init⟩
  refine ⟨hrest, ?_⟩
  rw [hrest.slot_stop]
  exact hring.last

theorem store (h : Window k top stop buf items) (hroom : items.length < cap k) (x : Option τ) :
    Window k top stop (Function.update buf (slot k stop) x) items := by
  refine ⟨h.nonneg, h.size, h.room, ?_⟩
  rw [h.slot_stop]
  exact h.ring.update hroom x

theorem pushBack (h : Window k top stop buf items) (hroom : items.length < cap k)
    (hv : buf (slot k stop) = some v) : Window k top (stop + 1) buf (items ++ [v]) := by
  have hsize := h.size
  rw [h.slot_stop] at hv
  refine ⟨h.nonneg, ?_, ?_, h.ring.concat hv⟩
  all_goals
    rw [length_append, length_singleton]
    omega

end Window

/-! ## The invariant -/

/-- A steal that has loaded `t` loaded it from `top`. If `top` is still `t`, the oldest task is
there and is the one the steal has read. -/
def Steal.Ok (top : ℤ) (items : List τ) : Steal τ → Prop
  | .start => True
  | .loadBottom t => t ≤ top
  | .loadSlot t => t ≤ top ∧ (t = top → items.head? ≠ none)
  | .cas t x => t ≤ top ∧ (t = top → items.head? = x ∧ x ≠ none)

/-- What the owner's local variables say about the deque. -/
def Owner.Ok (k : ℕ) (top bottom : ℤ) (buf : ℕ → Option τ) (items : List τ) : Owner τ → Prop
  | .idle | .takeLoadBottom => True
  | .pushLoadTop _ b | .takeLoadTop b => b = bottom
  | .pushStoreSlot _ b => b = bottom ∧ items.length < cap k
  | .pushStoreBottom v b => b = bottom ∧ items.length < cap k ∧ buf (slot k b) = some v
  | .popStoreBottom b => b = bottom - 1
  | .popLoadTop b => b = bottom
  | .popEmpty t => t = bottom + 1 ∧ items = []
  | .popLoadSlot b t => b = bottom ∧ t ≤ b ∧ t ≤ top
  | .popCas b t x =>
    b = bottom ∧ t = b ∧ t ≤ top ∧ (t = top → items.head? = x ∧ x ≠ none)
  | .popRestore b _ => b = bottom ∧ items = []
  | .taking c => c.Ok top items

/-- A state of the deque and the list it stands for. -/
structure Represents (k : ℕ) (s : State τ) (a : Ideal τ) : Prop where
  window : Window k s.top (s.bottom + s.owner.lag) s.buf a.items
  owner : s.owner.Ok k s.top s.bottom s.buf a.items
  thieves : ∀ c ∈ s.thieves, c.Ok s.top a.items
  pushed : a.pushed = s.pushed
  taken : a.taken.Perm (s.returned ++ s.owner.held k s.buf)

variable {s s' : State τ} {a : Ideal τ} {c : Steal τ} {v : τ} {top bottom t b : ℤ}
  {buf : ℕ → Option τ} {items items' rest : List τ} {x : Option τ} {o : Owner τ}

/-- A steal only depends on the oldest task. -/
theorem Steal.Ok.of_head? (h : c.Ok top items)
    (hhead : items.head? ≠ none → items'.head? = items.head?) : c.Ok top items' := by
  cases c with
  | start => trivial
  | loadBottom t => exact h
  | loadSlot t =>
    refine ⟨h.1, fun ht => ?_⟩
    rw [hhead (h.2 ht)]
    exact h.2 ht
  | cas t x =>
    refine ⟨h.1, fun ht => ?_⟩
    obtain ⟨hx, hne⟩ := h.2 ht
    rw [hhead (hx ▸ hne)]
    exact ⟨hx, hne⟩

/-- Once `top` has moved on, no earlier steal can win. -/
theorem Steal.Ok.advance (h : c.Ok top items) : c.Ok (top + 1) items' := by
  cases c with
  | start => trivial
  | loadBottom t =>
    have ht : t ≤ top := h
    exact (by omega : t ≤ top + 1)
  | loadSlot t | cas t x =>
    have ht := h.1
    exact ⟨by omega, fun heq => by omega⟩

/-- A thief that takes the oldest task does not disturb the owner. -/
theorem Owner.Ok.advance (h : o.Ok k top bottom buf (v :: rest)) :
    o.Ok k (top + 1) bottom buf rest := by
  cases o with
  | idle | takeLoadBottom => trivial
  | pushLoadTop w b | popStoreBottom b | popLoadTop b | takeLoadTop b => exact h
  | pushStoreSlot w b => exact ⟨h.1, Nat.lt_of_succ_lt h.2⟩
  | pushStoreBottom w b => exact ⟨h.1, Nat.lt_of_succ_lt h.2.1, h.2.2⟩
  | popEmpty t | popRestore b x => cases h.2
  | popLoadSlot b t =>
    obtain ⟨hb, htb, ht⟩ := h
    exact ⟨hb, htb, by omega⟩
  | popCas b t x =>
    obtain ⟨hb, htb, ht, -⟩ := h
    exact ⟨hb, htb, by omega, fun heq => by omega⟩
  | taking c => exact Steal.Ok.advance h

/-- A step of a steal moves on, gives up, or takes the oldest task. -/
theorem steal_cases (h : Represents k s a) (hc : c.Ok s.top a.items) : (stealTop s c = s.top ∧
      (steal k s c = .done none ∨ ∃ d, steal k s c = .more d ∧ d.Ok s.top a.items)) ∨
    ∃ v rest, a.items = v :: rest ∧ stealTop s c = s.top + 1 ∧ steal k s c = .done (some v) := by
  have hsize := h.window.size
  cases c with
  | start => exact .inl ⟨rfl, .inr ⟨_, rfl, Int.le_refl _⟩⟩
  | loadBottom t =>
    refine .inl ⟨rfl, ?_⟩
    by_cases hempty : t ≥ s.bottom
    · exact .inl (if_pos hempty)
    · refine .inr ⟨_, if_neg hempty, hc, fun ht hnone => ?_⟩
      rw [head?_eq_none_iff.mp hnone, length_nil] at hsize
      omega
  | loadSlot t =>
    refine .inl ⟨rfl, .inr ⟨_, rfl, hc.1, fun ht => ?_⟩⟩
    obtain ⟨v, hv⟩ := ne_none_iff_exists'.mp (hc.2 ht)
    obtain ⟨rest, hitems⟩ := head?_eq_some_iff.mp hv
    have hwin := h.window
    rw [hitems] at hwin
    rw [hv, ht, hwin.head]
    exact ⟨rfl, nofun⟩
  | cas t x =>
    by_cases ht : s.top = t
    · obtain ⟨hx, hne⟩ := hc.2 ht.symm
      obtain ⟨v, rfl⟩ := ne_none_iff_exists'.mp hne
      obtain ⟨rest, hitems⟩ := head?_eq_some_iff.mp hx
      refine .inr ⟨v, rest, hitems, ?_, if_pos ht⟩
      rw [stealTop, if_pos ht, ht]
    · exact .inl ⟨if_neg ht, .inl (if_neg ht)⟩

/-! ## The steps -/

/-- A step of the deque is a step of the list or leaves the list alone. -/
def Matched (k : ℕ) (s' : State τ) (a : Ideal τ) : Prop :=
  Represents k s' a ∨ ∃ op a', a.step op = some a' ∧ Represents k s' a'

theorem Ideal.step_popFront (hitems : a.items = v :: rest) :
    a.step .popFront = some { a with items := rest, taken := a.taken ++ [v] } := by
  rw [step, hitems]
  rfl

theorem Ideal.step_popBack (hitems : a.items = rest ++ [v]) :
    a.step .popBack = some { a with items := rest, taken := a.taken ++ [v] } := by
  rw [step, hitems, getLast?_concat, dropLast_concat]
  rfl

theorem Represents.of_window {stop : ℤ} (hwin : Window k s.top stop s.buf a.items)
    (hstop : s.bottom + s.owner.lag = stop) (hown : s.owner.Ok k s.top s.bottom s.buf a.items)
    (hths : ∀ c ∈ s.thieves, c.Ok s.top a.items) (hpush : a.pushed = s.pushed)
    (htaken : a.taken.Perm (s.returned ++ s.owner.held k s.buf)) : Represents k s a := by
  subst hstop
  exact ⟨hwin, hown, hths, hpush, htaken⟩

section

variable (h : Represents k s a)
include h

/-- What is known at a place of the owner's program. -/
theorem Represents.at_owner (hown : s.owner = o) (stop : ℤ) (hstop : s.bottom + o.lag = stop) :
    Window k s.top stop s.buf a.items ∧ o.Ok k s.top s.bottom s.buf a.items ∧
      (∀ c ∈ s.thieves, c.Ok s.top a.items) ∧ a.pushed = s.pushed ∧
      a.taken.Perm (s.returned ++ o.held k s.buf) := by
  subst hown hstop
  exact ⟨h.window, h.owner, h.thieves, h.pushed, h.taken⟩

section

variable (hs' : s.ownerStep k = some s')
include hs'

theorem matched_pushLoadTop (hown : s.owner = .pushLoadTop v b) : Matched k s' a := by
  obtain ⟨hwin, rfl, hths, hpush, htaken⟩ := h.at_owner hown _ rfl
  simp only [ownerStep, hown] at hs'
  have hsize : s.top + a.items.length = s.bottom + (0 : ℕ) := hwin.size
  split at hs' <;> cases hs'
  · exact .inl ⟨hwin, trivial, hths, hpush, htaken⟩
  · exact .inl ⟨hwin, ⟨rfl, by omega⟩, hths, hpush, htaken⟩

theorem matched_pushStoreSlot (hown : s.owner = .pushStoreSlot v b) : Matched k s' a := by
  obtain ⟨hwin, ⟨rfl, hroom⟩, hths, hpush, htaken⟩ :=
    h.at_owner hown s.bottom (Int.add_zero _)
  simp only [ownerStep, hown] at hs'
  cases hs'
  exact .inl (.of_window (hwin.store hroom (some v)) (Int.add_zero _)
    ⟨rfl, hroom, Function.update_self ..⟩ hths hpush htaken)

/-- A push takes effect when it publishes `bottom`. -/
theorem matched_pushStoreBottom (hown : s.owner = .pushStoreBottom v b) : Matched k s' a := by
  obtain ⟨hwin, ⟨rfl, hroom, hslot⟩, hths, hpush, htaken⟩ :=
    h.at_owner hown s.bottom (Int.add_zero _)
  simp only [ownerStep, hown] at hs'
  cases hs'
  refine .inr ⟨.pushBack v, _, rfl, .of_window (hwin.pushBack hroom hslot) (Int.add_zero _)
    trivial ?_ (congrArg (· ++ [v]) hpush) htaken⟩
  intro c hc
  refine (hths c hc).of_head? fun hhead => ?_
  obtain ⟨w, hw⟩ := ne_none_iff_exists'.mp hhead
  rw [head?_append, hw]
  rfl

theorem matched_popStoreBottom (hown : s.owner = .popStoreBottom b) : Matched k s' a := by
  obtain ⟨hwin, rfl, hths, hpush, htaken⟩ := h.at_owner hown s.bottom (Int.add_zero _)
  simp only [ownerStep, hown] at hs'
  cases hs'
  exact .inl (.of_window hwin (Int.sub_add_cancel _ _) rfl hths hpush htaken)

/-- A pop that sees `top` below its slot has claimed the slot: no thief can have loaded that index
before, and every thief that loads it later finds `bottom` lowered. -/
theorem matched_popLoadTop (hown : s.owner = .popLoadTop b) : Matched k s' a := by
  obtain ⟨hwin, rfl, hths, hpush, htaken⟩ := h.at_owner hown (s.bottom + 1) rfl
  simp only [ownerStep, hown] at hs'
  have hsize := hwin.size
  split at hs' <;> cases hs'
  · have hnil : a.items = [] := length_eq_zero_iff.mp (by omega)
    have htop : s.top = s.bottom + 1 := by omega
    exact .inl (.of_window hwin rfl ⟨htop, hnil⟩ hths hpush htaken)
  · by_cases hlt : s.top < s.bottom
    · obtain hnil | ⟨rest, v, hitems⟩ := eq_nil_or_concat a.items
      · rw [hnil, length_nil] at hsize
        omega
      rw [concat_eq_append] at hitems
      rw [hitems] at hwin hsize
      obtain ⟨hfront, hslot⟩ := hwin.popBack
      rw [Int.add_sub_cancel] at hfront hslot
      refine .inr ⟨.popBack, _, Ideal.step_popBack hitems, .of_window hfront ?_ ?_ ?_ hpush ?_⟩
      · dsimp only [Owner.lag]
        rw [if_pos hlt]
        exact Int.add_zero _
      · exact ⟨rfl, by omega, Int.le_refl _⟩
      · intro c hc
        refine (hths c hc).of_head? fun _ => ?_
        rw [length_append, length_singleton] at hsize
        obtain ⟨w, rest', hrest⟩ := exists_cons_of_length_pos (by omega : 0 < rest.length)
        rw [hitems, hrest]
        rfl
      · dsimp only [Owner.held]
        rw [if_pos hlt, hslot]
        rw [Owner.held, append_nil] at htaken
        · exact htaken.append_right [v]
        all_goals nofun
    · refine .inl (.of_window hwin ?_ ⟨rfl, by omega, Int.le_refl _⟩ hths hpush ?_)
      · dsimp only [Owner.lag]
        rw [if_neg hlt]
        rfl
      · dsimp only [Owner.held]
        rwa [if_neg hlt]

theorem matched_popLoadSlot (hown : s.owner = .popLoadSlot b t) : Matched k s' a := by
  obtain ⟨hwin, ⟨rfl, htb, ht⟩, hths, hpush, htaken⟩ := h.at_owner hown _ rfl
  simp only [ownerStep, hown] at hs'
  dsimp only [Owner.lag] at hwin
  dsimp only [Owner.held] at htaken
  split at hs' <;> cases hs' <;> rename_i hlt
  · rw [if_pos hlt] at hwin htaken
    refine .inl ⟨hwin, trivial, hths, hpush, ?_⟩
    exact htaken.trans (.of_eq (append_nil _).symm)
  · rw [if_neg hlt] at hwin htaken
    refine .inl ⟨hwin, ⟨rfl, by omega, ht, fun htop : t = s.top => ?_⟩, hths, hpush, htaken⟩
    -- The pop and the thieves race for the only task left.
    have hsize : s.top + a.items.length = s.bottom + (1 : ℕ) := hwin.size
    obtain ⟨v, rest, hitems⟩ := exists_cons_of_length_pos (by omega : 0 < a.items.length)
    rw [hitems] at hwin
    have hbot : s.bottom = s.top := by omega
    rw [hitems, hbot, hwin.head]
    exact ⟨rfl, nofun⟩

theorem matched_popCas (hown : s.owner = .popCas b t x) :
    Matched k s' a := by
  obtain ⟨hwin, ⟨rfl, rfl, ht, hread⟩, hths, hpush, htaken⟩ :=
    h.at_owner hown (s.bottom + 1) rfl
  simp only [ownerStep, hown] at hs'
  have hsize := hwin.size
  split at hs' <;> cases hs' <;> rename_i htop
  · obtain ⟨hx, hne⟩ := hread htop.symm
    obtain ⟨v, rfl⟩ := ne_none_iff_exists'.mp hne
    obtain ⟨rest, hitems⟩ := head?_eq_some_iff.mp hx
    rw [hitems] at hwin hsize
    rw [length_cons] at hsize
    have hnil : rest = [] := length_eq_zero_iff.mp (by omega)
    have hfront := hwin.popFront
    rw [htop] at hfront hths
    refine .inr ⟨.popFront, _, Ideal.step_popFront hitems, .of_window hfront rfl ⟨rfl, hnil⟩
      (fun c hc => (hths c hc).advance) hpush ?_⟩
    exact (htaken.trans (.of_eq (append_nil _))).append_right [v]
  · have hnil : a.items = [] := length_eq_zero_iff.mp (by omega)
    exact .inl (.of_window hwin rfl ⟨rfl, hnil⟩ hths hpush htaken)

/-- A pop that took nothing or won the race stores `bottom` back. -/
theorem matched_restore (hown : s.owner = .popEmpty t ∨ s.owner = .popRestore b x) :
    Matched k s' a := by
  rcases hown with hown | hown
  all_goals
    obtain ⟨hwin, ⟨rfl, hnil⟩, hths, hpush, htaken⟩ := h.at_owner hown (s.bottom + 1) rfl
    simp only [ownerStep, hown] at hs'
    cases hs'
    refine .inl (.of_window hwin (Int.add_zero _) trivial hths hpush ?_)
    exact htaken.trans (.of_eq (append_nil _).symm)

theorem matched_taking (hown : s.owner = .taking c) : Matched k s' a := by
  obtain ⟨hwin, hok, hths, hpush, htaken⟩ := h.at_owner hown s.bottom (Int.add_zero _)
  simp only [ownerStep, hown] at hs'
  rcases steal_cases h hok with ⟨htop, hsteal | ⟨d, hsteal, hd⟩⟩ | ⟨v, rest, hitems, htop, hsteal⟩
  all_goals
    simp only [hsteal, htop] at hs'
    cases hs'
  · exact .inl (.of_window hwin (Int.add_zero _) trivial hths hpush htaken)
  · exact .inl (.of_window hwin (Int.add_zero _) hd hths hpush htaken)
  · rw [hitems] at hwin
    refine .inr ⟨.popFront, _, Ideal.step_popFront hitems, .of_window hwin.popFront
      (Int.add_zero _) trivial (fun c hc => (hths c hc).advance) hpush ?_⟩
    refine (htaken.append_right [v]).trans (.of_eq ?_)
    exact congrArg (· ++ [v]) (append_nil _) |>.trans (append_nil _).symm

theorem matched_ownerStep : Matched k s' a := by
  cases hown : s.owner with
  | idle =>
    rw [ownerStep, hown] at hs'
    cases hs'
  | pushLoadTop v b => exact matched_pushLoadTop h hs' hown
  | pushStoreSlot v b => exact matched_pushStoreSlot h hs' hown
  | pushStoreBottom v b => exact matched_pushStoreBottom h hs' hown
  | popStoreBottom b => exact matched_popStoreBottom h hs' hown
  | popLoadTop b => exact matched_popLoadTop h hs' hown
  | popEmpty t => exact matched_restore (b := 0) (x := none) h hs' (.inl hown)
  | popLoadSlot b t => exact matched_popLoadSlot h hs' hown
  | popCas b t x => exact matched_popCas h hs' hown
  | popRestore b x => exact matched_restore (t := 0) h hs' (.inr hown)
  | taking c => exact matched_taking h hs' hown
  | takeLoadBottom =>
    obtain ⟨hwin, -, hths, hpush, htaken⟩ := h.at_owner hown _ rfl
    simp only [ownerStep, hown] at hs'
    cases hs'
    exact .inl ⟨hwin, rfl, hths, hpush, htaken⟩
  | takeLoadTop b =>
    obtain ⟨hwin, -, hths, hpush, htaken⟩ := h.at_owner hown _ rfl
    simp only [ownerStep, hown] at hs'
    split at hs' <;> cases hs'
    · exact .inl ⟨hwin, trivial, hths, hpush, htaken⟩
    · refine .inl ⟨hwin, trivial, hths, hpush, ?_⟩
      exact htaken.trans (.of_eq (append_nil _).symm)

end

theorem matched_thiefStep {i : ℕ} (hs' : s.thiefStep k i = some s') : Matched k s' a := by
  obtain ⟨c, hc, rfl⟩ := map_eq_some_iff.mp hs'
  have hcases := steal_cases h (h.thieves c (mem_of_getElem? hc))
  obtain ⟨hwin, hok, hths, hpush, htaken⟩ := h
  rcases hcases with ⟨htop, hsteal | ⟨d, hsteal, hd⟩⟩ | ⟨v, rest, hitems, htop, hsteal⟩
  all_goals simp only [hsteal, htop]
  · refine .inl ⟨hwin, hok, forall_mem_set hths trivial, hpush, ?_⟩
    rwa [toList_none, append_nil]
  · exact .inl ⟨hwin, hok, forall_mem_set hths hd, hpush, htaken⟩
  · rw [hitems] at hwin hok
    refine .inr ⟨.popFront, _, Ideal.step_popFront hitems, hwin.popFront, hok.advance,
      forall_mem_set (fun c hc => (hths c hc).advance) trivial, hpush, ?_⟩
    refine (htaken.append_right [v]).trans ?_
    rw [append_assoc, append_assoc]
    exact perm_append_comm.append_left _

theorem matched_call {e : Call τ} (hs' : s.act k (.call e) = some s') : Matched k s' a := by
  rw [act] at hs'
  split at hs'
  · rename_i hidle
    cases hown : s.owner with
    | idle =>
      cases hs'
      obtain ⟨hwin, -, hths, hpush, htaken⟩ := h.at_owner hown _ rfl
      cases e with
      | push v | pop | take => exact .inl ⟨hwin, rfl, hths, hpush, htaken⟩
    | _ => simp [hown] at hidle
  · cases hs'

end

/-- The deque refines the list with operations at both ends. -/
theorem simulation : System.Simulation (system τ k) (Ideal.system τ) (fun _ _ => True)
    (Represents k) where
  init := by
    rintro s ⟨n, rfl⟩
    refine ⟨_, rfl, ⟨Int.le_refl _, rfl, Nat.zero_le _, .nil⟩, trivial, ?_, rfl, .nil⟩
    intro c hc
    rw [eq_of_mem_replicate hc]
    trivial
  step := by
    intro s a act s' h _ ht
    cases act with
    | call c => exact matched_call h ht
    | owner => exact matched_ownerStep h ht
    | thief i => exact matched_thiefStep h ht

theorem Represents.live_eq (h : Represents k s a) : s.live k = a.items := by
  have hnonneg := h.window.nonneg
  have hsize := h.window.size
  have hlen : (s.bottom + s.owner.lag - s.top).toNat = a.items.length := by omega
  have hslot : (fun j : ℕ => s.buf (slot k (s.top + j))) =
      fun j => s.buf ((s.top.toNat + j) % cap k) := by
    funext j
    have hnat : (s.top + j).toNat = s.top.toNat + j := by omega
    rw [slot_eq_mod, hnat]
  rw [live, hlen, hslot]
  exact h.window.ring.filterMap_range

theorem perm_of_represents (ha : (Ideal.system τ).Reachable a) (h : Represents k s a) :
    s.pushed.Perm (s.returned ++ (s.owner.held k s.buf ++ s.live k)) := by
  rw [← h.pushed, h.live_eq, ← append_assoc]
  exact (Ideal.conserved ha).trans (h.taken.append_right _)

/-! ## The owner alone empties the deque -/

/-- The steps left of a steal. -/
def Steal.left : Steal τ → ℕ
  | .start => 4
  | .loadBottom _ => 3
  | .loadSlot _ => 2
  | .cas _ _ => 1

/-- A steal that is going to win unless `top` moves. -/
def Steal.Fresh (s : State τ) : Steal τ → Prop
  | .start => s.top < s.bottom
  | .loadBottom t | .loadSlot t | .cas t _ => s.top < s.bottom ∧ t = s.top

instance (s : State τ) (c : Steal τ) : Decidable (c.Fresh s) :=
  match c with
  | .start => inferInstanceAs (Decidable (s.top < s.bottom))
  | .loadBottom t | .loadSlot t | .cas t _ =>
    inferInstanceAs (Decidable (s.top < s.bottom ∧ t = s.top))

/-- A bound on the steps left of the owner's call when no thief moves. A take whose steal is not
fresh may have to go round its loop once more. -/
def State.left (s : State τ) : ℕ :=
  match s.owner with
  | .idle => 0
  | .pushStoreBottom _ _ | .popEmpty _ | .popRestore _ _ => 1
  | .pushStoreSlot _ _ | .popCas _ _ _ => 2
  | .pushLoadTop _ _ | .popLoadSlot _ _ => 3
  | .popLoadTop _ => 4
  | .popStoreBottom _ | .takeLoadTop _ => 5
  | .takeLoadBottom => 6
  | .taking c => c.left + if c.Fresh s then 0 else 6

theorem steal_ne_done_of_fresh (hc : c.Ok s.top items) (hfresh : c.Fresh s) :
    steal k s c ≠ .done none := by
  cases c with
  | start | loadSlot t => nofun
  | loadBottom t =>
    obtain ⟨hlt, rfl⟩ := hfresh
    rw [steal, if_neg (by omega)]
    nofun
  | cas t x =>
    obtain ⟨-, rfl⟩ := hfresh
    obtain ⟨-, hne⟩ := hc.2 rfl
    rw [steal, if_pos rfl]
    intro hnone
    exact hne (Outcome.done.inj hnone)

/-- A steal that goes on has fewer steps left and stays fresh. -/
theorem left_lt_of_more {d : Steal τ} (hmore : steal k s c = .more d) :
    d.left < c.left ∧ (c.Fresh s → d.Fresh s) := by
  cases c with
  | start =>
    cases hmore
    exact ⟨Nat.lt_succ_self 3, fun hfresh => ⟨hfresh, rfl⟩⟩
  | loadBottom t =>
    rw [steal] at hmore
    split at hmore <;> cases hmore
    exact ⟨Nat.lt_succ_self 2, id⟩
  | loadSlot t =>
    cases hmore
    exact ⟨Nat.lt_succ_self 1, id⟩
  | cas t x =>
    rw [steal] at hmore
    split at hmore <;> cases hmore

theorem left_lt_of_taking (h : Represents k s a) (hown : s.owner = .taking c)
    (hs' : s.ownerStep k = some s') : s'.left < s.left := by
  obtain ⟨-, hok, -⟩ := h.at_owner hown _ rfl
  simp only [ownerStep, hown] at hs'
  have hpos : 0 < c.left := by cases c <;> exact Nat.succ_pos _
  rcases steal_cases h hok with ⟨htop, hsteal | ⟨d, hsteal, -⟩⟩ | ⟨v, rest, -, htop, hsteal⟩
  all_goals
    simp only [hsteal, htop] at hs'
    cases hs'
    simp only [left, hown, finish]
  · rw [if_neg fun hfresh => steal_ne_done_of_fresh hok hfresh hsteal]
    omega
  · obtain ⟨hlt, hstays⟩ := left_lt_of_more hsteal
    by_cases hfresh : c.Fresh s
    · have hd : d.Fresh { s with owner := .taking d } := by
        have hd := hstays hfresh
        cases d <;> exact hd
      rw [if_pos hfresh, if_pos hd]
      exact hlt
    · split <;> omega
  · omega

/-- A step of the owner brings its call closer to its end and only adds to the histories, and a
push fails after it has loaded a `top` that is the capacity away. -/
structure Moves (k : ℕ) (s s' : State τ) : Prop where
  left : s'.left < s.left
  pushed : s.pushed <+: s'.pushed
  returned : s.returned <+: s'.returned
  refused : s'.refused = s.refused ∨ ∃ v b, s.owner = .pushLoadTop v b ∧ b - s.top ≥ cap k

theorem Represents.moves (h : Represents k s a) (hs' : s.ownerStep k = some s') : Moves k s s' := by
  have hreturn (x : Option τ) : s.returned <+: s.returned ++ x.toList := prefix_append _ _
  cases hown : s.owner
  case taking c =>
    have hleft := left_lt_of_taking h hown hs'
    simp only [ownerStep, hown] at hs'
    split at hs' <;> cases hs'
    · exact ⟨hleft, prefix_rfl, prefix_rfl, .inl rfl⟩
    · exact ⟨hleft, prefix_rfl, hreturn (some _), .inl rfl⟩
    · exact ⟨hleft, prefix_rfl, prefix_rfl, .inl rfl⟩
  all_goals simp only [ownerStep, hown] at hs'
  case idle => cases hs'
  case takeLoadTop b =>
    obtain ⟨-, rfl, -⟩ := h.at_owner hown _ rfl
    split at hs' <;> cases hs' <;> rename_i hlt
    · have hfresh : s.top < s.bottom := by omega
      refine ⟨?_, prefix_rfl, prefix_rfl, .inl rfl⟩
      simp [left, hown, Steal.left, Steal.Fresh, hfresh]
    · exact ⟨by simp [left, hown, finish], prefix_rfl, hreturn none, .inl rfl⟩
  case pushLoadTop v b =>
    split at hs' <;> cases hs'
    · exact ⟨by simp [left, hown], prefix_rfl, prefix_rfl, .inr ⟨v, b, hown, ‹_›⟩⟩
    · exact ⟨by simp [left, hown], prefix_rfl, prefix_rfl, .inl rfl⟩
  all_goals
    repeat' split at hs'
    all_goals
      cases hs'
      refine ⟨by simp [left, hown, finish], ?_, ?_, .inl rfl⟩
      all_goals first
        | exact prefix_rfl
        | exact prefix_append _ _

/-- The owner can end its call by its own steps. -/
theorem exists_idle (hs : (system τ k).Reachable s) :
    ∃ acts, ∃ s' ∈ (system τ k).run s acts, s'.owner = .idle ∧ s.pushed <+: s'.pushed ∧
      s.returned <+: s'.returned := by
  induction hn : s.left using Nat.strongRecOn generalizing s with
  | ind n ih =>
    cases ht : s.ownerStep k with
    | none =>
      refine ⟨[], s, rfl, ?_, prefix_rfl, prefix_rfl⟩
      cases hown : s.owner
      case idle => rfl
      all_goals
        simp only [ownerStep, hown] at ht
        first
          | cases ht
          | split at ht <;> cases ht
    | some s₁ =>
      obtain ⟨a, -, ha⟩ := simulation.reachable hs
      have hmoves := ha.moves ht
      have hs₁ : (system τ k).Reachable s₁ := .next (a := .owner) hs trivial ht
      obtain ⟨acts, s', hrun, hidle, hpush, hret⟩ := ih s₁.left (hn ▸ hmoves.left) hs₁ rfl
      refine ⟨.owner :: acts, s', ?_, hidle, hmoves.pushed.trans hpush, hmoves.returned.trans hret⟩
      exact bind_eq_some_iff.mpr ⟨s₁, ht, hrun⟩

/-- A take that no thief interrupts. -/
def takeAlone (τ : Type*) : List (Act τ) := .call .take :: replicate 5 .owner

theorem run_takeAlone (h : Represents k s a) (hown : s.owner = .idle)
    (hitems : a.items = v :: rest) : (system τ k).run s (takeAlone τ) =
      some { s with top := s.top + 1, returned := s.returned ++ [v] } := by
  obtain ⟨hwin, -⟩ := h.at_owner hown s.bottom (Int.add_zero _)
  rw [hitems] at hwin
  have hsize := hwin.size
  rw [length_cons] at hsize
  have hlt : s.top < s.bottom := by omega
  have hle : ¬ s.bottom ≤ s.top := by omega
  simp [takeAlone, System.runUnder, system, act, call,
    ownerStep, finish, steal, stealTop, hown, hlt, hle, hwin.head]

/-- The owner's takes return what is in the deque, oldest first. -/
theorem exists_drained (h : Represents k s a) (hown : s.owner = .idle) :
    ∃ acts, ∃ s' ∈ (system τ k).run s acts,
      s'.pushed = s.pushed ∧ s'.returned = s.returned ++ a.items := by
  induction hitems : a.items generalizing s a with
  | nil => exact ⟨[], s, rfl, rfl, (append_nil _).symm⟩
  | cons v rest ih =>
    have hrun := run_takeAlone h hown hitems
    obtain ⟨hwin, -, hths, hpush, htaken⟩ := h
    rw [hitems] at hwin
    have hnext : Represents k { s with top := s.top + 1, returned := s.returned ++ [v] }
        { a with items := rest, taken := a.taken ++ [v] } := by
      refine ⟨hwin.popFront, ?_, fun c hc => (hths c hc).advance, hpush, ?_⟩
      · rw [hown]
        trivial
      · rw [hown] at htaken ⊢
        exact (htaken.append_right [v]).trans (.of_eq (by simp [Owner.held]))
    obtain ⟨acts, s', hrest, hpushed', hret⟩ := ih hnext hown rfl
    refine ⟨takeAlone τ ++ acts, s', ?_, hpushed', ?_⟩
    · rw [mem_def, System.run_append, hrun]
      exact hrest
    · rw [hret, append_assoc]
      rfl

/-! ## The result -/

/-- A push fails only when the ring is full. -/
theorem Represents.full_of_refused (h : Represents k s a) {act : Act τ}
    (hs' : s.act k act = some s') (hrefused : s'.refused ≠ s.refused) :
    a.items.length = cap k ∧ s.bottom - s.top = cap k := by
  cases act with
  | call c =>
    rw [act] at hs'
    split at hs' <;> cases hs'
    exact absurd rfl hrefused
  | thief i =>
    obtain ⟨c, -, rfl⟩ := map_eq_some_iff.mp hs'
    split at hrefused <;> exact absurd rfl hrefused
  | owner =>
    rcases (h.moves hs').refused with hsame | ⟨v, b, hown, hfull⟩
    · exact absurd hsame hrefused
    · obtain ⟨hwin, rfl, -⟩ := h.at_owner hown s.bottom (Int.add_zero _)
      have hsize := hwin.size
      have hroom := hwin.room
      omega

/-- In every run with any capacity and any number of thieves: the tasks pushed are, each once, the
tasks that calls returned, the task that a pop has claimed and not returned yet, and the tasks left
in the ring; no call returned anything else; from every state the owner can go on so that every
task pushed was returned; and a push that fails finds the ring full. -/
theorem pushed_returned_once {k : ℕ} {s : State τ} (hs : (system τ k).Reachable s) :
    s.pushed.Perm (s.returned ++ (s.owner.held k s.buf ++ s.live k)) ∧
    (∀ v ∈ s.returned, v ∈ s.pushed) ∧
    (∃ acts, ∃ s' ∈ (system τ k).run s acts, s.pushed <+: s'.pushed ∧
      s.returned <+: s'.returned ∧ s'.pushed.Perm s'.returned) ∧
    ∀ act, ∀ s' ∈ (system τ k).step s act, s'.refused ≠ s.refused →
      (s.live k).length = cap k ∧ s.bottom - s.top = cap k := by
  obtain ⟨a, hreach, ha⟩ := simulation.reachable hs
  have hperm := perm_of_represents hreach ha
  refine ⟨hperm, fun v hv => hperm.mem_iff.mpr (mem_append_left _ hv), ?_, ?_⟩
  · obtain ⟨acts, s₁, hrun, hidle, hpushed, hreturned⟩ := exists_idle hs
    obtain ⟨a₁, hreach₁, ha₁⟩ := simulation.reachable (hs.runUnder hrun)
    obtain ⟨takes, s', hdrain, hpushed', hreturned'⟩ := exists_drained ha₁ hidle
    refine ⟨acts ++ takes, s', ?_, hpushed' ▸ hpushed, ?_, ?_⟩
    · rw [mem_def, System.run_append]
      exact bind_eq_some_iff.mpr ⟨s₁, hrun, hdrain⟩
    · rw [hreturned']
      exact hreturned.trans (prefix_append _ _)
    · have hperm₁ := perm_of_represents hreach₁ ha₁
      rw [hidle, ha₁.live_eq] at hperm₁
      rw [hpushed', hreturned']
      exact hperm₁
  · intro act s' hs' hrefused
    rw [ha.live_eq]
    exact ha.full_of_refused hs' hrefused

/-- A ring of two slots is filled and a third push fails. Thief 0 reads the first task and falls
behind; thief 1 steals it. The next push reuses its slot, thief 0 loses the race, and the owner is
in the middle of popping the new task. -/
def staleThief : List (Act ℕ) :=
  [.call (.push 10), .owner, .owner, .owner, .call (.push 11), .owner, .owner, .owner,
    .call (.push 12), .owner, .thief 0, .thief 0, .thief 0,
    .thief 1, .thief 1, .thief 1, .thief 1,
    .call (.push 13), .owner, .owner, .owner, .thief 0, .call .pop, .owner, .owner]

theorem pushed_returned_once_staleThief :
    ∃ s ∈ (system ℕ 1).run (create 2) staleThief, s.returned = [10] ∧ s.live 1 = [11] ∧
      s.refused = [12] ∧ s.pushed.Perm ([10] ++ (s.owner.held 1 s.buf ++ [11])) := by
  refine System.exists_run ⟨2, rfl⟩ (by decide) fun s eval hs hreturned => ?_
  have hlive : s.live 1 = [11] := by apply eval; decide
  have hperm := (pushed_returned_once hs).1
  rw [hreturned, hlive] at hperm
  exact ⟨hlive, by apply eval; decide, hperm⟩

/-- The ring keeps the order of the pushes, and a thief gets the oldest task of the ring. -/
theorem push_order_kept {s : State τ} (hs : (system τ k).Reachable s) :
    s.live k <+ s.pushed ∧ ∀ i, ∀ s' ∈ (system τ k).step s (.thief i), ∀ v,
      s'.returned = s.returned ++ [v] → (s.live k).head? = some v := by
  obtain ⟨a, hreach, ha⟩ := simulation.reachable hs
  rw [ha.live_eq, ← ha.pushed]
  refine ⟨hreach.invariant (I := fun a => a.items <+ a.pushed) ?_ ?_, fun i s' hs' v hv => ?_⟩
  · rintro a rfl
    exact .slnil
  · rintro a op a' h - ht
    cases op with
    | pushBack v =>
      cases ht
      exact h.append_right [v]
    | popBack =>
      obtain ⟨v, -, rfl⟩ := map_eq_some_iff.mp ht
      exact (dropLast_sublist _).trans h
    | popFront =>
      obtain ⟨v, -, rfl⟩ := map_eq_some_iff.mp ht
      exact (tail_sublist _).trans h
  · obtain ⟨c, hc, rfl⟩ := map_eq_some_iff.mp hs'
    rcases steal_cases ha (ha.thieves c (mem_of_getElem? hc)) with
      ⟨-, hsteal | ⟨d, hsteal, -⟩⟩ | ⟨u, rest, hitems, -, hsteal⟩
    · simp [hsteal] at hv
    · simp [hsteal] at hv
    · simp_all

theorem push_order_kept_staleThief : ∃ s ∈ (system ℕ 1).run (create 2) staleThief,
    s.pushed = [10, 11, 13] ∧ s.live 1 <+ s.pushed :=
  System.exists_run ⟨2, rfl⟩ (by decide) fun _ _ hs _ => (push_order_kept hs).1

end LibXtc.Deque

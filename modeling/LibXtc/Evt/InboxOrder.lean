import LibXtc.Evt.Inbox
import LibXtc.Foundations.Lists
import LibXtc.Foundations.Queue

/-!
# The order in which the inbox hands tasks over

A task whose slot is owned is in one place: in the hands of the producer that pushes it, on one of
the stacks, or in a chain that the drain has taken. The links of a task are only written by
whoever has it there, so every chain can be read as a list. Reversing the chain of a stack gives
the tasks in the order in which they were pushed, and the drain hands over the oldest one first.
-/

namespace LibXtc.Inbox

open Foundations Bool Option State List Function

variable {s s' : State} {stack taken f : Kind → List ℕ} {next next' slot : ℕ → Option ℕ} {i t n : ℕ}
  {k k' : Kind} {p q : Producer} {l l' : List ℕ} {o : Owner} {r x old : Option ℕ}
  {ok : State → Act → Prop} {ps : List Producer} {e : Entry}

/-! ## Where a task is -/

/-- The producer has the task in its hands. -/
def Producer.holds (t : ℕ) : Producer → Bool
  | .link _ u _ | .cas _ u _ => u == t
  | _ => false

def Producer.Linked (next : ℕ → Option ℕ) : Producer → Prop
  | .cas _ t old => next t = old
  | _ => True

/-- The chains that the owner has in its local variables are the tasks `taken`, oldest first. -/
def Owner.Takes (next : ℕ → Option ℕ) (taken : Kind → List ℕ) : Owner → Prop
  | .reversePub t r =>
    taken .wake = [] ∧ ∃ l l', Path next none t l ∧ Path next none r l' ∧
      taken .publish = l.reverse ++ l'
  | .reverseWake pub t r =>
    Path next none pub (taken .publish) ∧ ∃ l l', Path next none t l ∧ Path next none r l' ∧
      taken .wake = l.reverse ++ l'
  | .enqueuePub t wake _ =>
    Path next none t (taken .publish) ∧ Path next none wake (taken .wake)
  | .enqueueWake t _ => taken .publish = [] ∧ Path next none t (taken .wake)
  | _ => ∀ k, taken k = []

/-- How often a task is on either of two lists. -/
def total (f : Kind → List ℕ) (t : ℕ) : ℕ := (f .publish).count t + (f .wake).count t

/-- The tasks of a list as pushes. -/
def entries (slot : ℕ → Option ℕ) (k : Kind) (l : List ℕ) : List Entry :=
  l.map fun t => ⟨slot t, k, t⟩

/-- The pushes of one kind. -/
def ofKind (k : Kind) (l : List Entry) : List Entry := l.filter fun e => e.kind = k

/-- A producer owns the slot of the task in its hands. -/
def Owned (slot : ℕ → Option ℕ) (producers : List Producer) : Prop :=
  ∀ j p u, producers[j]? = some p → p.holds u = true → slot u = some j

/-- The state with the tasks on each stack, newest first, and the tasks that the drain has taken,
oldest first. -/
structure Ok (s : State) (stack taken : Kind → List ℕ) : Prop where
  queued : ∀ k, Path s.next none (s.head k) (stack k)
  takes : s.owner.Takes s.next taken
  linked : ∀ p ∈ s.producers, p.Linked s.next
  single : ∀ t, total stack t + total taken t + s.producers.countP (·.holds t) =
    (s.slot t).isSome.toNat
  owned : Owned s.slot s.producers
  order : ∀ k, ofKind k s.pushed =
    ofKind k s.handed ++ entries s.slot k (taken k ++ (stack k).reverse)

theorem total_update : total (update f k l) t + (f k).count t = total f t + l.count t := by
  cases k <;> simp only [total, update, reduceCtorEq, dite_true, dite_false] <;> omega

theorem count_le_total : (f k).count t ≤ total f t := by
  cases k
  · exact Nat.le_add_left _ _
  · exact Nat.le_add_right _ _

theorem not_mem_of_total_eq_zero (h : total f t = 0) : t ∉ f k := by
  have hle := count_le_total (f := f) (k := k) (t := t)
  exact count_eq_zero.mp (by omega)

/-- The entries of the tasks of a kind do not depend on the slot of another task. -/
theorem entries_update (htaken : total taken t = 0) (hstack : total stack t = 0) :
    entries (update slot t x) k (taken k ++ (stack k).reverse) =
      entries slot k (taken k ++ (stack k).reverse) := by
  refine map_congr_left fun u hu => ?_
  rw [update_of_ne]
  rintro rfl
  rw [mem_append, mem_reverse] at hu
  exact hu.elim (not_mem_of_total_eq_zero htaken) (not_mem_of_total_eq_zero hstack)

theorem ofKind_append_self {l : List Entry} (h : e.kind = k) :
    ofKind k (l ++ [e]) = ofKind k l ++ [e] := by
  simp [ofKind, h]

theorem ofKind_append_of_ne {l : List Entry} (h : e.kind ≠ k) :
    ofKind k (l ++ [e]) = ofKind k l := by
  simp [ofKind, h]

theorem slot_le (s : State) (t : ℕ) : (s.slot t).isSome.toNat ≤ 1 := toNat_le _

/-- A task in the hands of a producer is nowhere else. -/
theorem Ok.of_held (h : Ok s stack taken) (hp : s.producers[i]? = some p)
    (hholds : p.holds t = true) : total stack t = 0 ∧ total taken t = 0 ∧
      s.producers.countP (·.holds t) = 1 := by
  have hsingle := h.single t
  have hslot := slot_le s t
  have hpos : 0 < s.producers.countP (·.holds t) :=
    countP_pos_iff.mpr ⟨p, mem_of_getElem? hp, hholds⟩
  exact ⟨by omega, by omega, by omega⟩

/-- A task that the drain has taken is nowhere else. -/
theorem Ok.of_taken (h : Ok s stack taken) (ht : t ∈ taken k) : total stack t = 0 ∧
    total taken t = 1 ∧ (taken k).count t = 1 ∧ s.producers.countP (·.holds t) = 0 := by
  have hsingle := h.single t
  have hslot := slot_le s t
  have hpos : 0 < (taken k).count t := count_pos_iff.mpr ht
  have hle := count_le_total (f := taken) (k := k) (t := t)
  exact ⟨by omega, by omega, by omega, by omega⟩

/-- A task whose slot nobody owns is nowhere. -/
theorem Ok.of_free (h : Ok s stack taken) (ht : s.slot t = none) : total stack t = 0 ∧
    total taken t = 0 ∧ s.producers.countP (·.holds t) = 0 := by
  have hsingle := h.single t
  rw [ht, isSome_none, toNat_false] at hsingle
  exact ⟨by omega, by omega, by omega⟩

/-- The chains of the drain only depend on the links of the tasks it has taken. -/
theorem Owner.Takes.congr (h : o.Takes next taken) (hnext : ∀ k, ∀ x ∈ taken k, next' x = next x) :
    o.Takes next' taken := by
  cases o with
  | reversePub u r =>
    obtain ⟨hwake, l, l', hl, hl', htaken⟩ := h
    refine ⟨hwake, l, l', hl.congr fun x hx => ?_, hl'.congr fun x hx => ?_, htaken⟩
    all_goals
      refine hnext .publish x ?_
      rw [htaken]
      simp [hx]
  | reverseWake pub u r =>
    obtain ⟨hpub, l, l', hl, hl', htaken⟩ := h
    refine ⟨hpub.congr (hnext _), l, l', hl.congr fun x hx => ?_, hl'.congr fun x hx => ?_, htaken⟩
    all_goals
      refine hnext .wake x ?_
      rw [htaken]
      simp [hx]
  | enqueuePub u wake n => exact ⟨h.1.congr (hnext _), h.2.congr (hnext _)⟩
  | enqueueWake u n => exact ⟨h.1, h.2.congr (hnext _)⟩
  | _ => exact h

theorem Producer.Linked.congr (h : p.Linked next)
    (hnext : ∀ u, p.holds u = true → next' u = next u) : p.Linked next' := by
  cases p with
  | cas k u old =>
    have hu : next u = old := h
    exact (hnext u (beq_self_eq_true u)).trans hu
  | _ => trivial

/-- Writing the link of a task that is on no list and in no other hands. -/
theorem update_of_total_eq_zero (h : total f t = 0) :
    ∀ k, ∀ u ∈ f k, update next t x u = next u := by
  intro k u hu
  refine update_of_ne ?_ _ _
  rintro rfl
  exact not_mem_of_total_eq_zero h hu

/-! ## The producers -/

theorem Owned.set (h : Owned slot ps)
    (hq : ∀ u, q.holds u = true → slot u = some i) : Owned slot (ps.set i q) := by
  intro j p u hj hu
  by_cases hij : i = j
  · subst hij
    rw [getElem?_set_self'] at hj
    obtain ⟨old, -, rfl⟩ := map_eq_some_iff.mp hj
    exact hq u hu
  · rw [getElem?_set_ne hij] at hj
    exact h j p u hj hu

theorem Owned.update (h : Owned slot ps)
    (ht : ps.countP (·.holds t) = 0) : Owned (update slot t x) ps := by
  intro j p u hj hu
  rw [update_of_ne]
  · exact h j p u hj hu
  · rintro rfl
    exact countP_eq_zero.mp ht p (mem_of_getElem? hj) hu

theorem countP_holds_set (u : ℕ) (q : Producer) (hp : s.producers[i]? = some p) :
    (s.producers.set i q).countP (·.holds u) + (p.holds u).toNat =
      s.producers.countP (·.holds u) + (q.holds u).toNat :=
  countP_set_add hp

section

variable (h : Ok s stack taken)
include h

/-- A producer moves on and keeps what it has in its hands. -/
theorem Ok.set_producer (hp : s.producers[i]? = some p) {sleeping wakeupFd : Bool}
    (hholds : ∀ t, q.holds t = p.holds t) (hlink : q.Linked s.next) :
    Ok { s with
      sleeping := sleeping
      wakeupFd := wakeupFd
      producers := s.producers.set i q } stack taken := by
  refine ⟨h.queued, h.takes, forall_mem_set h.linked hlink, fun t => ?_,
    h.owned.set fun u hu => h.owned i p u hp (hholds u ▸ hu), h.order⟩
  have hcnt := countP_holds_set t q hp
  have hsingle := h.single t
  rw [hholds t] at hcnt
  dsimp only
  omega

theorem Ok.push (hs' : s.push i k t = some s') : Ok s' stack taken := by
  unfold State.push at hs'
  split at hs'
  case isFalse => cases hs'
  rename_i hguard
  obtain ⟨hidle, hfree⟩ := hguard
  cases hs'
  obtain ⟨hstack, htaken, hhands⟩ := h.of_free hfree
  have howned : Owned (update s.slot t (some i)) (s.producers.set i (.link k t (s.head k))) := by
    refine (h.owned.update hhands).set fun u hu => ?_
    rw [← beq_iff_eq.mp hu, update_self]
  refine ⟨h.queued, h.takes, forall_mem_set h.linked trivial, fun u => ?_, howned, fun k' => ?_⟩
  · have hcnt : (s.producers.set i (.link k t (s.head k))).countP (·.holds u) =
        s.producers.countP (·.holds u) + (t == u).toNat :=
      countP_holds_set u (.link k t (s.head k)) hidle
    have hsingle := h.single u
    dsimp only
    by_cases hu : t = u
    · subst hu
      rw [beq_self_eq_true, toNat_true] at hcnt
      rw [update_self, isSome_some, toNat_true]
      omega
    · rw [beq_eq_false_iff_ne.mpr hu, toNat_false] at hcnt
      rw [update_of_ne (Ne.symm hu)]
      omega
  · rw [entries_update htaken hstack]
    exact h.order k'

/-- A producer writes the link of the task in its hands. -/
theorem Ok.link (hp : s.producers[i]? = some (.link k t old)) : Ok { s with
      next := update s.next t old
      producers := s.producers.set i (.cas k t old) } stack taken := by
  obtain ⟨hstack, htaken, hhands⟩ := h.of_held hp (beq_self_eq_true t)
  refine ⟨fun k' => (h.queued k').congr (update_of_total_eq_zero hstack k'),
    h.takes.congr (update_of_total_eq_zero htaken),
    forall_mem_set (fun p hmem => ?_) (update_self ..), fun u => ?_,
    h.owned.set fun u hu => h.owned i _ u hp hu, h.order⟩
  · obtain ⟨j, hj⟩ := mem_iff_getElem?.mp hmem
    by_cases hij : i = j
    · subst hij
      rw [hp] at hj
      cases hj
      trivial
    · refine (h.linked p hmem).congr fun u hu => update_of_ne ?_ _ _
      rintro rfl
      have hself : 1 ≤ ((Producer.link k u old).holds u).toNat := by simp [Producer.holds]
      have hother : p.holds u = false :=
        eq_false_of_countP_le (Nat.le_trans (Nat.le_of_eq hhands) hself) hp hj hij
      rw [hother] at hu
      cases hu
  · have hcnt := countP_holds_set u (.cas k t old) hp
    have hsingle := h.single u
    have hsame : (Producer.cas k t old).holds u = (Producer.link k t old).holds u := rfl
    rw [hsame] at hcnt
    dsimp only
    omega

/-- A producer's compare-and-swap puts its task on the stack. -/
theorem Ok.swap (hp : s.producers[i]? = some (.cas k t old)) (hhead : s.head k = old) : Ok { s with
      head := update s.head k (some t)
      producers := s.producers.set i .loadSleeping
      pushed := s.pushed ++ [⟨some i, k, t⟩] }
      (update stack k (t :: stack k)) taken := by
  have hlink : s.next t = old := h.linked _ (mem_of_getElem? hp)
  have howned : s.slot t = some i := h.owned i _ t hp (beq_self_eq_true t)
  refine ⟨fun k' => ?_, h.takes, forall_mem_set h.linked trivial, fun u => ?_,
    h.owned.set nofun, fun k' => ?_⟩
  · by_cases hk : k' = k
    · subst hk
      dsimp only
      rw [update_self, update_self]
      refine ⟨rfl, ?_⟩
      rw [hlink, ← hhead]
      exact h.queued k'
    · dsimp only
      rw [update_of_ne hk, update_of_ne hk]
      exact h.queued k'
  · -- the count of the task moves from the hands of the producer to the stack
    have hcnt : (s.producers.set i .loadSleeping).countP (·.holds u) + (t == u).toNat =
        s.producers.countP (·.holds u) := countP_holds_set u .loadSleeping hp
    have hsingle := h.single u
    have htotal := total_update (f := stack) (k := k) (l := t :: stack k) (t := u)
    have hcons : (t :: stack k).count u = (stack k).count u + (t == u).toNat := by
      rw [count_cons]
      cases t == u <;> rfl
    dsimp only
    omega
  · have horder := h.order k'
    by_cases hk : k' = k
    · subst hk
      rw [ofKind_append_self (e := ⟨some i, k', t⟩) rfl, update_self, horder]
      simp [entries, howned]
    · rw [ofKind_append_of_ne (Ne.symm hk), update_of_ne hk]
      exact horder

theorem Ok.producerStep {ok : Bool} (hs' : s.producerStep i ok = some s') :
    ∃ stack', Ok s' stack' taken := by
  unfold State.producerStep at hs'
  split at hs'
  case h_1 | h_2 => cases hs'
  case h_3 k t old hp =>
    cases hs'
    exact ⟨stack, h.link hp⟩
  case h_4 k t old hp =>
    split at hs' <;> cases hs'
    · rename_i hguard
      exact ⟨_, h.swap hp hguard.1⟩
    · exact ⟨stack, h.set_producer hp (fun _ => rfl) trivial⟩
  case h_5 hp | h_6 hp =>
    cases hs'
    refine ⟨stack, h.set_producer hp (fun _ => ?_) ?_⟩
    · cases s.sleeping <;> rfl
    · cases s.sleeping <;> trivial
  case h_7 hp =>
    split at hs' <;> cases hs'
    · exact ⟨stack, h.set_producer hp (fun _ => rfl) trivial⟩
    · exact ⟨stack, h.set_producer hp (fun _ => rfl) trivial⟩
  case h_8 hp =>
    cases hs'
    exact ⟨stack, h.set_producer hp (fun _ => rfl) trivial⟩

/-! ## The owner -/

/-- The owner moves between places where it has no task. -/
theorem Ok.set_owner {sleeping wakeupFd : Bool} {released : ℕ} (ho : o.Takes s.next taken) :
    Ok { s with
      sleeping := sleeping
      wakeupFd := wakeupFd
      released := released
      owner := o } stack taken :=
  { h with takes := ho }

/-- The owner exchanges a head for `NULL`. -/
theorem Ok.take (htaken : taken k = []) (ho : o.Takes s.next (update taken k (stack k).reverse)) :
    Ok { s with head := update s.head k none, owner := o }
      (update stack k []) (update taken k (stack k).reverse) := by
  refine ⟨fun k' => ?_, ho, h.linked, fun u => ?_, h.owned, fun k' => ?_⟩
  · by_cases hk : k' = k
    · subst hk
      dsimp only
      rw [update_self, update_self]
      rfl
    · dsimp only
      rw [update_of_ne hk, update_of_ne hk]
      exact h.queued k'
  · have hsingle := h.single u
    have hstacks := total_update (f := stack) (k := k) (l := []) (t := u)
    have htakes := total_update (f := taken) (k := k) (l := (stack k).reverse) (t := u)
    rw [count_reverse, htaken] at htakes
    dsimp only
    omega
  · have horder := h.order k'
    by_cases hk : k' = k
    · subst hk
      rw [update_self, update_self, reverse_nil, append_nil]
      rw [htaken, nil_append] at horder
      exact horder
    · rw [update_of_ne hk, update_of_ne hk]
      exact horder

/-- The owner turns round the link of a task that it has taken. -/
theorem Ok.relink {x : ℕ} (hx : x ∈ taken k) (ho : o.Takes (update s.next x r) taken) :
    Ok { s with next := update s.next x r, owner := o } stack taken := by
  obtain ⟨hstack, -, -, hhands⟩ := h.of_taken hx
  refine ⟨fun k' => (h.queued k').congr (update_of_total_eq_zero hstack k'), ho,
    fun p hp => (h.linked p hp).congr fun u hu => update_of_ne ?_ _ _, h.single,
    h.owned, h.order⟩
  rintro rfl
  have hpos : 0 < s.producers.countP (·.holds u) := countP_pos_iff.mpr ⟨p, hp, hu⟩
  omega

end

/-- One turn of `__inbox_reverse`. -/
theorem Ok.reverse {x : ℕ} (h : Ok s stack taken) (hl : Path s.next none (some x) l)
    (hl' : Path s.next none r l') (htaken : taken k = l.reverse ++ l') : x ∈ taken k ∧
      ∃ rest, Path (update s.next x r) none (s.next x) rest ∧
        Path (update s.next x r) none (some x) (x :: l') ∧ taken k = rest.reverse ++ x :: l' := by
  cases l with
  | nil => cases hl
  | cons y rest =>
    obtain ⟨hy, hrest⟩ := hl
    cases hy
    have hx : x ∈ taken k := by
      rw [htaken]
      simp
    have hcnt := (h.of_taken hx).2.2.1
    rw [htaken, count_append, count_reverse, count_cons_self] at hcnt
    have hnotRest : x ∉ rest := count_eq_zero.mp (by omega)
    have hnotDone : x ∉ l' := count_eq_zero.mp (by omega)
    refine ⟨hx, rest, hrest.update hnotRest, ⟨rfl, ?_⟩, ?_⟩
    · rw [update_self]
      exact hl'.update hnotDone
    · rw [htaken, reverse_cons, append_assoc, singleton_append]

/-- The owner puts the oldest task it has taken on the run queue. -/
theorem Ok.enqueue {x : ℕ} {rest allTasks : List ℕ} (h : Ok s stack taken)
    (htaken : taken k = x :: rest) (ho : o.Takes s.next (update taken k rest)) :
    Ok { s.enqueue k x with allTasks := allTasks, owner := o } stack (update taken k rest) := by
  have hx : x ∈ taken k := by rw [htaken]; exact mem_cons_self
  obtain ⟨hstack, htotal, hcnt, hhands⟩ := h.of_taken hx
  have hgone : total (update taken k rest) x = 0 := by
    have hupdate := total_update (f := taken) (k := k) (l := rest) (t := x)
    rw [htaken, count_cons_self] at hcnt hupdate
    omega
  refine ⟨h.queued, ho, h.linked, fun u => ?_, h.owned.update hhands, fun k' => ?_⟩
  · have hsingle := h.single u
    have hupdate := total_update (f := taken) (k := k) (l := rest) (t := u)
    by_cases hu : u = x
    · subst hu
      dsimp only [State.enqueue]
      rw [update_self, isSome_none, toNat_false]
      omega
    · rw [htaken, count_cons_of_ne (Ne.symm hu)] at hupdate
      dsimp only [State.enqueue]
      rw [update_of_ne hu]
      omega
  · have horder := h.order k'
    dsimp only [State.enqueue]
    rw [entries_update hgone hstack]
    by_cases hk : k' = k
    · subst hk
      rw [ofKind_append_self (e := ⟨s.slot x, k', x⟩) rfl, update_self, horder, htaken]
      simp [entries]
    · rw [ofKind_append_of_ne (Ne.symm hk), update_of_ne hk]
      exact horder

theorem Ok.ownerStep (h : Ok s stack taken) (hs' : s.ownerStep = some s') :
    ∃ stack' taken', Ok s' stack' taken' := by
  have htakes := h.takes
  unfold State.ownerStep at hs'
  split at hs'
  all_goals
    rename_i hown
    rw [hown] at htakes
  case h_1 => cases hs'
  case h_2 | h_12 | h_13 =>
    cases hs'
    refine ⟨stack, taken, h.set_owner ?_⟩
    split <;> exact htakes
  case h_3 =>
    cases hs'
    refine ⟨_, _, h.take (htakes .publish) ⟨?_, stack .publish, [], h.queued _, rfl, ?_⟩⟩
    · exact htakes .wake
    · rw [update_self, append_nil]
  case h_4 x r =>
    cases hs'
    obtain ⟨hwake, l, l', hl, hl', htaken⟩ := htakes
    obtain ⟨hx, rest, hrest, hdone, heq⟩ := h.reverse hl hl' htaken
    exact ⟨stack, taken, h.relink hx ⟨hwake, rest, x :: l', hrest, hdone, heq⟩⟩
  case h_5 pub =>
    cases hs'
    obtain ⟨hwake, l, l', hl, hl', htaken⟩ := htakes
    rw [hl.eq_nil, reverse_nil, nil_append] at htaken
    refine ⟨_, _, h.take hwake ⟨?_, stack .wake, [], h.queued _, rfl, ?_⟩⟩
    · rw [update_of_ne (by decide), htaken]
      exact hl'
    · rw [update_self, append_nil]
  case h_6 pub x r =>
    cases hs'
    obtain ⟨hpub, l, l', hl, hl', htaken⟩ := htakes
    obtain ⟨hx, rest, hrest, hdone, heq⟩ := h.reverse hl hl' htaken
    obtain ⟨-, htotal, hcnt, -⟩ := h.of_taken hx
    have hnotPub : x ∉ taken .publish := by
      refine count_eq_zero.mp ?_
      rw [total] at htotal
      omega
    exact ⟨stack, taken, h.relink hx ⟨hpub.update hnotPub, rest, x :: l', hrest, hdone, heq⟩⟩
  case h_7 pub wake =>
    cases hs'
    obtain ⟨hpub, l, l', hl, hl', htaken⟩ := htakes
    rw [hl.eq_nil, reverse_nil, nil_append] at htaken
    exact ⟨stack, taken, h.set_owner ⟨hpub, htaken ▸ hl'⟩⟩
  case h_8 x wake n =>
    cases hs'
    obtain ⟨hpub, hwake⟩ := htakes
    obtain ⟨rest, hrest⟩ : ∃ rest, taken .publish = x :: rest :=
      head?_eq_some_iff.mp hpub.head?_eq.symm
    rw [hrest] at hpub
    refine ⟨stack, _, h.enqueue hrest ⟨?_, ?_⟩⟩
    · exact hpub.2
    · exact hwake
  case h_9 wake n =>
    cases hs'
    exact ⟨stack, taken, h.set_owner ⟨htakes.1.eq_nil, htakes.2⟩⟩
  case h_10 x n =>
    cases hs'
    obtain ⟨hpub, hwake⟩ := htakes
    obtain ⟨rest, hrest⟩ : ∃ rest, taken .wake = x :: rest :=
      head?_eq_some_iff.mp hwake.head?_eq.symm
    rw [hrest] at hwake
    refine ⟨stack, _, h.enqueue hrest ⟨?_, ?_⟩⟩
    · exact hpub
    · exact hwake.2
  case h_11 n =>
    cases hs'
    have hnone : ∀ k, taken k = [] := by
      intro k
      cases k with
      | wake => exact htakes.2.eq_nil
      | publish => exact htakes.1
    exact ⟨stack, taken, h.set_owner hnone⟩
  case h_14 | h_16 =>
    cases hs'
    exact ⟨stack, taken, h.set_owner htakes⟩
  case h_15 =>
    split at hs' <;> cases hs'
    exact ⟨stack, taken, h.set_owner htakes⟩

theorem Ok.act {a : Act} (h : Ok s stack taken) (hs' : s.act a = some s') :
    ∃ stack' taken', Ok s' stack' taken' := by
  have htakes := h.takes
  cases a with
  | push i k t => exact ⟨stack, taken, h.push hs'⟩
  | producer i ok =>
    obtain ⟨stack', hstack'⟩ := h.producerStep hs'
    exact ⟨stack', taken, hstack'⟩
  | owner => exact h.ownerStep hs'
  | drain =>
    simp only [State.act] at hs'
    split at hs' <;> cases hs'
    rename_i hown
    rw [hown] at htakes
    refine ⟨stack, taken, h.set_owner ?_⟩
    split <;> exact htakes
  | sleep | event =>
    simp only [State.act] at hs'
    split at hs' <;> cases hs'
    rename_i hown
    rw [hown] at htakes
    exact ⟨stack, taken, h.set_owner htakes⟩
  | pollNow =>
    simp only [State.act] at hs'
    split at hs' <;> cases hs'
    exact ⟨stack, taken, h.set_owner htakes⟩
  | nudge =>
    cases hs'
    exact ⟨stack, taken, h.set_owner htakes⟩

theorem exists_ok (hs : system.ReachableUnder ok s) : ∃ stack taken, Ok s stack taken := by
  refine hs.invariant (I := fun s => ∃ stack taken, Ok s stack taken) ?_ ?_
  · rintro s ⟨n, rfl⟩
    refine ⟨fun _ => [], fun _ => [], fun _ => rfl, fun _ => rfl, ?_, fun t => ?_, ?_, fun _ => rfl⟩
    · intro p hp
      rw [eq_of_mem_replicate hp]
      trivial
    · have hnone : (create n).producers.countP (·.holds t) = 0 := by
        refine countP_eq_zero.mpr fun p hp => ?_
        rw [eq_of_mem_replicate hp]
        nofun
      rw [hnone]
      rfl
    · intro j p u hj hu
      rw [eq_of_mem_replicate (mem_of_getElem? hj)] at hu
      cases hu
  · rintro s a s' ⟨stack, taken, h⟩ - ht
    exact h.act ht

/-! ## What was handed over -/

/-- The pushes of one kind by one producer. -/
def byProducer (i : ℕ) (k : Kind) (l : List Entry) : List Entry :=
  l.filter fun e => e.producer = some i ∧ e.kind = k

theorem byProducer_eq {l : List Entry} :
    byProducer i k l = (ofKind k l).filter fun e => e.producer = some i := by
  simp [byProducer, ofKind]

theorem Ok.byProducer_prefix (h : Ok s stack taken) :
    byProducer i k s.handed <+: byProducer i k s.pushed := by
  rw [byProducer_eq, byProducer_eq, h.order k]
  exact List.IsPrefix.filter _ (prefix_append _ _)

/-- Outside a drain, an empty stack means that every push of its kind was handed over. -/
theorem Ok.handed_eq (h : Ok s stack taken) (hown : s.owner = .running) (hhead : s.head k = none) :
    ofKind k s.handed = ofKind k s.pushed := by
  have htakes := h.takes
  rw [hown] at htakes
  have hstack := h.queued k
  rw [hhead] at hstack
  rw [h.order k, htakes k, hstack.eq_nil]
  exact (append_nil _).symm

/-! ## A drain that no producer interrupts -/

/-- The owner's own steps end the drain with both stacks empty. -/
def Ends (s : State) : Prop :=
  ∃ n, ∃ s' ∈ system.run s (replicate n .owner), s'.owner = .running ∧
    s'.pushed = s.pushed ∧ ∀ k, s'.head k = none

theorem Ends.step (s₁ : State) (h : Ends s₁) (ht : s.ownerStep = some s₁)
    (hpush : s₁.pushed = s.pushed) : Ends s := by
  obtain ⟨n, s', hrun, hrunning, hpushed', hheads⟩ := h
  refine ⟨n + 1, s', ?_, hrunning, hpushed'.trans hpush, hheads⟩
  exact bind_eq_some_iff.mpr ⟨s₁, ht, hrun⟩

theorem ends_enqueueWake {t : Option ℕ} (hown : s.owner = .enqueueWake t n)
    (hheads : ∀ k, s.head k = none) (hpath : Path s.next none t l) : Ends s := by
  induction l generalizing s t with
  | nil =>
    cases hpath
    refine Ends.step { s with released := s.released + n, owner := .running }
      ⟨0, _, rfl, rfl, rfl, hheads⟩ ?_ rfl
    rw [ownerStep, hown]
  | cons x l ih =>
    obtain ⟨rfl, hrest⟩ := hpath
    refine Ends.step { s.enqueue .wake x with owner := .enqueueWake (s.next x) n }
      (ih rfl hheads hrest) ?_ rfl
    rw [ownerStep, hown]

theorem ends_enqueuePub {t wake : Option ℕ}
    (hown : s.owner = .enqueuePub t wake n) (hheads : ∀ k, s.head k = none)
    (hpath : Path s.next none t l) (hwake : Path s.next none wake l') : Ends s := by
  induction l generalizing s t n with
  | nil =>
    cases hpath
    refine Ends.step { s with owner := .enqueueWake wake n }
      (ends_enqueueWake rfl hheads hwake) ?_ rfl
    rw [ownerStep, hown]
  | cons x l ih =>
    obtain ⟨rfl, hrest⟩ := hpath
    refine Ends.step { s.enqueue .publish x with
      allTasks := x :: s.allTasks
      owner := .enqueuePub (s.next x) wake (n + 1) } (ih rfl hheads hrest hwake) ?_ rfl
    rw [ownerStep, hown]

section

variable (h : Ok s stack taken)
include h

theorem Ok.nodup_stack : (stack k).Nodup := by
  refine nodup_iff_count_le_one.mpr fun t => ?_
  have hsingle := h.single t
  have hslot := slot_le s t
  have hle := count_le_total (f := stack) (k := k) (t := t)
  omega

theorem ends_reverseWake {pub t : Option ℕ} (hown : s.owner = .reverseWake pub t r)
    (hheads : ∀ k, s.head k = none) (hpath : Path s.next none t l) (hnodup : l.Nodup) : Ends s := by
  induction l generalizing s stack taken t r with
  | nil =>
    cases hpath
    have htakes := h.takes
    rw [hown] at htakes
    obtain ⟨hpub, -, l', -, hl', -⟩ := htakes
    refine Ends.step { s with owner := .enqueuePub pub r 0 }
      (ends_enqueuePub rfl hheads hpub hl') ?_ rfl
    rw [ownerStep, hown]
  | cons x l ih =>
    obtain ⟨rfl, hrest⟩ := hpath
    obtain ⟨hx, hnodup⟩ := nodup_cons.mp hnodup
    have ht : s.ownerStep = some { s with
        next := update s.next x r
        owner := .reverseWake pub (s.next x) (some x) } := by
      rw [ownerStep, hown]
    obtain ⟨stack', taken', h'⟩ := h.ownerStep ht
    exact (ih h' rfl hheads (hrest.update hx) hnodup).step _ ht rfl

theorem ends_reversePub {t : Option ℕ} (hown : s.owner = .reversePub t r)
    (hheads : s.head .publish = none) (hpath : Path s.next none t l) (hnodup : l.Nodup) :
    Ends s := by
  induction l generalizing s stack taken t r with
  | nil =>
    cases hpath
    have ht : s.ownerStep = some { s with
        head := update s.head .wake none
        owner := .reverseWake r (s.head .wake) none } := by
      rw [ownerStep, hown]
    obtain ⟨stack', taken', h'⟩ := h.ownerStep ht
    refine (ends_reverseWake h' rfl (fun k => ?_) (h.queued .wake) h.nodup_stack).step _ ht rfl
    cases k with
    | wake => rfl
    | publish => exact hheads
  | cons x l ih =>
    obtain ⟨rfl, hrest⟩ := hpath
    obtain ⟨hx, hnodup⟩ := nodup_cons.mp hnodup
    have ht : s.ownerStep = some { s with
        next := update s.next x r
        owner := .reversePub (s.next x) (some x) } := by
      rw [ownerStep, hown]
    obtain ⟨stack', taken', h'⟩ := h.ownerStep ht
    exact (ih h' rfl hheads (hrest.update hx) hnodup).step _ ht rfl

theorem ends_drainTake (hown : s.owner = .drainTake) : Ends s := by
  have ht : s.ownerStep = some { s with
      head := update s.head .publish none
      owner := .reversePub (s.head .publish) none } := by
    rw [ownerStep, hown]
  obtain ⟨stack', taken', h'⟩ := h.ownerStep ht
  exact (ends_reversePub h' rfl rfl (h.queued .publish) h.nodup_stack).step _ ht rfl

end

/-- A drain that runs on its own hands over every task pushed so far. -/
theorem exists_drained (hs : system.ReachableUnder ok s)
    (hown : s.owner = .running) : ∃ n, ∃ s' ∈ system.run s (.drain :: replicate n .owner),
      s'.owner = .running ∧ s'.pushed = s.pushed ∧ ∀ k, ofKind k s'.handed = ofKind k s.pushed := by
  obtain ⟨stack, taken, h⟩ := exists_ok hs
  obtain ⟨s₁, hs₁, hpushed₁, hends⟩ : ∃ s₁, s.act .drain = some s₁ ∧ s₁.pushed = s.pushed ∧
      Ends s₁ := by
    refine ⟨_, if_pos hown, rfl, ?_⟩
    obtain ⟨stack', taken', h'⟩ := h.act (a := .drain) (if_pos hown)
    by_cases hpub : s.head .publish = none
    · rw [if_pos hpub] at h' ⊢
      by_cases hwake : s.head .wake = none
      · refine Ends.step { s with owner := .running } ⟨0, _, rfl, rfl, rfl, ?_⟩ ?_ rfl
        · intro k
          cases k with
          | wake => exact hwake
          | publish => exact hpub
        · simp [ownerStep, hwake]
      · have ht : { s with owner := .drainLoadWake }.ownerStep =
            some { s with owner := .drainTake } := by
          simp [ownerStep, hwake]
        obtain ⟨stack'', taken'', h''⟩ := h'.ownerStep ht
        exact (ends_drainTake h'' rfl).step _ ht rfl
    · rw [if_neg hpub] at h' ⊢
      exact ends_drainTake h' rfl
  obtain ⟨n, s', hrun, hrunning, hpushed', hheads⟩ := hends
  have hall : s'.pushed = s.pushed := hpushed'.trans hpushed₁
  have hdr : s' ∈ system.run s (.drain :: replicate n .owner) := by
    exact bind_eq_some_iff.mpr ⟨s₁, hs₁, hrun⟩
  have hfree : system.Reachable s := hs.mono fun _ _ _ => trivial
  have hreach := hfree.runUnder hdr
  obtain ⟨stack', taken', h'⟩ := exists_ok hreach
  refine ⟨n, s', hdr, hrunning, hall, fun k => ?_⟩
  rw [← hall]
  exact h'.handed_eq hrunning (hheads k)

end LibXtc.Inbox

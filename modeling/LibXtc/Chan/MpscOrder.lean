import LibXtc.Chan.Mpsc
import LibXtc.Foundations.Lists
import LibXtc.Foundations.Ring

/-!
# Messages are received once, in the order of their positions

The positions from `tail` to `head` are reserved. The slot of such a position is `NULL` while its
producer has not published it, and while the consumer has cleared it and not yet moved `tail`;
otherwise it holds the message. The slots of the other positions of the window are `NULL`. Two
positions of one window never share a slot, so a store changes one position only.
-/

namespace LibXtc.Mpsc

open Foundations State Option List Function

variable {τ : Type*} {k i n m head t j wakes tail : ℕ} {s s' : State τ} {p q : Producer τ} {v w : τ}
  {l : List (ℕ × τ)} {again : List ℕ} {a : Act τ}

/-- The message that the producer has reserved a position for and not returned from. -/
def Producer.inFlight : Producer τ → Option τ
  | .publish msg _ | .loadWaker msg => some msg
  | _ => none

/-- The position whose slot the consumer has cleared. -/
def Consumer.cleared : Consumer τ → Option ℕ
  | .storeTail tail _ => some tail
  | _ => none

/-- The messages of one producer. -/
def mine (i : ℕ) (l : List (ℕ × τ)) : List (ℕ × τ) := l.filter fun e => e.1 = i

/-- What the local variables of producer `i` say about the channel. -/
def Producer.Ok (k : ℕ) (s : State τ) (i : ℕ) : Producer τ → Prop
  | .loadTail _ head => head ≤ s.head
  | .cas _ head => head < s.tail + cap k
  | .publish msg head => s.tail ≤ head ∧ s.reserved[head]? = some (i, msg)
  | _ => True

def Consumer.Ok (k : ℕ) (s : State τ) : Consumer τ → Prop
  | .idle => True
  | .loadHead tail | .loadClosed tail => tail = s.tail
  | .loadSlot tail => tail = s.tail ∧ tail < s.head
  | .clearSlot tail v => tail = s.tail ∧ tail < s.head ∧ s.slots (slot k tail) = some v
  | .storeTail tail v => tail = s.tail ∧ s.slots (slot k tail) = none ∧
    ∃ i, s.reserved[tail]? = some (i, v) ∧ ∀ w, s.producers[i]? ≠ some (.publish w tail)

structure Ok (k : ℕ) (s : State τ) : Prop where
  head_eq : s.head = s.reserved.length
  head_lt : s.head < 2 ^ 64
  tail_le : s.tail ≤ s.head
  room : s.head ≤ s.tail + cap k
  received : s.received = (s.reserved.take s.tail).map Prod.snd
  free : ∀ n, s.head ≤ n → n < s.tail + cap k → s.slots (slot k n) = none
  taken : ∀ n i v, s.tail ≤ n → s.reserved[n]? = some (i, v) → s.consumer.cleared ≠ some n →
    s.producers[i]? = some (.publish v n) ∧ s.slots (slot k n) = none ∨
    s.producers[i]? ≠ some (.publish v n) ∧ s.slots (slot k n) = some v
  producers : ∀ (i : ℕ) (p : Producer τ), s.producers[i]? = some p → p.Ok k s i
  consumer : s.consumer.Ok k s
  order : ∀ i, mine i s.reserved =
    mine i s.sent ++ (s.producers[i]?.bind Producer.inFlight).toList.map fun v => (i, v)

theorem slot_eq_mod : slot k n = n % cap k := Nat.and_two_pow_sub_one_eq_mod _ _

/-- Two positions of one window have different slots. -/
theorem slot_ne (hn : t ≤ n) (hn' : n < t + cap k) (hm : t ≤ m) (hm' : m < t + cap k)
    (hne : n ≠ m) : slot k n ≠ slot k m := by
  rw [slot_eq_mod, slot_eq_mod]
  rcases Nat.lt_or_gt_of_ne hne with hlt | hgt
  · exact Ring.mod_ne_mod hlt (by omega)
  · exact (Ring.mod_ne_mod hgt (by omega)).symm

/-- The full test passes only if the position is inside the window. -/
theorem lt_of_sub64_lt (hhead : head < 2 ^ 64) (h : sub64 head tail < cap k) :
    head < tail + cap k := by
  unfold sub64 at h
  omega

theorem le_of_sub64_ge (hhead : head < 2 ^ 64) (htail : tail ≤ head)
    (h : sub64 head tail ≥ cap k) : tail + cap k ≤ head := by
  unfold sub64 at h
  omega

theorem lt_head_of_reserved {e : ℕ × τ} (h : Ok k s) (hn : s.reserved[n]? = some e) :
    n < s.head := by
  rw [h.head_eq]
  exact (List.getElem?_eq_some_iff.mp hn).1

theorem mine_append_self : mine i (l ++ [(i, v)]) = mine i l ++ [(i, v)] := by
  simp [mine]

theorem mine_append_of_ne (h : j ≠ i) : mine i (l ++ [(j, v)]) = mine i l := by
  simp [mine, h]

/-! ## The producers -/

theorem getElem?_put_self (hp : s.producers[i]? = some p) : (s.put i q).producers[i]? = some q :=
  getElem?_set_new hp

theorem getElem?_put_ne (h : i ≠ j) : (s.put i q).producers[j]? = s.producers[j]? :=
  getElem?_set_ne h

theorem inFlight_put (hp : s.producers[i]? = some p) :
    (s.put i q).producers[j]?.bind Producer.inFlight =
      if i = j then q.inFlight else s.producers[j]?.bind Producer.inFlight := by
  split
  · rename_i hij
    subst hij
    rw [getElem?_put_self hp, bind_some]
  · rename_i hij
    rw [getElem?_put_ne hij]

/-- A move of a producer that neither leaves nor takes up a store leaves it to the same producer. -/
theorem put_publish_iff (hp : s.producers[i]? = some p) (hold : p ≠ .publish v n)
    (hnew : q ≠ .publish v n) :
    (s.put i q).producers[j]? = some (.publish v n) ↔ s.producers[j]? = some (.publish v n) := by
  by_cases hij : i = j
  · subst hij
    rw [getElem?_put_self hp, hp]
    simp [hold, hnew]
  · rw [getElem?_put_ne hij]

section

variable (h : Ok k s)
include h

theorem Ok.order_put (hp : s.producers[i]? = some p) (hsame : q.inFlight = p.inFlight) (j : ℕ) :
    mine j s.reserved = mine j s.sent ++
      ((s.put i q).producers[j]?.bind Producer.inFlight).toList.map fun v => (j, v) := by
  rw [inFlight_put hp, h.order j]
  split
  · rename_i hij
    subst hij
    rw [hp, bind_some, hsame]
  · rfl

/-- A producer that has no position to publish moves on. -/
theorem Ok.move {sent : List (ℕ × τ)}
    (hp : s.producers[i]? = some p) (hold : ∀ v n, p ≠ .publish v n)
    (hnew : ∀ v n, q ≠ .publish v n) (hq : q.Ok k s i)
    (horder : ∀ j, mine j s.reserved = mine j sent ++
      ((s.put i q).producers[j]?.bind Producer.inFlight).toList.map fun v => (j, v)) :
    Ok k { s.put i q with again := again, wakes := wakes, sent := sent } := by
  have hpublish (j : ℕ) (v : τ) (n : ℕ) : (s.put i q).producers[j]? = some (.publish v n) ↔
      s.producers[j]? = some (.publish v n) := put_publish_iff hp (hold v n) (hnew v n)
  refine ⟨h.head_eq, h.head_lt, h.tail_le, h.room, h.received, h.free, ?_, ?_, ?_, horder⟩
  · intro n j v hn hres hclear
    exact (h.taken n j v hn hres hclear).imp (fun hpend => ⟨(hpublish j v n).mpr hpend.1, hpend.2⟩)
      (fun hfull => ⟨(hpublish j v n).not.mpr hfull.1, hfull.2⟩)
  · intro j r hj
    rcases getElem?_set_cases hj with ⟨rfl, rfl⟩ | ⟨-, hj⟩
    · cases r <;> exact hq
    · have hr := h.producers j r hj
      cases r <;> exact hr
  · have hc := h.consumer
    change s.consumer.Ok k _
    generalize s.consumer = c at hc ⊢
    cases c with
    | storeTail t v =>
      obtain ⟨ht, hslot, j, hres, hfree⟩ := hc
      exact ⟨ht, hslot, j, hres, fun w => (hpublish j w t).not.mpr (hfree w)⟩
    | _ => exact hc

/-- A producer that has no position moves on without one. -/
theorem Ok.put (q : Producer τ) (hp : s.producers[i]? = some p) (hold : p.inFlight = none)
    (hnew : q.inFlight = none) (hq : q.Ok k s i) :
    Ok k { s.put i q with again := again } := by
  have hnot {r : Producer τ} (hr : r.inFlight = none) : ∀ v n, r ≠ .publish v n := by
    rintro v n rfl
    cases hr
  exact h.move hp (hnot hold) (hnot hnew) hq (h.order_put hp (hnew.trans hold.symm))

/-- A producer reserves the position at `head`. -/
theorem Ok.reserve (hp : s.producers[i]? = some (.cas v head)) (hhead : s.head = head)
    (hfits : s.head + 1 < 2 ^ 64) :
    Ok k { s.put i (.publish v head) with
      head := (head + 1) % 2 ^ 64
      reserved := s.reserved ++ [(i, v)] } := by
  subst hhead
  have hwin : s.head < s.tail + cap k := h.producers i _ hp
  have hmod : (s.head + 1) % 2 ^ 64 = s.head + 1 := Nat.mod_eq_of_lt hfits
  have htail := h.tail_le
  have hold (n : ℕ) (hn : n < s.head) : (s.reserved ++ [(i, v)])[n]? = s.reserved[n]? :=
    List.getElem?_append_left (by rw [← h.head_eq]; exact hn)
  have hlast : (s.reserved ++ [(i, v)])[s.head]? = some (i, v) := by
    rw [h.head_eq, List.getElem?_concat_length]
  rw [hmod]
  refine ⟨?_, hfits, by dsimp only [State.put]; omega, by dsimp only [State.put]; omega, ?_,
    fun n hn => h.free n (by dsimp only at hn; omega), ?_, ?_, ?_, ?_⟩
  · rw [length_append, length_singleton, ← h.head_eq]
  · rw [take_append_of_le_length (by rw [← h.head_eq]; exact htail)]
    exact h.received
  · intro n j w hn hres hclear
    by_cases hnew : n = s.head
    · subst hnew
      rw [hlast] at hres
      cases hres
      exact .inl ⟨getElem?_put_self hp, h.free _ (Nat.le_refl _) hwin⟩
    · have hlt : n < s.head := by
        have hlen := (List.getElem?_eq_some_iff.mp hres).1
        rw [length_append, length_singleton, ← h.head_eq] at hlen
        omega
      rw [hold n hlt] at hres
      dsimp only
      rw [ne_eq, put_publish_iff hp nofun fun heq => hnew (Producer.publish.inj heq).2.symm]
      exact h.taken n j w hn hres hclear
  · intro j r hj
    rcases getElem?_set_cases hj with ⟨rfl, rfl⟩ | ⟨-, hj⟩
    · exact ⟨htail, hlast⟩
    · have hr := h.producers j r hj
      cases r with
      | loadTail w head => exact Nat.le_succ_of_le hr
      | publish w head =>
        refine ⟨hr.1, ?_⟩
        rw [hold head (lt_head_of_reserved h hr.2)]
        exact hr.2
      | _ => exact hr
  · have hc := h.consumer
    change s.consumer.Ok k _
    generalize s.consumer = c at hc ⊢
    cases c with
    | storeTail t w =>
      obtain ⟨ht, hslot, j, hres, hfree⟩ := hc
      have hlt := lt_head_of_reserved h hres
      refine ⟨ht, hslot, j, (hold t hlt).trans hres, fun u => ?_⟩
      refine (put_publish_iff hp nofun fun heq => ?_).not.mpr (hfree u)
      exact Nat.ne_of_gt hlt (Producer.publish.inj heq).2
    | loadSlot t => exact ⟨hc.1, Nat.lt_succ_of_lt hc.2⟩
    | clearSlot t w => exact ⟨hc.1, Nat.lt_succ_of_lt hc.2.1, hc.2.2⟩
    | _ => exact hc
  · intro j
    have horder := h.order j
    rw [inFlight_put hp]
    split
    · rename_i hij
      subst hij
      rw [mine_append_self, horder, hp]
      simp [Producer.inFlight, State.put]
    · rw [mine_append_of_ne ‹_›]
      exact horder

/-- A producer stores its message to the slot of its position. -/
theorem Ok.publish (hp : s.producers[i]? = some (.publish v head)) :
    Ok k { s.put i (.loadWaker v) with
      slots := update s.slots (slot k head) (some v) } := by
  obtain ⟨htail, hres⟩ : s.tail ≤ head ∧ s.reserved[head]? = some (i, v) := h.producers i _ hp
  have hlt := lt_head_of_reserved h hres
  have hroom := h.room
  have hother (n : ℕ) (hn : s.tail ≤ n) (hn' : n < s.tail + cap k) (hne : n ≠ head) :
      update s.slots (slot k head) (some v) (slot k n) = s.slots (slot k n) :=
    update_of_ne (slot_ne hn hn' htail (by omega) hne) _ _
  have hclear : s.consumer.cleared ≠ some head := by
    intro heq
    have hc := h.consumer
    cases hcons : s.consumer <;> rw [hcons] at heq hc <;> cases heq
    obtain ⟨-, -, j, hj, hfree⟩ := hc
    rw [hres] at hj
    cases hj
    exact hfree v hp
  refine ⟨h.head_eq, h.head_lt, h.tail_le, h.room, h.received, ?_, ?_, ?_, ?_, ?_⟩
  · intro n hn hn'
    have hle : s.head ≤ n := hn
    have hbound : n < s.tail + cap k := hn'
    dsimp only
    rw [hother n (by omega) hbound (by omega)]
    exact h.free n hle hbound
  · intro n j w hn hresn hclearedn
    have hle : s.tail ≤ n := hn
    have hltn := lt_head_of_reserved h hresn
    by_cases hne : n = head
    · subst hne
      have heq : (j, w) = (i, v) := some.inj (hresn.symm.trans hres)
      cases heq
      refine .inr ⟨?_, update_self ..⟩
      rw [getElem?_put_self hp]
      nofun
    · dsimp only
      rw [hother n hle (by omega) hne, ne_eq,
        put_publish_iff hp (fun heq => hne (Producer.publish.inj heq).2.symm) (by simp)]
      exact h.taken n j w hle hresn hclearedn
  · intro j r hj
    rcases getElem?_set_cases hj with ⟨rfl, rfl⟩ | ⟨-, hj⟩
    · trivial
    · have hr := h.producers j r hj
      cases r <;> exact hr
  · have hc := h.consumer
    have htaken := h.taken head i v htail hres hclear
    change s.consumer.Ok k _
    generalize s.consumer = c at hc hclear ⊢
    cases c with
    | storeTail t w =>
      obtain ⟨ht, hslot, j, hresj, hfree⟩ := hc
      have hne : t ≠ head := fun heq => hclear (congrArg some heq)
      refine ⟨ht, ?_, j, hresj, fun u => ?_⟩
      · dsimp only
        rw [hother t (by omega) (by omega) hne]
        exact hslot
      · refine (put_publish_iff hp (fun heq => ?_) (by simp)).not.mpr (hfree u)
        exact hne (Producer.publish.inj heq).2.symm
    | clearSlot t w =>
      obtain ⟨ht, hltt, hslot⟩ := hc
      have hne : t ≠ head := by
        rintro rfl
        rcases htaken with ⟨-, hnone⟩ | ⟨hbad, -⟩
        · rw [hnone] at hslot
          cases hslot
        · exact hbad hp
      refine ⟨ht, hltt, ?_⟩
      dsimp only
      rw [hother t (by omega) (by omega) hne]
      exact hslot
    | _ => exact hc
  · exact h.order_put hp rfl

/-- A send returns `XTC_OK`. -/
theorem Ok.finish (hp : s.producers[i]? = some (.loadWaker v)) :
    Ok k { s.put i .idle with wakes := wakes, sent := s.sent ++ [(i, v)] } := by
  refine h.move hp nofun nofun trivial fun j => ?_
  rw [inFlight_put hp, h.order j]
  split
  · rename_i hij
    subst hij
    rw [mine_append_self, hp]
    simp [Producer.inFlight]
  · rw [mine_append_of_ne ‹_›]

theorem Ok.producerStep {ok : Bool} (hp : s.producers[i]? = some p)
    (hfits : p.atCas = true → s.head + 1 < 2 ^ 64) (hs' : s.producerStep k i ok p = some s') :
    Ok k s' := by
  cases p with
  | idle => cases hs'
  | charge msg =>
    cases hs'
    cases ok with
    | false => exact h.put .idle hp rfl rfl trivial
    | true => exact h.put (.loadHead msg) hp rfl rfl trivial
  | loadHead msg =>
    cases hs'
    exact h.put (.loadTail msg s.head) hp rfl rfl (Nat.le_refl _)
  | loadTail msg head =>
    simp only [producerStep] at hs'
    split at hs' <;> cases hs'
    · exact h.put .idle hp rfl rfl trivial
    · have hle : head ≤ s.head := h.producers i _ hp
      have hlt := h.head_lt
      exact h.put (.cas msg head) hp rfl rfl (lt_of_sub64_lt (by omega) (by omega))
  | cas msg head =>
    simp only [producerStep] at hs'
    split at hs' <;> cases hs'
    · rename_i hguard
      exact h.reserve hp hguard.1 (hfits rfl)
    · exact h.put (.loadHead msg) hp rfl rfl trivial
  | publish msg head =>
    cases hs'
    exact h.publish hp
  | loadWaker msg =>
    cases hs'
    exact h.finish hp

/-! ## The consumer -/

/-- The consumer moves on without touching a slot. -/
theorem Ok.setConsumer {c : Consumer τ} {drained : Option (List τ)}
    (hold : s.consumer.cleared = none) (hnew : c.cleared = none) (hc : c.Ok k s) :
    Ok k { s with consumer := c, drained := drained } := by
  refine { h with taken := ?_, producers := ?_, consumer := ?_ }
  · intro n i v hn hres _
    exact h.taken n i v hn hres (by rw [hold]; nofun)
  · intro i p hp
    have hok := h.producers i p hp
    cases p <;> exact hok
  · cases c <;> exact hc

/-- The oldest position has a slot that holds its message or is not published. -/
theorem Ok.oldest (hlt : s.tail < s.head) (hclear : s.consumer.cleared = none) :
    ∃ i v, s.reserved[s.tail]? = some (i, v) ∧
      (s.producers[i]? = some (.publish v s.tail) ∧ s.slots (slot k s.tail) = none ∨
        s.producers[i]? ≠ some (.publish v s.tail) ∧ s.slots (slot k s.tail) = some v) := by
  rw [h.head_eq] at hlt
  refine ⟨s.reserved[s.tail].1, s.reserved[s.tail].2, getElem?_eq_getElem hlt, ?_⟩
  exact h.taken s.tail _ _ (Nat.le_refl _) (getElem?_eq_getElem hlt) (by rw [hclear]; nofun)

/-- The consumer clears the slot it has read. -/
theorem Ok.clearSlot (hcons : s.consumer = .clearSlot t v) : Ok k { s with
      slots := update s.slots (slot k t) none
      consumer := .storeTail t v } := by
  have hc := h.consumer
  rw [hcons] at hc
  obtain ⟨rfl, hlt, hslot⟩ := hc
  have hroom := h.room
  have hclear : s.consumer.cleared = none := by rw [hcons]; rfl
  obtain ⟨i, w, hres, htaken⟩ := h.oldest hlt hclear
  rcases htaken with ⟨-, hnone⟩ | ⟨hnot, hfull⟩
  · rw [hnone] at hslot
    cases hslot
  have hw : w = v := some.inj (hfull.symm.trans hslot)
  subst hw
  have hother (n : ℕ) (hn : s.tail < n) (hn' : n < s.tail + cap k) :
      update s.slots (slot k s.tail) none (slot k n) = s.slots (slot k n) :=
    update_of_ne (slot_ne (Nat.le_of_lt hn) hn' (Nat.le_refl _) (by omega) (Nat.ne_of_gt hn)) _ _
  refine ⟨h.head_eq, h.head_lt, h.tail_le, h.room, h.received, ?_, ?_, ?_, ?_, h.order⟩
  · intro n hn hn'
    have hle : s.head ≤ n := hn
    dsimp only
    rw [hother n (by omega) hn']
    exact h.free n hle hn'
  · intro n j u hn hresn hne
    have hle : s.tail ≤ n := hn
    have hltn := lt_head_of_reserved h hresn
    have hne : s.tail ≠ n := fun heq => hne (congrArg some heq)
    dsimp only
    rw [hother n (by omega) (by omega)]
    exact h.taken n j u hle hresn (by rw [hclear]; nofun)
  · intro j p hp
    have hok := h.producers j p hp
    cases p <;> exact hok
  · refine ⟨rfl, update_self .., i, hres, fun u hu => ?_⟩
    have hu' := (h.producers i _ hu).2
    rw [hres] at hu'
    cases hu'
    exact hnot hu

/-- The consumer moves `tail` and returns the message. -/
theorem Ok.storeTail (hcons : s.consumer = .storeTail t v) : Ok k { s with
      tail := (t + 1) % 2 ^ 64
      consumer := .idle
      received := s.received ++ [v] } := by
  have hc := h.consumer
  rw [hcons] at hc
  obtain ⟨rfl, hslot, i, hres, hfree⟩ := hc
  have hlt := lt_head_of_reserved h hres
  have hroom := h.room
  have hhead := h.head_lt
  rw [Nat.mod_eq_of_lt (by omega : s.tail + 1 < 2 ^ 64)]
  refine ⟨h.head_eq, h.head_lt, hlt, by dsimp only; omega, ?_, ?_, ?_, ?_, trivial, h.order⟩
  · rw [take_add_one, hres, h.received]
    simp
  · intro n hn hn'
    have hle : s.head ≤ n := hn
    have hbound : n < s.tail + 1 + cap k := hn'
    by_cases hlast : n = s.tail + cap k
    · rw [hlast, slot_eq_mod, Nat.add_mod_right, ← slot_eq_mod]
      exact hslot
    · exact h.free n hle (by omega)
  · intro n j w hn hresn _
    have hle : s.tail + 1 ≤ n := hn
    refine h.taken n j w (by omega) hresn ?_
    rw [hcons]
    intro heq
    have heq : s.tail = n := some.inj heq
    omega
  · intro j p hp
    have hok := h.producers j p hp
    cases p with
    | cas w head =>
      have hok : head < s.tail + cap k := hok
      exact (by omega : head < s.tail + 1 + cap k)
    | publish w head =>
      refine ⟨?_, hok.2⟩
      have hne : head ≠ s.tail := by
        rintro rfl
        have heq : (i, v) = (j, w) := some.inj (hres.symm.trans hok.2)
        cases heq
        exact hfree v hp
      have hle := hok.1
      exact (by omega : s.tail + 1 ≤ head)
    | _ => exact hok

theorem Ok.consumerStep (hs' : s.consumerStep k = some s') : Ok k s' := by
  have hc := h.consumer
  unfold State.consumerStep at hs'
  split at hs'
  all_goals
    rename_i hcons
    rw [hcons] at hc
  case h_1 => cases hs'
  case h_2 tail =>
    cases hs'
    have htail : tail = s.tail := hc
    split
    · exact h.setConsumer (by rw [hcons]; rfl) rfl htail
    · exact h.setConsumer (by rw [hcons]; rfl) rfl ⟨htail, by omega⟩
  case h_3 tail =>
    cases hs'
    exact h.setConsumer (by rw [hcons]; rfl) rfl trivial
  case h_4 tail =>
    split at hs' <;> cases hs'
    · exact h.setConsumer (by rw [hcons]; rfl) rfl trivial
    · rename_i v hslot
      exact h.setConsumer (by rw [hcons]; rfl) rfl ⟨hc.1, hc.2, hslot⟩
  case h_5 tail v =>
    cases hs'
    exact h.clearSlot hcons
  case h_6 tail v =>
    cases hs'
    exact h.storeTail hcons

theorem Ok.act (hfits : fits s a) (hs' : s.act k a = some s') : Ok k s' := by
  cases a with
  | trySend i msg =>
    simp only [act] at hs'
    split at hs' <;> cases hs'
    rename_i hidle
    cases hp : s.producers[i]? with
    | none => simp [hp] at hidle
    | some p =>
      cases p with
      | idle =>
        unfold trySend
        split
        · exact h.put (.charge _) hp rfl rfl trivial
        · exact h
      | _ => simp [hp] at hidle
  | producer i ok =>
    obtain ⟨p, hp, ht⟩ := bind_eq_some_iff.mp hs'
    refine h.producerStep hp (fun hcas => hfits ?_) ht
    rw [hp]
    exact hcas
  | tryRecv =>
    simp only [act] at hs'
    split at hs' <;> cases hs'
    rename_i hidle
    refine h.setConsumer ?_ rfl rfl
    cases hcons : s.consumer <;> first | rfl | simp [hcons] at hidle
  | consumer => exact h.consumerStep hs'
  | close | setWaker =>
    cases hs'
    refine { h with producers := ?_, consumer := ?_ }
    · intro i p hp
      have hok := h.producers i p hp
      cases p <;> exact hok
    · have hc := h.consumer
      cases hcons : s.consumer <;> rw [hcons] at hc <;> exact hc

end

theorem Ok.of_reachable {ok : State τ → Act τ → Prop} (hok : ∀ s a, ok s a → fits s a)
    (hs : (system τ k).ReachableUnder ok s) : Ok k s := by
  refine hs.invariant ?_ ?_
  · rintro s ⟨n, rfl⟩
    refine ⟨rfl, Nat.two_pow_pos 64, Nat.le_refl _, Nat.zero_le _, rfl, fun _ _ _ => rfl, nofun, ?_,
      trivial, ?_⟩
    · intro i p hp
      rw [eq_of_mem_replicate (mem_of_getElem? hp)]
      trivial
    · intro i
      cases hp : (create n : State τ).producers[i]? with
      | none => rfl
      | some p =>
        rw [eq_of_mem_replicate (mem_of_getElem? hp)]
        rfl
  · intro s a s' h hcond ht
    exact h.act (hok s a hcond) ht

/-! ## Everything reserved can be received -/

/-- The steps left of the consumer's call. -/
def Consumer.left : Consumer τ → ℕ
  | .idle => 0
  | .loadClosed _ | .storeTail _ _ => 1
  | .clearSlot _ _ => 2
  | .loadSlot _ => 3
  | .loadHead _ => 4

theorem consumerStep_left (hs' : s.consumerStep k = some s') :
    s'.consumer.left < s.consumer.left ∧ s'.reserved = s.reserved := by
  unfold consumerStep at hs'
  split at hs'
  all_goals rename_i hcons
  case h_1 => cases hs'
  case h_2 tail =>
    cases hs'
    rw [hcons]
    split <;> exact ⟨by simp [Consumer.left], rfl⟩
  case h_4 tail =>
    split at hs' <;> cases hs' <;> rw [hcons] <;> exact ⟨by simp [Consumer.left], rfl⟩
  case h_3 tail | h_5 tail v | h_6 tail v =>
    cases hs'
    rw [hcons]
    exact ⟨by simp [Consumer.left], rfl⟩

/-- The consumer ends its call by its own steps. -/
theorem exists_idle (h : Ok k s) : ∃ acts, ∃ s' ∈ (system τ k).run s acts, Ok k s' ∧
    s'.consumer = .idle ∧ s'.reserved = s.reserved := by
  induction hn : s.consumer.left using Nat.strongRecOn generalizing s with
  | ind n ih =>
    cases ht : s.consumerStep k with
    | none =>
      refine ⟨[], s, rfl, h, ?_, rfl⟩
      cases hcons : s.consumer with
      | idle => rfl
      | loadSlot tail =>
        simp only [consumerStep, hcons] at ht
        split at ht <;> cases ht
      | _ =>
        simp only [consumerStep, hcons] at ht
        cases ht
    | some s₁ =>
      obtain ⟨hlt, hres⟩ := consumerStep_left ht
      obtain ⟨acts, s', hrun, hok, hidle, hres'⟩ := ih _ (hn ▸ hlt) (h.consumerStep ht) rfl
      refine ⟨.consumer :: acts, s', ?_, hok, hidle, hres'.trans hres⟩
      exact bind_eq_some_iff.mpr ⟨s₁, ht, hrun⟩

section

variable (h : Ok k s) (hidle : s.consumer = .idle)
include h hidle

/-- The producer of the oldest position can publish it. -/
theorem exists_published (hlt : s.tail < s.head) :
    ∃ acts, ∃ s' ∈ (system τ k).run s acts, Ok k s' ∧ s'.consumer = .idle ∧
      s'.reserved = s.reserved ∧ s'.tail = s.tail ∧ s'.head = s.head ∧
      s'.slots (slot k s.tail) ≠ none := by
  obtain ⟨i, v, -, ⟨hp, -⟩ | ⟨-, hslot⟩⟩ := h.oldest hlt (by rw [hidle]; rfl)
  · refine ⟨[.producer i true], _, ?_, h.publish hp, hidle, rfl, rfl, rfl, ?_⟩
    · exact bind_eq_some_iff.mpr ⟨_, bind_eq_some_iff.mpr ⟨_, hp, rfl⟩, rfl⟩
    · dsimp only
      rw [update_self]
      nofun
  · exact ⟨[], s, rfl, h, hidle, rfl, rfl, rfl, by rw [hslot]; nofun⟩

/-- A receive that finds the oldest position published returns it. -/
theorem run_tryRecv (hlt : s.tail < s.head) (hslot : s.slots (slot k s.tail) ≠ none) :
    ∃ s' ∈ (system τ k).run s (.tryRecv :: replicate 4 .consumer), Ok k s' ∧
      s'.consumer = .idle ∧ s'.reserved = s.reserved ∧ s'.tail = s.tail + 1 ∧ s'.head = s.head := by
  obtain ⟨v, hv⟩ := ne_none_iff_exists'.mp hslot
  have hhead := h.head_lt
  have hmod : (s.tail + 1) % 2 ^ 64 = s.tail + 1 := Nat.mod_eq_of_lt (by omega)
  have hle : ¬ s.head ≤ s.tail := by omega
  let s' : State τ := { s with
    slots := update s.slots (slot k s.tail) none
    tail := (s.tail + 1) % 2 ^ 64
    received := s.received ++ [v] }
  have hrun : (system τ k).run s (.tryRecv :: replicate 4 .consumer) = some s' := by
    simp [System.runUnder, system, act, consumerStep, hidle, hle, hv, s']
  refine ⟨s', hrun, ?_, hidle, rfl, hmod, rfl⟩
  have hstart : Ok k { s with consumer := .clearSlot s.tail v } :=
    h.setConsumer (by rw [hidle]; rfl) rfl ⟨rfl, hlt, hv⟩
  have hend := (hstart.clearSlot rfl).storeTail rfl
  rw [← hidle] at hend
  exact hend

theorem exists_received : ∃ acts, ∃ s' ∈ (system τ k).run s acts, s'.reserved = s.reserved ∧
      s'.received = s.reserved.map Prod.snd := by
  induction hn : s.head - s.tail generalizing s with
  | zero =>
    refine ⟨[], s, rfl, rfl, ?_⟩
    rw [h.received, take_of_length_le (by rw [← h.head_eq]; omega)]
  | succ n ih =>
    obtain ⟨acts₁, s₁, hrun₁, h₁, hidle₁, hres₁, htail₁, hhead₁, hslot₁⟩ :=
      exists_published h hidle (by omega)
    obtain ⟨s₂, hrun₂, h₂, hidle₂, hres₂, htail₂, hhead₂⟩ :=
      run_tryRecv h₁ hidle₁ (by omega) (htail₁ ▸ hslot₁)
    obtain ⟨acts₃, s₃, hrun₃, hres₃, hrecv⟩ := ih h₂ hidle₂ (by omega)
    have hall : s₂.reserved = s.reserved := hres₂.trans hres₁
    refine ⟨acts₁ ++ ((.tryRecv :: replicate 4 .consumer) ++ acts₃), s₃, ?_,
      hres₃.trans hall, by rw [hrecv, hall]⟩
    rw [mem_def, System.run_append]
    refine bind_eq_some_iff.mpr ⟨s₁, hrun₁, ?_⟩
    rw [System.run_append]
    exact bind_eq_some_iff.mpr ⟨s₂, hrun₂, hrun₃⟩

end

/-! ## The result -/

/-- A send that loads a `tail` not beyond its `head` answers `XTC_E_AGAIN` only if the channel is
full. -/
theorem Ok.full_of_again (h : Ok k s) (ht : s.act k a = some s')
    (hcond : notOvertaken s a) (hagain : s'.again ≠ s.again) : s.head = s.tail + cap k := by
  cases a with
  | trySend i msg =>
    simp only [State.act] at ht
    split at ht <;> cases ht
    refine absurd ?_ hagain
    unfold trySend
    split <;> rfl
  | producer i ok =>
    obtain ⟨p, hp, ht⟩ := bind_eq_some_iff.mp ht
    cases p with
    | loadTail msg head =>
      have hle : head ≤ s.head := h.producers i _ hp
      have htail : s.tail ≤ head := by
        refine hcond head ?_
        rw [hp]
        exact mem_def.mpr rfl
      have hlt := h.head_lt
      have hroom := h.room
      simp only [State.producerStep] at ht
      split at ht <;> cases ht
      · rename_i hfull
        have hge := le_of_sub64_ge (by omega) htail hfull
        omega
      · exact absurd rfl hagain
    | cas msg head =>
      simp only [State.producerStep] at ht
      split at ht <;> cases ht <;> exact absurd rfl hagain
    | idle => cases ht
    | _ =>
      cases ht
      exact absurd rfl hagain
  | tryRecv =>
    simp only [State.act] at ht
    split at ht <;> cases ht
    exact absurd rfl hagain
  | consumer =>
    simp only [State.act, State.consumerStep] at ht
    split at ht
    case h_4 => split at ht <;> cases ht <;> exact absurd rfl hagain
    all_goals
      cases ht
      try exact absurd rfl hagain
  | close | setWaker =>
    cases ht
    exact absurd rfl hagain

/-- In every run with fewer than `2 ^ 64` messages, for every capacity and number of producers:
what was received are the messages in the order of their positions, each once; the sends of one
producer that returned `XTC_OK` have positions in the order sent; everything reserved can still be
received; at most the capacity is reserved; and a send that loads a `tail` not beyond its `head`
answers `XTC_E_AGAIN` only if the channel is full at that moment. -/
theorem received_once_in_order {k : ℕ} {s : State τ} (hs : (system τ k).ReachableUnder fits s) :
    s.received <+: s.reserved.map Prod.snd ∧
    (∀ i, mine i s.sent <+: mine i s.reserved) ∧
    (∃ acts, ∃ s' ∈ (system τ k).run s acts, s'.reserved = s.reserved ∧
      s'.received = s.reserved.map Prod.snd) ∧
    s.reserved.length = s.head ∧ s.tail ≤ s.head ∧ s.head - s.tail ≤ cap k ∧
    ∀ a, notOvertaken s a → ∀ s' ∈ (system τ k).step s a, s'.again ≠ s.again →
      s.head - s.tail = cap k := by
  have h := Ok.of_reachable (fun _ _ hfits => hfits) hs
  have htail := h.tail_le
  have hroom := h.room
  refine ⟨?_, fun i => ?_, ?_, h.head_eq.symm, htail, by omega, ?_⟩
  · rw [h.received]
    exact ( take_prefix _ _).map _
  · rw [h.order i]
    exact prefix_append _ _
  · obtain ⟨acts₁, s₁, hrun₁, h₁, hidle₁, hres₁⟩ := exists_idle h
    obtain ⟨acts₂, s₂, hrun₂, hres₂, hreceived⟩ := exists_received h₁ hidle₁
    refine ⟨acts₁ ++ acts₂, s₂, ?_, hres₂.trans hres₁, by rw [hreceived, hres₁]⟩
    rw [mem_def, System.run_append]
    exact bind_eq_some_iff.mpr ⟨s₁, hrun₁, hrun₂⟩
  · intro a hcond s' hstep hagain
    have hfull := h.full_of_again hstep hcond hagain
    omega

/-- A channel of two slots. Producer 0 reserves and stops; producer 1 sends behind it. The
consumer meets the unpublished slot, then both messages are received and a third is sent. -/
def unpublished : List (Act ℕ) :=
  [.trySend 0 (some 10), .producer 0 true, .producer 0 true, .producer 0 true, .producer 0 true,
    .trySend 1 (some 11)] ++ replicate 6 (.producer 1 true) ++
  [.tryRecv, .consumer, .consumer, .producer 0 true, .producer 0 true] ++
  .tryRecv :: replicate 4 .consumer ++
  .trySend 1 (some 12) :: replicate 6 (.producer 1 true)

theorem received_once_in_order_unpublished :
    ∃ s ∈ (system ℕ 1).runUnder fits (create 2) unpublished, s.head - s.tail = cap 1 ∧
      s.sent = [(1, 11), (0, 10), (1, 12)] ∧ s.received = [10] ∧
      s.received <+: s.reserved.map Prod.snd ∧ mine 1 s.sent <+: mine 1 s.reserved := by
  refine System.exists_run ⟨2, rfl⟩ (by decide) fun s eval hs _ => ?_
  obtain ⟨hpre, hmine, -⟩ := received_once_in_order hs
  refine ⟨?_, ?_, hpre, hmine 1⟩ <;> (apply eval; decide)

/-- Producer 0 loads `head` and stops; producer 1 sends one message and the consumer receives it.
Then producer 0 loads `tail`, the difference wraps, and its send answers `XTC_E_AGAIN` on a
channel of two slots in which no more than one position was ever reserved. -/
theorem again_without_full : ∃ s ∈ (system ℕ 1).run (create 2)
    ([.trySend 0 (some 10), .producer 0 true, .producer 0 true, .trySend 1 (some 11)] ++
      replicate 6 (.producer 1 true) ++ .tryRecv :: replicate 4 .consumer ++
      [.producer 0 true]),
    s.again = [0] ∧ s.reserved = [(1, 11)] := by
  decide

end LibXtc.Mpsc

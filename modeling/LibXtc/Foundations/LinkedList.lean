import Mathlib.Data.List.Range
import Mathlib.Data.List.Perm.Subperm
import LibXtc.Foundations.Lists
import LibXtc.Foundations.Queue

/-!
# Doubly linked lists

Nodes are addresses and a list is a head pointer together with the two link functions. `Linked`
relates such a list to the sequence of its nodes. The lemmas say how the usual pointer updates
change the sequence, each in terms of the link functions after the update, so that they apply to
any record type that holds the links. Walks along the forward links take fuel, because the links
of a damaged list may form a cycle.
-/

namespace LibXtc.Foundations

open List

/-- `l` are the nodes met from `head` along `next`, and `prev` leads back along them. -/
structure Linked (prev next : ℕ → Option ℕ) (head : Option ℕ) (l : List ℕ) : Prop where
  head_eq : head = l[0]?
  next_eq : ∀ i a, l[i]? = some a → next a = l[i + 1]?
  prev_eq : ∀ i a, l[i]? = some a → prev a = if i = 0 then none else l[i - 1]?

variable {i j fuel a : ℕ} {l back : List ℕ}

/-- In a list without repetitions an element has one position. -/
theorem index_unique {α : Type*} {l : List α} (hl : l.Nodup) {a : α} (hi : l[i]? = some a)
    (hj : l[j]? = some a) : i = j := by
  obtain ⟨hi', rfl⟩ := List.getElem?_eq_some_iff.mp hi
  obtain ⟨hj', heq⟩ := List.getElem?_eq_some_iff.mp hj
  exact (hl.getElem_inj_iff.mp heq).symm

/-- A walk along `next` meets the nodes in their order. -/
theorem path_iff {next : ℕ → Option ℕ} {head : Option ℕ} : Path next none head l ↔
    head = l.head? ∧ ∀ i a, l[i]? = some a → next a = l[i + 1]? := by
  induction l generalizing head with
  | nil => simp [Path]
  | cons b l ih =>
    rw [Path, ih]
    refine and_congr_right' ⟨?_, fun h => ⟨?_, fun i a => h (i + 1) a⟩⟩
    · rintro ⟨hb, hl⟩ i a ha
      cases i with
      | zero =>
        cases ha
        rw [hb, head?_eq_getElem?]
        rfl
      | succ i => exact hl i a ha
    · rw [h 0 b rfl, head?_eq_getElem?]
      rfl

/-- A step back is a step on in the reversed list. -/
theorem reverse_iff {prev : ℕ → Option ℕ} :
    (∀ i a, l[i]? = some a → prev a = if i = 0 then none else l[i - 1]?) ↔
      ∀ i a, l.reverse[i]? = some a → prev a = l.reverse[i + 1]? := by
  have hrev (i : ℕ) (hi : i < l.length) : l.reverse[i]? = l[l.length - 1 - i]? ∧
      l.reverse[i + 1]? =
        if l.length - 1 - i = 0 then none else l[l.length - 1 - i - 1]? := by
    refine ⟨getElem?_reverse hi, ?_⟩
    split
    · exact getElem?_eq_none (by rw [length_reverse]; omega)
    · exact getElem?_reverse (by omega)
  constructor
  · intro h i a ha
    have hi : i < l.length := by simpa using (List.getElem?_eq_some_iff.mp ha).1
    rw [(hrev i hi).2]
    exact h _ a ((hrev i hi).1.symm.trans ha)
  · intro h i a ha
    have hi := (List.getElem?_eq_some_iff.mp ha).1
    have hrev' := hrev (l.length - 1 - i) (by omega)
    rw [show l.length - 1 - (l.length - 1 - i) = i by omega] at hrev'
    rw [← hrev'.2]
    exact h _ a (hrev'.1.trans ha)

namespace Linked

variable {prev next prev' next' : ℕ → Option ℕ} {head : Option ℕ} {l : List ℕ} {a b : ℕ}

/-- The sequence only depends on the links of its own nodes. -/
theorem congr (h : Linked prev next head l) (hprev : ∀ b ∈ l, prev' b = prev b)
    (hnext : ∀ b ∈ l, next' b = next b) : Linked prev' next' head l where
  head_eq := h.head_eq
  next_eq i b hb := by rw [hnext b (mem_of_getElem? hb), h.next_eq i b hb]
  prev_eq i b hb := by rw [hprev b (mem_of_getElem? hb), h.prev_eq i b hb]

/-- The list with no node. -/
theorem nil : Linked prev next none [] where
  head_eq := by simp
  next_eq := by simp
  prev_eq := by simp

section

variable (h : Linked prev next head l)
include h

/-- The links of a node lead to nodes of the same list. -/
theorem mem_of_next (ha : a ∈ l) (hb : next a = some b) : b ∈ l := by
  obtain ⟨i, hi⟩ := mem_iff_getElem?.mp ha
  exact mem_of_getElem? ((h.next_eq i a hi).symm.trans hb)

theorem mem_of_prev (ha : a ∈ l) (hb : prev a = some b) : b ∈ l := by
  obtain ⟨i, hi⟩ := mem_iff_getElem?.mp ha
  rw [h.prev_eq i a hi] at hb
  split at hb
  · cases hb
  · exact mem_of_getElem? hb

end

theorem head_eq_head? (h : Linked prev next head l) : head = l.head? :=
  h.head_eq.trans head?_eq_getElem?.symm

/-- A list is a queue along `next`. -/
theorem queue (h : Linked prev next head l) : Queue next head l.getLast? l :=
  ⟨path_iff.mpr ⟨h.head_eq_head?, h.next_eq⟩, rfl⟩

/-- Read from its end, it is a queue along `prev`. -/
theorem reverse_queue (h : Linked prev next head l) : Queue prev l.getLast? head l.reverse :=
  ⟨path_iff.mpr ⟨head?_reverse.symm, reverse_iff.mp h.prev_eq⟩, by
    rw [getLast?_reverse, h.head_eq_head?]⟩

/-- A list is linked if it can be walked in both directions. -/
theorem of_paths {tail : Option ℕ} {r : List ℕ} (hr : l.reverse = r)
    (hnext : Path next none head l) (hprev : Path prev none tail r) : Linked prev next head l where
  head_eq := hnext.head?_eq.trans head?_eq_getElem?
  next_eq := (path_iff.mp hnext).2
  prev_eq := reverse_iff.mpr (path_iff.mp (hr ▸ hprev)).2

section

variable {front : List ℕ}

theorem next_eq_head? (front : List ℕ) (h : Linked prev next head (front ++ a :: back)) :
    next a = back.head? :=
  h.queue.path.of_append.head?_eq

theorem prev_eq_getLast? (h : Linked prev next head (front ++ a :: back)) :
    prev a = front.getLast? := by
  have hpath := h.reverse_queue.path
  rw [reverse_append, reverse_cons, append_assoc, singleton_append] at hpath
  rw [hpath.of_append.head?_eq, head?_reverse]

end

section

variable (h : Linked prev next head l) (hl : l.Nodup)
include h hl

/-- `a->prev = NULL; a->next = head; if (head) head->prev = a; head = a`. -/
theorem pushFront (hprev : prev' a = none) (hnext : next' a = head)
    (hfirst : ∀ b ∈ l, head = some b → prev' b = some a)
    (hother : ∀ b ∈ l, head ≠ some b → prev' b = prev b) (hkeep : ∀ b ∈ l, next' b = next b) :
    Linked prev' next' (some a) (a :: l) := by
  refine of_paths reverse_cons (h.queue.cons hnext hkeep).path
    (h.reverse_queue.push (nodup_reverse.mpr hl) hprev (fun b hb => ?_) fun b hb => ?_).path
  · exact hfirst b (mem_of_mem_head? (h.head_eq_head? ▸ hb)) hb
  · exact hother b (mem_reverse.mp hb)

/-- `a->prev = tail; a->next = NULL; if (tail) tail->next = a; else head = a; tail = a`. -/
theorem pushBack (hprev : prev' a = l.getLast?) (hnext : next' a = none)
    (hkeep : ∀ b ∈ l, prev' b = prev b) (hlast : ∀ b ∈ l, l.getLast? = some b → next' b = some a)
    (hother : ∀ b ∈ l, l.getLast? ≠ some b → next' b = next b) :
    Linked prev' next' (if l = [] then some a else head) (l ++ [a]) := by
  have hpath := (h.queue.push hl hnext (fun b hb => hlast b (mem_of_getLast? hb) hb) hother).path
  simp only [getLast?_eq_none_iff] at hpath
  exact of_paths reverse_append hpath
    (h.reverse_queue.cons hprev fun b hb => hkeep b (mem_reverse.mp hb)).path

end

section

variable (h : Linked prev next head l) (hl : l.Nodup) (ha : a ∈ l)
include h hl ha

/-- `if (a->prev) a->prev->next = a->next; else head = a->next;
if (a->next) a->next->prev = a->prev`. -/
theorem remove (hprev : ∀ b ∈ l, b ≠ a → prev' b = if next a = some b then prev a else prev b)
    (hnext : ∀ b ∈ l, b ≠ a → next' b = if prev a = some b then next a else next b) :
    Linked prev' next' (if prev a = none then next a else head) (l.filter (· ≠ a)) := by
  obtain ⟨front, back, rfl⟩ := append_of_mem ha
  have hmem : ∀ b ∈ front ++ back, b ∈ front ++ a :: back ∧ b ≠ a := by
    intro b hb
    rw [nodup_middle, nodup_cons] at hl
    exact ⟨perm_middle.symm.subset (mem_cons_of_mem _ hb), fun heq => hl.1 (heq ▸ hb)⟩
  have hnext' : ∀ b ∈ front ++ back, next' b =
      if front.getLast? = some b then next a else next b := by
    intro b hb
    rw [← h.prev_eq_getLast?]
    exact hnext b (hmem b hb).1 (hmem b hb).2
  have hprev' : ∀ b ∈ front ++ back, prev' b =
      if back.head? = some b then prev a else prev b := by
    intro b hb
    rw [← h.next_eq_head? front]
    exact hprev b (hmem b hb).1 (hmem b hb).2
  have hrev : (front ++ a :: back).reverse = back.reverse ++ a :: front.reverse := by simp
  have hback := h.reverse_queue
  rw [hrev] at hback
  rw [filter_ne_append hl, h.prev_eq_getLast?]
  simp only [getLast?_eq_none_iff]
  refine of_paths reverse_append (h.queue.unlink hl (fun b hb => ?_) fun b hb hne => ?_).path
    (hback.unlink (hrev ▸ nodup_reverse.mpr hl) (fun b hb => ?_) fun b hb hne => ?_).path
  · exact (hnext' b (mem_append_left _ (mem_of_getLast? hb))).trans (if_pos hb)
  · exact (hnext' b hb).trans (if_neg hne)
  · rw [getLast?_reverse] at hb
    exact (hprev' b (mem_append_right _ (mem_of_mem_head? hb))).trans (if_pos hb)
  · rw [getLast?_reverse] at hne
    exact (hprev' b (mem_reverse.mp (by rwa [reverse_append]))).trans (if_neg hne)

/-- `if (!a->next) tail = a->prev` keeps the tail the last node. -/
theorem getLast?_remove :
    (l.filter (· ≠ a)).getLast? = if next a = none then prev a else l.getLast? := by
  obtain ⟨front, back, rfl⟩ := append_of_mem ha
  rw [filter_ne_append hl, h.next_eq_head? front, h.prev_eq_getLast?]
  cases back with
  | nil => simp
  | cons b back => simp

/-- A node is not its own neighbour. -/
theorem prev_ne_self : prev a ≠ some a := by
  obtain ⟨front, back, rfl⟩ := append_of_mem ha
  rw [h.prev_eq_getLast?]
  intro heq
  exact (nodup_append.mp hl).2.2 a (mem_of_getLast? heq) a mem_cons_self rfl

end

end Linked

/-! ## Walks -/

/-- `for (a = head; a != NULL; a = a->next) if (p(a)) return a; return NULL`. `none` says that
the fuel ran out. -/
def findFrom (next : ℕ → Option ℕ) (p : ℕ → Bool) : ℕ → Option ℕ → Option (Option ℕ)
  | _, none => some none
  | 0, some _ => none
  | fuel + 1, some a => if p a then some (some a) else findFrom next p fuel (next a)

/-- `for (a = head; a != NULL; a = a->next)`: the nodes met. -/
def walk (next : ℕ → Option ℕ) : ℕ → Option ℕ → Option (List ℕ)
  | _, none => some []
  | 0, some _ => none
  | fuel + 1, some a => (walk next fuel (next a)).map (a :: ·)

/-- `for (a = head; a != NULL; a = n) { n = a->next; body }` on a state, where the body may
leave the loop by returning `false`. -/
def loopFrom {σ : Type*} (next : σ → ℕ → Option ℕ) (body : ℕ → σ → Option (σ × Bool)) :
    ℕ → Option ℕ → σ → Option σ
  | _, none, s => some s
  | 0, some _, _ => none
  | fuel + 1, some a, s =>
    (body a s).bind fun r => if r.2 then loopFrom next body fuel (next s a) r.1 else some r.1

section

variable {next : ℕ → Option ℕ} {head : Option ℕ} (h : Path next none head l)
include h

/-- A search along the links is a search in the sequence. -/
theorem Path.findFrom_eq (p : ℕ → Bool) (hfuel : l.length ≤ fuel) :
    findFrom next p fuel head = some (l.find? p) := by
  induction l generalizing head fuel with
  | nil =>
    cases h
    rw [findFrom, find?_nil]
  | cons a l ih =>
    obtain ⟨rfl, hrest⟩ := h
    cases fuel with
    | zero => cases hfuel
    | succ fuel =>
      rw [findFrom, ih hrest (Nat.le_of_succ_le_succ hfuel), find?_cons]
      cases p a <;> rfl

/-- A walk along the links collects the sequence. -/
theorem Path.walk_eq (hfuel : l.length ≤ fuel) : walk next fuel head = some l := by
  induction l generalizing head fuel with
  | nil =>
    cases h
    rw [walk]
  | cons a l ih =>
    obtain ⟨rfl, hrest⟩ := h
    cases fuel with
    | zero => cases hfuel
    | succ fuel =>
      rw [walk, ih hrest (Nat.le_of_succ_le_succ hfuel)]
      rfl

end

/-- The rule for a loop over a list. `I l s` says that the loop is about to visit the nodes `l` in
state `s`; the loop ends in a state that satisfies `Q`. -/
theorem loopFrom_spec {σ : Type*} {next : σ → ℕ → Option ℕ}
    {body : ℕ → σ → Option (σ × Bool)} {I : List ℕ → σ → Prop} {Q : σ → Prop}
    (hnext : ∀ a l s, I (a :: l) s → next s a = l.head?)
    (hbody : ∀ a l s, I (a :: l) s → ∃ s' more, body a s = some (s', more) ∧
      if more then I l s' else Q s')
    (hdone : ∀ s, I [] s → Q s) {l : List ℕ} {s : σ} (hI : I l s) {fuel : ℕ}
    (hfuel : l.length ≤ fuel) : ∃ s', loopFrom next body fuel l.head? s = some s' ∧ Q s' := by
  induction l generalizing s fuel with
  | nil => exact ⟨s, by simp [loopFrom], hdone s hI⟩
  | cons a l ih =>
    obtain ⟨s', more, hbody', hmore⟩ := hbody a l s hI
    cases fuel with
    | zero => simp at hfuel
    | succ fuel =>
      cases more with
      | false => exact ⟨s', by simp [loopFrom, hbody'], hmore⟩
      | true =>
        obtain ⟨t, ht, hQ⟩ := ih hmore (Nat.le_of_succ_le_succ hfuel)
        exact ⟨t, by simp [loopFrom, hbody', hnext a l s hI, ht], hQ⟩

/-- A list of distinct addresses below `n` is no longer than `n`. -/
theorem length_le_of_nodup_lt {n : ℕ} (hl : l.Nodup) (hlt : ∀ a ∈ l, a < n) : l.length ≤ n := by
  have hsub : l ⊆ range n := fun a ha => mem_range.mpr (hlt a ha)
  simpa using (subperm_of_subset hl hsub).length_le

end LibXtc.Foundations

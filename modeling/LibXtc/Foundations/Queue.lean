import Mathlib.Data.List.Nodup

/-!
# Singly linked queues

Nodes are addresses and a queue is a head and a tail pointer together with the link function.
`Queue` relates it to the sequence of its nodes. The lemmas say how the usual pointer updates
change the sequence, each in terms of the link function after the update, so that they apply to
any record type that holds the links. Several queues may share one memory: a queue only depends on
the links of its own nodes.
-/

namespace LibXtc.Foundations

open List

/-- `l` are the nodes met from the pointer `a` along `next` before the pointer is `b`. -/
def Path (next : ℕ → Option ℕ) (b : Option ℕ) : Option ℕ → List ℕ → Prop
  | a, [] => a = b
  | a, x :: l => a = some x ∧ Path next b (next x) l

namespace Path

variable {next next' : ℕ → Option ℕ} {a b : Option ℕ} {l l' : List ℕ} {x : ℕ}

/-- A path only depends on the links of its own nodes. -/
theorem congr (h : Path next b a l) (hnext : ∀ x ∈ l, next' x = next x) : Path next' b a l := by
  induction l generalizing a with
  | nil => exact h
  | cons x l ih =>
    obtain ⟨ha, hrest⟩ := h
    refine ⟨ha, ?_⟩
    rw [hnext x mem_cons_self]
    exact ih hrest fun y hy => hnext y (mem_cons_of_mem _ hy)

/-- A store to a node that is not on the path keeps it. -/
theorem update {c : Option ℕ} (h : Path next b a l) (hx : x ∉ l) :
    Path (Function.update next x c) b a l :=
  h.congr fun _ hy => Function.update_of_ne (ne_of_mem_of_not_mem hy hx) _ _

/-- A path runs through the pointer between its parts. -/
theorem append_iff : Path next b a (l ++ l') ↔ ∃ m, Path next m a l ∧ Path next b m l' := by
  induction l generalizing a with
  | nil => simp [Path]
  | cons x l ih => simp [Path, ih, and_assoc]

theorem singleton_iff : Path next b a [x] ↔ a = some x ∧ next x = b := Iff.rfl

/-- The nodes after `x` are met from its link. -/
theorem of_append (h : Path next b a (l ++ x :: l')) : Path next b (next x) l' := by
  obtain ⟨m, -, -, hrest⟩ := append_iff.mp h
  exact hrest

/-- The last node of a path leads to its end. -/
theorem next_getLast (h : Path next b a l) (hx : l.getLast? = some x) : next x = b := by
  obtain ⟨front, rfl⟩ := getLast?_eq_some_iff.mp hx
  obtain ⟨m, -, hlast⟩ := append_iff.mp h
  exact (singleton_iff.mp hlast).2

/-- Both ends of a path with no node are the same pointer. -/
theorem eq_of_nil (h : Path next b a []) : a = b := h

theorem head?_eq (h : Path next none a l) : a = l.head? := by
  cases l with
  | nil => exact h
  | cons x l => exact h.1

theorem eq_nil (h : Path next none none l) : l = [] := head?_eq_none_iff.mp h.head?_eq.symm

end Path

/-- The nodes of a queue. -/
structure Queue (next : ℕ → Option ℕ) (head tail : Option ℕ) (l : List ℕ) : Prop where
  path : Path next none head l
  tail_eq : tail = l.getLast?

namespace Queue

variable {next next' : ℕ → Option ℕ} {head tail : Option ℕ} {l front back : List ℕ} {a : ℕ}

theorem nil : Queue next none none [] := ⟨rfl, rfl⟩

/-- A queue only depends on the links of its own nodes. -/
theorem congr (h : Queue next head tail l) (hnext : ∀ x ∈ l, next' x = next x) :
    Queue next' head tail l :=
  ⟨h.path.congr hnext, h.tail_eq⟩

theorem head_eq (h : Queue next head tail l) : head = l.head? := h.path.head?_eq

theorem tail_eq_none_iff (h : Queue next head tail l) : tail = none ↔ l = [] := by
  rw [h.tail_eq, getLast?_eq_none_iff]

/-- The pointer after the nodes `front` leads to the next node. -/
theorem next_eq (h : Queue next head tail (front ++ back)) : (match front.getLast? with
      | none => head
      | some x => next x) = back.head? := by
  obtain ⟨m, hfront, hback⟩ := Path.append_iff.mp h.path
  rw [← hback.head?_eq]
  cases hlast : front.getLast? with
  | none =>
    rw [getLast?_eq_none_iff.mp hlast] at hfront
    exact hfront.eq_of_nil
  | some x => exact hfront.next_getLast hlast

/-- `a->next = NULL; if (tail) tail->next = a; else head = a; tail = a`. -/
theorem push (h : Queue next head tail l) (hl : l.Nodup) (hnew : next' a = none)
    (hlast : ∀ x, tail = some x → next' x = some a)
    (hother : ∀ x ∈ l, tail ≠ some x → next' x = next x) :
    Queue next' (if tail = none then some a else head) (some a) (l ++ [a]) := by
  refine ⟨?_, by simp⟩
  rcases eq_nil_or_concat' l with rfl | ⟨front, x, rfl⟩
  · rw [if_pos (h.tail_eq_none_iff.mpr rfl)]
    exact ⟨rfl, hnew⟩
  · have htail : tail = some x := by rw [h.tail_eq]; simp
    rw [if_neg (by simp [htail])]
    obtain ⟨m, hfront, hx⟩ := Path.append_iff.mp h.path
    rw [append_assoc]
    refine Path.append_iff.mpr ⟨m, hfront.congr fun y hy => ?_, hx.1, hlast x htail, hnew⟩
    have hne : y ≠ x := fun heq =>
      (nodup_append.mp hl).2.2 y hy x (mem_singleton.mpr rfl) heq
    exact hother y (mem_append_left _ hy) (by simpa [htail] using hne.symm)

/-- `a->next = head; head = a; if (tail == NULL) tail = a`. -/
theorem cons (h : Queue next head tail l) (hnew : next' a = head)
    (hother : ∀ x ∈ l, next' x = next x) :
    Queue next' (some a) (if tail = none then some a else tail) (a :: l) := by
  refine ⟨⟨rfl, ?_⟩, ?_⟩
  · rw [hnew]
    exact h.path.congr hother
  · rw [h.tail_eq]
    cases l with
    | nil => rfl
    | cons x l => simp

/-- `head = a->next; if (head == NULL) tail = NULL`. -/
theorem pop (h : Queue next head tail (a :: l)) :
    Queue next (next a) (if next a = none then none else tail) l := by
  have hpath := h.path.2
  refine ⟨hpath, ?_⟩
  rw [hpath.head?_eq, h.tail_eq]
  cases l with
  | nil => rfl
  | cons x l => simp

/-- `*link = a->next; if (tail == a) tail = prev`, where `link` is the pointer after the nodes
`front`, in `prev` or at the head. -/
theorem unlink (h : Queue next head tail (front ++ a :: back)) (hl : (front ++ a :: back).Nodup)
    (hlink : ∀ x, front.getLast? = some x → next' x = next a)
    (hother : ∀ x ∈ front ++ back, front.getLast? ≠ some x → next' x = next x) :
    Queue next' (if front = [] then next a else head)
      (if tail = some a then front.getLast? else tail) (front ++ back) := by
  obtain ⟨m, hfront, -, hback⟩ := Path.append_iff.mp h.path
  have hdisj := (nodup_append.mp hl).2.2
  -- the nodes behind `a` keep their links
  have hkeep : ∀ x ∈ back, next' x = next x := by
    intro x hx
    refine hother x (mem_append_right _ hx) fun hlast => ?_
    exact hdisj x (mem_of_getLast? hlast) x (mem_cons_of_mem _ hx) rfl
  constructor
  · rcases eq_nil_or_concat' front with rfl | ⟨init, x, rfl⟩
    · exact hback.congr hkeep
    · rw [if_neg (by simp)]
      obtain ⟨k, hinit, hx⟩ := Path.append_iff.mp hfront
      refine Path.append_iff.mpr ⟨next a, Path.append_iff.mpr ⟨k, hinit.congr ?_, hx.1, ?_⟩,
        hback.congr hkeep⟩
      · intro y hy
        refine hother y (by simp [hy]) ?_
        have hnodup := (nodup_append.mp hl).1
        have hne := (nodup_append.mp hnodup).2.2 y hy x (mem_singleton.mpr rfl)
        simpa using hne.symm
      · exact hlink x (by simp)
  · rw [h.tail_eq]
    cases back with
    | nil => simp
    | cons x back =>
      have hne : (front ++ a :: x :: back).getLast? ≠ some a := by
        intro heq
        have hmem : a ∈ x :: back := by
          rw [getLast?_append_of_ne_nil _ (by simp), getLast?_cons_cons] at heq
          exact mem_of_getLast? heq
        exact (nodup_cons.mp (nodup_append.mp hl).2.1).1 hmem
      rw [if_neg hne, getLast?_append_of_ne_nil _ (by simp),
        getLast?_append_of_ne_nil _ (by simp), getLast?_cons_cons]

end Queue

end LibXtc.Foundations

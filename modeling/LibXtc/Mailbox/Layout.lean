import LibXtc.Mailbox.State

/-!
# The two queues in memory

`Layout` says which envelopes the save queue and the mailbox hold, and which one the owner has
taken out of them. Each pointer operation of a delivery or a receive turns one layout into
another.
-/

namespace LibXtc.Mailbox

open Foundations List

/-- The save queue holds `front ++ back` and the mailbox `mbox`; the owner has `hand`, which was
between `front` and `back` or comes right after them. The counters agree with the queues. -/
structure Layout (b : Box) (front : List ℕ) (hand : Option ℕ) (back mbox : List ℕ) : Prop where
  saveQueue : Queue b.mem.next b.saveHead b.saveTail (front ++ back)
  mboxQueue : Queue b.mem.next b.mboxHead b.mboxTail mbox
  saved : b.mboxSaved = (front ++ back).length
  queued : b.mboxN = mbox.length
  nodup : (front ++ hand.toList ++ back ++ mbox).Nodup
  live : ∀ a ∈ front ++ hand.toList ++ back ++ mbox, (b.mem.get a).live = true

namespace Memory

variable (mem : Memory) (a x : ℕ)

theorem next_setNext (n : Option ℕ) :
    (mem.setNext a n).next x = if x = a then n else mem.next x := by
  simp only [next, setNext, Heap.get_modify]
  split <;> rfl

/-- What a write of a link leaves alone. -/
@[simp] theorem get_setNext (n : Option ℕ) :
    (mem.setNext a n).get x = { mem.get x with next := (mem.setNext a n).next x } := by
  simp only [next, setNext, Heap.get_modify]
  split
  · next h => rw [h]
  · rfl

theorem next_linkLast {tail : Option ℕ} (h : tail ≠ some a) : (mem.linkLast tail a).next x =
    if tail = some x then some a else if x = a then none else mem.next x := by
  cases tail with
  | none => simp [linkLast, next_setNext]
  | some t => simp [linkLast, next_setNext, eq_comm]

@[simp] theorem get_linkLast (tail : Option ℕ) :
    (mem.linkLast tail a).get x = { mem.get x with next := (mem.linkLast tail a).next x } := by
  cases tail <;> simp [linkLast]

@[simp] theorem get_envFree : (mem.envFree a).get x =
    { mem.get x with live := decide (x ≠ a) && (mem.get x).live } := by
  simp only [envFree, Heap.get_modify]
  by_cases h : x = a <;> simp [h]

@[simp] theorem message_linkLast (tail : Option ℕ) :
    (mem.linkLast tail a).message = mem.message := by
  funext x
  simp [message]

@[simp] theorem message_envFree : (mem.envFree a).message = mem.message := by
  funext x
  simp [message]

end Memory

namespace Box

variable (b : Box) (e x : ℕ)

@[simp] theorem get_unsave (prev : Option ℕ) : (b.unsave prev e).mem.get x =
    { b.mem.get x with next := (b.unsave prev e).mem.next x } := by
  cases prev with
  | none => rfl
  | some a => simp [unsave]

@[simp] theorem message_unsave (prev : Option ℕ) :
    (b.unsave prev e).mem.message = b.mem.message := by
  funext x
  simp [Memory.message]

@[simp] theorem message_save : (b.save e).mem.message = b.mem.message := by
  simp [save]

@[simp] theorem message_putBack : (b.putBack e).mem.message = b.mem.message := by
  funext x
  simp [putBack, Memory.message]

@[simp] theorem data_save : ((b.save e).mem.get x).data = (b.mem.get x).data := by
  simp [save]

end Box

namespace Layout

variable {b b' : Box} {front back mbox : List ℕ} {hand : Option ℕ} {e : ℕ}

section

variable (h : Layout b front hand back mbox)
include h

/-- A layout only depends on its own envelopes, the ends of the queues and the counters. -/
theorem of_get_eq (hget : ∀ x ∈ front ++ hand.toList ++ back ++ mbox, b'.mem.get x = b.mem.get x)
    (hsave : b'.saveHead = b.saveHead ∧ b'.saveTail = b.saveTail ∧ b'.mboxSaved = b.mboxSaved)
    (hmbox : b'.mboxHead = b.mboxHead ∧ b'.mboxTail = b.mboxTail ∧ b'.mboxN = b.mboxN) :
    Layout b' front hand back mbox := by
  obtain ⟨hsh, hst, hs⟩ := hsave
  obtain ⟨hmh, hmt, hn⟩ := hmbox
  have hnext : ∀ x ∈ front ++ hand.toList ++ back ++ mbox, b'.mem.next x = b.mem.next x :=
    fun x hx => congrArg Envelope.next (hget x hx)
  constructor
  · rw [hsh, hst]
    refine h.saveQueue.congr fun x hx => hnext x ?_
    rcases mem_append.mp hx with hx | hx <;> simp [hx]
  · rw [hmh, hmt]
    exact h.mboxQueue.congr fun x hx => hnext x (by simp [hx])
  · rw [hs, h.saved]
  · rw [hn, h.queued]
  · exact h.nodup
  · intro x hx
    rw [hget x hx]
    exact h.live x hx

/-- An envelope of the save queue is not in the mailbox. -/
theorem ne_of_mem {x y : ℕ} (hx : x ∈ front ++ back) (hy : y ∈ mbox) : x ≠ y := by
  have hdisj := (nodup_append.mp h.nodup).2.2
  refine hdisj x ?_ y hy
  rcases mem_append.mp hx with hx | hx <;> simp [hx]

theorem nodup_save : (front ++ back).Nodup := by
  refine ((nodup_append.mp h.nodup).1).sublist ?_
  simp

theorem nodup_mbox : mbox.Nodup :=
  (nodup_append.mp h.nodup).2.1

/-- The link after the envelopes `front` leads to the rest of the save queue. -/
theorem link_eq : b.link front.getLast? = back.head? := by
  rw [← h.saveQueue.next_eq]
  cases front.getLast? <;> rfl

/-- A block that is not allocated is in no queue. -/
theorem fresh (he : (b.mem.get e).live = false) : e ∉ front ++ hand.toList ++ back ++ mbox := by
  intro hmem
  rw [h.live e hmem] at he
  cases he

end

/-- With an empty hand it does not matter where the save queue is divided. -/
theorem resplit (h : Layout b front none back mbox) {front' back' : List ℕ}
    (heq : front' ++ back' = front ++ back) : Layout b front' none back' mbox := by
  have hnodup := h.nodup
  have hlive := h.live
  simp only [Option.toList, append_nil, ← heq] at hnodup hlive
  constructor
  · rw [heq]
    exact h.saveQueue
  · exact h.mboxQueue
  · rw [heq]
    exact h.saved
  · exact h.queued
  · simpa using hnodup
  · simpa using hlive

/-- A popped envelope is in the owner's hand. -/
theorem pop (h : Layout b front none [] mbox) (hpop : b.mboxPopLocked = some (e, b')) :
    ∃ rest, mbox = e :: rest ∧ Layout b' front (some e) [] rest ∧ b'.mem = b.mem ∧
      b'.mboxRecvTotal = b.mboxRecvTotal := by
  have hhead : b.mboxHead = mbox.head? := h.mboxQueue.head_eq
  obtain ⟨x, hx, hxe⟩ := Option.map_eq_some_iff.mp hpop
  cases hxe
  rw [hx] at hhead
  cases mbox with
  | nil => cases hhead
  | cons y rest =>
    cases hhead
    refine ⟨rest, rfl, ⟨?_, h.mboxQueue.pop, h.saved, ?_, ?_, ?_⟩, rfl, rfl⟩
    · exact h.saveQueue
    · simp [h.queued]
    · simpa using h.nodup
    · simpa using h.live

/-- The envelope in the owner's hand is appended to the save queue. -/
theorem save (h : Layout b front (some e) [] mbox) :
    Layout (b.save e) (front ++ [e]) none [] mbox := by
  have hne : e ∉ front ∧ e ∉ mbox := by
    have hnodup := h.nodup
    simp only [Option.toList, append_assoc, singleton_append, nodup_append, nodup_cons] at hnodup
    exact ⟨fun he => hnodup.2.2 e he e (by simp) rfl, hnodup.2.1.1⟩
  have hfront : Queue b.mem.next b.saveHead b.saveTail front := by simpa using h.saveQueue
  have htail : b.saveTail ≠ some e := by
    intro heq
    rw [hfront.tail_eq] at heq
    exact hne.1 (mem_of_getLast? heq)
  have hnext : ∀ x, (b.save e).mem.next x =
      if b.saveTail = some x then some e else if x = e then none else b.mem.next x :=
    fun x => b.mem.next_linkLast e x htail
  constructor
  · rw [append_nil]
    apply hfront.push
    · simpa using h.nodup_save
    · rw [hnext, if_neg htail, if_pos rfl]
    · intro x hx
      rw [hnext, if_pos hx]
    · intro x hx hlast
      rw [hnext, if_neg hlast, if_neg]
      rintro rfl
      exact hne.1 hx
  · apply h.mboxQueue.congr
    intro x hx
    rw [hnext, if_neg, if_neg]
    · rintro rfl
      exact hne.2 hx
    · intro heq
      rw [hfront.tail_eq] at heq
      exact h.ne_of_mem (by simpa using mem_of_getLast? heq) hx rfl
  · have hsaved := h.saved
    simp [Box.save, hsaved]
  · exact h.queued
  · simpa using h.nodup
  · intro x hx
    simpa [Box.save] using h.live x (by simpa using hx)

/-- An envelope behind `front` leaves the save queue for the owner's hand. -/
theorem unsave (h : Layout b front none (e :: back) mbox) :
    Layout (b.unsave front.getLast? e) front (some e) back mbox := by
  have hsave : (front ++ e :: back).Nodup := h.nodup_save
  have hnext : ∀ x, (b.unsave front.getLast? e).mem.next x =
      if front.getLast? = some x then b.mem.next e else b.mem.next x := by
    intro x
    cases front.getLast? with
    | none => rfl
    | some y => simp [Box.unsave, Memory.next_setNext, eq_comm]
  constructor
  · have hempty : (front.getLast? = none) = (front = []) := propext getLast?_eq_none_iff
    have hunlink := h.saveQueue.unlink hsave
      (fun x hx => (hnext x).trans (if_pos hx)) fun x _ hx => (hnext x).trans (if_neg hx)
    simpa only [Box.unsave, hempty] using hunlink
  · apply h.mboxQueue.congr
    intro x hx
    rw [hnext, if_neg]
    intro hlast
    exact h.ne_of_mem (mem_append_left _ (mem_of_getLast? hlast)) hx rfl
  · simp [Box.unsave, h.saved]
  · exact h.queued
  · simpa using h.nodup
  · intro x hx
    have hlive := h.live x (by simpa using hx)
    cases front.getLast? <;> simpa using hlive

/-- The envelope in the owner's hand goes to the head of the save queue. -/
theorem putBack (h : Layout b front (some e) back mbox) :
    Layout (b.putBack e) (e :: (front ++ back)) none [] mbox := by
  have hnodup : (e :: (front ++ (back ++ mbox))).Nodup := by
    simpa [nodup_middle] using h.nodup
  have hnext : ∀ x ∈ front ++ (back ++ mbox), (b.putBack e).mem.next x = b.mem.next x := by
    intro x hx
    have hne : x ≠ e := ne_of_mem_of_not_mem hx (nodup_cons.mp hnodup).1
    exact (b.mem.next_setNext e x _).trans (if_neg hne)
  constructor
  · rw [append_nil]
    refine h.saveQueue.cons ((b.mem.next_setNext e e _).trans (if_pos rfl)) fun x hx => ?_
    exact hnext x (append_assoc .. ▸ mem_append_left mbox hx)
  · exact h.mboxQueue.congr fun x hx => hnext x (by simp [hx])
  · simp [Box.putBack, h.saved]
  · exact h.queued
  · simpa using hnodup
  · intro x hx
    have hlive := h.live x (by simp at hx ⊢; tauto)
    simpa [Box.putBack] using hlive

/-- The envelope in the owner's hand is freed. -/
theorem envFree (h : Layout b front (some e) back mbox) :
    Layout { b with mem := b.mem.envFree e } front none back mbox := by
  have hne : e ∉ front ++ back ++ mbox := by
    have hnodup := h.nodup
    simp only [Option.toList, append_assoc, cons_append] at hnodup
    rw [nodup_middle, nodup_cons] at hnodup
    simpa using hnodup.1
  have hnext : ∀ x, (b.mem.envFree e).next x = b.mem.next x := by simp [Memory.next]
  constructor
  · exact h.saveQueue.congr fun x _ => hnext x
  · exact h.mboxQueue.congr fun x _ => hnext x
  · exact h.saved
  · exact h.queued
  · refine h.nodup.sublist ?_
    simp
  · intro x hx
    have hmem : x ∈ front ++ back ++ mbox := by simpa using hx
    have hlive := h.live x (by simp only [mem_append] at hmem ⊢; tauto)
    have hxe : x ≠ e := fun heq => hne (heq ▸ hmem)
    simp [hxe, hlive]

/-- The filled block is appended to the mailbox. -/
theorem push (h : Layout b front hand back mbox) (hnew : e ∉ front ++ hand.toList ++ back ++ mbox)
    (hlive : (b.mem.get e).live = true) :
    Layout (b.mboxPushLocked e) front hand back (mbox ++ [e]) := by
  have htail : b.mboxTail ≠ some e := by
    intro heq
    rw [h.mboxQueue.tail_eq] at heq
    exact hnew (mem_append_right _ (mem_of_getLast? heq))
  have hnext : ∀ x, (b.mboxPushLocked e).mem.next x =
      if b.mboxTail = some x then some e else if x = e then none else b.mem.next x :=
    fun x => b.mem.next_linkLast e x htail
  constructor
  · apply h.saveQueue.congr
    intro x hx
    rw [hnext, if_neg, if_neg]
    · rintro rfl
      apply hnew
      rcases mem_append.mp hx with hx | hx <;> simp [hx]
    · intro heq
      rw [h.mboxQueue.tail_eq] at heq
      exact h.ne_of_mem hx (mem_of_getLast? heq) rfl
  · apply h.mboxQueue.push h.nodup_mbox
    · rw [hnext, if_neg htail, if_pos rfl]
    · intro x hx
      rw [hnext, if_pos hx]
    · intro x hx hlast
      rw [hnext, if_neg hlast, if_neg]
      rintro rfl
      exact hnew (mem_append_right _ hx)
  · exact h.saved
  · simp [Box.mboxPushLocked, h.queued]
  · rw [← append_assoc]
    exact nodup_append.mpr ⟨h.nodup, nodup_singleton e, by
      rintro x hx y hy rfl
      exact hnew (mem_singleton.mp hy ▸ hx)⟩
  · intro x hx
    rw [← append_assoc] at hx
    have hlive' : (b.mem.get x).live = true := by
      rcases mem_append.mp hx with hx | hx
      · exact h.live x hx
      · rw [mem_singleton.mp hx]
        exact hlive
    simpa [Box.mboxPushLocked] using hlive'

end Layout

end LibXtc.Mailbox

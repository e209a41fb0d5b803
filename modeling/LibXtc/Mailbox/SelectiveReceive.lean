import LibXtc.Foundations.Lists
import LibXtc.Mailbox.Layout

/-!
# Selective receive takes the oldest match and loses nothing

Save queue, envelope in hand and mailbox together hold the pending messages in the order of
acceptance, at every step of every receive and whatever the senders do in between. The envelopes
that the present call has already tested stand at the front of the save queue, so the first one
that satisfies the predicate is the oldest pending one.
-/

namespace LibXtc.Mailbox

open Foundations State List

/-! ## History -/

/-- `held` are the messages in `pending`, and in the same order if the run is `exact`: otherwise a
receive that found no buffer may have put its message before older ones. -/
structure Arranged (exact : Prop) (pending held : List Message) : Prop where
  perm : held ~ pending
  eq : exact → held = pending

variable {exact : Prop} {m : Message} {r : Receipt}

theorem Arranged.filter {l l' : List Message} (h : Arranged exact l l')
    (p : Message → Bool) : Arranged exact (l.filter p) (l'.filter p) :=
  ⟨h.perm.filter p, fun hexact => congrArg _ (h.eq hexact)⟩

theorem Arranged.append {l l' : List Message} (h : Arranged exact l l')
    (new : List Message) : Arranged exact (l ++ new) (l' ++ new) :=
  ⟨h.perm.append_right new, fun hexact => congrArg (· ++ new) (h.eq hexact)⟩

namespace History

variable {h : History} {total : ℕ} {exact : Prop}

/-- The history makes sense: what was accepted is distinct, what was returned was accepted and is
distinct, and every receive returned the oldest pending message that satisfied its predicate. -/
structure Ordered (exact : Prop) (h : History) (total : ℕ) : Prop where
  lt : ∀ m ∈ h.accepted, m.seq < total
  accepted : h.accepted.Nodup
  returned : h.returned.Nodup
  returned_subset : h.returned ⊆ h.accepted
  oldest : exact → ∀ r ∈ h.receipts,
    r.pending.find? (fun m => r.matchFn m.data) = some r.message

theorem mem_pending : m ∈ h.pending ↔ m ∈ h.accepted ∧ m ∉ h.returned := by
  simp [pending]

/-- A new message is pending, behind the others. -/
theorem pending_accept (hm : m ∉ h.returned) :
    ({ h with accepted := h.accepted ++ [m] } : History).pending = h.pending ++ [m] := by
  have hnew : [m].filter (fun x => x ∉ h.returned) = [m] := by simp [hm]
  rw [pending, pending, filter_append]
  exact congrArg _ hnew

/-- A returned message is not pending any more. -/
theorem pending_receipt (r : Receipt) :
    (⟨h.accepted, r :: h.receipts⟩ : History).pending = h.pending.filter (· ≠ r.message) := by
  rw [pending, pending, filter_filter]
  apply filter_congr
  intro m _
  simp [returned]

namespace Ordered

section

variable (ho : h.Ordered exact total)
include ho

theorem not_mem_returned (data : List UInt8) : (⟨total, data⟩ : Message) ∉ h.returned := by
  intro hmem
  have hlt := ho.lt _ (ho.returned_subset hmem)
  exact Nat.lt_irrefl _ hlt

theorem nodup_pending : h.pending.Nodup := ho.accepted.filter _

theorem accept (data : List UInt8) :
    ({ h with accepted := h.accepted ++ [⟨total, data⟩] } : History).Ordered exact (total + 1) := by
  constructor
  · intro m hm
    rcases mem_append.mp hm with hm | hm
    · exact Nat.lt_succ_of_lt (ho.lt m hm)
    · rw [mem_singleton.mp hm]
      exact Nat.lt_succ_self _
  · refine nodup_append.mpr ⟨ho.accepted, nodup_singleton _, ?_⟩
    rintro m hm x hx rfl
    rw [mem_singleton.mp hx] at hm
    exact Nat.lt_irrefl _ (ho.lt _ hm)
  · exact ho.returned
  · exact fun m hm => mem_append_left _ (ho.returned_subset hm)
  · exact ho.oldest

theorem receipt (hmem : r.message ∈ h.pending)
    (hold : exact → r.pending.find? (fun m => r.matchFn m.data) = some r.message) :
    (⟨h.accepted, r :: h.receipts⟩ : History).Ordered exact total := by
  obtain ⟨hacc, hret⟩ := mem_pending.mp hmem
  constructor
  · exact ho.lt
  · exact ho.accepted
  · exact nodup_cons.mpr ⟨hret, ho.returned⟩
  · exact cons_subset.mpr ⟨hacc, ho.returned_subset⟩
  · exact fun hexact => forall_mem_cons.mpr ⟨hold hexact, ho.oldest hexact⟩

end

end Ordered

end History

/-! ## One state -/

namespace State

variable (s : State)

/-- The envelope that the owner has taken out of both queues. -/
def hand : Option ℕ :=
  match s.pc with
  | .test e | .deliver e => some e
  | _ => none

/-- The present predicate refuses the messages in `l`. -/
def Refuses (l : List ℕ) : Prop := ∀ a ∈ l, s.frame.matchFn (s.box.mem.get a).data = false

/-- What the present call knows of the save queue. -/
def Tested (front back : List ℕ) : Prop :=
  match s.pc with
  | .walk prev => prev = front.getLast? ∧ s.Refuses front
  | .pull | .check | .test _ => back = [] ∧ s.Refuses front
  | .park => back = [] ∧ s.Refuses front ∧ s.frame.mark = front.getLast?
  | .deliver e => s.frame.matchFn (s.box.mem.get e).data = true ∧ s.Refuses front
  | .idle | .start | .collect => True

/-- The queues and the envelope in hand hold what is pending. -/
structure Holds (exact : Prop) (front back mbox : List ℕ) : Prop where
  layout : Layout s.box front s.hand back mbox
  contents : Arranged exact s.hist.pending
    ((front ++ s.hand.toList ++ back ++ mbox).map s.box.mem.message)
  tested : s.Tested front back

/-- What the present call has done so far. -/
structure InCall : Prop where
  accepted : s.since.accepted ≤ s.hist.accepted.length
  returned : s.since.returned ≤ s.hist.receipts.length
  pending : s.hist.pending =
    (s.since.before ++ s.hist.accepted.drop s.since.accepted).filter (· ∉ s.taken)
  collected : match s.correlate with
    | none => s.hist.receipts.length = s.since.returned
    | some c => (s.hist.receipts.length - s.since.returned : ℤ) = c.collected ∧
        c.collected < c.expected

end State

/-- A call that timed out has removed nothing but what it handed out, and `xtc_recv` and
`xtc_recv_match` nothing at all. -/
structure Expiry.Fair (x : Expiry) : Prop where
  after : x.after = (x.before ++ x.arrived).filter (· ∉ x.taken)
  taken : x.correlate = false → x.taken = []
  outN : (x.taken.length : ℤ) = x.outN

/-- Everything that holds along a run. -/
structure Sound (exact : Prop) (s : State) : Prop where
  holds : ∃ front back mbox, s.Holds exact front back mbox
  ordered : s.hist.Ordered exact s.box.mboxRecvTotal
  inCall : s.pc ≠ .idle → s.InCall
  expired : ∀ x ∈ s.expired, x.Fair

/-! ## Steps -/

namespace State

variable {s t : State} {front back mbox : List ℕ} {exact : Prop} {rc : Rc}

theorem InCall.congr (h : s.InCall) (hhist : t.hist = s.hist) (hsince : t.since = s.since)
    (hcorr : t.correlate = s.correlate) : t.InCall := by
  have htaken : t.taken = s.taken := by simp only [taken, hhist, hsince]
  constructor
  · rw [hhist, hsince]
    exact h.accepted
  · rw [hhist, hsince]
    exact h.returned
  · rw [hhist, hsince, htaken]
    exact h.pending
  · rw [hhist, hsince, hcorr]
    exact h.collected

/-- A delivery during the call adds to what has arrived. -/
theorem InCall.accept (h : s.InCall) (hm : m ∉ s.hist.returned)
    (hhist : t.hist = { s.hist with accepted := s.hist.accepted ++ [m] })
    (hsince : t.since = s.since) (hcorr : t.correlate = s.correlate) : t.InCall := by
  have htaken : t.taken = s.taken := by simp only [taken, hhist, hsince, History.returned]
  have hnew : [m].filter (· ∉ s.taken) = [m] := by
    have hout : m ∉ s.taken := fun hmem => hm (mem_of_mem_take hmem)
    simp [hout]
  constructor
  · rw [hhist, hsince]
    simpa using Nat.le_succ_of_le h.accepted
  · rw [hhist, hsince]
    exact h.returned
  · rw [hhist, hsince, htaken, History.pending_accept hm, h.pending,
      drop_append_of_le_length h.accepted, ← append_assoc,
      filter_append _ [m], hnew]
  · rw [hhist, hsince, hcorr]
    exact h.collected

theorem length_taken (s : State) : s.taken.length = s.hist.receipts.length - s.since.returned := by
  simp [taken, History.returned]

/-- A receipt adds its message to what the present call has handed out. -/
theorem taken_receipt (hs : s.since.returned ≤ s.hist.receipts.length)
    (hhist : t.hist = ⟨s.hist.accepted, r :: s.hist.receipts⟩) (hsince : t.since = s.since) :
    t.taken = r.message :: s.taken := by
  simp [taken, hhist, hsince, History.returned, Nat.succ_sub hs]

/-- Outside `__do_recv` nothing is in hand and nothing is known of the save queue. -/
theorem Holds.of_free (hpc : s.pc = .idle ∨ s.pc = .start ∨ s.pc = .collect)
    (hlay : Layout s.box front none back mbox)
    (hcont : Arranged exact s.hist.pending ((front ++ back ++ mbox).map s.box.mem.message)) :
    s.Holds exact front back mbox := by
  have hhand : s.hand = none := by
    rcases hpc with hpc | hpc | hpc <;> simp [hand, hpc]
  constructor
  · rw [hhand]
    exact hlay
  · simpa [hhand] using hcont
  · rcases hpc with hpc | hpc | hpc <;> simp [Tested, hpc]

/-- The owner has nothing in hand and its call is about to return. -/
structure Settled (exact : Prop) (s : State) : Prop where
  holds : ∃ save mbox, Layout s.box save none [] mbox ∧
    Arranged exact s.hist.pending ((save ++ mbox).map s.box.mem.message)
  ordered : s.hist.Ordered exact s.box.mboxRecvTotal
  accepted : s.since.accepted ≤ s.hist.accepted.length
  returned : s.since.returned ≤ s.hist.receipts.length
  pending : s.hist.pending =
    (s.since.before ++ s.hist.accepted.drop s.since.accepted).filter (· ∉ s.taken)
  expired : ∀ x ∈ s.expired, x.Fair

theorem Settled.leave (h : s.Settled exact) {correlate : Bool} {outN : ℤ}
    (hfair : rc = .again → (correlate = false → s.hist.receipts.length = s.since.returned) ∧
      (s.hist.receipts.length - s.since.returned : ℤ) = outN) :
    Sound exact (s.leave rc correlate outN) := by
  obtain ⟨save, mbox, hlay, hcont⟩ := h.holds
  refine ⟨⟨save, [], mbox, .of_free (.inl rfl) hlay (by rw [append_nil]; exact hcont)⟩, h.ordered,
    fun hpc => absurd rfl hpc, ?_⟩
  intro x hx
  simp only [State.leave] at hx
  split at hx
  · next hrc =>
    obtain ⟨hsingle, hout⟩ := hfair hrc
    have hlen := length_taken s
    have hle := h.returned
    rcases mem_cons.mp hx with rfl | hx
    · refine ⟨h.pending, fun hc => ?_, ?_⟩
      · have hzero : s.taken.length = 0 := by
          rw [hlen, hsingle hc]
          simp
        exact length_eq_zero_iff.mp hzero
      · simp only [hlen]
        omega
    · exact h.expired x hx
  · exact h.expired x hx

/-- `__do_recv` returns without a message. -/
theorem Settled.ret (h : s.Settled exact) (hrc : rc ≠ .ok) (hcall : s.InCall) :
    Sound exact (s.ret rc) := by
  have hcoll := hcall.collected
  rw [State.ret]
  split
  · next hcorr =>
    rw [hcorr] at hcoll
    exact h.leave fun _ => ⟨fun _ => hcoll, by simp [hcoll]⟩
  · next c hcorr =>
    rw [hcorr] at hcoll
    rw [if_neg hrc]
    refine h.leave fun _ => ⟨fun hc => ?_, hcoll.1⟩
    cases hc

/-- `__do_recv` returns with a message. -/
theorem Settled.ret_ok (h : s.Settled exact) (hcoll : ∀ c, s.correlate = some c →
      (s.hist.receipts.length - s.since.returned : ℤ) = c.collected + 1 ∧
        c.collected < c.expected) : Sound exact (s.ret .ok) := by
  rw [State.ret]
  split
  · refine h.leave fun hrc => ?_
    cases hrc
  · next c hcorr =>
    obtain ⟨hlen, hlt⟩ := hcoll c hcorr
    rw [if_pos rfl]
    simp only
    split
    · next hmore =>
      obtain ⟨save, mbox, hlay, hcont⟩ := h.holds
      refine ⟨⟨save, [], mbox, .of_free (.inr (.inr rfl)) hlay (by simpa using hcont)⟩,
        h.ordered, fun _ => ?_, h.expired⟩
      exact ⟨h.accepted, h.returned, h.pending, hlen, hmore⟩
    · refine h.leave fun _ => ⟨fun hc => ?_, hlen⟩
      cases hc

/-- The oldest match is where the tested messages end. -/
theorem Holds.find?_eq (h : s.Holds exact front back mbox) {e : ℕ} (hpc : s.pc = .deliver e)
    (hexact : exact) :
    s.hist.pending.find? (fun m => s.frame.matchFn m.data) = some (s.box.mem.message e) := by
  have htest := h.tested
  simp only [Tested, hpc] at htest
  refine find?_eq_some_iff_append.mpr ⟨htest.1, front.map s.box.mem.message,
    (back ++ mbox).map s.box.mem.message, ?_, ?_⟩
  · rw [← h.contents.eq hexact]
    simp [hand, hpc]
  · intro m hm
    obtain ⟨a, ha, rfl⟩ := mem_map.mp hm
    simpa [Memory.message] using htest.2 a ha

end State

namespace Sound

variable {s t : State} {front back mbox : List ℕ} {e : ℕ} {now : ℤ} {alloc : Bool} {exact : Prop}

section

variable (h : Sound exact s)
include h

/-- A step inside `__do_recv`. -/
theorem inside (hcall : s.InCall) (hholds : ∃ front back mbox, t.Holds exact front back mbox)
    (hhist : t.hist = s.hist := by rfl)
    (htotal : t.box.mboxRecvTotal = s.box.mboxRecvTotal := by rfl)
    (hsince : t.since = s.since := by rfl) (hcorr : t.correlate = s.correlate := by rfl)
    (hexp : t.expired = s.expired := by rfl) : Sound exact t where
  holds := hholds
  ordered := by
    rw [hhist, htotal]
    exact h.ordered
  inCall _ := hcall.congr hhist hsince hcorr
  expired := by
    rw [hexp]
    exact h.expired

/-- Nothing is in hand. -/
theorem settled (hcall : s.InCall) (hlay : Layout s.box front none back mbox)
    (hcont : Arranged exact s.hist.pending
      ((front ++ [] ++ back ++ mbox).map s.box.mem.message)) : s.Settled exact where
  holds := ⟨front ++ back, mbox, hlay.resplit (by simp), by simpa using hcont⟩
  ordered := h.ordered
  accepted := hcall.accepted
  returned := hcall.returned
  pending := hcall.pending
  expired := h.expired

/-- The message in hand is put back. Where it was the oldest, no other one is tested before it. -/
theorem putBack (hpc : s.pc = .deliver e) (hholds : s.Holds exact front back mbox)
    (hok : exact → s.hist.pending.head? = some (s.box.mem.message e)) :
    Sound exact (({ s with box := s.box.putBack e } : State).ret .nomem) := by
  have hcall := h.inCall (by simp [hpc])
  have hhand : s.hand = some e := by simp [hand, hpc]
  have hlay := hholds.layout
  have hcont := hholds.contents
  rw [hhand] at hlay hcont
  refine State.Settled.ret
    ⟨⟨e :: (front ++ back), mbox, hlay.putBack, ?_⟩, h.ordered, hcall.accepted, hcall.returned,
      hcall.pending, h.expired⟩ nofun (hcall.congr rfl rfl rfl)
  constructor
  · refine .trans ?_ hcont.perm
    simpa using perm_middle.symm
  · intro hexact
    have hold := hok hexact
    have hnodup := h.ordered.nodup_pending
    rw [← hcont.eq hexact] at hold hnodup ⊢
    cases front with
    | nil => simp
    | cons a front =>
      simp only [cons_append, map_cons, head?_cons, Option.some.injEq] at hold
      simp [hold] at hnodup

/-- The message in hand is handed over. -/
theorem handOver (hpc : s.pc = .deliver e) (hholds : s.Holds exact front back mbox) :
    Sound exact ((s.handOver e).ret .ok) := by
  have hcall := h.inCall (by simp [hpc])
  have hhand : s.hand = some e := by simp [hand, hpc]
  have hlay := hholds.layout
  have hcont := hholds.contents
  rw [hhand] at hlay hcont
  simp only [Option.toList, append_assoc, map_append, map_cons, cons_append] at hcont
  have hmem : s.box.mem.message e ∈ s.hist.pending := hcont.perm.subset (by simp)
  have hleft : Arranged exact (s.hist.pending.filter (· ≠ s.box.mem.message e))
      ((front ++ back ++ mbox).map s.box.mem.message) := by
    have hfilter := hcont.filter (· ≠ s.box.mem.message e)
    rw [filter_ne_append (hcont.perm.nodup_iff.mpr h.ordered.nodup_pending)] at hfilter
    simpa using hfilter
  have htaken : (s.handOver e).taken = s.box.mem.message e :: s.taken :=
    taken_receipt (t := s.handOver e) hcall.returned rfl rfl
  have hpend : (s.handOver e).hist.pending =
      s.hist.pending.filter (· ≠ s.box.mem.message e) := History.pending_receipt _
  apply State.Settled.ret_ok
  · constructor
    · refine ⟨front ++ back, mbox, hlay.envFree.resplit (by simp), ?_⟩
      rw [hpend, State.handOver, Memory.message_envFree]
      exact hleft
    · exact h.ordered.receipt hmem (hholds.find?_eq hpc)
    · exact hcall.accepted
    · exact Nat.le_succ_of_le hcall.returned
    · rw [hpend, htaken, hcall.pending, filter_filter]
      refine filter_congr fun m _ => ?_
      simp
    · exact h.expired
  · intro c hc
    have hcoll := hcall.collected
    rw [show s.correlate = some c from hc] at hcoll
    have hlen : (s.handOver e).hist.receipts.length = s.hist.receipts.length + 1 := rfl
    have hsince : (s.handOver e).since = s.since := rfl
    rw [hlen, hsince]
    omega

section

variable (hcall : s.InCall)
include hcall

/-- A step in the save queue. -/
theorem walk (hlay : Layout s.box front none back mbox) (hcont : Arranged exact s.hist.pending
      ((front ++ [] ++ back ++ mbox).map s.box.mem.message))
    (hpc : s.pc = .walk front.getLast?) (href : s.Refuses front)
    (ht : s.advance now alloc = some t) : Sound exact t := by
  simp only [advance, hpc, hlay.link_eq] at ht
  cases back with
  | nil =>
    cases ht
    exact h.inside hcall ⟨front, [], mbox, hlay, hcont, rfl, href⟩
  | cons e back =>
    simp only [head?_cons] at ht
    split at ht <;> cases ht
    · next hmatch =>
      refine h.inside hcall ⟨front, back, mbox, hlay.unsave, ?_, ?_⟩
      · simpa [hand] using hcont
      · refine ⟨by simpa using hmatch, fun a ha => ?_⟩
        simpa using href a ha
    · next hmatch =>
      refine h.inside hcall ⟨front ++ [e], back, mbox, hlay.resplit (by simp), ?_, ?_⟩
      · simpa [hand] using hcont
      · refine ⟨by simp, fun a ha => ?_⟩
        rcases mem_append.mp ha with ha | ha
        · exact href a ha
        · rw [mem_singleton.mp ha]
          simpa using hmatch

/-- A critical section of the receive: a pop, or the arming of the waker. -/
theorem pull (hlay : Layout s.box front none [] mbox)
    (hcont : Arranged exact s.hist.pending ((front ++ [] ++ [] ++ mbox).map s.box.mem.message))
    (hpc : s.pc = .pull) (href : s.Refuses front) (ht : s.advance now alloc = some t) :
    Sound exact t := by
  simp only [advance, hpc] at ht
  cases hpop : s.box.mboxPopLocked with
  | some popped =>
    rw [hpop] at ht
    cases ht
    obtain ⟨rest, rfl, hlayout', hmem, htotal⟩ := hlay.pop hpop
    refine h.inside hcall ⟨front, [], rest, hlayout', ?_, rfl, ?_⟩ rfl htotal
    · simpa [hand, hmem] using hcont
    · intro a ha
      simpa [hmem] using href a ha
  | none =>
    rw [hpop] at ht
    cases ht
    obtain ⟨armed, hbox⟩ : ∃ armed, (if s.frame.timeout = 0 then s.box
        else { s.box with wakerArmed := true }) = { s.box with wakerArmed := armed } := by
      split
      · exact ⟨_, rfl⟩
      · exact ⟨true, rfl⟩
    rw [hbox]
    exact h.inside hcall ⟨front, [], mbox, { hlay with }, hcont, rfl, href⟩

/-- The popped message is tested. -/
theorem test (hlay : Layout s.box front (some e) [] mbox)
    (hcont : Arranged exact s.hist.pending ((front ++ [e] ++ [] ++ mbox).map s.box.mem.message))
    (hpc : s.pc = .test e) (href : s.Refuses front) (ht : s.advance now alloc = some t) :
    Sound exact t := by
  simp only [advance, hpc] at ht
  split at ht <;> cases ht
  · next hmatch =>
    exact h.inside hcall ⟨front, [], mbox, hlay, hcont, hmatch, href⟩
  · next hmatch =>
    refine h.inside hcall ⟨front ++ [e], [], mbox, hlay.save, ?_, rfl, ?_⟩
    · simpa [hand] using hcont
    · intro a ha
      rw [Box.data_save]
      rcases mem_append.mp ha with ha | ha
      · exact href a ha
      · rw [mem_singleton.mp ha]
        simpa using hmatch

/-- The timeout is looked at. -/
theorem check (hlay : Layout s.box front none [] mbox)
    (hcont : Arranged exact s.hist.pending ((front ++ [] ++ [] ++ mbox).map s.box.mem.message))
    (hpc : s.pc = .check) (href : s.Refuses front) (ht : s.advance now alloc = some t) :
    Sound exact t := by
  have hsett := h.settled hcall hlay hcont
  simp only [advance, hpc] at ht
  split at ht
  · cases ht
    exact hsett.ret (by simp) hcall
  · split at ht <;> cases ht
    · exact hsett.ret (by simp) hcall
    · have hmark : s.box.saveTail = front.getLast? := by
        rw [hlay.saveQueue.tail_eq, append_nil]
      exact h.inside hcall ⟨front, [], mbox, hlay, hcont, rfl, href, hmark⟩

/-- The loop of `xtc_recv_correlate` ends or calls `__do_recv`. -/
theorem collect (hlay : Layout s.box front none back mbox) (hcont : Arranged exact s.hist.pending
      ((front ++ [] ++ back ++ mbox).map s.box.mem.message))
    (hpc : s.pc = .collect) (ht : s.advance now alloc = some t) : Sound exact t := by
  have hcoll := hcall.collected
  simp only [advance, hpc] at ht
  split at ht
  · cases ht
  · next c hcorr =>
    rw [hcorr] at hcoll
    split at ht <;> cases ht
    · refine (h.settled hcall hlay hcont).leave fun _ => ⟨fun hc => ?_, hcoll.1⟩
      cases hc
    · exact h.inside hcall ⟨front, back, mbox, .of_free (.inr (.inl rfl)) hlay
        (by simpa using hcont)⟩

end

/-- The steps of the owner. -/
theorem advance (hok : exact → ∀ e, s.pc = .deliver e → s.noBuffer e alloc →
      s.hist.pending.head? = some (s.box.mem.message e))
    (ht : s.advance now alloc = some t) : Sound exact t := by
  obtain ⟨front, back, mbox, hholds⟩ := h.holds
  have hlay := hholds.layout
  have hcont := hholds.contents
  have htest := hholds.tested
  have hcall := h.inCall
  cases hpc : s.pc <;> simp only [hand, State.Tested, hpc] at hlay hcont htest <;>
    rw [hpc] at hcall
  case idle => simp [State.advance, hpc] at ht
  case start =>
    simp only [State.advance, hpc] at ht
    cases ht
    refine h.inside (hcall (by simp)) ⟨[], front ++ back, mbox, hlay.resplit (by simp), ?_, rfl, ?_⟩
    · simpa [hand] using hcont
    · simp [State.Refuses]
  case walk prev =>
    obtain ⟨rfl, href⟩ := htest
    exact h.walk (hcall (by simp)) hlay hcont hpc href ht
  case pull =>
    obtain ⟨rfl, href⟩ := htest
    exact h.pull (hcall (by simp)) hlay hcont hpc href ht
  case test e =>
    obtain ⟨rfl, href⟩ := htest
    exact h.test (hcall (by simp)) hlay hcont hpc href ht
  case check =>
    obtain ⟨rfl, href⟩ := htest
    exact h.check (hcall (by simp)) hlay hcont hpc href ht
  case park =>
    obtain ⟨rfl, href, hmark⟩ := htest
    simp only [State.advance, hpc] at ht
    cases ht
    exact h.inside (hcall (by simp)) ⟨front, [], mbox, { hlay with }, hcont, hmark, href⟩
  case deliver e =>
    simp only [State.advance, hpc] at ht
    split at ht <;> cases ht
    · next hfails => exact h.putBack hpc hholds fun hexact => hok hexact e hpc hfails
    · exact h.handOver hpc hholds
  case collect => exact h.collect (hcall (by simp)) hlay hcont hpc ht

end

/-- A delivery leaves the envelopes of the queues as they are, but for their links. -/
theorem holds_send (hholds : s.Holds exact front back mbox) (hpc : t.pc = s.pc)
    (hframe : t.frame = s.frame) {new : List ℕ}
    (hlay : Layout t.box front s.hand back (mbox ++ new))
    (hget : ∀ x ∈ front ++ s.hand.toList ++ back ++ mbox,
      t.box.mem.get x = { s.box.mem.get x with next := t.box.mem.next x })
    (hpend : t.hist.pending = s.hist.pending ++ new.map t.box.mem.message) :
    t.Holds exact front back (mbox ++ new) := by
  have hhand : t.hand = s.hand := by simp only [hand, hpc]
  have hmessage : ∀ x ∈ front ++ s.hand.toList ++ back ++ mbox,
      t.box.mem.message x = s.box.mem.message x := by
    intro x hx
    rw [Memory.message, hget x hx]
    rfl
  have hdata : ∀ x ∈ front ++ s.hand.toList ++ back ++ mbox,
      (t.box.mem.get x).data = (s.box.mem.get x).data := fun x hx => by rw [hget x hx]
  have href : s.Refuses front → t.Refuses front := by
    intro hr x hx
    rw [hframe, hdata x (by simp [hx])]
    exact hr x hx
  constructor
  · rw [hhand]
    exact hlay
  · have hold : (front ++ s.hand.toList ++ back ++ mbox).map s.box.mem.message =
        (front ++ s.hand.toList ++ back ++ mbox).map t.box.mem.message :=
      map_congr_left fun x hx => (hmessage x hx).symm
    rw [hpend, hhand, ← append_assoc _ mbox new, map_append, ← hold]
    exact hholds.contents.append _
  · have htest := hholds.tested
    have hmem : ∀ e, s.hand = some e → e ∈ front ++ s.hand.toList ++ back ++ mbox := by
      intro e he
      simp [he]
    simp only [State.Tested, hpc, hframe] at htest ⊢
    split
    case h_1 hs | h_2 hs | h_3 hs | h_4 hs =>
      simp only [hs] at htest
      exact ⟨htest.1, href htest.2⟩
    · next hs => simp only [hs] at htest; exact ⟨htest.1, href htest.2.1, htest.2.2⟩
    · next e hs =>
      simp only [hs] at htest
      rw [hdata e (hmem e (by simp [hand, hs]))]
      exact ⟨htest.1, href htest.2⟩
    all_goals trivial

/-- A delivery, between any two steps of the owner. -/
theorem send (h : Sound exact s) {data : List UInt8} {ext sys : Bool}
    (ht : s.send e data ext sys = some t) : Sound exact t := by
  obtain ⟨front, back, mbox, hholds⟩ := h.holds
  rw [State.send] at ht
  split at ht
  · cases ht
  · next hdead =>
    have hdead : (s.box.mem.get e).live = false := by simpa using hdead
    have hnew := hholds.layout.fresh hdead
    have hget : ∀ x ∈ front ++ s.hand.toList ++ back ++ mbox,
        (s.box.envAlloc e data ext).mem.get x = s.box.mem.get x := by
      intro x hx
      have hne : x ≠ e := fun heq => hnew (heq ▸ hx)
      exact Heap.get_set_of_ne _ hne _
    by_cases href : (s.box.envAlloc e data ext).refuses sys
    · simp only [Box.mboxDeliverLocked, if_pos href] at ht
      cases ht
      have hget' : ∀ x ∈ front ++ s.hand.toList ++ back ++ mbox,
          ((s.box.envAlloc e data ext).mem.envFree e).get x = s.box.mem.get x := by
        intro x hx
        have hne : x ≠ e := fun heq => hnew (heq ▸ hx)
        rw [Memory.get_envFree, hget x hx]
        simp [hne]
      refine ⟨⟨front, back, mbox ++ [], holds_send hholds ?_ ?_ ?_ ?_ ?_⟩, h.ordered,
        fun hpc => (h.inCall hpc).congr rfl rfl rfl, h.expired⟩
      · rfl
      · rfl
      · rw [append_nil]
        exact hholds.layout.of_get_eq hget' ⟨rfl, rfl, rfl⟩ ⟨rfl, rfl, rfl⟩
      · intro x hx
        rw [Memory.next, hget' x hx]
      · simp
    · simp only [Box.mboxDeliverLocked, if_neg href] at ht
      cases ht
      have hlive : ((s.box.envAlloc e data ext).mem.get e).live = true := by
        simp [Box.envAlloc]
      have hlay := (hholds.layout.of_get_eq hget ⟨rfl, rfl, rfl⟩ ⟨rfl, rfl, rfl⟩).push hnew hlive
      have hfresh := h.ordered.not_mem_returned data
      refine ⟨⟨front, back, mbox ++ [e], holds_send hholds ?_ ?_ ?_ ?_ ?_⟩,
        h.ordered.accept data, fun hpc => (h.inCall hpc).accept hfresh rfl rfl rfl, h.expired⟩
      · rfl
      · rfl
      · exact { hlay with }
      · intro x hx
        simp only [Box.mboxPushLocked, Memory.get_linkLast, hget x hx]
      · rw [History.pending_accept hfresh]
        simp [Box.mboxPushLocked, Memory.message, Box.envAlloc]

end Sound

/-! ## Runs -/

/-- If a message is about to be handed over, its buffer is allocated. -/
def State.bufferOk (s : State) (alloc : Bool) : Bool :=
  match s.pc with
  | .deliver e => !decide (s.noBuffer e alloc)
  | _ => true

/-- Every buffer allocation succeeds. -/
def RecvOk (s : State) : Act → Prop
  | .advance _ alloc => s.bufferOk alloc = true
  | _ => True

instance (s : State) (a : Act) : Decidable (RecvOk s a) := by
  cases a <;> unfold RecvOk <;> infer_instance

/-- Where a buffer allocation fails, the message is the oldest pending one. -/
def OldestFails (s : State) : Act → Prop
  | .advance _ alloc => s.bufferOk alloc = true ∨
    s.hist.pending.head? = s.hand.map s.box.mem.message
  | _ => True

instance (s : State) (a : Act) : Decidable (OldestFails s a) :=
  match a with
  | .advance _ _ => inferInstanceAs (Decidable (_ ∨ _))
  | .send .. | .recv .. | .recvCorrelate .. | .exit => .isTrue trivial

variable {s : State} {a : Act}

/-- A step of the owner or of a sender. -/
theorem Sound.step {t : State} (h : Sound exact s)
    (hok : exact → OldestFails s a) (ht : s.step a = some t) : Sound exact t := by
  obtain ⟨front, back, mbox, hholds⟩ := h.holds
  cases a <;> simp only [step] at ht
  case send e data ext sys => exact h.send ht
  case recv matchFn timeout =>
    split at ht <;> cases ht
    next hpc =>
    have hlay := hholds.layout
    have hcont := hholds.contents
    simp only [hand, hpc] at hlay hcont
    refine ⟨⟨front, back, mbox, .of_free (.inr (.inl rfl)) hlay
      (by simpa [begin] using hcont)⟩, h.ordered, fun _ => ?_, h.expired⟩
    exact ⟨Nat.le_refl _, Nat.le_refl _, by simp [begin, taken], rfl⟩
  case recvCorrelate corr expected timeout now =>
    split at ht
    · next hpc =>
      have hlay := hholds.layout
      have hcont := hholds.contents
      simp only [hand, hpc] at hlay hcont
      split at ht <;> cases ht
      · refine ⟨⟨front, back, mbox, .of_free (.inl hpc) hlay (by simpa using hcont)⟩,
          h.ordered, fun hne => absurd hpc hne, h.expired⟩
      · next hargs =>
        refine ⟨⟨front, back, mbox, .of_free (.inr (.inr rfl)) hlay
          (by simpa [begin] using hcont)⟩, h.ordered, fun _ => ?_, h.expired⟩
        refine ⟨Nat.le_refl _, Nat.le_refl _, by simp [begin, taken], ?_, ?_⟩
        · simp [begin]
        · simp only
          omega
    · cases ht
  case advance now alloc =>
    refine h.advance (fun hexact e hpc hfails => ?_) ht
    simpa [OldestFails, bufferOk, hpc, hfails, hand] using hok hexact
  case exit =>
    split at ht <;> cases ht
    next hpc =>
    have hhand : s.hand = none := by
      rcases hpc with hpc | hpc | hpc <;> simp [hand, hpc]
    have hlay := hholds.layout
    have hcont := hholds.contents
    rw [hhand] at hlay hcont
    exact ⟨⟨front, back, mbox, .of_free (.inl rfl) { hlay with } (by simpa using hcont)⟩, h.ordered,
      fun hne => absurd rfl hne, h.expired⟩

theorem Sound.spawned (exact : Prop) (cap wmLvl : ℕ) : Sound exact (.spawned cap wmLvl) := by
  refine ⟨⟨[], [], [], .of_free (.inl rfl) ?_ ⟨.nil, fun _ => rfl⟩⟩, ?_,
    fun hne => absurd rfl hne, ?_⟩
  · exact ⟨.nil, .nil, rfl, rfl, nodup_nil, by simp⟩
  · constructor <;> simp [State.spawned, History.returned]
  · simp [State.spawned]

theorem sound_of_reachable (hs : system.ReachableUnder OldestFails s) :
    Sound True s := by
  refine hs.invariant ?_ fun _ _ _ h hok ht => h.step (fun _ => hok) ht
  rintro _ ⟨cap, wmLvl, rfl⟩
  exact .spawned True cap wmLvl

theorem RecvOk.oldestFails (h : RecvOk s a) : OldestFails s a := by
  cases a with
  | advance now alloc => exact .inl h
  | _ => trivial

/-- Selective receive, for every sequence of deliveries and receives: each successful receive has
returned the oldest message then pending that satisfies its predicate; no message is returned
twice; a call that timed out has removed nothing, or, for `xtc_recv_correlate`, what it handed out;
and save queue followed by mailbox hold, in the order of acceptance, exactly the pending messages
but the one that the owner may have taken out to test it or to hand it over. -/
theorem selective_receive {s : State} (hs : system.ReachableUnder RecvOk s) :
    (∀ r ∈ s.hist.receipts, r.pending.find? (fun m => r.matchFn m.data) = some r.message) ∧
    (s.hist.accepted.Nodup ∧ s.hist.returned.Nodup ∧ s.hist.returned ⊆ s.hist.accepted) ∧
    (∀ x ∈ s.expired, x.Fair) ∧
    ∃ save mbox : List ℕ, Queue s.box.mem.next s.box.saveHead s.box.saveTail save ∧
      Queue s.box.mem.next s.box.mboxHead s.box.mboxTail mbox ∧
      s.box.mboxSaved = save.length ∧ s.box.mboxN = mbox.length ∧
      (save ++ mbox).map s.box.mem.message =
        s.hist.pending.filter fun m => s.hand.map s.box.mem.message ≠ some m := by
  have h := sound_of_reachable (hs.mono fun _ _ => RecvOk.oldestFails)
  obtain ⟨front, back, mbox, hholds⟩ := h.holds
  have hlayout := hholds.layout
  have ho := h.ordered
  refine ⟨ho.oldest trivial, ⟨ho.accepted, ho.returned, ho.returned_subset⟩, h.expired,
    front ++ back, mbox, hlayout.saveQueue, hlayout.mboxQueue, hlayout.saved, hlayout.queued, ?_⟩
  have hnodup := h.ordered.nodup_pending
  rw [← hholds.contents.eq trivial] at hnodup ⊢
  cases hhand : s.hand with
  | none => simp
  | some e =>
    rw [hhand] at hnodup
    simp only [Option.toList, append_assoc, map_append, map_cons,
      cons_append, nil_append] at hnodup ⊢
    rw [← filter_ne_append hnodup]
    refine filter_congr fun m _ => ?_
    simp [eq_comm]

/-- Two messages arrive; a receive skips the first and takes the second; a poll for a third kind
finds nothing; and `xtc_recv_correlate` gets one of the two messages it asks for before its
deadline. -/
def skipPollCorrelate : List Act :=
  let advance := Act.advance 0 true
  [.send 0 [1] false false, .send 1 [2] false false, .recv (· == [2]) 0] ++
  replicate 7 advance ++ [.recv (· == [3]) 0] ++ replicate 5 advance ++
  [.recvCorrelate [1] 2 10 0] ++ replicate 4 advance ++ [.advance 20 true]

theorem selective_receive_skipPollCorrelate :
    ∃ s ∈ system.runUnder RecvOk (.spawned 0 0) skipPollCorrelate,
      s.hist.returned = [⟨0, [1]⟩, ⟨1, [2]⟩] ∧ s.rc = .again ∧
      s.expired = [⟨true, [⟨0, [1]⟩], [], [⟨0, [1]⟩], 1, []⟩,
        ⟨false, [⟨0, [1]⟩], [], [], 0, [⟨0, [1]⟩]⟩] ∧
      (∀ r ∈ s.hist.receipts, r.pending.find? (fun m => r.matchFn m.data) = some r.message) ∧
      ∀ x ∈ s.expired, x.Fair := by
  refine System.exists_run ⟨0, 0, rfl⟩ (by decide) fun s eval hs _ => ?_
  obtain ⟨holdest, -, hfair, -⟩ := selective_receive hs
  refine ⟨?_, ?_, holdest, hfair⟩ <;> (apply eval; decide)

/-- While the predicate looks at a popped message, that message is pending and in neither queue;
and `xtc_recv_correlate` can time out after it has taken a message. -/
theorem popped_in_neither_queue :
    (∃ s ∈ system.run (.spawned 0 0) ([.send 0 [1] false false, .recv (· == [2]) 0] ++
        replicate 3 (.advance 0 true)),
      s.hist.pending = [⟨0, [1]⟩] ∧ s.box.saveHead = none ∧ s.box.mboxHead = none ∧
      s.box.mboxSaved = 0 ∧ s.box.mboxN = 0) ∧
    ∃ s ∈ system.run (.spawned 0 0) ([.send 0 [1] false false, .recvCorrelate [1] 2 10 0] ++
        replicate 6 (.advance 0 true) ++ [.advance 20 true]),
      s.rc = .again ∧ s.expired = [⟨true, [⟨0, [1]⟩], [], [⟨0, [1]⟩], 1, []⟩] := by
  decide

/-! ## A receive without a buffer -/

/-- The save queue and the mailbox hold the messages `l`. -/
def State.Queued (s : State) (l : List Message) : Prop :=
  ∃ save mbox : List ℕ, Queue s.box.mem.next s.box.saveHead s.box.saveTail save ∧
    Queue s.box.mem.next s.box.mboxHead s.box.mboxTail mbox ∧
    (save ++ mbox).map s.box.mem.message = l

theorem Sound.queued (h : Sound True s) (hhand : s.hand = none) : s.Queued s.hist.pending := by
  obtain ⟨front, back, mbox, hholds⟩ := h.holds
  have hcont := hholds.contents.eq trivial
  rw [hhand] at hcont
  exact ⟨front ++ back, mbox, hholds.layout.saveQueue, hholds.layout.mboxQueue, by
    simpa using hcont⟩

/-- A receive that finds no buffer for the oldest message leaves in the queues what was pending when
it began and what has arrived since. Outside a receive the queues hold the pending messages in the
order of acceptance, and every receive has returned the oldest match. -/
theorem failed_receive_keeps_order {s : State} (hs : system.ReachableUnder OldestFails s) :
    (∀ e now t, s.pc = .deliver e → s.correlate = none → s.noBuffer e false →
      s.hist.pending.head? = some (s.box.mem.message e) → s.advance now false = some t →
      t.rc = .nomem ∧ t.Queued (s.since.before ++ s.hist.accepted.drop s.since.accepted)) ∧
    (s.hand = none → s.Queued s.hist.pending) ∧
    ∀ r ∈ s.hist.receipts, r.pending.find? (fun m => r.matchFn m.data) = some r.message := by
  have h := sound_of_reachable hs
  refine ⟨fun e now t hpc hcorr hfails hold hstep => ?_, h.queued, h.ordered.oldest trivial⟩
  have ht : Sound True t := by
    refine h.advance (fun _ e' hpc' _ => ?_) hstep
    cases hpc.symm.trans hpc'
    exact hold
  have hcall := h.inCall (by simp [hpc])
  have hpending := hcall.pending
  have htaken : s.taken = [] := by
    have hcollected := hcall.collected
    rw [hcorr] at hcollected
    simp [taken, hcollected]
  simp only [advance, hpc, if_pos hfails, hcorr] at hstep
  cases hstep
  have hqueued := ht.queued rfl
  simp only [htaken, not_mem_nil, not_false_eq_true, decide_true, filter_true] at hpending
  rw [← hpending]
  exact ⟨rfl, hqueued⟩

/-- A message is tested and saved, a receive finds it, and another one arrives. -/
def saveAndFind : List Act :=
  [.send 0 [1] false false, .recv (· == [2]) 0] ++ replicate 6 (.advance 0 true) ++
  [.recv (fun _ => true) 0, .advance 0 true, .advance 0 true, .send 1 [2] false false]

theorem failed_receive_keeps_order_saveAndFind :
    ∃ s ∈ system.runUnder OldestFails (.spawned 0 0) saveAndFind,
      ∃ t, s.advance 0 false = some t ∧ t.rc = .nomem ∧ t.Queued [⟨0, [1]⟩, ⟨1, [2]⟩] := by
  obtain ⟨s, hrun, hpc, hcorr, hfails, hold, hqueue, hstep⟩ :
      ∃ s ∈ system.runUnder OldestFails (.spawned 0 0) saveAndFind,
        s.pc = .deliver 0 ∧ s.correlate.isNone ∧ s.noBuffer 0 false ∧
        s.hist.pending.head? = some (s.box.mem.message 0) ∧
        s.since.before ++ s.hist.accepted.drop s.since.accepted = [⟨0, [1]⟩, ⟨1, [2]⟩] ∧
        (s.advance 0 false).isSome := by
    decide
  obtain ⟨t, hstep⟩ := Option.isSome_iff_exists.mp hstep
  have hkeeps := (failed_receive_keeps_order (.runUnder (.start ⟨0, 0, rfl⟩) hrun)).1 0 0 t hpc
    (Option.isNone_iff_eq_none.mp hcorr) hfails hold hstep
  exact ⟨s, hrun, t, hstep, hkeeps.1, hqueue ▸ hkeeps.2⟩

/-- The second of two messages matches and finds no buffer; the next receive returns it first. -/
theorem failed_receive_reorders :
    ∃ s ∈ system.run (.spawned 0 0) ([.send 0 [1] false false, .send 1 [2] false false,
        .recv (· == [2]) 0] ++ replicate 6 (.advance 0 true) ++ [.advance 0 false]),
      s.rc = .nomem ∧ s.since.before = [⟨0, [1]⟩, ⟨1, [2]⟩] ∧ s.box.saveHead = some 1 ∧
      s.box.mem.next 1 = some 0 ∧ ∃ t ∈ system.run s ([.recv (fun _ => true) 0] ++
        replicate 3 (.advance 0 true)), t.rc = .ok ∧ t.hist.returned = [⟨1, [2]⟩] := by
  decide

end LibXtc.Mailbox

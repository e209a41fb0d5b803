import LibXtc.Chan.MpscOrder

/-!
# What the consumer has received when it learns that the channel is closed

A send tests `closed` before it reserves a position, and the consumer tests it after it has found
the channel empty. If no send is in between at the consumer's test, and nothing was reserved since
it found the channel empty, then it has received every message that a send ever returns `XTC_OK`
for. Otherwise it can be told that the channel is closed before such a message.
-/

namespace LibXtc.Mpsc

open Foundations

variable {τ : Type*} {k i : ℕ} {s s' : State τ} {p : Producer τ}

/-- Once the consumer was told that the channel is closed, nothing more is reserved, and what it
had received is everything. -/
def Complete (s : State τ) : Prop :=
  ∀ l, s.drained = some l → l = s.reserved.map Prod.snd ∧ s.closed = true ∧
    ∀ p ∈ s.producers, p.unreserved = false

theorem Complete.producerStep {ok : Bool} (h : Complete s) (hp : s.producers[i]? = some p)
    (hs' : s.producerStep k i ok p = some s') : Complete s' := by
  have hunreserved : s.drained ≠ none → p.unreserved = false := by
    intro hne
    obtain ⟨l, hl⟩ := Option.ne_none_iff_exists'.mp hne
    exact (h l hl).2.2 p (List.mem_of_getElem? hp)
  cases p with
  | idle => cases hs'
  | publish msg head | loadWaker msg =>
    cases hs'
    intro l hl
    obtain ⟨hall, hcl, hprods⟩ := h l hl
    exact ⟨hall, hcl, forall_mem_set hprods rfl⟩
  | charge msg | loadHead msg =>
    cases hs'
    intro l hl
    have hl : s.drained = some l := hl
    cases hunreserved (by rw [hl]; nofun)
  | loadTail msg head | cas msg head =>
    simp only [State.producerStep] at hs'
    split at hs' <;> cases hs'
    all_goals
      intro l hl
      have hl : s.drained = some l := hl
      cases hunreserved (by rw [hl]; nofun)

theorem Complete.consumerStep (h : Complete s) (hok : Ok k s) (hquiet : quiet s .consumer)
    (hs' : s.consumerStep k = some s') : Complete s' := by
  unfold State.consumerStep at hs'
  split at hs'
  case h_1 => cases hs'
  case h_3 tail hcons =>
    cases hs'
    intro l hl
    cases hcl : s.closed with
    | false =>
      simp only [hcl, Bool.false_eq_true] at hl
      exact absurd (h l hl).2.1 (by rw [hcl]; nofun)
    | true =>
      simp only [hcl] at hl
      cases hdrained : s.drained with
      | some l' =>
        rw [hdrained] at hl
        cases hl
        obtain ⟨hall, -, hprods⟩ := h l hdrained
        exact ⟨hall, rfl, hprods⟩
      | none =>
        rw [hdrained] at hl
        cases hl
        obtain ⟨hempty, hprods⟩ := hquiet tail (by rw [hcons]; rfl) hcl
        have htail := hok.consumer
        rw [hcons] at htail
        have htail : tail = s.tail := htail
        refine ⟨?_, rfl, hprods⟩
        rw [hok.received, List.take_of_length_le]
        rw [← hok.head_eq]
        omega
  case h_4 =>
    split at hs' <;> cases hs' <;> exact h
  all_goals
    cases hs'
    exact h

theorem Complete.act {a : Act τ} (h : Complete s) (hok : Ok k s) (hquiet : quiet s a)
    (hs' : s.act k a = some s') : Complete s' := by
  cases a with
  | trySend i msg =>
    simp only [State.act] at hs'
    split at hs' <;> cases hs'
    unfold State.trySend
    split
    · rename_i msg hopen
      intro l hl
      have hcl := (h l hl).2.1
      rw [hopen] at hcl
      cases hcl
    · exact h
  | producer i ok =>
    obtain ⟨p, hp, ht⟩ := Option.bind_eq_some_iff.mp hs'
    exact h.producerStep hp ht
  | tryRecv =>
    simp only [State.act] at hs'
    split at hs' <;> cases hs'
    exact h
  | consumer => exact h.consumerStep hok hquiet hs'
  | close =>
    cases hs'
    intro l hl
    obtain ⟨hall, -, hprods⟩ := h l hl
    exact ⟨hall, rfl, hprods⟩
  | setWaker =>
    cases hs'
    exact h

/-- In every run with fewer than `2 ^ 64` messages in which the consumer tests `closed` only while
no send is between its own test and its reservation, and nothing was reserved since it found the
channel empty: what the consumer has received when it is first told that the channel is closed
has a place for every send that returned or ever returns `XTC_OK`. -/
theorem received_before_closed {k : ℕ} {s : State τ}
    (hs : (system τ k).ReachableUnder (fun s a => fits s a ∧ quiet s a) s) {l : List τ}
    (hl : s.drained = some l) :
    ∃ order : List (ℕ × τ), l = order.map Prod.snd ∧ ∀ i, mine i s.sent <+: mine i order := by
  have hok : Ok k s := Ok.of_reachable (fun _ _ hcond => hcond.1) hs
  have hcomplete : Complete s := by
    clear hl hok
    induction hs with
    | start h =>
      obtain ⟨n, rfl⟩ := h
      nofun
    | next hs hcond hstep ih =>
      exact ih.act (Ok.of_reachable (fun _ _ hcond => hcond.1) hs) hcond.2 hstep
  refine ⟨s.reserved, (hcomplete l hl).1, fun i => ?_⟩
  rw [hok.order i]
  exact List.prefix_append _ _

/-- A message is sent and the channel is closed while the consumer looks at its slot. The consumer
receives the message and is told that the channel is closed; a later send fails. -/
def closedAfterSend : List (Act ℕ) :=
  .trySend 0 (some 10) :: List.replicate 6 (.producer 0 true) ++
  [.tryRecv, .close, .consumer, .consumer, .consumer, .consumer, .tryRecv, .consumer, .consumer,
    .trySend 0 (some 11)]

theorem received_before_closed_closedAfterSend :
    ∃ s ∈ (system ℕ 1).runUnder (fun s a => fits s a ∧ quiet s a) (create 1) closedAfterSend,
      s.sent = [(0, 10)] ∧ s.drained = some [10] ∧
      ∃ order : List (ℕ × ℕ), [10] = order.map Prod.snd ∧ mine 0 s.sent <+: mine 0 order := by
  refine System.exists_run ⟨1, rfl⟩ (by decide) fun s eval hs _ => ?_
  have hdrained : s.drained = some [10] := by apply eval; decide
  obtain ⟨order, horder, hmine⟩ := received_before_closed hs hdrained
  exact ⟨hdrained, order, horder, hmine 0⟩

/-- A send finds the channel open. It is closed, the consumer is told so, and the send then returns
`XTC_OK`. -/
theorem closed_before_sent : ∃ s ∈ (system ℕ 1).run (create 1)
    ([.trySend 0 (some 10), .close, .tryRecv, .consumer, .consumer] ++
      List.replicate 6 (.producer 0 true)),
    s.sent = [(0, 10)] ∧ s.drained = some [] := by
  decide

end LibXtc.Mpsc

import LibXtc.Foundations.Lists
import LibXtc.Foundations.Runs

/-!
# The one-shot channel

`xtc_chan_oneshot_send`, `xtc_chan_oneshot_try_recv` and `xtc_chan_oneshot_set_waker` of `chan.c`
under sequentially consistent interleaving, one step per atomic access. The state word admits the
single sender and tells receivers that there is a value, but the sender changes it before it
stores the value: a receiver that runs in between returns `XTC_OK` with the initial `NULL`.
-/

namespace LibXtc.Oneshot

open Foundations List

variable {τ : Type*}

/-- The word `state`. -/
inductive Word
  | empty
  | written
  | closed
  deriving DecidableEq

/-- Where a thread is. A message is a pointer and may be `NULL`. -/
inductive Thread (τ : Type*)
  | idle
  /-- `send` has won the compare-and-swap. -/
  | storeValue (msg : Option τ)
  /-- `send` has stored the value. -/
  | loadWaker (msg : Option τ)
  /-- `try_recv` has seen the state `1`. -/
  | loadValue
  /-- `set_waker` has stored the waker. -/
  | loadState
  deriving DecidableEq

/-- The shared words, the threads, and histories that no call reads: the messages of the sends
that won the compare-and-swap, those of the sends that returned `XTC_OK`, and what the receives
returned with `XTC_OK`. -/
structure State (τ : Type*) where
  state : Word
  value : Option τ
  hasWaker : Bool
  /-- Calls of `xtc_waker_wake`. -/
  wakes : ℕ
  threads : List (Thread τ)
  accepted : List (Option τ)
  sent : List (Option τ)
  received : List (Option τ)

inductive Act (τ : Type*)
  | send (msg : Option τ)
  | tryRecv
  | setWaker
  /-- The next access of the call that is running. -/
  | step

/-- A thread leaves its call or goes on in it. -/
def State.put (s : State τ) (i : ℕ) (p : Thread τ) : State τ :=
  { s with threads := s.threads.set i p }

def State.act (s : State τ) (i : ℕ) : Thread τ → Act τ → Option (State τ)
  | .idle, .send msg =>
    -- A channel that was written already is `XTC_E_INVAL`.
    if s.state = .empty then
      some { s.put i (.storeValue msg) with
        state := .written
        accepted := s.accepted ++ [msg] }
    else some s
  | .idle, .tryRecv =>
    -- Any other state is `XTC_E_AGAIN`.
    if s.state = .written then some (s.put i .loadValue) else some s
  | .idle, .setWaker => some { s.put i .loadState with hasWaker := true }
  | .storeValue msg, .step => some { s.put i (.loadWaker msg) with value := msg }
  | .loadWaker msg, .step =>
    some { s.put i .idle with
      wakes := if s.hasWaker then s.wakes + 1 else s.wakes
      sent := s.sent ++ [msg] }
  | .loadValue, .step => some { s.put i .idle with received := s.received ++ [s.value] }
  | .loadState, .step =>
    some { s.put i .idle with wakes := if s.state = .written then s.wakes + 1 else s.wakes }
  | _, _ => none

/-- `xtc_chan_oneshot_create`, with `n` threads. -/
def create (n : ℕ) : State τ where
  state := .empty
  value := none
  hasWaker := false
  wakes := 0
  threads := replicate n .idle
  accepted := []
  sent := []
  received := []

def system (τ : Type*) : System (State τ) (ℕ × Act τ) where
  init s := ∃ n, s = create n
  step s a := s.threads[a.1]?.bind fun p => s.act a.1 p a.2

/-- A send of a message other than `NULL` is between its compare-and-swap and its store. -/
def Thread.unsettled : Thread τ → Bool
  | .storeValue (some _) => true
  | _ => false

/-- The step does not load the value while a send is unsettled. -/
def settled (s : State τ) (a : ℕ × Act τ) : Prop :=
  match s.threads[a.1]? with
  | some .loadValue => ∀ p ∈ s.threads, p.unsettled = false
  | _ => True

instance (s : State τ) (a : ℕ × Act τ) : Decidable (settled s a) :=
  match h : s.threads[a.1]? with
  | some .loadValue => decidable_of_iff (∀ p ∈ s.threads, p.unsettled = false) (by rw [settled, h])
  | none | some .idle | some (.storeValue _) | some (.loadWaker _) | some .loadState =>
    .isTrue (by rw [settled, h]; trivial)

/-! ## The invariant -/

variable {s s' : State τ} {i wakes : ℕ} {p q : Thread τ} {msg m : Option τ} {hasWaker : Bool}
  {a : Act τ}

/-- The message of a send that has won and has not returned. -/
def Thread.sending : Thread τ → Option (Option τ)
  | .storeValue msg | .loadWaker msg => some msg
  | _ => none

def Thread.storing : Thread τ → Bool
  | .storeValue _ => true
  | _ => false

/-- Before the first send. -/
structure Unsent (s : State τ) : Prop where
  state : s.state = .empty
  value : s.value = none
  threads : ∀ p ∈ s.threads, p.sending = none ∧ p ≠ .loadValue
  accepted : s.accepted = []
  sent : s.sent = []
  received : s.received = []

/-- After the compare-and-swap of the send of `msg`. -/
structure Sent (s : State τ) (msg : Option τ) : Prop where
  state : s.state = .written
  accepted : s.accepted = [msg]
  single : s.threads.countP (·.sending.isSome) + s.sent.length = 1
  sending : ∀ p ∈ s.threads, ∀ m, p.sending = some m → m = msg
  sent : ∀ m ∈ s.sent, m = msg
  value : (∀ p ∈ s.threads, p.storing = false) → s.value = msg
  initial : (∃ p ∈ s.threads, p.storing = true) → s.value = none

/-- A thread outside `send` moves to another place outside `send`. -/
theorem Sent.put {received : List (Option τ)} (h : Sent s msg)
    (hp : s.threads[i]? = some p) (hold : p.sending = none) (hnew : q.sending = none) :
    Sent { s.put i q with received := received, hasWaker := hasWaker, wakes := wakes } msg := by
  have hstoring {r : Thread τ} (hr : r.sending = none) : r.storing = false := by
    cases r <;> first | rfl | cases hr
  have hback : (∃ r ∈ s.threads.set i q, r.storing = true) → ∃ r ∈ s.threads, r.storing = true := by
    rintro ⟨r, hr, hrs⟩
    rcases mem_or_eq_of_mem_set hr with hmem | rfl
    · exact ⟨r, hmem, hrs⟩
    · rw [hstoring hnew] at hrs
      cases hrs
  refine ⟨h.state, h.accepted, ?_, forall_mem_set h.sending (hnew ▸ nofun), h.sent, fun hall => ?_,
    fun hex => h.initial (hback hex)⟩
  · have hcnt := countP_set_add (p := fun r : Thread τ => r.sending.isSome) (b := q) hp
    have hsingle := h.single
    simp only [hold, hnew, Option.isSome_none] at hcnt
    dsimp only [State.put]
    omega
  · refine h.value fun r hr => ?_
    rcases mem_set_of_mem hp hr with rfl | hmem
    · exact hstoring hold
    · exact hall r hmem

/-- The sender is the only thread that stores. -/
theorem Sent.of_storing (h : Sent s msg) (hp : s.threads[i]? = some (.storeValue m)) :
    ∀ r ∈ s.threads.set i (.loadWaker m), r.storing = false := by
  intro r hr
  obtain ⟨j, hj⟩ := mem_iff_getElem?.mp hr
  rcases getElem?_set_cases hj with ⟨rfl, rfl⟩ | ⟨hij, hj⟩
  · rfl
  · have hle : s.threads.countP (·.sending.isSome) ≤ 1 := by
      have hsingle := h.single
      omega
    have hnot : r.sending.isSome = false :=
      eq_false_of_countP_le (p := fun r : Thread τ => r.sending.isSome) hle hp hj hij
    cases r <;> first | rfl | cases hnot

theorem Sent.store (h : Sent s msg) (hp : s.threads[i]? = some (.storeValue m)) :
    Sent { s.put i (.loadWaker m) with value := m } msg := by
  have hm : m = msg := h.sending _ (mem_of_getElem? hp) m rfl
  have hnone := h.of_storing hp
  refine ⟨h.state, h.accepted, ?_, forall_mem_set h.sending ?_, h.sent, fun _ => hm, ?_⟩
  · have hcnt : (s.threads.set i (.loadWaker m)).countP (·.sending.isSome) + 1 =
        s.threads.countP (·.sending.isSome) + 1 := countP_set_add hp
    have hsingle := h.single
    dsimp only [State.put]
    omega
  · intro m' hm'
    cases hm'
    exact hm
  · rintro ⟨r, hr, hrs⟩
    rw [hnone r hr] at hrs
    cases hrs

/-- The send returns `XTC_OK`. -/
theorem Sent.finish (h : Sent s msg) (hp : s.threads[i]? = some (.loadWaker m)) :
    Sent { s.put i .idle with wakes := wakes, sent := s.sent ++ [m] } msg := by
  have hm : m = msg := h.sending _ (mem_of_getElem? hp) m rfl
  refine ⟨h.state, h.accepted, ?_, forall_mem_set h.sending nofun, ?_, fun hall => ?_, ?_⟩
  · have hcnt : (s.threads.set i .idle).countP (·.sending.isSome) + 1 =
        s.threads.countP (·.sending.isSome) + 0 := countP_set_add hp
    have hsingle := h.single
    dsimp only [State.put]
    rw [length_append, length_singleton]
    omega
  · intro m' hm'
    rcases mem_append.mp hm' with hmem | hlast
    · exact h.sent m' hmem
    · exact (mem_singleton.mp hlast).trans hm
  · refine h.value fun r hr => ?_
    rcases mem_set_of_mem hp hr with rfl | hmem
    · rfl
    · exact hall r hmem
  · rintro ⟨r, hr, hrs⟩
    refine h.initial ⟨r, ?_, hrs⟩
    rcases mem_or_eq_of_mem_set hr with hmem | rfl
    · exact hmem
    · cases hrs

/-- Before the first send, a thread moves to a place that is neither in `send` nor behind a
written state. -/
theorem Unsent.put (h : Unsent s) (hq : q.sending = none ∧ q ≠ .loadValue) :
    Unsent { s.put i q with hasWaker := hasWaker, wakes := wakes } :=
  { h with threads := forall_mem_set h.threads hq }

/-- The compare-and-swap of the first send. -/
theorem Unsent.send (h : Unsent s) (hp : s.threads[i]? = some .idle) :
    Sent { s.put i (.storeValue msg) with
      state := .written
      accepted := s.accepted ++ [msg] } msg := by
  refine ⟨rfl, ?_, ?_, ?_, ?_, fun hall => ?_, fun _ => h.value⟩
  · rw [h.accepted]
    rfl
  · have hnone : s.threads.countP (·.sending.isSome) = 0 := by
      refine countP_eq_zero.mpr fun r hr => ?_
      rw [(h.threads r hr).1]
      nofun
    have hcnt : (s.threads.set i (.storeValue msg)).countP (·.sending.isSome) + 0 =
        s.threads.countP (·.sending.isSome) + 1 := countP_set_add hp
    dsimp only [State.put]
    rw [h.sent, length_nil]
    omega
  · refine forall_mem_set (fun r hr m hm => ?_) fun m hm => (Option.some.inj hm).symm
    rw [(h.threads r hr).1] at hm
    cases hm
  · rw [State.put, h.sent]
    nofun
  · have hstoring := hall _ (mem_set_new hp)
    cases hstoring

/-- A step after the first send keeps its message. A receive adds what it has loaded. -/
theorem Sent.act (h : Sent s msg) (hp : s.threads[i]? = some p)
    (hs' : s.act i p a = some s') : Sent s' msg ∧
      (s'.received = s.received ∨ p = .loadValue ∧ s'.received = s.received ++ [s.value]) := by
  unfold State.act at hs'
  split at hs'
  case h_1 msg' =>
    rw [if_neg (by rw [h.state]; nofun)] at hs'
    cases hs'
    exact ⟨h, .inl rfl⟩
  case h_2 =>
    rw [if_pos h.state] at hs'
    cases hs'
    exact ⟨h.put hp rfl rfl, .inl rfl⟩
  case h_3 | h_7 =>
    cases hs'
    exact ⟨h.put hp rfl rfl, .inl rfl⟩
  case h_4 m =>
    cases hs'
    exact ⟨h.store hp, .inl rfl⟩
  case h_5 m =>
    cases hs'
    exact ⟨h.finish hp, .inl rfl⟩
  case h_6 =>
    cases hs'
    exact ⟨h.put hp rfl rfl, .inr ⟨rfl, rfl⟩⟩
  case h_8 => cases hs'

theorem Unsent.act (h : Unsent s) (hp : s.threads[i]? = some p) (hs' : s.act i p a = some s') :
    Unsent s' ∨ ∃ msg, Sent s' msg ∧ s'.received = [] := by
  obtain ⟨hsending, hload⟩ := h.threads p (mem_of_getElem? hp)
  unfold State.act at hs'
  split at hs'
  case h_1 msg =>
    rw [if_pos h.state] at hs'
    cases hs'
    exact .inr ⟨msg, h.send hp, h.received⟩
  case h_2 =>
    rw [if_neg (by rw [h.state]; nofun)] at hs'
    cases hs'
    exact .inl h
  case h_3 | h_7 =>
    cases hs'
    exact .inl (h.put ⟨rfl, nofun⟩)
  case h_4 | h_5 => cases hsending
  case h_6 => exact absurd rfl hload
  case h_8 => cases hs'

theorem Sent.value_of_settled (h : Sent s msg) (hall : ∀ p ∈ s.threads, p.unsettled = false) :
    s.value = msg := by
  by_cases hstoring : ∃ p ∈ s.threads, p.storing = true
  · obtain ⟨p, hp, hps⟩ := hstoring
    cases p with
    | storeValue m =>
      cases m with
      | none => exact (h.initial ⟨_, hp, rfl⟩).trans (h.sending _ hp none rfl)
      | some v => cases hall _ hp
    | _ => cases hps
  · refine h.value fun p hp => ?_
    cases hps : p.storing with
    | false => rfl
    | true => exact absurd ⟨p, hp, hps⟩ hstoring

theorem unsent_create (n : ℕ) : Unsent (create n : State τ) := by
  refine ⟨rfl, rfl, fun p hp => ?_, rfl, rfl, rfl⟩
  rw [eq_of_mem_replicate hp]
  exact ⟨rfl, nofun⟩

theorem sent_of_reachable (hs : (system τ).Reachable s) : Unsent s ∨ ∃ msg, Sent s msg := by
  refine hs.invariant (I := fun s => Unsent s ∨ ∃ msg, Sent s msg) ?_ ?_
  · rintro s ⟨n, rfl⟩
    exact .inl (unsent_create n)
  · rintro s ⟨i, a⟩ s' h - ht
    obtain ⟨p, hp, hact⟩ := Option.bind_eq_some_iff.mp ht
    rcases h with h | ⟨msg, h⟩
    · exact (h.act hp hact).imp_right fun ⟨msg, hmsg, _⟩ => ⟨msg, hmsg⟩
    · exact .inr ⟨msg, (h.act hp hact).1⟩

theorem received_of_reachable (hs : (system τ).ReachableUnder settled s) :
    Unsent s ∨ ∃ msg, Sent s msg ∧ ∀ x ∈ s.received, x = msg := by
  refine hs.invariant (I := fun s => Unsent s ∨ ∃ msg, Sent s msg ∧ ∀ x ∈ s.received, x = msg) ?_ ?_
  · rintro s ⟨n, rfl⟩
    exact .inl (unsent_create n)
  · rintro s ⟨i, a⟩ s' h hsett ht
    obtain ⟨p, hp, hact⟩ := Option.bind_eq_some_iff.mp ht
    rcases h with h | ⟨msg, h, hrecv⟩
    · refine (h.act hp hact).imp_right fun ⟨msg, hmsg, hnil⟩ => ⟨msg, hmsg, ?_⟩
      rw [hnil]
      nofun
    · obtain ⟨h', hsame | ⟨rfl, hadded⟩⟩ := h.act hp hact
      · exact .inr ⟨msg, h', hsame ▸ hrecv⟩
      · rw [settled, hp] at hsett
        refine .inr ⟨msg, h', fun x hx => ?_⟩
        rw [hadded] at hx
        rcases mem_append.mp hx with hmem | hlast
        · exact hrecv x hmem
        · exact (mem_singleton.mp hlast).trans (h.value_of_settled hsett)

/-- At most one send returns `XTC_OK`, in every run. In every run in which no receive loads the
value between the compare-and-swap and the store of a send, every receive that returns `XTC_OK`
returns the message of the one send that was admitted. -/
theorem one_send_and_its_message :
    (∀ s, (system τ).Reachable s → s.accepted.length ≤ 1 ∧ s.sent.length ≤ 1 ∧
      ∀ m ∈ s.sent, s.accepted = [m]) ∧
    ∀ s, (system τ).ReachableUnder settled s → ∀ x ∈ s.received, s.accepted = [x] := by
  refine ⟨fun s hs => ?_, fun s hs x hx => ?_⟩
  · rcases sent_of_reachable hs with h | ⟨msg, h⟩
    · rw [h.accepted, h.sent]
      exact ⟨Nat.zero_le _, Nat.zero_le _, nofun⟩
    · have hsingle := h.single
      refine ⟨by rw [h.accepted]; exact Nat.le_refl 1, by omega, fun m hm => ?_⟩
      rw [h.accepted, h.sent m hm]
  · rcases received_of_reachable hs with h | ⟨msg, h, hreceived⟩
    · rw [h.received] at hx
      cases hx
    · rw [h.accepted, hreceived x hx]

/-- The receiver sees the state before the value is stored, and loads the value after. -/
def overlapping : List (ℕ × Act ℕ) :=
  [(0, .send (some 5)), (1, .tryRecv), (2, .send (some 6)), (0, .step), (1, .step), (0, .step)]

theorem one_send_and_its_message_overlapping :
    ∃ s ∈ (system ℕ).runUnder settled (create 3) overlapping, s.sent = [some 5] ∧
      s.received = [some 5] ∧ s.accepted = [some 5] := by
  refine System.exists_run ⟨3, rfl⟩ (by decide) fun s eval hs _ => ?_
  have hreceived : s.received = [some 5] := by apply eval; decide
  refine ⟨hreceived, one_send_and_its_message.2 s hs (some 5) ?_⟩
  rw [hreceived]
  exact mem_singleton.mpr rfl

/-- A receiver that runs between the compare-and-swap and the store returns `XTC_OK` with `NULL`. -/
theorem received_unset : ∃ s ∈ (system ℕ).run (create 2)
    [(0, .send (some 5)), (1, .tryRecv), (1, .step), (0, .step), (0, .step)],
    s.sent = [some 5] ∧ s.received = [none] := by
  decide

end LibXtc.Oneshot

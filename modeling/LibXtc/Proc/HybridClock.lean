import LibXtc.Foundations.Lists
import LibXtc.Foundations.Runs

/-!
# The hybrid logical clock

`__g_hlc` has physical microseconds in its high 48 bits and a logical count in the low 16. A call
reads the physical clock once. It then loads the word, computes the next one and tries to exchange
it, until an exchange succeeds. Whatever the other threads do in between, a successful exchange
stores more than the word it replaces.
-/

namespace LibXtc.Hlc

open Foundations List

/-- A word from its two parts, as `uint64_t`. -/
def word (phys log : ℕ) : ℕ := (phys <<< 16) % 2 ^ 64 ||| log

/-- The word that `__hlc_tick` computes from the one it has loaded. -/
def tick (pt prev : ℕ) : ℕ :=
  let pphys := prev >>> 16
  let plog := prev &&& 0xFFFF
  if pphys < pt then word pt 0
  else if 0xFFFF < plog + 1 then word (pphys + 1) 0
  else word pphys (plog + 1)

/-- The word that `__hlc_update` computes after the stamp `m` was received. -/
def update (m pt prev : ℕ) : ℕ :=
  let pphys := prev >>> 16
  let plog := prev &&& 0xFFFF
  let mphys := m >>> 16
  let mlog := m &&& 0xFFFF
  let nphys := if pphys < mphys then mphys else pphys
  let nphys := if nphys < pt then pt else nphys
  let nlog :=
    if nphys = pphys ∧ nphys = mphys then (if mlog < plog then plog else mlog) + 1
    else if nphys = pphys then plog + 1
    else if nphys = mphys then mlog + 1
    else 0
  if 0xFFFF < nlog then word (nphys + 1) 0 else word nphys nlog

/-- A call: the stamp it has received, if it is an update, its reading of the physical clock, and
how many calls had finished when it began. -/
structure Call where
  received : Option ℕ
  pt : ℕ
  began : ℕ
  deriving DecidableEq

def Call.next (c : Call) (prev : ℕ) : ℕ :=
  match c.received with
  | none => tick c.pt prev
  | some m => update m c.pt prev

/-- The largest physical time the call knows of. -/
def Call.phys (c : Call) : ℕ := max c.pt (c.received.elim 0 (· >>> 16))

inductive Thread
  | idle
  | load (c : Call)
  | exchange (c : Call) (prev : ℕ)
  deriving DecidableEq

def Thread.call : Thread → Option Call
  | .idle => none
  | .load c | .exchange c _ => some c

/-- The word and the threads. The finished calls are listed with their stamps, and `peak` is the
largest physical time that was read or received. -/
structure State where
  hlc : ℕ
  threads : List Thread
  log : List (Call × ℕ)
  peak : ℕ

inductive Act
  /-- Thread `i` enters `__hlc_tick` or `__hlc_update` and reads the physical clock. -/
  | enter (i : ℕ) (received : Option ℕ) (pt : ℕ)
  /-- Thread `i` loads, or exchanges; a weak exchange may fail although the word is the same. -/
  | step (i : ℕ) (ok : Bool)

def State.act (s : State) : Act → Option State
  | .enter i received pt =>
    if s.threads[i]? = some .idle then
      let c : Call := ⟨received, pt, s.log.length⟩
      some { s with threads := s.threads.set i (.load c), peak := max s.peak c.phys }
    else none
  | .step i ok =>
    match s.threads[i]? with
    | some (.load c) => some { s with threads := s.threads.set i (.exchange c s.hlc) }
    | some (.exchange c prev) =>
      if ok ∧ s.hlc = prev then
        some { s with
          hlc := c.next prev
          threads := s.threads.set i .idle
          log := s.log ++ [(c, c.next prev)] }
      else some { s with threads := s.threads.set i (.load c) }
    | _ => none

def system : System State Act where
  init s := ∃ n, s = ⟨0, replicate n .idle, [], 0⟩
  step := State.act

/-- The physical parts stay below `2 ^ 48 - 1`. -/
def inRange (s : State) : Act → Prop
  | .enter _ received pt => (Call.mk received pt 0).phys < 2 ^ 48 - 1
  | .step _ _ => s.hlc >>> 16 < 2 ^ 48 - 1

instance (s : State) (a : Act) : Decidable (inRange s a) :=
  match a with
  | .enter _ _ _ | .step _ _ => inferInstanceAs (Decidable (_ < _))

/-! ## One exchange -/

variable {m pt prev phys log : ℕ} {c : Call}

theorem word_eq (hphys : phys < 2 ^ 48) (hlog : log < 2 ^ 16) :
    word phys log = phys * 2 ^ 16 + log := by
  have hfits : phys <<< 16 < 2 ^ 64 := by
    omega
  rw [word, Nat.mod_eq_of_lt hfits, ← Nat.shiftLeft_add_eq_or_of_lt hlog, Nat.shiftLeft_eq]

/-- A count that has run over carries into the physical part. -/
theorem carry_eq (hphys : phys < 2 ^ 48 - 1) (hlog : log ≤ 2 ^ 16) :
    (if 0xFFFF < log then word (phys + 1) 0 else word phys log) = phys * 2 ^ 16 + log := by
  split
  · rw [word_eq (by omega) (by omega)]
    omega
  · exact word_eq (by omega) (by omega)

theorem and_mask (n : ℕ) : n &&& 0xFFFF = n % 2 ^ 16 := Nat.and_two_pow_sub_one_eq_mod n 16

/-- A tick takes the physical time if it is ahead, and counts on otherwise. -/
theorem tick_eq (hpt : pt < 2 ^ 48 - 1) (hprev : prev >>> 16 < 2 ^ 48 - 1) :
    tick pt prev = if prev >>> 16 < pt then pt * 2 ^ 16 else prev + 1 := by
  simp only [tick, and_mask]
  rw [word_eq (by omega) (by omega), carry_eq hprev (by omega)]
  split <;> omega

/-- An update does so from the larger of the word and the received stamp. -/
theorem update_eq (hm : m >>> 16 < 2 ^ 48 - 1) (hpt : pt < 2 ^ 48 - 1)
    (hprev : prev >>> 16 < 2 ^ 48 - 1) : update m pt prev =
      if prev >>> 16 < pt ∧ m >>> 16 < pt then pt * 2 ^ 16 else max prev m + 1 := by
  simp only [update, and_mask] at *
  rw [carry_eq (by split_ifs <;> omega) (by split_ifs <;> omega)]
  split_ifs <;> omega

/-- The next word is larger than the word and the received stamp, and it is the physical time or the
successor of one of them. -/
theorem Call.next_spec (hc : c.phys < 2 ^ 48 - 1) (hprev : prev >>> 16 < 2 ^ 48 - 1) :
    prev < c.next prev ∧ (∀ m ∈ c.received, m < c.next prev) ∧
      (c.next prev ≤ c.phys * 2 ^ 16 + 2 ^ 16 ∨ c.next prev = prev + 1) := by
  obtain ⟨received, pt, began⟩ := c
  cases received with
  | none =>
    have hpt : pt < 2 ^ 48 - 1 := Nat.lt_of_le_of_lt (Nat.le_max_left ..) hc
    simp only [next, Call.phys, tick_eq hpt hprev]
    refine ⟨?_, nofun, ?_⟩ <;> split <;> omega
  | some m =>
    have hle := Nat.max_lt.mp hc
    simp only [next, Call.phys, update_eq hle.2 hle.1 hprev, Option.elim,
      Option.mem_some, forall_eq']
    split <;> omega

/-! ## Runs -/

variable {s s' : State} {a : Act} {i : ℕ}

/-- What a call in progress has recorded. -/
structure Call.Ok (s : State) (c : Call) : Prop where
  phys : c.phys ≤ s.peak
  began : c.began ≤ s.log.length

structure Ok (s : State) : Prop where
  peak : s.peak < 2 ^ 48 - 1
  threads : ∀ t ∈ s.threads, ∀ c ∈ t.call, c.Ok s
  /-- The stamps grow in the order of the exchanges, up to the word. -/
  order : s.log.Pairwise (·.2 < ·.2)
  last : ∀ e ∈ s.log, e.2 ≤ s.hlc
  received : ∀ e ∈ s.log, ∀ m ∈ e.1.received, m < e.2
  began : ∀ (i : ℕ) (e : Call × ℕ), s.log[i]? = some e → e.1.began ≤ i
  drift : s.hlc ≤ s.peak * 2 ^ 16 + (2 ^ 16 - 1) + s.log.length

theorem Ok.exchange (h : Ok s) (hc : c.Ok s) (hrange : s.hlc >>> 16 < 2 ^ 48 - 1) : Ok { s with
      hlc := c.next s.hlc
      threads := s.threads.set i .idle
      log := s.log ++ [(c, c.next s.hlc)] } := by
  have hphys := hc.phys
  have hpeak := h.peak
  have hdrift := h.drift
  obtain ⟨hgrows, hrecv, hnext⟩ := c.next_spec (by omega) hrange
  have hlen : (s.log ++ [(c, c.next s.hlc)]).length = s.log.length + 1 := length_append
  refine ⟨h.peak, forall_mem_set (fun t ht d hd => ?_) nofun, ?_, ?_, ?_, fun i e hi => ?_, ?_⟩
  · have hd := h.threads t ht d hd
    exact ⟨hd.phys, hlen ▸ Nat.le_succ_of_le hd.began⟩
  · refine pairwise_append.mpr ⟨h.order, pairwise_singleton .., fun e he f hf => ?_⟩
    rw [mem_singleton.mp hf]
    exact Nat.lt_of_le_of_lt (h.last e he) hgrows
  · exact forall_mem_concat (fun e he => Nat.le_of_lt (Nat.lt_of_le_of_lt (h.last e he) hgrows))
      (Nat.le_refl _)
  · exact forall_mem_concat h.received hrecv
  · rcases getElem?_concat_cases hi with hi | ⟨rfl, rfl⟩
    · exact h.began i e hi
    · exact hc.began
  · simp only [hlen]
    omega

/-- A thread moves on and has its call from before. -/
theorem Ok.put (h : Ok s) {t : Thread} (hc : ∀ c ∈ t.call, c.Ok s) :
    Ok { s with threads := s.threads.set i t } where
  __ := h
  threads := forall_mem_set (fun t ht d hd => { h.threads t ht d hd with })
    fun d hd => { hc d hd with }

theorem Ok.act (h : Ok s) (hrange : inRange s a) (hs' : s.act a = some s') : Ok s' := by
  cases a with
  | enter i received pt =>
    simp only [State.act] at hs'
    split at hs' <;> cases hs'
    refine { h with
      peak := Nat.max_lt.mpr ⟨h.peak, hrange⟩
      threads := forall_mem_set (fun t ht c hc => ?_) fun c hc => ?_
      drift := ?_ }
    · have hc := h.threads t ht c hc
      exact ⟨Nat.le_trans hc.phys (Nat.le_max_left ..), hc.began⟩
    · cases hc
      exact ⟨Nat.le_max_right .., Nat.le_refl _⟩
    · have hle : s.peak ≤ max s.peak (Call.mk received pt 0).phys := Nat.le_max_left ..
      exact Nat.le_trans h.drift (Nat.add_le_add_right (Nat.add_le_add_right
        (Nat.mul_le_mul_right _ hle) _) _)
  | step i ok =>
    simp only [State.act] at hs'
    split at hs'
    · rename_i c hi
      cases hs'
      exact h.put fun d hd => h.threads _ (mem_of_getElem? hi) d hd
    · rename_i c prev hi
      have hc : c.Ok s := h.threads _ (mem_of_getElem? hi) c rfl
      split at hs' <;> cases hs'
      · rename_i hsame
        obtain ⟨-, rfl⟩ := hsame
        exact h.exchange hc hrange
      · refine h.put fun d hd => ?_
        cases hd
        exact hc
    · cases hs'

/-- A stamp is larger than those of all calls that had finished when its call began, stamps are
distinct, an update's stamp is larger than the one it received, and the physical part runs ahead of
all physical times by no more than a step for each `2 ^ 16` calls begun. -/
theorem stamps_increase (hs : system.ReachableUnder inRange s) :
    (∀ (i j : ℕ) (e f : Call × ℕ), s.log[i]? = some e → s.log[j]? = some f → i < f.1.began →
      e.2 < f.2) ∧
    (s.log.map Prod.snd).Nodup ∧ (∀ e ∈ s.log, ∀ m ∈ e.1.received, m < e.2) ∧
    s.hlc >>> 16 ≤ s.peak + (s.log.length + (2 ^ 16 - 1)) / 2 ^ 16 := by
  have h : Ok s := by
    refine hs.invariant ?_ fun _ _ _ h hrange hstep => h.act hrange hstep
    rintro _ ⟨n, rfl⟩
    refine ⟨Nat.zero_lt_succ _, fun t ht c hc => ?_, .nil, nofun, nofun, nofun, Nat.zero_le _⟩
    rw [eq_of_mem_replicate ht] at hc
    cases hc
  refine ⟨fun i j e f hi hj hbegan => ?_, ?_, h.received, ?_⟩
  · have hij : i < j := Nat.lt_of_lt_of_le hbegan (h.began j f hj)
    obtain ⟨hi, rfl⟩ := List.getElem?_eq_some_iff.mp hi
    obtain ⟨hj, rfl⟩ := List.getElem?_eq_some_iff.mp hj
    exact pairwise_iff_getElem.mp h.order i j _ _ hij
  · exact pairwise_map.mpr (h.order.imp fun hlt => Nat.ne_of_lt hlt)
  · have hdrift := h.drift
    omega

/-- Two threads: a tick that reads 5, and an update that receives a full logical count, loses one
exchange to the tick and carries into the physical part. -/
theorem stamps_increase_carry : ∃ s ∈ system.runUnder inRange ⟨0, replicate 2 .idle, [], 0⟩
      [.enter 0 (some 0x7FFFF) 3, .step 0 true, .enter 1 none 5, .step 1 true, .step 1 true,
        .step 0 true, .step 0 true, .step 0 true],
    s.log.map Prod.snd = [0x50000, 0x80000] ∧ (s.log.map Prod.snd).Nodup ∧
      s.hlc >>> 16 ≤ s.peak + (s.log.length + (2 ^ 16 - 1)) / 2 ^ 16 := by
  refine System.exists_run ⟨2, rfl⟩ (by decide) fun s _ hs _ => ?_
  obtain ⟨-, hnodup, -, hdrift⟩ := stamps_increase hs
  exact ⟨hnodup, hdrift⟩

end LibXtc.Hlc

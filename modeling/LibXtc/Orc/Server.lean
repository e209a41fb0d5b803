import LibXtc.Foundations.Lists
import LibXtc.Foundations.Runs

/-!
# Server continuations

`xtc_svr_continue` finds the server whose callback is running through `__svr_cur`, one pointer for
all servers of a loop thread. While a callback is parked those of other servers set and clear this
pointer, and a malformed call leaves it set.
-/

namespace LibXtc.Svr

open Foundations List Option

/-- Where a server is: at its receive, in `init` or a handler, in `handle_continue`, or out of
`__svr_entry`. A callback may be parked. -/
inductive Pc
  | recv
  | callback
  | continuing
  | out
  deriving DecidableEq

structure Server where
  pc : Pc := .recv
  /-- `cont_arg` while `cont_pending` is set. -/
  cont : Option ℕ := none
  /-- There is a `handle_continue`. -/
  continues : Bool := true
  stopRequested : Bool := false
  /-- What its callbacks have armed, the latest first. -/
  armed : List ℕ := []
  /-- What `handle_continue` was called with, the latest first. -/
  ran : List ℕ := []

def Server.busy (x : Server) : Bool := x.pc = .callback || x.pc = .continuing

/-- The servers of a loop thread, with `__svr_cur`. -/
structure State where
  cur : Option ℕ
  servers : List Server

/-- What happens at a server: `init` or the handler of a message is called, a malformed call is
skipped, a callback calls `xtc_svr_continue` or returns, a stop is requested or the process ends. -/
inductive Op
  | dispatch
  | malformed
  | arm (cont : ℕ)
  | returned (stop : Bool)
  | stop
  | exit

/-- Besides, code that is in no callback may call `xtc_svr_continue`. -/
inductive Act
  | server (i : ℕ) (op : Op)
  | outside (cont : ℕ)

namespace State

variable (s : State)

/-- `xtc_svr_continue`, which is refused without a current server. -/
def svrContinue (cont : ℕ) : Option State :=
  s.cur.map fun i => { s with servers := s.servers.modify i fun x => { x with cont := some cont } }

/-- `__svr_run_continue`, up to `handle_continue` or the end of the loop. -/
def runContinue (i : ℕ) (x : Server) : State :=
  match x.cont, x.continues && !x.stopRequested with
  | some cont, true =>
    ⟨some i, s.servers.set i { x with pc := .continuing, cont := none, ran := cont :: x.ran }⟩
  | _, _ =>
    ⟨none, s.servers.set i { x with pc := if x.stopRequested then .out else .recv, cont := none }⟩

/-- `__svr_entry` of server `i`. -/
def entry (i : ℕ) (x : Server) : Op → Option State
  | .dispatch =>
    if x.pc = .recv then some ⟨some i, s.servers.set i { x with pc := .callback }⟩ else none
  | .malformed => if x.pc = .recv then some { s with cur := some i } else none
  | .arm cont =>
    if x.busy then
      some (((s.svrContinue cont).map fun t => { t with
        servers := t.servers.modify i fun x => { x with armed := cont :: x.armed } }).getD s)
    else none
  | .returned stop =>
    if x.pc = .callback ∧ stop then some ⟨none, s.servers.set i { x with pc := .out }⟩
    else if x.busy then some (s.runContinue i x)
    else none
  | .stop => some { s with servers := s.servers.set i { x with stopRequested := true } }
  | .exit => some ⟨if s.cur = some i then none else s.cur, s.servers.set i { x with pc := .out }⟩

def step : Act → Option State
  | .server i op => s.servers[i]?.bind (s.entry i · op)
  | .outside cont => some ((s.svrContinue cont).getD s)

/-- Callbacks do not overlap, and nobody else arms meanwhile; no call is malformed; a callback arms
once, and of a server that has a `handle_continue`. -/
def apart : Act → Bool
  | .server i op => s.servers[i]?.all fun x =>
    match op with
    | .dispatch => s.servers.all (!·.busy)
    | .malformed => false
    | .arm _ => x.cont.isNone && x.continues
    | _ => true
  | .outside _ => s.servers.all (!·.busy)

end State

def system : System State Act where
  init s := s.cur = none ∧ ∀ x ∈ s.servers, x = { continues := x.continues }
  step := State.step

/-- What the callbacks of a server armed is what it has run and what is in its slot, which is empty
at its receive. -/
def Server.Kept (x : Server) : Prop :=
  x.pc ≠ .out → x.armed = x.cont.toList ++ x.ran ∧
    (x.cont.isSome → x.busy = true ∧ x.continues = true)

/-- The pointer names the server that is in a callback. -/
structure Inv (s : State) : Prop where
  cur : ∀ i, s.cur = some i ↔ ∃ x, s.servers[i]? = some x ∧ x.busy = true
  kept : ∀ x ∈ s.servers, x.Kept

variable {s t : State} {i cont : ℕ} {x y : Server} {cur : Option ℕ} {op : Op}

theorem Server.pc_ne_out (h : x.busy = true) : x.pc ≠ .out := by
  intro hpc
  simp [Server.busy, hpc] at h

namespace Inv

theorem cur_eq_none (h : Inv s) (hall : s.servers.all (!·.busy) = true) : s.cur = none := by
  by_contra hne
  obtain ⟨i, hi⟩ := ne_none_iff_exists'.mp hne
  obtain ⟨x, hx, hbusy⟩ := (h.cur i).mp hi
  simpa [hbusy] using all_eq_true.mp hall x (mem_of_getElem? hx)

section

variable (h : Inv s) (hx : s.servers[i]? = some x)
include h hx

theorem cur_iff : s.cur = some i ↔ x.busy = true := by
  rw [h.cur i, hx]
  simp

theorem set (hother : ∀ j, i ≠ j → (cur = some j ↔ s.cur = some j))
    (hself : cur = some i ↔ y.busy = true) (hy : y.Kept) : Inv ⟨cur, s.servers.set i y⟩ where
  cur j := by
    by_cases hij : i = j
    · subst hij
      simp [hself, getElem?_set_new hx]
    · rw [hother j hij, h.cur j, getElem?_set_ne hij]
  kept := forall_mem_set h.kept hy

theorem svrContinue (hbusy : x.busy = true) : s.svrContinue cont =
    some { s with servers := s.servers.set i { x with cont := some cont } } := by
  rw [State.svrContinue, (h.cur_iff hx).mpr hbusy, map_some, modify_eq_set_of_getElem? hx]

/-- A callback has returned. -/
theorem runContinue (hbusy : x.busy = true) : Inv (s.runContinue i x) := by
  have hcur := (h.cur_iff hx).mpr hbusy
  obtain ⟨harmed, hslot⟩ := h.kept x (mem_of_getElem? hx) (Server.pc_ne_out hbusy)
  unfold State.runContinue
  split
  · next hcont _ =>
    rw [hcont] at harmed
    exact h.set hx (fun j _ => by rw [hcur]) (by simp [Server.busy]) fun _ => ⟨harmed, nofun⟩
  · next hne =>
    refine h.set hx (fun j hij => by simp [hcur, hij]) ?_ fun hpc => ⟨?_, nofun⟩
    · cases x.stopRequested <;> simp [Server.busy]
    · -- a server that goes on has nothing in its slot
      have hstop : x.stopRequested = false := by
        cases hs : x.stopRequested with
        | true => simp [hs] at hpc
        | false => rfl
      cases hcont : x.cont with
      | none => simpa [hcont] using harmed
      | some cont =>
        obtain ⟨-, hcontinues⟩ := hslot (by simp [hcont])
        exact absurd (by simp [hcontinues, hstop]) (hne cont hcont)

theorem entry (hok : s.apart (.server i op) = true) (ht : s.entry i x op = some t) : Inv t := by
  have hk := h.kept x (mem_of_getElem? hx)
  simp only [State.apart, hx, all_some] at hok
  cases op <;> simp only [State.entry, ite_none_right_eq_some, some.injEq] at ht
  case dispatch =>
    obtain ⟨hpc, rfl⟩ := ht
    obtain ⟨harmed, hslot⟩ := hk (by simp [hpc])
    refine h.set hx (fun j hij => ?_) (by simp [Server.busy]) fun _ => ⟨harmed, fun hcont => ?_⟩
    · simp [h.cur_eq_none hok, hij]
    · simpa [Server.busy, hpc] using (hslot hcont).1
  case malformed => cases hok
  case arm cont =>
    obtain ⟨hbusy, rfl⟩ := ht
    rw [h.svrContinue hx hbusy, map_some, getD_some,
      modify_eq_set_of_getElem? (getElem?_set_new hx), set_set]
    simp only [Bool.and_eq_true, isNone_iff_eq_none] at hok
    have harmed := (hk (Server.pc_ne_out hbusy)).1
    rw [hok.1] at harmed
    exact h.set hx (fun _ _ => .rfl) (h.cur_iff hx :)
      fun _ => ⟨congrArg _ harmed, fun _ => ⟨hbusy, hok.2⟩⟩
  case returned stop =>
    split at ht
    · next hcb =>
      cases ht
      have hcur := (h.cur_iff hx).mpr (by simp [Server.busy, hcb.1])
      exact h.set hx (fun j hij => by simp [hcur, hij]) (by simp [Server.busy]) nofun
    · simp only [ite_none_right_eq_some, some.injEq] at ht
      obtain ⟨hbusy, rfl⟩ := ht
      exact h.runContinue hx hbusy
  case stop =>
    subst ht
    exact h.set hx (fun _ _ => .rfl) (h.cur_iff hx :) hk
  case exit =>
    subst ht
    refine h.set hx (fun j hij => ?_) ?_ nofun
    · by_cases hcur : s.cur = some i <;> simp [hcur, hij]
    · by_cases hcur : s.cur = some i <;> simp [hcur, Server.busy]

end

end Inv

/-- While callbacks do not overlap, a continuation goes to the server whose callback arms it, which
runs it, and no other, before its next receive; outside of the callbacks the call is refused. -/
theorem continuations_run (hs : system.ReachableUnder (fun s a => s.apart a = true) s) :
    (∀ i x cont, s.servers[i]? = some x → x.busy = true → s.svrContinue cont =
      some { s with servers := s.servers.set i { x with cont := some cont } }) ∧
    (s.servers.all (!·.busy) = true → ∀ cont, s.svrContinue cont = none) ∧
    ∀ x ∈ s.servers, x.pc ≠ .out → x.armed = x.cont.toList ++ x.ran ∧
      (x.pc = .recv → x.cont = none) := by
  have h : Inv s := by
    refine hs.invariant (fun s h => ?_) fun s a t h hok ht => ?_
    · refine ⟨fun i => ?_, fun x hx => h.2 x hx ▸ fun _ => ⟨rfl, nofun⟩⟩
      rw [h.1]
      refine iff_of_false nofun fun ⟨x, hx, hbusy⟩ => ?_
      rw [h.2 x (mem_of_getElem? hx)] at hbusy
      cases hbusy
    · cases a with
      | server i op =>
        obtain ⟨x, hx, ht⟩ := bind_eq_some_iff.mp ht
        exact h.entry hx hok ht
      | outside cont =>
        cases ht
        rwa [State.svrContinue, h.cur_eq_none hok]
  refine ⟨fun i x cont hx => h.svrContinue hx, fun hall cont => ?_, fun x hx => ?_⟩
  · rw [State.svrContinue, h.cur_eq_none hall]
    rfl
  · intro hout
    obtain ⟨harmed, hslot⟩ := h.kept x hx hout
    refine ⟨harmed, fun hpc => ?_⟩
    by_contra hne
    have hbusy := (hslot (isSome_iff_ne_none.mpr hne)).1
    simp [Server.busy, hpc] at hbusy

/-- A handler arms `7`, which is run before the server is at its receive again. -/
theorem continuations_run_once : ∃ s, system.ReachableUnder (fun s a => s.apart a = true) s ∧
    (s.servers.map (fun x => (x.armed, x.ran)) = [([7], [7]), ([], [])] ∧
      s.servers.all (!·.busy) = true) ∧ ∀ cont, s.svrContinue cont = none :=
  System.exists_reachable
    ([.dispatch, .arm 7, .returned false, .returned false].map (.server 0))
    (show system.init ⟨none, [{}, {}]⟩ from ⟨rfl, by simp⟩) (by decide)
    fun _ hs hP => (continuations_run hs).2.1 hP.2

/-- Server 1 answers while the callback of server 0 is parked; then the latter arms `7`, which
server 1 runs. -/
theorem continuation_of_other : (system.run ⟨none, [{}, {}]⟩ [.server 0 .dispatch,
    .server 1 .dispatch, .server 0 (.arm 7), .server 1 (.returned false),
    .server 0 (.returned false)]).map (fun s => s.servers.map fun x => (x.pc, x.armed, x.ran)) =
    some [(.recv, [7], []), (.continuing, [], [7])] := by
  decide

end LibXtc.Svr

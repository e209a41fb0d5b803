import LibXtc.Foundations.Lists
import LibXtc.Foundations.Runs

/-!
# Discards of an arena group

A discard seals its group, kills the members one after the other and opens the group again at its
end. It waits for the members, and a fiber that is itself killed while it waits never comes to its
end.
-/

namespace LibXtc.ArenaGroup

open Foundations List

/-- Where a fiber is: in no discard, in one that has sealed the group and copied the members, in one
that has still to see to the members `todo`, or dead. -/
inductive Pc
  | idle
  | copied (snap : List ℕ)
  | killing (todo : List ℕ) (allGone : Bool)
  | dead
  deriving DecidableEq

def Pc.discards : Pc → Bool
  | .copied _ | .killing .. => true
  | _ => false

/-- `struct xtc_arena_group`, and the fibers that use it. A fiber is a member under its index. -/
structure State where
  isSealed : Bool
  members : List ℕ
  fibers : List Pc

/-- What a fiber does: `xtc_arena_group_add`, `xtc_arena_group_discard`, the next step of its
discard, or its end. A member is found gone, found alive at the end of the time, or waited for. -/
inductive Op
  | add (memory : Bool)
  | discard (memory : Bool)
  | next (gone : Option Bool)
  | unwind

namespace State

variable (s : State) (i : ℕ)

/-- `__grp_unseal` and the return. -/
def grpUnseal : State := { s with isSealed := false, fibers := s.fibers.set i .idle }

/-- What fiber `i` does next. A copy that cannot be allocated leaves the group open. -/
def act : Pc → Op → Option State
  | .idle, .add memory => some (if s.isSealed || s.members.contains i || !memory then s
    else { s with members := s.members ++ [i] })
  | .idle, .discard memory => some (if s.isSealed || !s.members.isEmpty && !memory then s
    else { s with isSealed := true, fibers := s.fibers.set i (.copied s.members) })
  | .copied snap, .next _ => some (if snap.contains i then s.grpUnseal i
    else { s with fibers := s.fibers.set i (.killing snap true) })
  | .killing (_ :: _) _, .next none => some s
  | .killing (_ :: todo) allGone, .next (some gone) =>
    some { s with fibers := s.fibers.set i (.killing todo (allGone && gone)) }
  | .killing [] allGone, .next _ =>
    some { s.grpUnseal i with members := if allGone then [] else s.members }
  | _, .unwind => some { s with fibers := s.fibers.set i .dead }
  | _, _ => none

def step (a : ℕ × Op) : Option State := s.fibers[a.1]?.bind (s.act a.1 · a.2)

/-- No fiber is killed or faults in its discard. -/
def calm : ℕ × Op → Bool
  | (i, .unwind) => s.fibers[i]?.all (!·.discards)
  | _ => true

end State

def system : System State (ℕ × Op) where
  init s := s.isSealed = false ∧ ∀ pc ∈ s.fibers, pc = .idle
  step := State.step

variable {s t : State} {i : ℕ} {pc pc' : Pc} {op : Op}

/-- At most one discard is running, and then the group is sealed. -/
def Ok (s : State) : Prop := s.fibers.countP Pc.discards = s.isSealed.toNat

theorem Ok.set (h : Ok s) (hpc : s.fibers[i]? = some pc) {b : Bool} {m : List ℕ}
    (hnew : s.isSealed.toNat + pc'.discards.toNat = b.toNat + pc.discards.toNat) :
    Ok ⟨b, m, s.fibers.set i pc'⟩ := by
  have hcount := countP_set_add (p := Pc.discards) (b := pc') hpc
  unfold Ok at *
  dsimp only
  omega

theorem Ok.sealed_iff (h : Ok s) : s.isSealed = true ↔ ∃ pc ∈ s.fibers, pc.discards = true := by
  rw [← countP_pos_iff, h]
  cases s.isSealed <;> decide

theorem Ok.act (h : Ok s) (hpc : s.fibers[i]? = some pc) (hok : s.calm (i, op) = true)
    (ht : s.act i pc op = some t) : Ok t := by
  have hsealed (hd : pc.discards = true) : s.isSealed = true :=
    h.sealed_iff.mpr ⟨pc, mem_of_getElem? hpc, hd⟩
  unfold State.act at ht
  split at ht <;> cases ht
  · split
    · exact h
    · exact h
  · split
    · exact h
    · next hopen =>
      simp only [Bool.or_eq_true, not_or, Bool.not_eq_true] at hopen
      exact h.set hpc (by rw [hopen.1]; rfl)
  · split
    · exact h.set hpc (by rw [hsealed rfl]; rfl)
    · exact h.set hpc rfl
  · exact h
  · exact h.set hpc rfl
  · exact h.set hpc (by rw [hsealed rfl]; rfl)
  · simp only [State.calm, hpc, Option.all_some, Bool.not_eq_true'] at hok
    exact h.set hpc (by rw [hok]; rfl)

/-- As long as no fiber is killed or faults in its discard, the group is sealed only while one is
running. Otherwise a fiber can join, and can discard. -/
theorem sealed_iff_discarding (hs : system.ReachableUnder (·.calm · = true) s) :
    (s.isSealed = true ↔ ∃ pc ∈ s.fibers, pc.discards = true) ∧
    ((∀ pc ∈ s.fibers, pc.discards = false) → ∀ i, s.fibers[i]? = some .idle →
      (∃ t ∈ s.step (i, .add true), i ∈ t.members) ∧
      ∃ t ∈ s.step (i, .discard true), t.fibers[i]? = some (.copied s.members)) := by
  have h : Ok s := by
    refine hs.invariant (fun s h => ?_) fun s a t h hok ht => ?_
    · rw [Ok, h.1, countP_eq_zero.mpr fun pc hpc => by rw [h.2 pc hpc]; nofun]
      rfl
    · obtain ⟨pc, hpc, ht⟩ := Option.bind_eq_some_iff.mp ht
      exact h.act hpc hok ht
  refine ⟨h.sealed_iff, fun hnone i hi => ?_⟩
  have hopen : s.isSealed = false := by
    by_contra hsealed
    obtain ⟨pc, hpc, hd⟩ := h.sealed_iff.mp (by simpa using hsealed)
    rw [hnone pc hpc] at hd
    cases hd
  simp only [State.step, hi, Option.bind_some, State.act, hopen]
  refine ⟨⟨_, rfl, ?_⟩, _, rfl, ?_⟩
  · split
    · simp_all
    · simp
  · simp [getElem?_set_new hi]

/-- A member joins, is killed and forgotten, and the group is open again. -/
theorem sealed_iff_discarding_once : ∃ s, system.ReachableUnder (·.calm · = true) s ∧
    (s.members = [] ∧ s.fibers = [.dead, .idle]) ∧
      (s.isSealed = true ↔ ∃ pc ∈ s.fibers, pc.discards = true) :=
  System.exists_reachable
    [(0, .add true), (1, .discard true), (1, .next none), (1, .next none), (0, .unwind),
      (1, .next (some true)), (1, .next none)]
    (show system.init ⟨false, [], [.idle, .idle]⟩ from ⟨rfl, by simp⟩) (by decide)
    fun _ hs _ => (sealed_iff_discarding hs).1

/-- Fiber 1 is killed while it waits for the member. The group stays sealed: fiber 2 cannot join,
and its discard is refused. -/
theorem sealed_for_ever : (system.run ⟨false, [], [.idle, .idle, .idle]⟩ [(0, .add true),
    (1, .discard true), (1, .next none), (1, .next none), (1, .unwind), (2, .add true),
    (2, .discard true)]).map (fun s => (s.isSealed, s.members, s.fibers)) =
      some (true, [0], [.idle, .dead, .idle]) := by
  decide

end LibXtc.ArenaGroup

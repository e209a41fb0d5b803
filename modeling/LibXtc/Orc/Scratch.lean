import LibXtc.Foundations.Runs

/-!
# Turn scratch

The turns of a shard take their scratch blocks from one arena. Its offset goes back to 0 when a turn
starts, also when this is the `init` of an isolate that a running turn spawns.
-/

namespace LibXtc.Tnt

open Foundations List

/-- A block: where it begins in the arena, and its size. -/
structure Block where
  off : ℕ
  size : ℕ
  deriving DecidableEq

/-- No byte is in both blocks. -/
def Block.Apart (b c : Block) : Prop :=
  ∀ x, b.off ≤ x → x < b.off + b.size → c.off ≤ x → c.off + c.size ≤ x

/-- The scratch of a shard: `scratch_off`, and the blocks of each running turn, the innermost turn
first. -/
structure Scratch where
  off : ℕ
  turns : List (List Block)
  deriving DecidableEq

/-- A handler or an `init` is called, asks for scratch, or returns. -/
inductive Act
  | turn
  | scratch (size : ℕ)
  | ret

namespace Scratch

variable (cap : ℕ) (s : Scratch)

/-- `scratch_off` rounded up to 16, in 32 bits. -/
def aligned : ℕ := (s.off + 15) % 2 ^ 32 / 16 * 16

/-- `xtc_tnt_scratch_arena`: the sum is one of 64 bits, the new offset one of 32. -/
def scratchArena (size : ℕ) : Option Block × ℕ :=
  if cap < (s.aligned + size) % 2 ^ 64 then (none, s.aligned)
  else (some ⟨s.aligned, size⟩, (s.aligned + size) % 2 ^ 32)

def step : Act → Option Scratch
  | .turn => some ⟨0, [] :: s.turns⟩
  | .scratch size =>
    match s.turns with
    | [] => none
    | blocks :: outer =>
      let r := s.scratchArena cap size
      some ⟨r.2, (r.1.toList ++ blocks) :: outer⟩
  | .ret =>
    match s.turns with
    | [] => none
    | _ :: outer => some { s with turns := outer }

/-- No turn starts while another holds bytes of the arena, and no sum wraps. -/
def fits : Act → Bool
  | .turn => s.turns.flatten.all (·.size = 0)
  | .scratch size => s.off + 15 < 2 ^ 32 ∧ s.aligned + size < 2 ^ 64
  | .ret => true

end Scratch

def system (cap : ℕ) : System Scratch Act where
  init s := s = ⟨0, []⟩
  step s := s.step cap

/-- The blocks lie below the offset, unless they are empty. -/
structure Ok (cap : ℕ) (s : Scratch) : Prop where
  apart : s.turns.flatten.Pairwise Block.Apart
  inside : ∀ b ∈ s.turns.flatten, b.off + b.size ≤ cap
  below : ∀ b ∈ s.turns.flatten, b.size = 0 ∨ b.off + b.size ≤ s.off

variable {cap : ℕ} {s t : Scratch} {a : Act}

theorem Ok.step (hcap : cap < 2 ^ 32) (h : Ok cap s) (hok : s.fits a = true)
    (ht : s.step cap a = some t) : Ok cap t := by
  obtain ⟨off, turns⟩ := s
  cases a with
  | turn =>
    cases ht
    exact { h with below := fun b hb => .inl (of_decide_eq_true (all_eq_true.mp hok b hb)) }
  | ret =>
    cases turns with
    | nil => cases ht
    | cons blocks outer =>
      cases ht
      have hsub {b} (hb : b ∈ outer.flatten) : b ∈ (blocks :: outer).flatten :=
        mem_append_right blocks hb
      exact ⟨h.apart.sublist (sublist_append_right ..), fun b hb => h.inside b (hsub hb),
        fun b hb => h.below b (hsub hb)⟩
  | scratch size =>
    obtain ⟨hround, hsum⟩ := of_decide_eq_true hok
    have hbelow (b) (hb : b ∈ turns.flatten) :
        b.size = 0 ∨ b.off + b.size ≤ Scratch.aligned ⟨off, turns⟩ := by
      have := h.below b hb
      dsimp only [Scratch.aligned] at *
      omega
    cases turns with
    | nil => cases ht
    | cons blocks outer =>
      simp only [Scratch.step, Scratch.scratchArena, Nat.mod_eq_of_lt hsum] at ht
      split at ht <;> cases ht
      · exact { h with below := hbelow }
      · -- the new block begins where the others end
        next hfit =>
        refine ⟨pairwise_cons.mpr ⟨fun b hb x _ _ _ => ?_, h.apart⟩,
          forall_mem_cons.mpr ⟨by dsimp only; omega, h.inside⟩,
          forall_mem_cons.mpr ⟨.inr ?_, fun b hb => ?_⟩⟩
        · have := hbelow b hb
          dsimp only at *
          omega
        · dsimp only
          omega
        · have := hbelow b hb
          dsimp only
          omega

/-- The blocks of all running turns are disjoint and lie inside the arena, as long as no turn starts
while another holds bytes of it and no sum wraps. -/
theorem scratch_blocks_disjoint (hcap : cap < 2 ^ 32)
    (hs : (system cap).ReachableUnder (·.fits · = true) s) :
    s.turns.flatten.Pairwise Block.Apart ∧ ∀ b ∈ s.turns.flatten, b.off + b.size ≤ cap := by
  have h : Ok cap s := by
    refine hs.invariant (fun s h => ?_) fun s a t h hok ht => h.step hcap hok ht
    subst h
    exact ⟨.nil, nofun, nofun⟩
  exact ⟨h.apart, h.inside⟩

/-- A turn spawns an isolate first; then both use the arena. -/
theorem scratch_blocks_disjoint_spawned : ∃ s,
    (system 64).ReachableUnder (·.fits · = true) s ∧ s.turns = [[⟨32, 8⟩, ⟨16, 9⟩]] ∧
      s.turns.flatten.Pairwise Block.Apart :=
  System.exists_reachable [.turn, .turn, .scratch 5, .ret, .scratch 9, .scratch 8] rfl (by decide)
    fun _ hs _ => (scratch_blocks_disjoint (by decide) hs).1

/-- An isolate spawned later is given the block of the running turn; and a size near `SIZE_MAX` is
granted. -/
theorem scratch_blocks_overlap :
    (system 64).run ⟨0, []⟩ [.turn, .scratch 8, .turn, .scratch 8] =
      some ⟨8, [[⟨0, 8⟩], [⟨0, 8⟩]]⟩ ∧
    (system 64).run ⟨0, []⟩ [.turn, .scratch 8, .scratch (2 ^ 64 - 8)] =
      some ⟨8, [[⟨16, 2 ^ 64 - 8⟩, ⟨0, 8⟩]]⟩ := by
  decide

end LibXtc.Tnt

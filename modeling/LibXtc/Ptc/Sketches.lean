import Mathlib.Data.BitVec
import Mathlib.Data.Nat.Prime.Basic

/-!
# Probabilistic sketches

`src/ptc/prob.c`: one pass over a key gives two 64-bit hashes. A Bloom filter sets the bits that
they select, a HyperLogLog sketch keeps in each register the longest run of zeros seen.
-/

namespace LibXtc.Prob

open Function

/-- The bytes of a key. -/
abbrev Key := List (BitVec 8)

/-- `__prob_hash2`. -/
def probHash2 (key : Key) : BitVec 64 × BitVec 64 :=
  let (a, b) := key.foldl (fun (a, b) p =>
    let b := b + p.setWidth 64
    let b := b + b <<< 10
    ((a ^^^ p.setWidth 64) * 0x100000001b3, b ^^^ b >>> 6))
    (0xcbf29ce484222325#64, 0x9e3779b97f4a7c15#64)
  let a := (a ^^^ a >>> 33) * 0xff51afd7ed558ccd
  let a := (a ^^^ a >>> 33) * 0xc4ceb9fe1a85ec53
  let b := b + 0x9e3779b97f4a7c15
  let b := (b ^^^ b >>> 30) * 0xbf58476d1ce4e5b9
  let b := (b ^^^ b >>> 27) * 0x94d049bb133111eb
  (a ^^^ a >>> 33, (b ^^^ b >>> 31) ||| 1)

theorem odd_snd_probHash2 (key : Key) : Odd (probHash2 key).2.toNat := by
  have hodd (x : BitVec 64) : Odd (x ||| 1).toNat := by
    rw [Nat.odd_iff, BitVec.toNat_or]
    simp
  exact hodd _

/-! ### The Bloom filter -/

/-- The words of the bit array. -/
abbrev Bits := ℕ → BitVec 64

/-- A filter: the number of its bits, a power of two, and that of the probes of a key. -/
structure Bloom where
  m : ℕ
  k : ℕ
  pow : ∃ e < 64, m = 2 ^ e
  le : k ≤ m

namespace Bloom

/-- `__bloom_pos` for the hashes of a key; `mask` is `m - 1`. -/
def pos (b : Bloom) (key : Key) (i : ℕ) : ℕ :=
  (((probHash2 key).1 + BitVec.ofNat 64 i * (probHash2 key).2) &&&
    (BitVec.ofNat 64 b.m - 1)).toNat

/-- `b->bits[pos >> 6] |= 1 << (pos & 63)`. -/
def setBit (bits : Bits) (pos : ℕ) : Bits :=
  update bits (pos >>> 6) (bits (pos >>> 6) ||| 1#64 <<< (pos &&& 63))

/-- `(b->bits[pos >> 6] & (1 << (pos & 63))) != 0`. -/
def testBit (bits : Bits) (pos : ℕ) : Bool := bits (pos >>> 6) &&& 1#64 <<< (pos &&& 63) ≠ 0#64

/-- `xtc_bloom_add`. -/
def add (b : Bloom) (bits : Bits) (key : Key) : Bits :=
  (List.range b.k).foldl (fun bits i => setBit bits (b.pos key i)) bits

/-- `xtc_bloom_maybe_contains`. -/
def maybeContains (b : Bloom) (bits : Bits) (key : Key) : Bool :=
  (List.range b.k).all fun i => testBit bits (b.pos key i)

variable {b : Bloom} {bits : Bits} {i j p q : ℕ} {key : Key} {keys : List Key}

/-- Setting a bit sets that bit only. -/
theorem testBit_setBit : testBit (setBit bits p) q = (p = q || testBit bits q) := by
  have hand (q : ℕ) : q &&& 63 = q % 64 := Nat.and_two_pow_sub_one_eq_mod q 6
  have htest (bits : Bits) (q : ℕ) : testBit bits q = (bits (q / 64)).getLsbD (q % 64) := by
    have hne : BitVec.twoPow 64 (q % 64) ≠ 0#64 := by
      intro heq
      have hbit := congrArg (BitVec.getLsbD · (q % 64)) heq
      simp [Nat.mod_lt] at hbit
    rw [testBit, hand, Nat.shiftRight_eq_div_pow, ← BitVec.twoPow, BitVec.and_twoPow]
    cases (bits (q / 64)).getLsbD (q % 64) <;> simp [hne]
  rw [htest, htest, setBit, hand, Nat.shiftRight_eq_div_pow, ← BitVec.twoPow]
  by_cases hw : q / 64 = p / 64
  · have hpq : q % 64 = p % 64 ↔ p = q := by omega
    simp [hw, Nat.mod_lt, Bool.or_comm, hpq]
  · have hpq : p ≠ q := fun heq => hw (by rw [heq])
    simp [update_of_ne hw, hpq]

/-- The bits of a filter are those of its keys. -/
theorem testBit_foldl_add : testBit (keys.foldl b.add bits) q = true ↔
    (∃ key ∈ keys, ∃ i < b.k, b.pos key i = q) ∨ testBit bits q = true := by
  have hadd (key : Key) (bits : Bits) : testBit (b.add bits key) q = true ↔
      (∃ i < b.k, b.pos key i = q) ∨ testBit bits q = true := by
    unfold add
    induction b.k generalizing bits with
    | zero => simp
    | succ n ih =>
      rw [List.range_succ, List.foldl_append, List.foldl_cons, List.foldl_nil, testBit_setBit,
        Bool.or_eq_true, decide_eq_true_iff, ih, Nat.exists_lt_succ_right, or_assoc, or_left_comm]
  induction keys generalizing bits with
  | nil => simp
  | cons key keys ih => simp [ih, hadd, or_assoc, or_left_comm]

theorem pos_eq (key : Key) (i : ℕ) : b.pos key i =
    ((probHash2 key).1.toNat + i * (probHash2 key).2.toNat) % b.m := by
  obtain ⟨e, he, hm⟩ := b.pow
  have hlt : 2 ^ e < 2 ^ 64 := Nat.pow_lt_pow_right (by decide) he
  have hmask : (BitVec.ofNat 64 (2 ^ e) - 1).toNat = 2 ^ e - 1 := by
    have hpos := Nat.two_pow_pos e
    rw [BitVec.toNat_sub, BitVec.toNat_ofNat, Nat.mod_eq_of_lt hlt]
    simp
    omega
  have hdvd : 2 ^ e ∣ 2 ^ 64 := Nat.pow_dvd_pow 2 he.le
  rw [pos, hm, BitVec.toNat_and, hmask, Nat.and_two_pow_sub_one_eq_mod, BitVec.toNat_add,
    Nat.mod_mod_of_dvd _ hdvd, BitVec.toNat_mul, BitVec.toNat_ofNat]
  exact Nat.ModEq.add_left _ ((Nat.mod_mod_of_dvd _ hdvd).trans
    (Nat.ModEq.mul_right _ (Nat.mod_mod_of_dvd _ hdvd)))

/-- Multiplication by an odd number is injective modulo a power of two. -/
theorem pos_inj (hi : i < b.k) (hj : j < b.k) (heq : b.pos key i = b.pos key j) : i = j := by
  obtain ⟨e, -, hm⟩ := b.pow
  have hcop : Nat.gcd b.m (probHash2 key).2.toNat = 1 := by
    rw [hm]
    exact Nat.Coprime.pow_left e (Nat.coprime_two_left.mpr (odd_snd_probHash2 key))
  rw [pos_eq, pos_eq] at heq
  have hmod : i ≡ j [MOD b.m] :=
    Nat.ModEq.cancel_right_of_coprime hcop (Nat.ModEq.add_left_cancel' _ heq)
  exact hmod.eq_of_lt_of_lt (hi.trans_le b.le) (hj.trans_le b.le)

/-- The probes of a key are distinct positions of the filter, and a key is reported exactly when
all of its positions were set by additions. -/
theorem bloom_probes (b : Bloom) (keys : List Key) :
    (∀ key, (∀ i < b.k, b.pos key i < b.m) ∧
      ∀ i < b.k, ∀ j < b.k, b.pos key i = b.pos key j → i = j) ∧
    (∀ key ∈ keys, b.maybeContains (keys.foldl b.add fun _ => 0) key = true) ∧
    ∀ key, b.maybeContains (keys.foldl b.add fun _ => 0) key = true ↔
      ∀ i < b.k, ∃ key' ∈ keys, ∃ j < b.k, b.pos key' j = b.pos key i := by
  have hiff (key : Key) : b.maybeContains (keys.foldl b.add fun _ => 0) key = true ↔
      ∀ i < b.k, ∃ key' ∈ keys, ∃ j < b.k, b.pos key' j = b.pos key i := by
    have hempty (q : ℕ) : testBit (fun _ => 0#64) q = false := by simp [testBit]
    simp [maybeContains, testBit_foldl_add, hempty]
  refine ⟨fun key => ⟨fun i hi => ?_, fun i hi j hj => pos_inj hi hj⟩, ?_, hiff⟩
  · rw [pos_eq]
    exact Nat.mod_lt _ (Nat.zero_lt_of_lt (hi.trans_le b.le))
  · exact fun key hkey => (hiff key).mpr fun i hi => ⟨key, hkey, i, hi, rfl⟩

end Bloom

/-! ### HyperLogLog -/

/-- The precisions that `xtc_hll_init` accepts. -/
abbrev Precision := { p : ℕ // 4 ≤ p ∧ p ≤ 18 }

namespace Hll

/-- `while ((w & 0x8000000000000000) == 0) { lz++; w <<= 1; }`, for at most `n` turns. -/
def leadingZeros : ℕ → BitVec 64 → ℕ → ℕ
  | 0, _, lz => lz
  | n + 1, w, lz => if w &&& 0x8000000000000000 = 0 then leadingZeros n (w <<< 1) (lz + 1) else lz

/-- The register of a hash. -/
def idx (p : ℕ) (h1 : BitVec 64) : ℕ := (h1 >>> (64 - p)).toNat

/-- What a hash puts into its register. -/
def rho (p : ℕ) (h1 : BitVec 64) : ℕ :=
  if h1 <<< p = 0 then 64 - p + 1 else leadingZeros 64 (h1 <<< p) 0 + 1

/-- `xtc_hll_add` on the registers of a sketch. -/
def add (p : ℕ) (reg : ℕ → ℕ) (key : Key) : ℕ → ℕ :=
  let h1 := (probHash2 key).1
  if rho p h1 > reg (idx p h1) then update reg (idx p h1) (rho p h1) else reg

/-- `xtc_hll_merge`, which refuses sketches of different precisions. -/
def merge (p q : ℕ) (dst src : ℕ → ℕ) : Option (ℕ → ℕ) :=
  if p ≠ q then none else some fun j => if src j > dst j then src j else dst j

/-- The sketch of a sequence of keys. -/
def sketch (p : ℕ) (keys : List Key) : ℕ → ℕ := keys.foldl (add p) fun _ => 0

variable {p j n : ℕ} {w : BitVec 64} {keys : List Key}

/-- What a key asks of a register. -/
def demand (p : ℕ) (key : Key) (j : ℕ) : ℕ :=
  if j = idx p (probHash2 key).1 then rho p (probHash2 key).1 else 0

/-- The upper bounds of a register are those of what its keys ask of it. -/
theorem foldl_add_le (reg : ℕ → ℕ) : keys.foldl (add p) reg j ≤ n ↔
    reg j ≤ n ∧ ∀ key ∈ keys, demand p key j ≤ n := by
  have hadd (key : Key) (reg : ℕ → ℕ) : add p reg key j = max (reg j) (demand p key j) := by
    simp only [add, demand]
    generalize (probHash2 key).1 = h1
    by_cases hj : j = idx p h1
    · subst hj
      split <;> simp <;> omega
    · split <;> simp [hj]
  induction keys generalizing reg with
  | nil => simp
  | cons key keys ih =>
    have hkeys := ih (add p reg key)
    rw [hadd, max_le_iff, and_assoc] at hkeys
    rwa [List.foldl_cons, List.forall_mem_cons]

/-- The loop stops at a bit that is set. -/
theorem leadingZeros_le (lz : ℕ) (hj : j < n) (hbit : w.getMsbD j = true) :
    leadingZeros n w lz ≤ lz + j := by
  induction n generalizing j w lz with
  | zero => omega
  | succ n ih =>
    unfold leadingZeros
    split
    · cases j with
      | zero =>
        rename_i hzero
        have hbit' := congrArg (BitVec.getMsbD · 0) hzero
        simp [hbit] at hbit'
      | succ j =>
        have hnext := ih (w := w <<< 1) (lz + 1) (Nat.lt_of_succ_lt_succ hj) (by simpa using hbit)
        omega
    · omega

theorem rho_le (hp : p ≤ 64) (h1 : BitVec 64) : rho p h1 ≤ 65 - p := by
  unfold rho
  split
  · omega
  · rename_i hw
    obtain ⟨i, hi, hbit⟩ : ∃ i < 64, (h1 <<< p).getMsbD i = true := by
      by_contra hno
      refine hw (BitVec.eq_of_getMsbD_eq fun i hi => ?_)
      have hclear : ¬(h1 <<< p).getMsbD i = true := fun hb => hno ⟨i, hi, hb⟩
      simpa using hclear
    have hle := leadingZeros_le 0 hi hbit
    rw [BitVec.getMsbD_shiftLeft] at hbit
    have hlt := BitVec.lt_of_getMsbD hbit
    omega

/-- A merge loses nothing, registers are maxima and stay below the size of the window. -/
theorem hll_merge_lossless (p : Precision) :
    (∀ A B, merge p p (sketch p A) (sketch p B) = some (sketch p (A ++ B))) ∧
    (∀ A B, (∀ key, key ∈ A ↔ key ∈ B) → sketch p A = sketch p B) ∧
    (∀ a b, merge p p a b = merge p p b a) ∧
    (∀ a b c, (merge p p a b).bind (merge p p · c) = (merge p p b c).bind (merge p p a)) ∧
    (∀ a, merge p p a a = some a) ∧
    ∀ keys j, sketch p keys j ≤ 65 - p := by
  have hreg (keys : List Key) (j n : ℕ) :
      sketch p keys j ≤ n ↔ ∀ key ∈ keys, demand p key j ≤ n := by
    simp [sketch, foldl_add_le]
  have hmerge (a b : ℕ → ℕ) : merge p p a b = some fun j => max (a j) (b j) := by
    have hmax (x y : ℕ) : (if y > x then y else x) = max x y := by
      rw [max_def]
      split <;> split <;> omega
    simp [merge, hmax]
  refine ⟨fun A B => ?_, fun A B hAB => ?_, fun a b => ?_, fun a b c => ?_, fun a => ?_, ?_⟩
  · rw [hmerge]
    refine congrArg some (funext fun j => eq_of_forall_ge_iff fun n => ?_)
    simp only [max_le_iff, hreg, List.forall_mem_append]
  · refine funext fun j => eq_of_forall_ge_iff fun n => ?_
    simp only [hreg, hAB]
  · simp only [hmerge, max_comm]
  · simp only [hmerge, Option.bind_some, max_assoc]
  · simp only [hmerge, max_self]
  · intro keys j
    refine (hreg keys j _).mpr fun key _ => ?_
    unfold demand
    split
    · exact rho_le (by omega) _
    · exact Nat.zero_le _

end Hll

end LibXtc.Prob

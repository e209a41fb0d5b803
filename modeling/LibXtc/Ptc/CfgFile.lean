import Mathlib.Data.List.DropRight

/-!
# Configuration files

`xtc_cfg_load_file` reads a file through a buffer of 2048 bytes and takes what one call of `fgets`
returns as a line. A longer line is cut, and what is left of it is read as a line of its own.
-/

namespace LibXtc.Cfg

open List

abbrev Bytes := List UInt8

/-- A space, a tab, a carriage return or a newline. -/
def blank (c : UInt8) : Bool := c = 32 || c = 9 || c = 13 || c = 10

/-- `__cfg_trim`. -/
def trim (s : Bytes) : Bytes := (s.dropWhile blank).rdropWhile blank

/-- The value after the equals sign: in quotes, or up to a comment. -/
def parseValue (val : Bytes) : Bytes :=
  match val with
  | [] => []
  | q :: rest =>
    if q = 39 ∨ q = 34 then rest.takeWhile (· ≠ q)
    else if 35 ∈ val then trim (val.takeWhile (· ≠ 35))
    else val

/-- The name and the value that a line sets. A byte 0 ends the line, 35 begins a comment, and 61
stands between the two. -/
def parseLine (line : Bytes) : Option (Bytes × Bytes) :=
  let p := trim (line.takeWhile (· ≠ 0))
  if p = [] ∨ p.head? = some 35 ∨ 61 ∉ p then none
  else
    let key := trim (p.takeWhile (· ≠ 61))
    let val := parseValue (trim (p.dropWhile (· ≠ 61)).tail)
    if key = [] then none else some (key, val)

/-- What the calls of `fgets` return: up to `size` bytes, or to the newline. `cur` is read. -/
def chunks (size : ℕ) (cur : Bytes) : Bytes → List Bytes
  | [] => if cur = [] then [] else [cur]
  | c :: rest =>
    if c = 10 ∨ cur.length + 1 = size then (cur ++ [c]) :: chunks size [] rest
    else chunks size (cur ++ [c]) rest

variable {σ : Type*} (apply : σ → Bytes → Bytes → σ × Bool)

/-- One turn of the loop on the variables and the count. `apply` is `__cfg_apply_string`, which
says whether it returned `XTC_OK`. -/
def loadLine (st : σ × ℕ) (line : Bytes) : σ × ℕ :=
  match parseLine line with
  | some kv => ((apply st.1 kv.1 kv.2).1, st.2 + (apply st.1 kv.1 kv.2).2.toNat)
  | none => st

/-- `xtc_cfg_load_file`: the variables after the file, and the return code. -/
def loadFile (s : σ) (file : Bytes) : σ × ℕ :=
  (chunks 2047 [] file).foldl (loadLine apply) (s, 0)

/-- The newline that `fgets` leaves at the end is trimmed. -/
theorem parseLine_newline (line : Bytes) : parseLine (line ++ [10]) = parseLine line := by
  have htrim (l : Bytes) : trim (l ++ [10]) = trim l := by
    rw [trim, trim, dropWhile_append]
    split
    · next hnil => rw [isEmpty_iff.mp hnil]; rfl
    · exact rdropWhile_concat_pos _ _ _ rfl
  have hcut : trim ((line ++ [10]).takeWhile (· ≠ 0)) = trim (line.takeWhile (· ≠ 0)) := by
    rw [takeWhile_append]
    split
    · next hall =>
      rw [(takeWhile_sublist _).eq_of_length hall]
      exact htrim line
    · rfl
  unfold parseLine
  rw [hcut]

/-- Where no line is longer than the buffer, the chunks set what the lines set. -/
theorem filterMap_chunks {size : ℕ} {cur file : Bytes} (hcur : cur.length < size)
    (h : ∀ line ∈ splitOnPPrepend (· == 10) file cur.reverse, line.length ≤ size) :
    (chunks size cur file).filterMap parseLine =
      (splitOnPPrepend (· == 10) file cur.reverse).filterMap parseLine := by
  induction file generalizing cur with
  | nil =>
    rw [chunks, splitOnPPrepend_nil, reverse_reverse]
    split
    · next hnil => rw [hnil]; rfl
    · rfl
  | cons c rest ih =>
    have hrest := @ih [] (Nat.zero_lt_of_lt hcur)
    rw [reverse_nil, splitOnPPrepend_nil_right] at hrest
    rw [chunks]
    by_cases hc : c = 10
    · subst hc
      rw [splitOnPPrepend_cons_pos rfl, reverse_reverse] at h ⊢
      rw [if_pos (.inl rfl), filterMap_cons, filterMap_cons, parseLine_newline,
        hrest fun line hline => h line (.tail _ hline)]
    · rw [splitOnPPrepend_cons_neg (by simpa using hc), ← reverse_concat] at h ⊢
      by_cases hfull : cur.length + 1 = size
      · -- the buffer is full, so the line ends here
        rw [splitOnPPrepend_eq_modifyHead, reverse_reverse] at h ⊢
        rw [if_pos (.inr hfull), filterMap_cons]
        cases hlines : splitOnP (· == 10) rest with
        | nil => exact absurd hlines (splitOnP_ne_nil _ _)
        | cons first others =>
          rw [hlines] at h hrest
          have hfirst := h _ mem_cons_self
          simp only [length_append, length_singleton] at hfirst
          obtain rfl : first = [] := eq_nil_of_length_eq_zero (by omega)
          rw [hrest, modifyHead_cons, append_nil, filterMap_cons]
          · rfl
          · exact forall_mem_cons.mpr ⟨Nat.zero_le _, fun line hline => h line (.tail _ hline)⟩
      · rw [if_neg (by simp [hc, hfull])]
        refine ih ?_ h
        rw [length_append, length_singleton]
        omega

end LibXtc.Cfg

import Mathlib.Data.List.Infix

/-!
# Codes that mark their own end

A code is self-delimiting if what follows a code word cannot change which word it is. Such words
can be written one after the other: whoever reads them from the front reads the words written, in
their order.
-/

namespace LibXtc.Foundations

open List

variable {α β : Type*}

/-- Words are not empty, and no continuation makes one word read as another. -/
structure SelfDelimiting (code : α → List β) (valid : α → Prop) : Prop where
  ne_nil : ∀ a, valid a → code a ≠ []
  inj : ∀ a b x y, valid a → valid b → code a ++ x = code b ++ y → a = b

/-- The words at the front of a sequence of words are a prefix of that sequence. -/
theorem SelfDelimiting.isPrefix {code : α → List β} {valid : α → Prop}
    (h : SelfDelimiting code valid) {as bs : List α} {x : List β} (has : ∀ a ∈ as, valid a)
    (hbs : ∀ b ∈ bs, valid b) (heq : as.flatMap code ++ x = bs.flatMap code) : as <+: bs := by
  induction as generalizing bs with
  | nil => exact nil_prefix
  | cons a as ih =>
    have ha := has a mem_cons_self
    rw [flatMap_cons, append_assoc] at heq
    cases bs with
    | nil => exact absurd (append_eq_nil_iff.mp heq).1 (h.ne_nil a ha)
    | cons b bs =>
      obtain rfl := h.inj a b _ _ ha (hbs b mem_cons_self) heq
      refine cons_prefix_cons.mpr ⟨rfl, ih (fun c hc => has c (mem_cons_of_mem a hc))
        (fun c hc => hbs c (mem_cons_of_mem a hc)) (append_cancel_left heq)⟩

end LibXtc.Foundations

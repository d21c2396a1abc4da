import Mathlib.Data.List.Basic

/-!
# Folding a partial function

A fold of `f : β → α → Option β` over a list ends as soon as `f` has no value.  Two rules: an
element at which `f` never has a value ends every fold over a list that contains it
(`foldlM_eq_none`), and where `f` agrees with a total `g` the fold is that of `g`
(`foldlM_eq_foldl`).
-/

namespace PartialFold

variable {α β : Type*} {f : β → α → Option β} {g : β → α → β}

/-- An element without a value. -/
theorem foldlM_eq_none {l : List α} {a : α} (ha : a ∈ l) (hf : ∀ b, f b a = none) (b : β) :
    l.foldlM f b = none := by
  induction l generalizing b with
  | nil => exact absurd ha List.not_mem_nil
  | cons x l ih =>
    rw [List.foldlM_cons]
    rcases List.mem_cons.mp ha with rfl | hmem
    · rw [hf]
      rfl
    · cases f b x with
      | none => rfl
      | some b' => exact ih hmem b'

/-- **The total fold.**  `P l b` is what holds when `l` is left to be folded into `b`. -/
theorem foldlM_eq_foldl {P : List α → β → Prop}
    (hstep : ∀ a l b, P (a :: l) b → f b a = some (g b a) ∧ P l (g b a)) {l : List α} {b : β}
    (h : P l b) : l.foldlM f b = some (l.foldl g b) := by
  induction l generalizing b with
  | nil => rfl
  | cons a l ih =>
    obtain ⟨hval, hrest⟩ := hstep a l b h
    rw [List.foldlM_cons, hval, List.foldl_cons]
    exact ih hrest

/-- What every step keeps. -/
theorem foldl_invariant {P : β → Prop} (hstep : ∀ b a, P b → P (g b a)) (l : List α) {b : β}
    (h : P b) : P (l.foldl g b) := by
  induction l generalizing b with
  | nil => exact h
  | cons a l ih => exact ih (hstep b a h)

end PartialFold

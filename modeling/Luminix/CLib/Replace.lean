import Mathlib.Data.List.Infix

/-!
# Replacing occurrences

`Replaced w v l r n`: `r` is `l` with `v` in place of the `n` leftmost occurrences of `w` that do not
overlap.  A program that looks at one element after another finds them, too
(`ScanReplaced.replaced`).
-/

namespace CLib

variable {α : Type*}

/-- Every leftmost occurrence of `w` that does not overlap with another is replaced by `v`. -/
inductive Replaced (w v : List α) : (l r : List α) → (n : Nat) → Prop
  /-- `w` does not occur any more. -/
  | last {l : List α} (hnone : ¬w <:+: l) : Replaced w v l l 0
  /-- No occurrence begins in `a`, and one begins behind it. -/
  | cut {a l r : List α} {n : Nat} (hfirst : ∀ k < a.length, ¬w <+: (a ++ (w ++ l)).drop k)
      (hrest : Replaced w v l r n) : Replaced w v (a ++ (w ++ l)) (a ++ (v ++ r)) (n + 1)

/-- The same, looking at one element after another. -/
inductive ScanReplaced (w v : List α) : (l r : List α) → (n : Nat) → Prop
  | nil : ScanReplaced w v [] [] 0
  | skip {c : α} {l r : List α} {n : Nat} (hnone : ¬w <+: c :: l) (hrest : ScanReplaced w v l r n) :
      ScanReplaced w v (c :: l) (c :: r) n
  | cut {l r : List α} {n : Nat} (hrest : ScanReplaced w v l r n) :
      ScanReplaced w v (w ++ l) (v ++ r) (n + 1)

variable {w v l r : List α} {n : Nat}

theorem exists_scanReplaced (hw : w ≠ []) (v l : List α) : ∃ r n, ScanReplaced w v l r n := by
  classical
  induction hlength : l.length using Nat.strong_induction_on generalizing l with
  | _ k ih =>
  by_cases hpre : w <+: l
  · obtain ⟨t, rfl⟩ := hpre
    have hpos := List.length_pos_iff.mpr hw
    rw [List.length_append] at hlength
    obtain ⟨r, n, hrest⟩ := ih t.length (by omega) t rfl
    exact ⟨v ++ r, n + 1, .cut hrest⟩
  · cases l with
    | nil => exact ⟨[], 0, .nil⟩
    | cons c t =>
      rw [List.length_cons] at hlength
      obtain ⟨r, n, hrest⟩ := ih t.length (by omega) t rfl
      exact ⟨c :: r, n, .skip hpre hrest⟩

/-- **Looking at one element after another finds the leftmost occurrences.** -/
theorem ScanReplaced.replaced (h : ScanReplaced w v l r n) (hw : w ≠ []) : Replaced w v l r n := by
  induction h with
  | nil => exact .last fun h => hw (List.infix_nil.mp h)
  | @skip c l r n hnone _ ih =>
    cases ih with
    | last hlast => exact .last fun h => (List.infix_cons_iff.mp h).elim hnone hlast
    | @cut a l r n hfirst hrest =>
      refine .cut (a := c :: a) (fun k hk => ?_) hrest
      cases k with
      | zero => exact hnone
      | succ k => exact hfirst k (Nat.lt_of_succ_lt_succ hk)
  | cut _ ih => exact .cut (a := []) (fun k hk => absurd hk (Nat.not_lt_zero k)) ih

/-- Every replacement changes the length alike. -/
theorem ScanReplaced.length_add (h : ScanReplaced w v l r n) :
    r.length + n * w.length = l.length + n * v.length := by
  induction h with
  | nil => rw [Nat.zero_mul, Nat.zero_mul]
  | skip _ _ ih =>
    simp only [List.length_cons]
    omega
  | cut _ ih =>
    simp only [List.length_append, Nat.add_mul, Nat.one_mul]
    omega

theorem ScanReplaced.mem {c : α} (h : ScanReplaced w v l r n) (hc : c ∈ r) : c ∈ l ∨ c ∈ v := by
  induction h with
  | nil => exact .inl hc
  | skip _ _ ih =>
    rcases List.mem_cons.mp hc with rfl | hc
    · exact .inl List.mem_cons_self
    · exact (ih hc).imp_left (List.mem_cons_of_mem _)
  | cut _ ih =>
    rcases List.mem_append.mp hc with hc | hc
    · exact .inr hc
    · exact (ih hc).imp_left (List.mem_append_right _)

end CLib

import Mathlib.Data.List.TakeWhile

/-!
# Scanning

`scanSet` is a conversion of `sscanf` with a set of characters and a width, as in `%63[^=]`.
-/

namespace CLib

variable {α : Type*}

/-- As many characters of the set as there are, up to `n` and at least one, and what stands behind
them. -/
def scanSet (n : Nat) (p : α → Bool) (l : List α) : Option (List α × List α) :=
  if (l.take n).takeWhile p = [] then none
  else some ((l.take n).takeWhile p, l.drop ((l.take n).takeWhile p).length)

variable {n : Nat} {p : α → Bool} {c : α} {w l r : List α}

/-- The scan ends at the first character that is not in the set. -/
theorem scanSet_append_cons (hw : ∀ d ∈ w, p d = true) (hc : p c = false) (hne : w ≠ [])
    (hlength : w.length < n) (r : List α) : scanSet n p (w ++ c :: r) = some (w, c :: r) := by
  obtain ⟨k, rfl⟩ := Nat.exists_eq_add_of_lt hlength
  have htake : (w ++ c :: r).take (w.length + k + 1) = w ++ c :: r.take k := by
    rw [Nat.add_assoc, List.take_length_add_append, List.take_succ_cons]
  have hscan : (w ++ c :: r.take k).takeWhile p = w := by
    rw [List.takeWhile_append_of_pos hw, List.takeWhile_cons_of_neg (by simp [hc]), List.append_nil]
  rw [scanSet, htake, hscan, if_neg hne, List.drop_left]

/-- Or where the width is used up. -/
theorem scanSet_of_forall (hl : ∀ d ∈ l, p d = true) (hne : l ≠ []) (hn : 0 < n) :
    scanSet n p l = some (l.take n, l.drop n) := by
  have hscan : (l.take n).takeWhile p = l.take n :=
    List.takeWhile_eq_self_iff.mpr fun d hd => hl d (List.mem_of_mem_take hd)
  have htake : l.take n ≠ [] := fun h => (List.take_eq_nil_iff.mp h).elim hn.ne' hne
  rw [scanSet, hscan, if_neg htake, List.length_take, ← List.drop_eq_drop_min]

theorem length_scanSet_le (h : scanSet n p l = some (w, r)) : w.length ≤ n := by
  rw [scanSet] at h
  split_ifs at h
  obtain ⟨rfl, -⟩ := Prod.mk.inj (Option.some.inj h)
  exact (List.takeWhile_prefix p).length_le.trans (List.length_take_le n l)

end CLib

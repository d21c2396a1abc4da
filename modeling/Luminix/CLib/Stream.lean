import Mathlib.Data.List.Basic

/-!
# Reading a file line by line

`fgetsLine` is what one call of `fgets` reads, and `fileLines` what all calls read up to the end of
the file.  A line that fits in the buffer is read in one call, with its line break
(`fileLines_line`); one that fills the buffer is followed by a text that is the line break alone
(`fileLines_full`).
-/

namespace CLib

/-- What a call of `fgets` reads of the rest of a file, up to `n` bytes and no further than a line
break, and what it leaves. -/
def fgetsLine : (n : Nat) → List UInt8 → List UInt8 × List UInt8
  | 0, l => ([], l)
  | _ + 1, [] => ([], [])
  | n + 1, c :: l =>
    if c = 10 then ([c], l) else (c :: (fgetsLine n l).1, (fgetsLine n l).2)

/-- The loop over the calls of `fgets` with a buffer of `size` bytes. -/
def fgetsAll (size : Nat) : (fuel : Nat) → List UInt8 → List (List UInt8)
  | 0, _ => []
  | fuel + 1, l =>
    if l = [] then []
    else (fgetsLine (size - 1) l).1 :: fgetsAll size fuel (fgetsLine (size - 1) l).2

/-- The texts that `fgets` reads before it returns `NULL` at the end of the file. -/
def fileLines (size : Nat) (l : List UInt8) : List (List UInt8) := fgetsAll size l.length l

/-! ### One call -/

variable {w : List UInt8}

theorem length_fgetsLine_lt {n : Nat} (hn : 0 < n) {l : List UInt8} (hl : l ≠ []) :
    (fgetsLine n l).2.length < l.length := by
  have hle : ∀ n l, (fgetsLine n l).2.length ≤ l.length := by
    intro n
    induction n with
    | zero => exact fun _ => Nat.le_refl _
    | succ n ih =>
      intro l
      cases l with
      | nil => exact Nat.le_refl _
      | cons c l =>
        rw [fgetsLine]
        split_ifs
        · exact Nat.le_succ _
        · exact Nat.le_succ_of_le (ih l)
  obtain ⟨n, rfl⟩ := Nat.exists_eq_add_of_lt hn
  obtain ⟨c, l, rfl⟩ := List.exists_cons_of_ne_nil hl
  rw [fgetsLine]
  split_ifs
  · exact Nat.lt_succ_self _
  · exact Nat.lt_succ_of_le (hle _ l)

theorem fgetsLine_line (hw : (10 : UInt8) ∉ w) (m : Nat) (l : List UInt8) :
    fgetsLine (w.length + m + 1) (w ++ 10 :: l) = (w ++ [10], l) := by
  induction w with
  | nil => rfl
  | cons c w ih =>
    have hne : c ≠ 10 := fun h => hw (by simp [h])
    have hlength : (c :: w).length + m + 1 = w.length + m + 1 + 1 := by
      rw [List.length_cons]
      omega
    rw [hlength, List.cons_append, fgetsLine, if_neg hne,
      ih fun h => hw (List.mem_cons_of_mem _ h)]
    rfl

theorem fgetsLine_full (hw : (10 : UInt8) ∉ w) (l : List UInt8) :
    fgetsLine w.length (w ++ l) = (w, l) := by
  induction w with
  | nil => rfl
  | cons c w ih =>
    have hne : c ≠ 10 := fun h => hw (by simp [h])
    rw [List.length_cons, List.cons_append, fgetsLine, if_neg hne,
      ih fun h => hw (List.mem_cons_of_mem _ h)]

theorem fgetsLine_last (hw : (10 : UInt8) ∉ w) (m : Nat) : fgetsLine (w.length + m) w = (w, []) := by
  induction w with
  | nil => cases m <;> rfl
  | cons c w ih =>
    have hne : c ≠ 10 := fun h => hw (by simp [h])
    have hlength : (c :: w).length + m = w.length + m + 1 := by
      rw [List.length_cons]
      omega
    rw [hlength, fgetsLine, if_neg hne, ih fun h => hw (List.mem_cons_of_mem _ h)]

/-! ### All calls -/

variable {size : Nat}

theorem fgetsAll_congr (hsize : 1 < size) {fuel fuel' : Nat} {l : List UInt8}
    (hfuel : l.length ≤ fuel) (hfuel' : l.length ≤ fuel') :
    fgetsAll size fuel l = fgetsAll size fuel' l := by
  induction fuel generalizing fuel' l with
  | zero =>
    obtain rfl : l = [] := List.length_eq_zero_iff.mp (Nat.le_zero.mp hfuel)
    cases fuel' <;> rfl
  | succ fuel ih =>
    cases fuel' with
    | zero =>
      obtain rfl : l = [] := List.length_eq_zero_iff.mp (Nat.le_zero.mp hfuel')
      rfl
    | succ fuel' =>
      rw [fgetsAll, fgetsAll]
      split_ifs with hl
      · rfl
      · have hlt := @length_fgetsLine_lt (size - 1) (by omega) l hl
        exact congrArg _ (ih (by omega) (by omega))

theorem fileLines_of_ne_nil (hsize : 1 < size) {l : List UInt8} (hl : l ≠ []) :
    fileLines size l = (fgetsLine (size - 1) l).1 :: fileLines size (fgetsLine (size - 1) l).2 := by
  obtain ⟨n, hn⟩ := Nat.exists_eq_add_of_lt (List.length_pos_iff.mpr hl)
  have hlt := @length_fgetsLine_lt (size - 1) (by omega) l hl
  rw [fileLines, hn, Nat.zero_add, fgetsAll, if_neg hl, fileLines]
  congr 1
  exact fgetsAll_congr hsize (by omega) (Nat.le_refl _)

@[simp] theorem fileLines_nil (size : Nat) : fileLines size [] = [] := rfl

/-- A line with its line break. -/
theorem fileLines_line (hw : (10 : UInt8) ∉ w) (hlength : w.length + 1 < size) (l : List UInt8) :
    fileLines size (w ++ 10 :: l) = (w ++ [10]) :: fileLines size l := by
  have hn : size - 1 = w.length + (size - 2 - w.length) + 1 := by omega
  rw [fileLines_of_ne_nil (by omega) (by simp), hn, fgetsLine_line hw]

/-- A line that fills the buffer, and its line break on its own. -/
theorem fileLines_full (hw : (10 : UInt8) ∉ w) (hne : w ≠ []) (hlength : w.length + 1 = size)
    (l : List UInt8) : fileLines size (w ++ 10 :: l) = w :: [10] :: fileLines size l := by
  have hpos := List.length_pos_iff.mpr hne
  have hn : size - 1 = w.length := by omega
  have hbreak := @fileLines_line [] size List.not_mem_nil (by rw [List.length_nil]; omega) l
  rw [fileLines_of_ne_nil (by omega) (by simp), hn, fgetsLine_full hw]
  exact congrArg _ hbreak

/-- The last line, without a line break. -/
theorem fileLines_last (hw : (10 : UInt8) ∉ w) (hne : w ≠ []) (hlength : w.length < size) :
    fileLines size w = [w] := by
  have hpos := List.length_pos_iff.mpr hne
  have hn : size - 1 = w.length + (size - 1 - w.length) := by omega
  rw [fileLines_of_ne_nil (by omega) hne, hn, fgetsLine_last hw]
  rfl

/-- Some lines one after another. -/
theorem fileLines_flatMap {α : Type*} {f : α → List UInt8} {xs : List α}
    (h : ∀ x ∈ xs, (10 : UInt8) ∉ f x ∧ (f x).length + 1 < size) :
    fileLines size (xs.flatMap fun x => f x ++ [10]) = xs.map fun x => f x ++ [10] := by
  induction xs with
  | nil => rfl
  | cons x xs ih =>
    obtain ⟨hbreak, hlength⟩ := h x List.mem_cons_self
    rw [List.flatMap_cons, List.append_assoc, List.singleton_append, fileLines_line hbreak hlength,
      ih fun y hy => h y (List.mem_cons_of_mem x hy), List.map_cons]

end CLib

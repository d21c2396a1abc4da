import Mathlib.Data.List.Basic
import Mathlib.Tactic.SplitIfs

/-!
# Buffers

A buffer is the list of its cells, and its size is the length of the list.  `writeAt` writes into it
from an index on, and has no result where a cell is outside; `writeAll` makes several writes one after
another.
-/

namespace CLib

variable {α : Type*}

/-- Writing `bs` from index `i` on. -/
def writeAt (buffer : List α) (i : Nat) (bs : List α) : Option (List α) :=
  if i + bs.length ≤ buffer.length then
    some (buffer.take i ++ (bs ++ buffer.drop (i + bs.length)))
  else none

/-- One write after another, each with the index where it begins. -/
def writeAll (buffer : List α) : List (Int × List α) → Option (List α)
  | [] => some buffer
  | (i, bs) :: writes =>
    if i < 0 then none
    else do
      let buffer ← writeAt buffer i.toNat bs
      writeAll buffer writes

/-- `realloc`: the buffer has `n` cells then, and those behind the old ones hold `fresh`. -/
def realloc (fresh : Nat → α) (n : Nat) (buffer : List α) : List α :=
  buffer.take n ++ (List.range (n - buffer.length)).map fresh

variable {a b bs buffer : List α} {i : Nat}

/-- **A write behind what has been written.** -/
theorem writeAt_append (hi : a.length = i) (h : bs.length ≤ b.length) :
    writeAt (a ++ b) i bs = some (a ++ (bs ++ b.drop bs.length)) := by
  subst hi
  rw [writeAt, if_pos (by rw [List.length_append]; omega), List.take_left, List.drop_append,
    List.drop_eq_nil_of_le (by omega), List.nil_append, Nat.add_sub_cancel_left]

theorem exists_writeAt (h : i + bs.length ≤ buffer.length) : ∃ b, writeAt buffer i bs = some b :=
  ⟨_, if_pos h⟩

theorem writeAll_cons (hi : a.length = i) (h : bs.length ≤ b.length) (writes : List (Int × List α)) :
    writeAll (a ++ b) (((i : Int), bs) :: writes) = writeAll (a ++ (bs ++ b.drop bs.length)) writes := by
  rw [writeAll, if_neg (by omega), Int.toNat_natCast, writeAt_append hi h]
  rfl

theorem prefix_realloc {n : Nat} (h : buffer.length ≤ n) (fresh : Nat → α) :
    buffer <+: realloc fresh n buffer := by
  rw [realloc, List.take_of_length_le h]
  exact List.prefix_append _ _

@[simp] theorem length_realloc (fresh : Nat → α) (n : Nat) (buffer : List α) :
    (realloc fresh n buffer).length = n := by
  simp only [realloc, List.length_append, List.length_take, List.length_map, List.length_range]
  omega

/-- The size stays. -/
theorem length_writeAt (h : writeAt a i bs = some b) : b.length = a.length := by
  rw [writeAt] at h
  split_ifs at h with hle
  obtain rfl := Option.some.inj h
  simp only [List.length_append, List.length_take, List.length_drop]
  omega

/-- **A write at the end of what the buffer holds** appends to it, if there is room. -/
theorem exists_writeAt_prefix {l : List α} (h : l <+: buffer)
    (hroom : l.length + bs.length ≤ buffer.length) :
    ∃ b, writeAt buffer l.length bs = some b ∧ l ++ bs <+: b ∧ b.length = buffer.length := by
  obtain ⟨r, rfl⟩ := h
  rw [List.length_append] at hroom
  have hle : bs.length ≤ r.length := by omega
  have hwrite := writeAt_append (a := l) rfl hle
  refine ⟨_, hwrite, ?_, length_writeAt hwrite⟩
  rw [← List.append_assoc]
  exact List.prefix_append _ _

end CLib

import Mathlib.Data.List.TakeDrop
import Mathlib.Data.List.GetD

/-!
# Reading and writing at an offset

The bytes of a file, as `read` and `write` at an offset see them.  A write behind the end of the
file leaves a gap of zeros, so byte for byte the file is a function that is zero where nothing has
been written (`byteAt_pwrite`), and after any writes each byte is that of the last one that covered
it (`byteAt_pwrites`).
-/

namespace CLib

/-- The file after `data` has been written at `offset`. -/
def pwrite (file : List UInt8) (offset : Nat) (data : List UInt8) : List UInt8 :=
  if data = [] then file
  else (file ++ List.replicate (offset - file.length) 0).take offset ++ data ++
    file.drop (offset + data.length)

/-- At most `n` bytes from `offset` on. -/
def pread (file : List UInt8) (offset n : Nat) : List UInt8 := (file.drop offset).take n

/-- The byte at `k`, or zero behind the end. -/
def byteAt (file : List UInt8) (k : Nat) : UInt8 := file.getD k 0

/-- The file after some writes, the first one first. -/
def pwrites (file : List UInt8) (writes : List (Nat × List UInt8)) : List UInt8 :=
  writes.foldl (fun file w => pwrite file w.1 w.2) file

/-- The byte that the last of the writes that covers `k` has put there. -/
def lastWritten (k : Nat) : List (Nat × List UInt8) → Option UInt8
  | [] => none
  | (offset, data) :: writes =>
    (lastWritten k writes).or (if offset ≤ k then data[k - offset]? else none)

variable {file data : List UInt8} {offset k n : Nat}

/-! ### Lengths -/

/-- A write makes the file as long as it has to be, and never shorter. -/
theorem length_pwrite (hdata : data ≠ []) (file : List UInt8) (offset : Nat) :
    (pwrite file offset data).length = max file.length (offset + data.length) := by
  rw [pwrite, if_neg hdata]
  simp only [List.length_append, List.length_take, List.length_replicate, List.length_drop]
  omega

theorem length_le_pwrite (file : List UInt8) (offset : Nat) (data : List UInt8) :
    file.length ≤ (pwrite file offset data).length := by
  by_cases hdata : data = []
  · have heq : pwrite file offset data = file := if_pos hdata
    exact Nat.le_of_eq (congrArg List.length heq.symm)
  · rw [length_pwrite hdata]
    exact Nat.le_max_left _ _

@[simp] theorem length_pread (file : List UInt8) (offset n : Nat) :
    (pread file offset n).length = min n (file.length - offset) := by
  rw [pread, List.length_take, List.length_drop]

/-! ### Bytes -/

theorem byteAt_eq_zero (h : file.length ≤ k) : byteAt file k = 0 := by
  rw [byteAt, List.getD_eq_default _ _ h]

/-- **A write changes the bytes it covers, and no others.** -/
theorem byteAt_pwrite (file : List UInt8) (offset : Nat) (data : List UInt8) (k : Nat) :
    byteAt (pwrite file offset data) k =
      ((if offset ≤ k then data[k - offset]? else none).getD (byteAt file k)) := by
  by_cases hdata : data = []
  · subst hdata
    rw [pwrite, if_pos rfl]
    split_ifs <;> rfl
  · have hfront : ((file ++ List.replicate (offset - file.length) 0).take offset).length =
        offset := by
      rw [List.length_take, List.length_append, List.length_replicate]
      omega
    rw [pwrite, if_neg hdata, byteAt, List.getD_eq_getElem?_getD, List.append_assoc]
    by_cases hk : offset ≤ k
    · rw [if_pos hk, List.getElem?_append_right (by omega), hfront]
      by_cases hin : k - offset < data.length
      · rw [List.getElem?_append_left hin, List.getElem?_eq_getElem hin]
        rfl
      · rw [List.getElem?_append_right (by omega), List.getElem?_drop,
          List.getElem?_eq_none (by omega : data.length ≤ k - offset)]
        have hplace : offset + data.length + (k - offset - data.length) = k := by omega
        rw [hplace, byteAt, List.getD_eq_getElem?_getD]
        rfl
    · -- in front of the write: a byte of the file, or a zero of the gap
      rw [if_neg hk, List.getElem?_append_left (by omega), List.getElem?_take_of_lt (by omega)]
      by_cases hin : k < file.length
      · rw [List.getElem?_append_left hin, byteAt, List.getD_eq_getElem?_getD]
        rfl
      · rw [List.getElem?_append_right (by omega), byteAt_eq_zero (by omega),
          List.getElem?_replicate_of_lt (by omega)]
        rfl

/-- **The last write that covers a byte decides it.** -/
theorem byteAt_pwrites (file : List UInt8) (writes : List (Nat × List UInt8)) (k : Nat) :
    byteAt (pwrites file writes) k = (lastWritten k writes).getD (byteAt file k) := by
  induction writes generalizing file with
  | nil => rfl
  | cons w writes ih =>
    obtain ⟨offset, data⟩ := w
    have hrest := ih (pwrite file offset data)
    rw [byteAt_pwrite] at hrest
    rw [lastWritten]
    refine hrest.trans ?_
    cases lastWritten k writes <;> rfl

/-- What is read is what is there. -/
theorem getElem?_pread (h : k < (pread file offset n).length) :
    (pread file offset n)[k]? = some (byteAt file (offset + k)) := by
  rw [length_pread] at h
  rw [pread, List.getElem?_take_of_lt (by omega), List.getElem?_drop, byteAt,
    List.getD_eq_getElem?_getD, List.getElem?_eq_getElem (by omega : offset + k < file.length)]
  rfl

end CLib

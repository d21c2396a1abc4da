import Luminix.DynamicArray
import Mathlib.Data.List.Flatten
import Mathlib.Data.List.ReduceOption

/-!
# A dynamic array is a list

`DynamicArray.Holds` says which elements an array holds.  Pushing appends to them and never writes
outside of the block, whatever the calls; `dynamic_array_get` finds them at their places and nothing
behind them; and at most half of a block that has grown is unused (`dynamic_array_list`).
-/

namespace Luminix

open CLib

/-- The array holds the elements, at the beginning of its block. -/
structure DynamicArray.Holds (array : DynamicArray) (elements : List (List UInt8)) : Prop where
  size_eq : array.size = elements.length
  lengths : ∀ e ∈ elements, e.length = array.elementSize
  data_prefix : elements.flatten <+: array.data
  length_data : array.data.length = array.capacity * array.elementSize
  size_le : array.size ≤ array.capacity
  capacity_pos : 0 < array.capacity
  capacity_le : array.capacity ≤ max arrayInitialCapacity (2 * array.size)

/-- Elements of one size are at multiples of it. -/
theorem length_flatten_of_lengths {elements : List (List UInt8)} {n : Nat}
    (h : ∀ e ∈ elements, e.length = n) : elements.flatten.length = elements.length * n := by
  induction elements with
  | nil => simp
  | cons e elements ih =>
    obtain ⟨he, hrest⟩ := List.forall_mem_cons.mp h
    rw [List.flatten_cons, List.length_append, he, ih hrest, List.length_cons, Nat.succ_mul,
      Nat.add_comm]

theorem take_drop_flatten {elements : List (List UInt8)} {n : Nat}
    (h : ∀ e ∈ elements, e.length = n) {i : Nat} (hi : i < elements.length) (r : List UInt8) :
    ((elements.flatten ++ r).drop (i * n)).take n = elements[i] := by
  induction elements generalizing i with
  | nil => simp at hi
  | cons e elements ih =>
    obtain ⟨he, hrest⟩ := List.forall_mem_cons.mp h
    cases i with
    | zero =>
      rw [Nat.zero_mul, List.drop_zero, List.flatten_cons, List.append_assoc, List.getElem_cons_zero,
        List.take_append_of_le_length (by omega), List.take_of_length_le (by omega)]
    | succ i =>
      have hdrop : (i + 1) * n = e.length + i * n := by rw [Nat.succ_mul, he, Nat.add_comm]
      rw [List.flatten_cons, List.append_assoc, hdrop, ← List.drop_drop, List.drop_left,
        List.getElem_cons_succ]
      exact ih hrest (by simpa using hi)

variable {array : DynamicArray} {elements : List (List UInt8)}

/-- A new array holds nothing. -/
theorem holds_createDynamicArray (fresh : Nat → UInt8) (elementSize : Nat) :
    (createDynamicArray fresh elementSize).Holds [] where
  size_eq := rfl
  lengths := by simp
  data_prefix := List.nil_prefix
  length_data := length_realloc _ _ _
  size_le := Nat.zero_le _
  capacity_pos := Nat.succ_pos 99
  capacity_le := Nat.le_max_left _ _

/-- A block that is full is doubled, and keeps what it holds. -/
theorem DynamicArray.Holds.withRoom (h : array.Holds elements) (fresh : Nat → UInt8) :
    (array.withRoom fresh).size = array.size ∧
      (array.withRoom fresh).elementSize = array.elementSize ∧
      elements.flatten <+: (array.withRoom fresh).data ∧
      (array.withRoom fresh).data.length = (array.withRoom fresh).capacity * array.elementSize ∧
      array.size < (array.withRoom fresh).capacity ∧
      (array.withRoom fresh).capacity ≤ max arrayInitialCapacity (2 * (array.size + 1)) := by
  have hpos := h.capacity_pos
  have hle := h.size_le
  have hcapacity := h.capacity_le
  unfold DynamicArray.withRoom
  split_ifs with hfull
  · refine ⟨rfl, rfl, ?_, length_realloc _ _ _, ?_, ?_⟩
    · have hgrow : array.data.length ≤ array.capacity * 2 * array.elementSize := by
        rw [h.length_data]
        exact Nat.mul_le_mul_right _ (by omega)
      exact h.data_prefix.trans (prefix_realloc hgrow fresh)
    · dsimp only
      omega
    · dsimp only
      omega
  · exact ⟨rfl, rfl, h.data_prefix, h.length_data, by omega, by omega⟩

/-- **Pushing appends**, and stays within the block. -/
theorem DynamicArray.Holds.push (h : array.Holds elements) (fresh : Nat → UInt8) {e : List UInt8}
    (he : e.length = array.elementSize) :
    ∃ array', dynamicArrayPush fresh array (some e) = some array' ∧
      array'.Holds (elements ++ [e]) ∧ array'.elementSize = array.elementSize := by
  obtain ⟨hsize, helement, hprefix, hlength, hroom, hcapacity⟩ := h.withRoom fresh
  have hflatten : elements.flatten.length = array.size * array.elementSize := by
    rw [length_flatten_of_lengths h.lengths, h.size_eq]
  have hfits : elements.flatten.length + e.length ≤ (array.withRoom fresh).data.length := by
    rw [hflatten, he, hlength, ← Nat.succ_mul]
    exact Nat.mul_le_mul_right _ hroom
  -- the element is written right behind the others
  obtain ⟨data, hwrite, hdata, hlength'⟩ := exists_writeAt_prefix hprefix hfits
  refine ⟨{ array.withRoom fresh with data, size := (array.withRoom fresh).size + 1 }, ?_, ?_,
    helement⟩
  · have htake : e.take array.elementSize = e := List.take_of_length_le (Nat.le_of_eq he)
    rw [dynamicArrayPush]
    dsimp only
    rw [hsize, helement, ← hflatten, htake, hwrite]
    rfl
  · constructor
    · rw [List.length_append, List.length_singleton, ← h.size_eq, ← hsize]
    · intro e' he'
      rw [helement]
      rcases List.mem_append.mp he' with hold | hnew
      · exact h.lengths e' hold
      · obtain rfl := List.mem_singleton.mp hnew
        exact he
    · rw [List.flatten_append, List.flatten_singleton]
      exact hdata
    · rw [hlength', hlength, helement]
    · rw [hsize]
      exact hroom
    · exact Nat.zero_lt_of_lt hroom
    · rw [hsize]
      exact hcapacity

/-- What is found in the array. -/
theorem DynamicArray.Holds.get (h : array.Holds elements) (i : Nat) :
    dynamicArrayGet array i = elements[i]? := by
  rw [dynamicArrayGet, h.size_eq]
  split_ifs with hi
  · exact (List.getElem?_eq_none hi).symm
  · obtain ⟨r, hr⟩ := h.data_prefix
    rw [← hr, take_drop_flatten h.lengths (Nat.not_le.mp hi),
      List.getElem?_eq_getElem (Nat.not_le.mp hi)]

theorem DynamicArray.Holds.pushAll (h : array.Holds elements) (fresh : Nat → UInt8)
    {pushed : List (Option (List UInt8))}
    (hpushed : ∀ e ∈ pushed.reduceOption, e.length = array.elementSize) :
    ∃ array', Luminix.pushAll fresh array pushed = some array' ∧
      array'.Holds (elements ++ pushed.reduceOption) := by
  induction pushed generalizing array elements with
  | nil =>
    refine ⟨array, rfl, ?_⟩
    rw [List.reduceOption_nil, List.append_nil]
    exact h
  | cons e pushed ih =>
    cases e with
    | none => exact ih h hpushed
    | some e =>
      rw [List.reduceOption_cons_of_some, List.forall_mem_cons] at hpushed
      obtain ⟨array₁, heq, h₁, helement⟩ := h.push fresh hpushed.1
      obtain ⟨array', heq', h'⟩ := ih h₁ (helement.symm ▸ hpushed.2)
      refine ⟨array', ?_, ?_⟩
      · rw [Luminix.pushAll, heq]
        exact heq'
      · rw [List.reduceOption_cons_of_some, List.append_cons]
        exact h'

/-- **A dynamic array is the list of what has been pushed.**  Whatever is pushed, elements of the
size of the array or null, nothing is written outside of the block; the elements are found at their
places, and nothing behind them; and the block has no room for more than twice as many. -/
theorem dynamicArray_list (fresh : Nat → UInt8) {elementSize : Nat}
    {pushed : List (Option (List UInt8))}
    (h : ∀ e ∈ pushed.reduceOption, e.length = elementSize) :
    ∃ array, pushAll fresh (createDynamicArray fresh elementSize) pushed = some array ∧
      array.size = pushed.reduceOption.length ∧
      (∀ i, dynamicArrayGet array i = pushed.reduceOption[i]?) ∧
      array.size ≤ array.capacity ∧
      array.capacity ≤ max arrayInitialCapacity (2 * array.size) := by
  obtain ⟨array, heq, hholds⟩ := (holds_createDynamicArray fresh elementSize).pushAll fresh h
  exact ⟨array, heq, hholds.size_eq, hholds.get, hholds.size_le, hholds.capacity_le⟩

/-- Two elements of four bytes, and a null pointer between them. -/
theorem dynamicArray_list_two :
    ∃ array, pushAll (fun _ => 0) (createDynamicArray (fun _ => 0) 4)
        [some [1, 2, 3, 4], none, some [5, 6, 7, 8]] = some array ∧
      array.size = 2 ∧ dynamicArrayGet array 1 = some [5, 6, 7, 8] := by
  have hfour : ∀ e ∈ [some [1, 2, 3, 4], none, some [(5 : UInt8), 6, 7, 8]].reduceOption,
      e.length = 4 := by decide
  obtain ⟨array, heq, hsize, hget, -⟩ := dynamicArray_list (fun _ => 0) hfour
  exact ⟨array, heq, hsize, hget 1⟩

end Luminix

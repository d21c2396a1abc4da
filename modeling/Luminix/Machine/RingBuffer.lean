import Mathlib.Data.List.Chain
import Mathlib.Data.List.DropRight
import Mathlib.Data.List.GetD
import Mathlib.Logic.Function.Basic

/-!
# Ring buffers

An array that is written round and round, with the index of the next write and the number of entries.
Its contents, from the oldest entry on, are the last `n` of all that was pushed (`contents_push`).
-/

/-- `n` slots, the one that is written next, and how many hold an entry. -/
structure RingBuffer (α : Type*) (n : Nat) where
  slots : Fin n → α
  index : Nat
  count : Nat
  index_lt : index < n
  count_le : count ≤ n

namespace RingBuffer

variable {α : Type*} {n : Nat}

theorem size_pos (b : RingBuffer α n) : 0 < n := Nat.zero_lt_of_lt b.index_lt

/-- A buffer without entries. -/
def empty (x : α) (hn : 0 < n) : RingBuffer α n := ⟨fun _ => x, 0, 0, hn, Nat.zero_le n⟩

/-- The slot at an index that may have gone beyond the end. -/
def slot (b : RingBuffer α n) (i : Nat) : α := b.slots ⟨i % n, Nat.mod_lt i b.size_pos⟩

/-- The slot that is written next. -/
def next (b : RingBuffer α n) : α := b.slots ⟨b.index, b.index_lt⟩

/-- Writing an entry. -/
def push (b : RingBuffer α n) (x : α) : RingBuffer α n where
  slots := Function.update b.slots ⟨b.index, b.index_lt⟩ x
  index := (b.index + 1) % n
  count := if b.count < n then b.count + 1 else b.count
  index_lt := Nat.mod_lt _ b.size_pos
  count_le := by
    have := b.count_le
    split_ifs <;> omega

/-- The entries, from the oldest one on. -/
def contents (b : RingBuffer α n) : List α :=
  (List.range b.count).map fun i => b.slot ((b.index + n - b.count) % n + i)

@[simp] theorem length_contents (b : RingBuffer α n) : b.contents.length = b.count := by
  simp [contents]

/-! ### Indices -/

theorem slot_mod_add (b : RingBuffer α n) (i j : Nat) : b.slot (i % n + j) = b.slot (i + j) := by
  unfold slot
  congr 2
  exact Nat.mod_add_mod i n j

theorem slot_index (b : RingBuffer α n) : b.slot b.index = b.next := by
  unfold slot next
  congr 2
  exact Nat.mod_eq_of_lt b.index_lt

/-- A slot is not met again before a whole round. -/
theorem add_mod_ne {i k : Nat} (hi : i < n) (hpos : 0 < k) (hk : k < n) : (i + k) % n ≠ i := by
  rcases Nat.lt_or_ge (i + k) n with h | h
  · rw [Nat.mod_eq_of_lt h]
    omega
  · rw [Nat.mod_eq_sub_mod h, Nat.mod_eq_of_lt (by omega)]
    omega

theorem slot_push_of_ne (b : RingBuffer α n) (x : α) {k : Nat} (hpos : 0 < k) (hk : k < n) :
    (b.push x).slot (b.index + k) = b.slot (b.index + k) := by
  have hne := add_mod_ne b.index_lt hpos hk
  exact Function.update_of_ne (fun h => hne (Fin.mk.inj h)) x b.slots

theorem slot_push_self (b : RingBuffer α n) (x : α) : (b.push x).slot (b.index + n) = x := by
  have hindex : (b.index + n) % n = b.index := by
    rw [Nat.add_mod_right, Nat.mod_eq_of_lt b.index_lt]
  have hslot : (⟨(b.index + n) % n, Nat.mod_lt _ b.size_pos⟩ : Fin n) = ⟨b.index, b.index_lt⟩ :=
    Fin.ext hindex
  rw [slot, hslot]
  exact Function.update_self _ x b.slots

/-! ### Contents -/

theorem contents_eq (b : RingBuffer α n) :
    b.contents = (List.range b.count).map fun i => b.slot (b.index + (n - b.count + i)) := by
  refine List.map_congr_left fun i _ => ?_
  have := b.count_le
  rw [slot_mod_add]
  congr 1
  omega

/-- The oldest entry of a full buffer stands in the slot that is written next. -/
theorem head?_contents (b : RingBuffer α n) (h : b.count = n) : b.contents.head? = some b.next := by
  have := b.size_pos
  rw [contents_eq, List.head?_map, List.head?_range, if_neg (by omega), ← slot_index, h, Nat.sub_self]
  rfl

theorem contents_push_of_lt (b : RingBuffer α n) (x : α) (h : b.count < n) :
    (b.push x).contents = b.contents ++ [x] := by
  have hcount : (b.push x).count = b.count + 1 := if_pos h
  have hindex : (b.push x).index = (b.index + 1) % n := rfl
  rw [contents_eq, contents_eq, hcount, hindex, List.range_succ, List.map_append]
  congr 1
  · refine List.map_congr_left fun i hi => ?_
    have hi := List.mem_range.mp hi
    have hslot : b.index + 1 + (n - (b.count + 1) + i) = b.index + (n - b.count + i) := by omega
    rw [slot_mod_add, hslot, slot_push_of_ne b x (by omega) (by omega)]
  · have hslot : b.index + 1 + (n - (b.count + 1) + b.count) = b.index + n := by omega
    rw [List.map_singleton, slot_mod_add, hslot, slot_push_self]

theorem contents_push_of_full (b : RingBuffer α n) (x : α) (h : b.count = n) :
    (b.push x).contents = b.contents.tail ++ [x] := by
  have hcount : (b.push x).count = b.count := if_neg (by omega)
  have hindex : (b.push x).index = (b.index + 1) % n := rfl
  obtain ⟨m, hm⟩ := Nat.exists_eq_add_of_lt b.size_pos
  have hsucc : b.count = m + 1 := by omega
  have htail : b.contents.tail =
      (List.range m).map fun i => b.slot (b.index + (n - (m + 1) + (i + 1))) := by
    rw [contents_eq, hsucc, List.range_succ_eq_map, List.map_cons, List.tail_cons, List.map_map]
    rfl
  rw [htail, contents_eq, hcount, hindex, hsucc, List.range_succ, List.map_append]
  congr 1
  · refine List.map_congr_left fun i hi => ?_
    have hi := List.mem_range.mp hi
    have hslot : b.index + 1 + (n - (m + 1) + i) = b.index + (n - (m + 1) + (i + 1)) := by omega
    rw [slot_mod_add, hslot, slot_push_of_ne b x (by omega) (by omega)]
  · have hslot : b.index + 1 + (n - (m + 1) + m) = b.index + n := by omega
    rw [List.map_singleton, slot_mod_add, hslot, slot_push_self]

/-- **What has been pushed is the newest entry**, and the oldest one goes if there is no room. -/
theorem contents_push (b : RingBuffer α n) (x : α) :
    (b.push x).contents = (b.contents ++ [x]).rtake n := by
  have hlength : (b.contents ++ [x]).length = b.count + 1 := by simp
  rcases Nat.lt_or_eq_of_le b.count_le with h | h
  · have hdrop : b.count + 1 - n = 0 := by omega
    rw [contents_push_of_lt b x h, List.rtake, hlength, hdrop, List.drop_zero]
  · have hdrop : b.count + 1 - n = 1 := by omega
    have hpos := b.size_pos
    have hne : b.contents ≠ [] := by
      rw [← List.length_pos_iff, length_contents]
      omega
    rw [contents_push_of_full b x h, List.rtake, hlength, hdrop, List.drop_one,
      List.tail_append_of_ne_nil hne]

/-! ### Vacant slots -/

/-- Until the buffer is full, the slots that have not been written hold `x`. -/
def Vacant (x : α) (b : RingBuffer α n) : Prop :=
  b.count < n → b.index = b.count ∧ ∀ i (hi : i < n), b.count ≤ i → b.slots ⟨i, hi⟩ = x

theorem vacant_empty (x : α) (hn : 0 < n) : (empty x hn).Vacant x :=
  fun _ => ⟨rfl, fun _ _ _ => rfl⟩

theorem Vacant.next {x : α} {b : RingBuffer α n} (h : b.Vacant x) (hcount : b.count < n) :
    b.next = x := by
  obtain ⟨hindex, hslots⟩ := h hcount
  exact hslots b.index b.index_lt (by omega)

theorem Vacant.push {x : α} {b : RingBuffer α n} (h : b.Vacant x) (y : α) : (b.push y).Vacant x := by
  intro hlt
  have hcount : (b.push y).count = if b.count < n then b.count + 1 else b.count := rfl
  rw [hcount] at hlt ⊢
  split_ifs at hlt ⊢ with hroom
  · obtain ⟨hindex, hslots⟩ := h hroom
    refine ⟨?_, fun i hi hle => ?_⟩
    · show (b.index + 1) % n = b.count + 1
      rw [hindex, Nat.mod_eq_of_lt hlt]
    · have hne : (⟨i, hi⟩ : Fin n) ≠ ⟨b.index, b.index_lt⟩ := fun h => by
        have := Fin.mk.inj h
        omega
      show Function.update b.slots ⟨b.index, b.index_lt⟩ y ⟨i, hi⟩ = x
      rw [Function.update_of_ne hne]
      exact hslots i hi (by omega)
  · exact absurd hlt hroom

end RingBuffer

import Luminix.CLib.FixedWidth
import Luminix.Equiv.Wire

/-!
# Numbers and their buffer

The length that `json_serialize_field_value` passes on for a floating-point value is the one of the
text `snprintf` had to print, which need not be the text it has stored (`number_stored_iff`).
-/

namespace Luminix

open CLib

/-- How many characters `snprintf` stores in a buffer of `size` bytes, besides the terminator. -/
def snprintfStored (size : Nat) (text : List UInt8) : Nat := (text.take (size - 1)).length

/-- A `FLOAT` or a `DOUBLE` that is neither infinite nor a NaN. -/
def FiniteNumber (f : Field) : Prop :=
  (f.type = .float ∧ binary32.isFinite f.value.floatBits = true) ∨
    (f.type = .double ∧ binary64.isFinite f.value.doubleBits = true)

/-- The value has at most 24 digits in front of the point if it is a `FLOAT`, at most 20 if it is a
`DOUBLE`, and one digit less if it is negative. -/
def NumberFits (f : Field) : Prop :=
  if f.type = .float then
    -10 ^ 23 < binary32.value f.value.floatBits ∧ binary32.value f.value.floatBits < 10 ^ 24
  else -10 ^ 19 < binary64.value f.value.doubleBits ∧ binary64.value f.value.doubleBits < 10 ^ 20

theorem snprintfStored_eq (size : Nat) (text : List UInt8) :
    snprintfStored size text = min (size - 1) text.length :=
  List.length_take

theorem length_floatText_lt_iff {f : Field} (hf : FiniteNumber f) :
    (floatText f).length < numberBufferSize ↔ NumberFits f := by
  rw [numberBufferSize, Nat.lt_succ_iff, floatText, NumberFits]
  rcases hf with ⟨htype, hfinite⟩ | ⟨htype, hfinite⟩
  · rw [if_pos htype, if_pos htype]
    exact @length_fixedText_le_iff binary32 f.value.floatBits 23 6 hfinite (by norm_num [binary32])
  · have hne : f.type ≠ .float := by simp [htype]
    rw [if_neg hne, if_neg hne]
    exact @length_fixedText_le_iff binary64 f.value.doubleBits 19 10 hfinite (by norm_num [binary64])

/-- **No more is appended of a number than has been stored** exactly if its value is not too
large. -/
theorem number_stored_iff (f : Field) (hf : FiniteNumber f) :
    (∀ p s, jsonSerializeFieldValue p s f =
      s.append p (p.snprintf numberBufferSize (floatText f)) (floatText f).length) ∧
    ((floatText f).length ≤ snprintfStored numberBufferSize (floatText f) ↔ NumberFits f) := by
  constructor
  · intro p s
    rcases hf with ⟨htype, -⟩ | ⟨htype, -⟩ <;> rw [jsonSerializeFieldValue, htype] <;> rfl
  · rw [← length_floatText_lt_iff hf, snprintfStored_eq, numberBufferSize]
    omega

/-- `1.0` as a `FLOAT`. -/
theorem number_stored_one : let f : Field := ⟨default, .float, FieldValue.zero.setFloatBits 0x3f800000⟩
    (floatText f).length ≤ snprintfStored numberBufferSize (floatText f) ↔ NumberFits f :=
  (number_stored_iff _ (.inl ⟨rfl, by decide⟩)).2

/-- `2^80` as a `FLOAT` has 25 digits, a point and six decimals. -/
theorem number_overrun : ¬∀ f : Field, FiniteNumber f →
    (floatText f).length ≤ snprintfStored numberBufferSize (floatText f) := by
  intro h
  have hle := h ⟨default, .float, FieldValue.zero.setFloatBits 0x67800000⟩
    (.inl ⟨rfl, by decide⟩)
  exact absurd hle (by decide)

end Luminix

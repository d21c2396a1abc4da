import Luminix.Types

/-!
# The members of the value union

What is read through one member after a value was stored through another.  `Field.content` is what a
field says, read through the member its type names.
-/

namespace Luminix

open CLib

namespace FieldValue

theorem bytes_store (v : FieldValue) {bs : List UInt8} (h : bs.length ≤ maxFieldLen) :
    (v.store bs).bytes = bs ++ v.bytes.drop bs.length := by
  have hlen : (bs ++ v.bytes.drop bs.length).length ≤ maxFieldLen := by
    have := v.size_eq
    rw [List.length_append, List.length_drop]
    omega
  show (bs ++ v.bytes.drop bs.length).take maxFieldLen = _
  exact List.take_of_length_le hlen

/-! ### Integers -/

theorem isInt_intValue (v : FieldValue) : IsInt v.intValue := by
  rw [intValue, intOfBytes]
  exact isInt_intWrap _

theorem bytes_setInt (v : FieldValue) (n : Int) : (v.setInt n).bytes = intBytes n ++ v.bytes.drop 4 := by
  have hlen : (intBytes n).length ≤ maxFieldLen := (length_intBytes n).trans_le (by decide)
  have h := v.bytes_store hlen
  rwa [length_intBytes] at h

theorem intValue_setInt (v : FieldValue) {n : Int} (h : IsInt n) : (v.setInt n).intValue = n := by
  rw [intValue, bytes_setInt, intOfBytes_intBytes h]

/-- The byte of `bool_value`. -/
def boolByte (v : FieldValue) : UInt8 := v.bytes.headD 0

/-- The byte of a `bool_value` read from an `int_value` is its lowest one. -/
theorem boolByte_setInt (v : FieldValue) (n : Int) :
    ((v.setInt n).boolByte.toNat : Int) = n % 256 := by
  have hhead : (v.setInt n).boolByte = UInt8.ofNat (n % 4294967296).toNat := by
    rw [boolByte, bytes_setInt]
    rfl
  rw [hhead, UInt8.toNat_ofNat']
  show (((n % 4294967296).toNat % 256 : Nat) : Int) = n % 256
  omega

/-! ### Booleans -/

theorem boolByte_setBool (v : FieldValue) (b : Bool) :
    (v.setBool b).boolByte = if b then 1 else 0 := by
  have hlen : [if b then (1 : UInt8) else 0].length ≤ maxFieldLen := by
    show 1 ≤ 256
    omega
  rw [boolByte, setBool, v.bytes_store hlen]
  rfl

theorem boolValue_setBool (v : FieldValue) (b : Bool) : (v.setBool b).boolValue = b := by
  show ((v.setBool b).boolByte != 0) = b
  rw [boolByte_setBool]
  cases b <;> rfl

/-! ### Strings -/

/-- A string in a zeroed union is padded with NULs. -/
theorem bytes_setString (v : FieldValue) (s : CString) : (v.setString s).bytes =
    s.bytes.take (maxFieldLen - 1) ++
      List.replicate (maxFieldLen - (s.bytes.take (maxFieldLen - 1)).length) 0 := by
  have hle : (s.bytes.take (maxFieldLen - 1)).length ≤ maxFieldLen - 1 := List.length_take_le _ _
  have hlen : (s.bytes.take (maxFieldLen - 1) ++ List.replicate
      (maxFieldLen - (s.bytes.take (maxFieldLen - 1)).length) (0 : UInt8)).length = maxFieldLen := by
    rw [List.length_append, List.length_replicate]
    omega
  have hdrop : v.bytes.drop maxFieldLen = [] := List.drop_eq_nil_of_le v.size_eq.le
  have h := v.bytes_store hlen.le
  rw [hlen, hdrop, List.append_nil] at h
  exact h

/-- **A string is read back** up to the size of the buffer. -/
theorem stringValue_setString (v : FieldValue) (s : CString) :
    (v.setString s).stringValue = s.truncate (maxFieldLen - 1) := by
  have hle : (s.bytes.take (maxFieldLen - 1)).length ≤ maxFieldLen - 1 := List.length_take_le _ _
  have hpos : maxFieldLen - (s.bytes.take (maxFieldLen - 1)).length =
      (maxFieldLen - 1 - (s.bytes.take (maxFieldLen - 1)).length) + 1 := by
    have : 0 < maxFieldLen := by decide
    omega
  apply CString.ext
  rw [stringValue, bytes_setString, hpos, List.replicate_succ]
  exact CString.ofBytes_append_zero (s.truncate (maxFieldLen - 1)).nulFree _

/-- A string whose first four bytes are overwritten with an integer is the same string exactly if it
starts with the bytes of the integer, up to the first that is zero. -/
theorem stringValue_setInt_setString_iff (v : FieldValue) {s : CString} (hs : s.length < maxFieldLen)
    (n : Int) : ((v.setString s).setInt n).stringValue = s ↔
      s.bytes.take 4 = (CString.ofBytes (intBytes n)).bytes := by
  have hlen : s.bytes.length ≤ maxFieldLen - 1 := Nat.le_sub_one_of_lt hs
  have hbytes : ((v.setString s).setInt n).bytes =
      intBytes n ++ (s.bytes.drop 4 ++ List.replicate (maxFieldLen - s.bytes.length - (4 - s.bytes.length)) 0) := by
    rw [bytes_setInt, bytes_setString, List.take_of_length_le hlen, List.drop_append,
      List.drop_replicate]
  have htail : (s.bytes.drop 4 ++ List.replicate
      (maxFieldLen - s.bytes.length - (4 - s.bytes.length)) (0 : UInt8)).takeWhile (· ≠ 0) =
        s.bytes.drop 4 := by
    have hall : ∀ c ∈ s.bytes.drop 4, decide (c ≠ 0) = true := fun c hc => by
      simpa using fun h0 : c = 0 => s.nulFree (h0 ▸ List.mem_of_mem_drop hc)
    rw [List.takeWhile_append_of_pos hall]
    have hzeros : ∀ k, (List.replicate k (0 : UInt8)).takeWhile (· ≠ 0) = [] := by
      intro k
      cases k <;> rfl
    rw [hzeros, List.append_nil]
  have hread : ((v.setString s).setInt n).stringValue.bytes =
      if ((intBytes n).takeWhile (· ≠ 0)).length = 4 then intBytes n ++ s.bytes.drop 4
      else (intBytes n).takeWhile (· ≠ 0) := by
    show ((v.setString s).setInt n).bytes.takeWhile (· ≠ 0) = _
    rw [hbytes, List.takeWhile_append, length_intBytes, htail]
  have hofBytes : (CString.ofBytes (intBytes n)).bytes = (intBytes n).takeWhile (· ≠ 0) := rfl
  rw [CString.ext_iff, hread, hofBytes]
  by_cases h : ((intBytes n).takeWhile (· ≠ 0)).length = 4
  · -- No byte of the integer is zero, and the rest of the string follows.
    have hself : (intBytes n).takeWhile (· ≠ 0) = intBytes n :=
      (List.takeWhile_prefix _).eq_of_length (h.trans (length_intBytes n).symm)
    rw [if_pos h, hself]
    constructor
    · intro heq
      rw [← heq, List.take_append_of_le_length (length_intBytes n).ge,
        List.take_of_length_le (length_intBytes n).le]
    · intro heq
      rw [← heq, List.take_append_drop]
  · -- The string ends at the first zero byte.
    have hlt : ((intBytes n).takeWhile (· ≠ 0)).length < 4 := by
      have := (List.takeWhile_prefix (p := (· ≠ 0)) (l := intBytes n)).length_le
      rw [length_intBytes] at this
      omega
    rw [if_neg h]
    constructor
    · intro heq
      rw [heq] at hlt
      rw [heq, List.take_of_length_le hlt.le]
    · intro heq
      rw [← heq, List.length_take] at hlt
      rw [← heq, List.take_of_length_le (by omega)]

end FieldValue

/-! ### What a field says -/

/-- A value, as a member of the union. -/
inductive Content
  | int (n : Int) | string (s : CString) | float (bits : Nat) | double (bits : Nat) | bool (b : Bool)
  | datetime (t : Int) | null | bytes (type : FieldType) (value : FieldValue)
  deriving DecidableEq

/-- The value read through the member that the type names. -/
def Field.content (f : Field) : Content :=
  match f.type with
  | .int => .int f.value.intValue
  | .string => .string f.value.stringValue
  | .float => .float f.value.floatBits
  | .double => .double f.value.doubleBits
  | .bool => .bool f.value.boolValue
  | .datetime => .datetime f.value.timeValue
  | .null => .null
  | .blob => .bytes .blob f.value
  | .unknown => .bytes .unknown f.value

end Luminix

import Mathlib.Data.List.TakeWhile
import Mathlib.Data.List.Basic

/-!
# Byte text and C strings

A text is a `List UInt8`.  `CString` is a NUL-free text: what a `char *` points to, up to and
without its terminator.  `CString.ofBytes` reads a buffer up to its first NUL, and
`CString.truncate` is what `strncpy` followed by a terminator in the last cell leaves behind.
-/

namespace CLib

/-- The bytes of a literal. -/
def ascii (s : String) : List UInt8 := s.toByteArray.data.toList

/-! ### Character classes of the C locale -/

/-- `isspace`: tab, newline, vertical tab, form feed, carriage return and blank. -/
def isSpace (c : UInt8) : Bool := c == 32 || (9 ≤ c && c ≤ 13)

/-- `isdigit`. -/
def isDigit (c : UInt8) : Bool := 48 ≤ c && c ≤ 57

/-- `tolower` on ASCII. -/
def toLower (c : UInt8) : UInt8 := if 65 ≤ c && c ≤ 90 then c + 32 else c

theorem isSpace_of_isDigit {c : UInt8} (h : isDigit c = true) : isSpace c = false := by
  simp only [isSpace, isDigit, Bool.and_eq_true, decide_eq_true_eq, Bool.or_eq_false_iff,
    Bool.and_eq_false_iff, beq_eq_false_iff_ne, decide_eq_false_iff_not, UInt8.le_iff_toNat_le,
    ← UInt8.toNat_inj, ne_eq, UInt8.reduceToNat] at *
  omega

/-! ### Strings without a NUL -/

/-- A NUL-free byte string. -/
structure CString where
  bytes : List UInt8
  nulFree : (0 : UInt8) ∉ bytes
  deriving DecidableEq

namespace CString

@[ext] theorem ext {s t : CString} (h : s.bytes = t.bytes) : s = t := by
  cases s; cases t; simpa using h

/-- The string a buffer holds: its bytes up to the first NUL. -/
def ofBytes (l : List UInt8) : CString where
  bytes := l.takeWhile (· ≠ 0)
  nulFree h := by simpa using List.mem_takeWhile_imp h

/-- `strlen`. -/
def length (s : CString) : Nat := s.bytes.length

/-- The first `n` bytes, all that fits in a buffer of `n + 1`. -/
def truncate (n : Nat) (s : CString) : CString where
  bytes := s.bytes.take n
  nulFree h := s.nulFree (List.mem_of_mem_take h)

/-- The string that begins at `s + n`. -/
def drop (n : Nat) (s : CString) : CString where
  bytes := s.bytes.drop n
  nulFree h := s.nulFree (List.mem_of_mem_drop h)

/-- What `strcat (s, t)` makes of `s`. -/
def append (s t : CString) : CString where
  bytes := s.bytes ++ t.bytes
  nulFree h := (List.mem_append.mp h).elim s.nulFree t.nulFree

/-- `strcasecmp (s, t) == 0`. -/
def eqIgnoreCase (s t : CString) : Bool := s.bytes.map toLower == t.bytes.map toLower

instance : Inhabited CString := ⟨⟨[], by simp⟩⟩

/-- A text without a NUL is read back whole. -/
theorem bytes_ofBytes {l : List UInt8} (h : (0 : UInt8) ∉ l) : (ofBytes l).bytes = l := by
  apply List.takeWhile_eq_self_iff.mpr
  intro c hc
  simp only [ne_eq, decide_not, Bool.not_eq_eq_eq_not, Bool.not_true, decide_eq_false_iff_not]
  exact fun h0 => h (h0 ▸ hc)

@[simp] theorem ofBytes_bytes (s : CString) : ofBytes s.bytes = s :=
  ext (bytes_ofBytes s.nulFree)

/-- Whatever stands after the terminator is not read. -/
theorem ofBytes_append_zero {l : List UInt8} (h : (0 : UInt8) ∉ l) (r : List UInt8) :
    (ofBytes (l ++ 0 :: r)).bytes = l := by
  have hl : ∀ c ∈ l, decide (c ≠ 0) = true := fun c hc => by
    simpa using fun h0 : c = 0 => h (h0 ▸ hc)
  show (l ++ 0 :: r).takeWhile (· ≠ 0) = l
  rw [List.takeWhile_append_of_pos hl]
  simp

@[simp] theorem bytes_truncate (n : Nat) (s : CString) :
    (s.truncate n).bytes = s.bytes.take n := rfl

/-- A string that fits is not cut. -/
theorem truncate_eq_self {n : Nat} {s : CString} (h : s.length ≤ n) : s.truncate n = s :=
  ext (List.take_of_length_le h)

@[simp] theorem bytes_append (s t : CString) : (s.append t).bytes = s.bytes ++ t.bytes := rfl

@[simp] theorem length_append (s t : CString) : (s.append t).length = s.length + t.length :=
  List.length_append

theorem length_truncate_le (n : Nat) (s : CString) : (s.truncate n).length ≤ n :=
  List.length_take_le n s.bytes

end CString

/-- The C string of an ASCII literal. -/
def cstr (s : String) : CString := CString.ofBytes (ascii s)

end CLib

import Luminix.CLib.CString
import Mathlib.Algebra.Group.Nat.Defs

/-!
# Hexadecimal numbers

`hexByte` is what `printf` prints for `%02X`, and `scanHex` what `scanf` makes of `%X` with a width.
The latter takes more than hexadecimal digits: white space, a sign and the prefix `0x` may stand in
front of them (`isSome_scanHex_pair`).
-/

namespace CLib

/-- `isxdigit`. -/
def isXDigit (c : UInt8) : Bool := isDigit c || (65 ≤ c && c ≤ 70) || (97 ≤ c && c ≤ 102)

/-- The number a hexadecimal digit stands for. -/
def xDigitValue (c : UInt8) : Nat :=
  if isDigit c then c.toNat - 48 else if c ≤ 70 then c.toNat - 55 else c.toNat - 87

/-- The number hexadecimal digits stand for. -/
def xDigitsValue (l : List UInt8) : Nat := l.foldl (fun n c => 16 * n + xDigitValue c) 0

/-- A hexadecimal digit, in upper case. -/
def upperXDigit (n : Nat) : UInt8 := UInt8.ofNat (if n < 10 then 48 + n else 55 + n)

/-- What `printf` prints for `%02X` and a byte. -/
def hexByte (c : UInt8) : List UInt8 := [upperXDigit (c.toNat / 16), upperXDigit (c.toNat % 16)]

/-- A hexadecimal digit, in lower case. -/
def lowerXDigit (n : Nat) : UInt8 := UInt8.ofNat (if n < 10 then 48 + n else 87 + n)

/-- What `printf` prints for `%0` with a width and `lx`, for a number with no more digits. -/
def paddedHex : (width : Nat) → (n : Nat) → List UInt8
  | 0, _ => []
  | width + 1, n => paddedHex width (n / 16) ++ [lowerXDigit (n % 16)]

/-- The text behind a sign, and whether this is a minus sign. -/
def scanSign : List UInt8 → Bool × List UInt8
  | 43 :: l => (false, l)
  | 45 :: l => (true, l)
  | l => (false, l)

/-- The text behind `0x`. -/
def skipHexPrefix : List UInt8 → List UInt8
  | 48 :: 120 :: l => l
  | 48 :: 88 :: l => l
  | l => l

/-- The `unsigned int` that `sscanf` reads by `%X` with a width, if it reads one. -/
def scanHex (width : Nat) (l : List UInt8) : Option Nat :=
  let field := scanSign ((l.dropWhile isSpace).take width)
  let digits := (skipHexPrefix field.2).takeWhile isXDigit
  let value : Int := xDigitsValue digits
  if digits = [] then none else some ((if field.1 then -value else value) % 4294967296).toNat

/-! ### Two characters -/

variable {a b : UInt8}

theorem isXDigit_upperXDigit {n : Nat} (h : n < 16) : isXDigit (upperXDigit n) = true := by
  have hall : ∀ n < 16, isXDigit (upperXDigit n) = true := by decide
  exact hall n h

/-- A byte that has been printed is read back. -/
theorem scanHex_hexByte (c : UInt8) : scanHex 2 (hexByte c) = some c.toNat := by
  have hall : ∀ n < 16, ∀ m < 16,
      scanHex 2 [upperXDigit n, upperXDigit m] = some (16 * n + m) := by decide
  have hlt := c.toNat_lt
  rw [hexByte, hall _ (by omega) _ (by omega), Nat.div_add_mod]

theorem isXDigit_of_isSpace (h : isSpace a = true) : isXDigit a = false := by
  simp only [isXDigit, isDigit, isSpace, Bool.or_eq_true, Bool.and_eq_true, decide_eq_true_eq,
    Bool.or_eq_false_iff, Bool.and_eq_false_iff, beq_iff_eq, decide_eq_false_iff_not,
    UInt8.le_iff_toNat_le, ← UInt8.toNat_inj, UInt8.reduceToNat] at h ⊢
  omega

/-- The characters in front of a digit that `%2X` reads. -/
def isHexLead (c : UInt8) : Bool := isSpace c || c == 43 || c == 45

/-- Two characters that `%2X` reads: a digit first, unless `0x` is made of it, or one digit behind
white space or a sign. -/
def readsHexPair (a b : UInt8) : Bool :=
  isXDigit a && !(a == 48 && (b == 120 || b == 88)) || isHexLead a && isXDigit b

theorem scanSign_of_ne (h43 : a ≠ 43) (h45 : a ≠ 45) (l : List UInt8) :
    scanSign (a :: l) = (false, a :: l) := by
  unfold scanSign
  split
  case h_1 h => exact absurd (List.cons.inj h).1 h43
  case h_2 h => exact absurd (List.cons.inj h).1 h45
  · rfl

/-- A number is read exactly if there is a digit where digits may begin. -/
theorem isSome_scanHex (width : Nat) (l : List UInt8) : (scanHex width l).isSome =
    (skipHexPrefix (scanSign ((l.dropWhile isSpace).take width)).2).head?.any isXDigit := by
  rw [scanHex]
  cases skipHexPrefix (scanSign ((l.dropWhile isSpace).take width)).2 with
  | nil => rfl
  | cons c r => cases hc : isXDigit c <;> simp [hc]

theorem skipHexPrefix_pair (a b : UInt8) :
    (skipHexPrefix [a, b]).head?.any isXDigit =
      (isXDigit a && !(a == 48 && (b == 120 || b == 88))) := by
  unfold skipHexPrefix
  split
  case h_1 h =>
    cases h
    rfl
  case h_2 h =>
    cases h
    rfl
  case h_3 h120 h88 =>
    have hnotMark : (a == 48 && (b == 120 || b == 88)) = false := by
      rw [Bool.eq_false_iff]
      intro h
      simp only [Bool.and_eq_true, Bool.or_eq_true, beq_iff_eq] at h
      obtain ⟨rfl, rfl | rfl⟩ := h
      · exact h120 [] rfl
      · exact h88 [] rfl
    rw [hnotMark]
    simp

theorem skipHexPrefix_singleton (b : UInt8) : skipHexPrefix [b] = [b] := by
  unfold skipHexPrefix
  split
  case h_1 h => cases h
  case h_2 h => cases h
  · rfl

/-- One character is read if it is a digit. -/
theorem scanSign_singleton (b : UInt8) :
    (skipHexPrefix (scanSign [b]).2).head?.any isXDigit = isXDigit b := by
  by_cases hsign : b = 43 ∨ b = 45
  · rcases hsign with rfl | rfl <;> rfl
  · rw [not_or] at hsign
    rw [scanSign_of_ne hsign.1 hsign.2, skipHexPrefix_singleton]
    rfl

/-- **What `%2X` reads of two characters.** -/
theorem isSome_scanHex_pair (a b : UInt8) : (scanHex 2 [a, b]).isSome = readsHexPair a b := by
  rw [isSome_scanHex, readsHexPair, isHexLead]
  by_cases hspace : isSpace a = true
  · rw [List.dropWhile_cons_of_pos hspace, isXDigit_of_isSpace hspace, hspace]
    by_cases hblank : isSpace b = true
    · rw [List.dropWhile_cons_of_pos hblank, isXDigit_of_isSpace hblank]
      rfl
    · rw [List.dropWhile_cons_of_neg hblank]
      exact scanSign_singleton b
  · rw [List.dropWhile_cons_of_neg hspace, Bool.eq_false_iff.mpr hspace, Bool.false_or]
    by_cases hsign : a = 43 ∨ a = 45
    · -- a sign takes one of the two characters
      have hrest : (skipHexPrefix [b]).head?.any isXDigit = isXDigit b := by
        rw [skipHexPrefix_singleton]
        rfl
      rcases hsign with rfl | rfl <;> exact hrest
    · rw [not_or] at hsign
      rw [List.take_of_length_le (by simp), scanSign_of_ne hsign.1 hsign.2, skipHexPrefix_pair,
        beq_eq_false_iff_ne.mpr hsign.1, beq_eq_false_iff_ne.mpr hsign.2]
      exact (Bool.or_false _).symm

/-! ### Padded numbers -/

@[simp] theorem length_paddedHex (width n : Nat) : (paddedHex width n).length = width := by
  induction width generalizing n with
  | zero => rfl
  | succ width ih => rw [paddedHex, List.length_append, ih, List.length_singleton]

theorem isXDigit_of_mem_paddedHex {width n : Nat} {c : UInt8} (hc : c ∈ paddedHex width n) :
    isXDigit c = true := by
  have hall : ∀ d < 16, isXDigit (lowerXDigit d) = true := by decide
  induction width generalizing n with
  | zero => cases hc
  | succ width ih =>
    rw [paddedHex, List.mem_append, List.mem_singleton] at hc
    rcases hc with hc | rfl
    · exact ih hc
    · exact hall _ (Nat.mod_lt _ (by decide))

/-- The first digits are those of the quotient. -/
theorem paddedHex_add (width k n : Nat) :
    paddedHex (width + k) n = paddedHex width (n / 16 ^ k) ++ paddedHex k n := by
  induction k generalizing n with
  | zero => rw [Nat.pow_zero, Nat.div_one, paddedHex, List.append_nil, Nat.add_zero]
  | succ k ih =>
    rw [← Nat.add_assoc, paddedHex, ih, Nat.div_div_eq_div_mul, ← Nat.pow_succ', paddedHex,
      List.append_assoc]

theorem take_paddedHex {width k : Nat} (h : k ≤ width) (n : Nat) :
    (paddedHex width n).take k = paddedHex k (n / 16 ^ (width - k)) := by
  obtain ⟨j, rfl⟩ := Nat.exists_eq_add_of_le h
  rw [paddedHex_add, Nat.add_sub_cancel_left]
  exact List.take_left' (length_paddedHex _ _)

/-- A number that has been printed is read back, up to its width. -/
theorem xDigitsValue_paddedHex (width n : Nat) :
    xDigitsValue (paddedHex width n) = n % 16 ^ width := by
  have hall : ∀ d < 16, xDigitValue (lowerXDigit d) = d := by decide
  induction width generalizing n with
  | zero => rw [Nat.pow_zero, Nat.mod_one]; rfl
  | succ width ih =>
    have hsnoc : xDigitsValue (paddedHex (width + 1) n) =
        16 * xDigitsValue (paddedHex width (n / 16)) + xDigitValue (lowerXDigit (n % 16)) := by
      rw [paddedHex, xDigitsValue, List.foldl_append]
      rfl
    rw [hsnoc, ih, hall _ (Nat.mod_lt _ (by decide)), Nat.pow_succ', Nat.mod_mul]
    omega

end CLib

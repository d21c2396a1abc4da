import Luminix.CLib.Integer

/-!
# IEEE 754 values: comparison and fixed-point text

A binary floating-point value is given by its bits.  `ieeeEq` is the `==` of C, and `fixedText` is
what `printf` prints for `%.pf`: all integer digits, a point and `p` decimals, rounded half to even,
or one of the words for infinities and NaNs.
-/

namespace CLib

/-- The layout of a binary interchange format: widths of the exponent and of the fraction. -/
structure IeeeFormat where
  expBits : Nat
  fracBits : Nat

/-- The format of `float`. -/
def binary32 : IeeeFormat := ⟨8, 23⟩

/-- The format of `double`. -/
def binary64 : IeeeFormat := ⟨11, 52⟩

namespace IeeeFormat

variable (F : IeeeFormat) (bits : Nat)

def fraction : Nat := bits % 2 ^ F.fracBits

def exponent : Nat := bits / 2 ^ F.fracBits % 2 ^ F.expBits

def isNegative : Bool := bits / 2 ^ (F.fracBits + F.expBits) % 2 == 1

/-- Infinities and NaNs have the largest exponent. -/
def isFinite : Bool := F.exponent bits != 2 ^ F.expBits - 1

def isNaN : Bool := !F.isFinite bits && F.fraction bits != 0

def isZero : Bool := F.exponent bits == 0 && F.fraction bits == 0

/-- The integer significand of a finite value, which is `significand * 2 ^ (scale - bias)`. -/
def significand : Nat :=
  if F.exponent bits = 0 then F.fraction bits else F.fraction bits + 2 ^ F.fracBits

def scale : Nat := max (F.exponent bits) 1

/-- What is subtracted from `scale`. -/
def bias : Nat := 2 ^ (F.expBits - 1) - 1 + F.fracBits

/-- `a == b`: NaNs differ from everything, and the two zeros are equal. -/
def ieeeEq (a b : Nat) : Bool :=
  !F.isNaN a && !F.isNaN b && (a == b || (F.isZero a && F.isZero b))

end IeeeFormat

/-- `n / d` rounded to the nearest integer, ties to even. -/
def divRoundEven (n d : Nat) : Nat :=
  let q := n / d
  let r := n % d
  if 2 * r < d || (2 * r == d && q % 2 == 0) then q else q + 1

/-- The absolute value of a finite value times `10 ^ p`, as an integer. -/
def IeeeFormat.scaled (F : IeeeFormat) (p bits : Nat) : Nat :=
  if F.bias ≤ F.scale bits then
    F.significand bits * 10 ^ p * 2 ^ (F.scale bits - F.bias)
  else
    divRoundEven (F.significand bits * 10 ^ p) (2 ^ (F.bias - F.scale bits))

/-- The decimals of `n`, exactly `p` of them. -/
def decimals : Nat → Nat → List UInt8
  | 0, _ => []
  | p + 1, n => decimals p (n / 10) ++ [UInt8.ofNat (48 + n % 10)]

/-- What `printf` prints for `%.pf`. -/
def fixedText (F : IeeeFormat) (p bits : Nat) : List UInt8 :=
  let sign := if F.isNegative bits then [45] else []
  if F.isFinite bits then
    sign ++ natDecimal (F.scaled p bits / 10 ^ p) ++ 46 :: decimals p (F.scaled p bits % 10 ^ p)
  else if F.fraction bits = 0 then sign ++ ascii "inf"
  else sign ++ ascii "nan"

theorem isDigit_of_mem_decimals {p n : Nat} {c : UInt8} (h : c ∈ decimals p n) :
    isDigit c = true := by
  have hall : ∀ d, d < 10 → isDigit (UInt8.ofNat (48 + d)) = true := by decide
  induction p generalizing n with
  | zero => simp [decimals] at h
  | succ p ih =>
    rw [decimals, List.mem_append, List.mem_singleton] at h
    rcases h with h | rfl
    · exact ih h
    · exact hall _ (Nat.mod_lt _ (by omega))

@[simp] theorem length_decimals (p n : Nat) : (decimals p n).length = p := by
  induction p generalizing n with
  | zero => rfl
  | succ p ih => simp [decimals, ih]

example : fixedText binary32 6 0x40490fdb = ascii "3.141593" := by decide
example : fixedText binary64 10 0xbfe0000000000000 = ascii "-0.5000000000" := by decide

end CLib

import Luminix.CLib.CString
import Mathlib.Data.Nat.Digits.Defs
import Mathlib.Data.Nat.Digits.Lemmas
import Mathlib.Algebra.Order.Group.Int

/-!
# Machine integers and their decimal text

An `int` is an `Int` in `[-2^31, 2^31)`; arithmetic that leaves the range wraps (`intWrap`).
`leBytes`/`leNat` are the little-endian object representation, `decimal` is what `printf` prints
for `%d`, and `atoi` reads it back (`atoi_decimal`).
-/

namespace CLib

/-! ### The range of `int` -/

/-- `INT_MAX`. -/
def intMax : Int := 2147483647

/-- The value is one an `int` can hold. -/
def IsInt (n : Int) : Prop := -2147483648 ≤ n ∧ n ≤ 2147483647

instance (n : Int) : Decidable (IsInt n) := inferInstanceAs (Decidable (_ ∧ _))

/-- Reduction to 32-bit two's complement. -/
def intWrap (n : Int) : Int := n.bmod 4294967296

theorem isInt_intWrap (n : Int) : IsInt (intWrap n) := by
  have h1 := Int.le_bmod (x := n) (m := 4294967296) (by omega)
  have h2 := Int.bmod_lt (x := n) (m := 4294967296) (by omega)
  simp only [IsInt, intWrap]
  omega

/-- An `int` is left alone. -/
theorem intWrap_eq_self {n : Int} (h : IsInt n) : intWrap n = n := by
  obtain ⟨h1, h2⟩ := h
  exact Int.bmod_eq_of_le (by omega) (by omega)

/-- One step up always moves. -/
theorem intWrap_add_one_ne (n : Int) : intWrap (n + 1) ≠ n := by
  intro h
  have hn : IsInt n := h ▸ isInt_intWrap (n + 1)
  have h1 : (n + 1).bmod 4294967296 = n.bmod 4294967296 := by
    rw [show n.bmod 4294967296 = n from intWrap_eq_self hn]
    exact h
  rw [Int.bmod_eq_bmod_iff_bmod_sub_eq_zero] at h1
  have h2 : (n + 1 - n) = 1 := by omega
  rw [h2] at h1
  exact absurd h1 (by decide)

/-! ### Object representation -/

/-- The `k` low bytes of `n`, least significant first. -/
def leBytes : Nat → Nat → List UInt8
  | 0, _ => []
  | k + 1, n => UInt8.ofNat n :: leBytes k (n / 256)

/-- The number a little-endian representation stands for. -/
def leNat : List UInt8 → Nat
  | [] => 0
  | b :: bs => b.toNat + 256 * leNat bs

@[simp] theorem length_leBytes (k n : Nat) : (leBytes k n).length = k := by
  induction k generalizing n with
  | zero => rfl
  | succ k ih => simp [leBytes, ih]

/-- Reading `k` bytes back gives the number modulo `256^k`. -/
theorem leNat_leBytes (k n : Nat) : leNat (leBytes k n) = n % 256 ^ k := by
  induction k generalizing n with
  | zero => simp [leBytes, leNat, Nat.mod_one]
  | succ k ih =>
    rw [leBytes, leNat, ih, Nat.pow_succ', Nat.mod_mul]
    simp

theorem leNat_lt (l : List UInt8) : leNat l < 256 ^ l.length := by
  induction l with
  | nil => exact Nat.one_pos
  | cons b l ih =>
    have hb := b.toNat_lt
    rw [leNat, List.length_cons, Nat.pow_succ]
    omega

/-- Bytes are the representation of the number they stand for. -/
theorem leBytes_leNat (l : List UInt8) : leBytes l.length (leNat l) = l := by
  induction l with
  | nil => rfl
  | cons b l ih =>
    have hb := b.toNat_lt
    have hdiv : (b.toNat + 256 * leNat l) / 256 = leNat l := by omega
    have hhead : UInt8.ofNat (b.toNat + 256 * leNat l) = b := by
      rw [← UInt8.toNat_inj, UInt8.toNat_ofNat']
      omega
    rw [List.length_cons, leBytes, leNat, hdiv, hhead, ih]

/-- The object representation of an `int`. -/
def intBytes (n : Int) : List UInt8 := leBytes 4 (n % 4294967296).toNat

/-- The `int` four bytes stand for. -/
def intOfBytes (l : List UInt8) : Int := intWrap (leNat (l.take 4))

@[simp] theorem length_intBytes (n : Int) : (intBytes n).length = 4 := length_leBytes 4 _

/-- An `int` is read back as stored, whatever follows it in memory. -/
theorem intOfBytes_intBytes {n : Int} (h : IsInt n) (r : List UInt8) :
    intOfBytes (intBytes n ++ r) = n := by
  have ht : (intBytes n ++ r).take 4 = intBytes n := by
    rw [List.take_append_of_le_length (by simp)]
    exact List.take_of_length_le (by simp)
  have hm : ((n % 4294967296).toNat : Int) = n % 4294967296 := by omega
  rw [intOfBytes, ht, intBytes, leNat_leBytes, Nat.mod_eq_of_lt (by omega), hm]
  exact (Int.emod_bmod n 4294967296).trans (intWrap_eq_self h)

/-- Storing the `int` that four bytes stand for leaves them as they are. -/
theorem intBytes_intOfBytes {l : List UInt8} (h : 4 ≤ l.length) :
    intBytes (intOfBytes l) = l.take 4 := by
  have hlength : (l.take 4).length = 4 := List.length_take_of_le h
  have hlt := leNat_lt (l.take 4)
  rw [hlength] at hlt
  have hmod : (intOfBytes l % 4294967296).toNat = leNat (l.take 4) := by
    have hbmod : (leNat (l.take 4) : Int).bmod 4294967296 % 4294967296 =
        leNat (l.take 4) % 4294967296 := Int.bmod_emod
    rw [intOfBytes, intWrap, hbmod]
    omega
  have hbytes := leBytes_leNat (l.take 4)
  rwa [hlength, ← hmod] at hbytes

/-! ### Decimal text -/

/-- The decimal digits of a natural number, most significant first. -/
def natDecimal (n : Nat) : List UInt8 :=
  if n = 0 then [48] else (Nat.digits 10 n).reverse.map fun d => UInt8.ofNat (48 + d)

/-- What `printf` prints for `%d`. -/
def decimal (n : Int) : List UInt8 :=
  if n < 0 then 45 :: natDecimal n.natAbs else natDecimal n.natAbs

/-- The number a digit string stands for. -/
def digitsValue (l : List UInt8) : Nat := l.foldl (fun acc c => 10 * acc + (c.toNat - 48)) 0

/-- `strtol` in base ten, before its result is limited to the range of `long`. -/
def strtol (l : List UInt8) : Int :=
  match l.dropWhile isSpace with
  | 45 :: ds => -(digitsValue (ds.takeWhile isDigit) : Int)
  | 43 :: ds => digitsValue (ds.takeWhile isDigit)
  | ds => digitsValue (ds.takeWhile isDigit)

/-- `atoi`: the `long` result of `strtol`, which saturates, converted to `int`. -/
def atoi (l : List UInt8) : Int :=
  intWrap (max (-9223372036854775808) (min (strtol l) 9223372036854775807))

/-- Every digit of a decimal text is a digit character. -/
theorem isDigit_of_mem_natDecimal {n : Nat} {c : UInt8} (h : c ∈ natDecimal n) :
    isDigit c = true := by
  have hall : ∀ d, d < 10 → isDigit (UInt8.ofNat (48 + d)) = true := by decide
  unfold natDecimal at h
  split at h
  · rw [List.mem_singleton] at h
    subst h
    rfl
  · obtain ⟨d, hd, rfl⟩ := List.mem_map.mp h
    exact hall d (Nat.digits_lt_base (by omega) (List.mem_reverse.mp hd))

theorem natDecimal_ne_nil (n : Nat) : natDecimal n ≠ [] := by
  unfold natDecimal
  split
  · simp
  · simpa using Nat.digits_ne_nil_iff_ne_zero.mpr ‹n ≠ 0›

/-- Evaluating the digits gives the number back. -/
theorem digitsValue_natDecimal (n : Nat) : digitsValue (natDecimal n) = n := by
  have hval : ∀ (l : List Nat), (∀ d ∈ l, d < 10) →
      digitsValue (l.reverse.map fun d => UInt8.ofNat (48 + d)) = Nat.ofDigits 10 l := by
    intro l
    induction l with
    | nil => intro _; rfl
    | cons d l ih =>
      intro hl
      have hd : d < 10 := hl d (by simp)
      have hc : (UInt8.ofNat (48 + d)).toNat - 48 = d := by
        rw [UInt8.toNat_ofNat_of_lt' (by simp [UInt8.size]; omega)]
        omega
      have := ih fun x hx => hl x (by simp [hx])
      rw [Nat.ofDigits_cons, ← this]
      simp only [digitsValue, List.reverse_cons, List.map_append, List.map_cons, List.map_nil,
        List.foldl_append, List.foldl_cons, List.foldl_nil, hc]
      omega
  unfold natDecimal
  split
  · rw [‹n = 0›]
    rfl
  · rw [hval _ fun d hd => Nat.digits_lt_base (by omega) hd, Nat.ofDigits_digits]

/-- A digit string followed by a non-digit (or nothing) is read to its end. -/
theorem takeWhile_isDigit_natDecimal (n : Nat) :
    (natDecimal n).takeWhile isDigit = natDecimal n :=
  List.takeWhile_eq_self_iff.mpr fun _ => isDigit_of_mem_natDecimal

/-- The first character of a decimal text is a digit. -/
theorem natDecimal_eq_cons (n : Nat) :
    ∃ c cs, natDecimal n = c :: cs ∧ isDigit c = true := by
  obtain ⟨c, cs, h⟩ := List.exists_cons_of_ne_nil (natDecimal_ne_nil n)
  exact ⟨c, cs, h, isDigit_of_mem_natDecimal (h ▸ List.mem_cons_self ..)⟩

theorem strtol_natDecimal (n : Nat) : strtol (natDecimal n) = n := by
  obtain ⟨c, cs, h, hc⟩ := natDecimal_eq_cons n
  have hs : isSpace c = false := isSpace_of_isDigit hc
  have h45 : c ≠ 45 := by rintro rfl; simp [isDigit] at hc
  have h43 : c ≠ 43 := by rintro rfl; simp [isDigit] at hc
  have hd : (natDecimal n).dropWhile isSpace = c :: cs := by
    rw [h, List.dropWhile_cons_of_neg (by simp [hs])]
  unfold strtol
  rw [hd]
  split
  · simp_all
  · simp_all
  · rw [← h, takeWhile_isDigit_natDecimal, digitsValue_natDecimal]

/-- `strtol` reads the decimal text of any integer. -/
theorem strtol_decimal (n : Int) : strtol (decimal n) = n := by
  unfold decimal
  split
  · have hd : (45 :: natDecimal n.natAbs).dropWhile isSpace = 45 :: natDecimal n.natAbs := rfl
    rw [strtol, hd]
    simp only [takeWhile_isDigit_natDecimal, digitsValue_natDecimal]
    omega
  · rw [strtol_natDecimal]
    omega

/-- **`atoi` inverts `%d`** on every `int`. -/
theorem atoi_decimal {n : Int} (h : IsInt n) : atoi (decimal n) = n := by
  have hlim : max (-9223372036854775808) (min n 9223372036854775807) = n := by
    obtain ⟨h1, h2⟩ := h
    omega
  rw [atoi, strtol_decimal, hlim, intWrap_eq_self h]

/-- Decimal text holds no NUL. -/
theorem zero_notMem_decimal (n : Int) : (0 : UInt8) ∉ decimal n := by
  have hd : ∀ m, (0 : UInt8) ∉ natDecimal m := fun m hm => by
    simpa [isDigit] using isDigit_of_mem_natDecimal hm
  unfold decimal
  split
  · simp [hd]
  · exact hd _

end CLib

import Luminix.CLib.Decimal
import Luminix.Equiv.Document
import Luminix.Equiv.FieldValue

/-!
# Numbers that are read as integers

A number token may have any digits, a point and an exponent, and `atoi` reads its digits up to the
point.  So an `INT` field or a record id is the number of the text exactly if that number is zero, or
it has no decimals but zeros, no exponent and fits (`loads_exactly_iff`).
-/

namespace Luminix

open CLib

/-! ### The parts of a number -/

/-- The digits before the point. -/
def integerDigits (l : List UInt8) : List UInt8 := (skipMinus l).takeWhile isDigit

/-- The digits behind the point. -/
def decimalDigits (l : List UInt8) : List UInt8 :=
  match skipDigits (skipMinus l) with
  | 46 :: r => r.takeWhile isDigit
  | _ => []

/-- A number with an optional sign; no digits count as zero. -/
def signedNumber : List UInt8 → Int
  | 45 :: r => -(digitsValue (r.takeWhile isDigit) : Int)
  | 43 :: r => digitsValue (r.takeWhile isDigit)
  | r => digitsValue (r.takeWhile isDigit)

/-- The exponent; it is zero if there is none. -/
def exponent (l : List UInt8) : Int :=
  match skipDecimals (skipDigits (skipMinus l)) with
  | 101 :: r => signedNumber r
  | 69 :: r => signedNumber r
  | _ => 0

def numberSign (l : List UInt8) : Int := if l.head? = some 45 then -1 else 1

/-- **The value of a number**: its digits, with the point moved by the exponent. -/
def numberValue (l : List UInt8) : ℚ :=
  numberSign l * (digitsValue (integerDigits l ++ decimalDigits l) *
    10 ^ (exponent l - (decimalDigits l).length))

/-- The number is zero, or it has no decimals but zeros, no exponent and fits into an `int`. -/
def FitsInt (l : List UInt8) : Prop :=
  (∀ c ∈ integerDigits l ++ decimalDigits l, c = 48) ∨
    ((∀ c ∈ decimalDigits l, c = 48) ∧ exponent l = 0 ∧
      IsInt (numberSign l * digitsValue (integerDigits l)))

theorem isDigit_of_mem_takeWhile {l : List UInt8} {c : UInt8} (h : c ∈ l.takeWhile isDigit) :
    isDigit c = true := List.mem_takeWhile_imp h

theorem isDigit_of_mem_decimalDigits {l : List UInt8} {c : UInt8} (h : c ∈ decimalDigits l) :
    isDigit c = true := by
  unfold decimalDigits at h
  split at h
  · exact isDigit_of_mem_takeWhile h
  · exact absurd h List.not_mem_nil

theorem numberSign_cases (l : List UInt8) : numberSign l = 1 ∨ numberSign l = -1 := by
  unfold numberSign
  split_ifs
  · exact Or.inr rfl
  · exact Or.inl rfl

/-! ### Number tokens -/

/-- A token that is a number, and where it starts. -/
theorem scanNumber_of_parseToken {l l' : List UInt8} {s : CString}
    (h : jsonParseToken l = (.number s, l')) : ∃ c r, jsonSkipWhitespace l = c :: r ∧
      (c == 45 || isDigit c) = true ∧ scanNumber (c :: r) = (.number s, l') := by
  unfold jsonParseToken at h
  split at h
  case h_8 m hskip =>
    unfold scanString at h
    split at h <;> cases h
  case h_9 | h_10 | h_11 =>
    unfold scanWord at h
    split at h <;> cases h
  case h_12 c r _ _ _ _ _ _ _ _ _ _ hskip =>
    split_ifs at h with hnum
    · exact ⟨c, r, hskip, hnum, h⟩
    · cases h
  all_goals cases h

/-- Its text starts with a minus sign or a digit. -/
theorem head_numberToken {l l' : List UInt8} {s : CString}
    (h : jsonParseToken l = (.number s, l')) :
    ∃ c r, s.bytes = c :: r ∧ (c = 45 ∨ isDigit c = true) := by
  obtain ⟨c, r, -, hnum, hscan⟩ := scanNumber_of_parseToken h
  obtain ⟨n, hn⟩ : ∃ n, (c :: r).length - (skipNumber (c :: r)).length = n + 1 := by
    have hlt := length_skipNumber_lt (l := r) hnum
    exact ⟨(c :: r).length - (skipNumber (c :: r)).length - 1, by omega⟩
  obtain ⟨hs, -⟩ := Prod.mk.inj hscan
  obtain rfl := JsonToken.number.inj hs
  have hc : c = 45 ∨ isDigit c = true := by
    rwa [Bool.or_eq_true, beq_iff_eq] at hnum
  have hne : c ≠ 0 := by
    rintro rfl
    exact absurd hc (by decide)
  refine ⟨c, (r.take n).takeWhile (· ≠ 0), ?_, hc⟩
  rw [hn, List.take_succ_cons]
  show (c :: r.take n).takeWhile (· ≠ 0) = _
  exact List.takeWhile_cons_of_pos (by simpa using hne)

/-- `strtol` reads the sign and the digits before the point. -/
theorem strtol_eq {l : List UInt8} {c : UInt8} {r : List UInt8} (hl : l = c :: r)
    (hc : c = 45 ∨ isDigit c = true) :
    strtol l = numberSign l * digitsValue (integerDigits l) := by
  subst hl
  rcases hc with rfl | hc
  · show -(digitsValue (r.takeWhile isDigit) : Int) = -1 * digitsValue (r.takeWhile isDigit)
    omega
  · obtain ⟨hlow, hhigh⟩ := toNat_of_isDigit hc
    have hne (d : UInt8) (hd : d.toNat < 48) : c ≠ d := by
      rintro rfl
      omega
    have hspace : isSpace c = false := by
      simp only [isSpace, Bool.or_eq_false_iff, beq_eq_false_iff_ne, Bool.and_eq_false_imp,
        decide_eq_true_eq, decide_eq_false_iff_not, UInt8.le_iff_toNat_le]
      exact ⟨hne 32 (by decide), fun _ => by show ¬c.toNat ≤ 13; omega⟩
    have hminus := hne 45 (by decide)
    have hplus := hne 43 (by decide)
    have hsign : numberSign (c :: r) = 1 := by
      rw [numberSign, List.head?_cons, if_neg]
      exact fun heq => hminus (Option.some.inj heq)
    have hdrop : (c :: r).dropWhile isSpace = c :: r :=
      List.dropWhile_cons_of_neg (by rw [hspace]; exact Bool.false_ne_true)
    rw [hsign, integerDigits, skipMinus_of_ne hminus, strtol, hdrop, one_mul]
    split
    next heq => exact absurd (List.cons.inj heq).1 hminus
    next heq => exact absurd (List.cons.inj heq).1 hplus
    · rfl

/-- **`atoi` gives the value of a number** exactly if it fits. -/
theorem atoi_eq_numberValue_iff {l : List UInt8} {c : UInt8} {r : List UInt8} (hl : l = c :: r)
    (hc : c = 45 ∨ isDigit c = true) : (atoi l : ℚ) = numberValue l ↔ FitsInt l := by
  have hint : ∀ c ∈ integerDigits l, isDigit c = true := fun _ => isDigit_of_mem_takeWhile
  have hdec : ∀ c ∈ decimalDigits l, isDigit c = true := fun _ => isDigit_of_mem_decimalDigits
  rw [atoi_eq_longToInt, strtol_eq hl hc, numberValue, digitsValue_append,
    longToInt_eq_scaled_iff (numberSign_cases l) (digitsValue_lt hdec), FitsInt,
    digitsValue_eq_zero_iff hint, digitsValue_eq_zero_iff hdec, List.forall_mem_append]

/-! ### Fields and ids -/

variable (p : Platform)

/-- What an `INT` field or a record id that is read from the text becomes is the number of its
token. -/
def LoadsExactly (l : List UInt8) (s : CString) : Prop :=
  (∀ v l', jsonParseFieldValue p .int l = (.int, v, l') → (v.intValue : ℚ) = numberValue s.bytes) ∧
    ∀ columns draft draft' l', recordMember p columns (cstr "id") draft l = .ok (draft', l') →
      (draft'.id : ℚ) = numberValue s.bytes

/-- **When a number is loaded as it is.** -/
theorem loads_exactly_iff (l l' : List UInt8) (s : CString)
    (h : jsonParseToken l = (.number s, l')) : LoadsExactly p l s ↔ FitsInt s.bytes := by
  obtain ⟨c, r, hs, hc⟩ := head_numberToken h
  have hvalue : jsonParseFieldValue p .int l =
      (.int, FieldValue.zero.setInt (atoi s.bytes), l') := by
    rw [jsonParseFieldValue, h]
    rfl
  have hstored : (FieldValue.zero.setInt (atoi s.bytes)).intValue = atoi s.bytes :=
    FieldValue.intValue_setInt _ (isInt_intWrap _)
  have hid (columns : List Column) (draft : RecordDraft) :
      recordMember p columns (cstr "id") draft l = .ok ({ draft with id := atoi s.bytes }, l') := by
    rw [recordMember_id, h]
    rfl
  rw [← atoi_eq_numberValue_iff hs hc, LoadsExactly]
  constructor
  · rintro ⟨hfield, -⟩
    rw [← hstored]
    exact hfield _ _ hvalue
  · intro heq
    refine ⟨fun v m hv => ?_, fun columns draft draft' m hdraft => ?_⟩
    · rw [hvalue] at hv
      obtain ⟨-, hv⟩ := Prod.mk.inj hv
      obtain ⟨rfl, -⟩ := Prod.mk.inj hv
      rw [hstored, heq]
    · rw [hid] at hdraft
      obtain ⟨rfl, -⟩ := Prod.mk.inj (Except.ok.inj hdraft)
      exact heq

theorem loads_exactly_iff_five : LoadsExactly Platform.epoch (ascii "5") (cstr "5") :=
  (loads_exactly_iff Platform.epoch (ascii "5") [] (cstr "5") (by decide)).mpr
    (Or.inr ⟨by decide +kernel, by decide +kernel, by decide +kernel⟩)

/-- Of `1.5` the decimals are dropped. -/
theorem decimals_dropped : jsonParseToken (ascii "1.5") = (.number (cstr "1.5"), []) ∧
    jsonParseFieldValue Platform.epoch .int (ascii "1.5") = (.int, FieldValue.zero.setInt 1, []) ∧
    numberValue (ascii "1.5") = 3 / 2 ∧
    ¬LoadsExactly Platform.epoch (ascii "1.5") (cstr "1.5") := by
  have hvalue : jsonParseFieldValue Platform.epoch .int (ascii "1.5") =
      (.int, FieldValue.zero.setInt 1, []) := by rfl
  have hnumber : numberValue (ascii "1.5") = 3 / 2 := by decide +kernel
  refine ⟨by decide, hvalue, hnumber, fun h => ?_⟩
  have hloaded := h.1 _ _ hvalue
  have hone : (FieldValue.zero.setInt 1).intValue = 1 := by decide
  have hbytes : (cstr "1.5").bytes = ascii "1.5" := by decide
  rw [hbytes, hnumber, hone] at hloaded
  exact absurd hloaded (by norm_num)

end Luminix

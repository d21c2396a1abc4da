import Luminix.Hash
import Mathlib.Data.Nat.Digits.Defs
import Mathlib.Data.Nat.ModEq
import Mathlib.Tactic.Ring

/-!
# What a hash says

`security_hash` writes the value of a polynomial at 33, reduced to an `unsigned long`, so that two
texts have one hash if and only if these values agree in the digits that have room
(`securityHash_eq_iff`).  What is written makes a token that is valid, if only one digit has room
(`hash_makes_token`).
-/

namespace Luminix

open CLib

variable {w : Nat}

/-! ### The value -/

/-- The polynomial whose coefficients are the bytes of a text, behind 5381, at 33. -/
def hashValue (l : List UInt8) : Nat := Nat.ofDigits 33 ((l.map UInt8.toNat).reverse ++ [5381])

theorem toNat_hashRound (hash : BitVec w) (c : UInt8) :
    (hashRound hash c).toNat ≡ c.toNat + 33 * hash.toNat [MOD 2 ^ w] := by
  have hshift : (hash <<< 5).toNat = hash.toNat * 32 % 2 ^ w := by
    rw [BitVec.toNat_shiftLeft, Nat.shiftLeft_eq]
  rw [hashRound, BitVec.toNat_add, BitVec.toNat_add, hshift, BitVec.toNat_ofNat]
  have hsum : hash.toNat * 32 % 2 ^ w + hash.toNat ≡ hash.toNat * 32 + hash.toNat [MOD 2 ^ w] :=
    (Nat.mod_modEq _ _).add_right _
  -- `(h << 5) + h` is 33 times the hash
  have hround : c.toNat + 33 * hash.toNat = hash.toNat * 32 + hash.toNat + c.toNat := by ring
  rw [hround]
  exact (Nat.mod_modEq _ _).trans (((Nat.mod_modEq _ _).trans hsum).add (Nat.mod_modEq _ _))

/-- The loop, from any hash on. -/
theorem toNat_foldl_hashRound (l : List UInt8) (hash : BitVec w) :
    (l.foldl hashRound hash).toNat ≡
      Nat.ofDigits 33 ((l.map UInt8.toNat).reverse ++ [hash.toNat]) [MOD 2 ^ w] := by
  induction l generalizing hash with
  | nil => exact Nat.ModEq.refl _
  | cons c l ih =>
    refine (ih (hashRound hash c)).trans ?_
    rw [List.map_cons, List.reverse_cons, List.append_assoc, Nat.ofDigits_append,
      Nat.ofDigits_append, List.singleton_append, Nat.ofDigits_singleton, Nat.ofDigits_cons,
      Nat.ofDigits_singleton]
    exact ((toNat_hashRound hash c).mul_left _).add_left _

theorem toNat_hash (l : List UInt8) :
    (l.foldl hashRound (BitVec.ofNat w 5381)).toNat = hashValue l % 2 ^ w := by
  have hloop := toNat_foldl_hashRound l (BitVec.ofNat w 5381)
  have hstart : (BitVec.ofNat w 5381).toNat ≡ 5381 [MOD 2 ^ w] := by
    rw [BitVec.toNat_ofNat]
    exact Nat.mod_modEq _ _
  have hvalue : Nat.ofDigits 33 ((l.map UInt8.toNat).reverse ++ [(BitVec.ofNat w 5381).toNat]) ≡
      hashValue l [MOD 2 ^ w] := by
    rw [hashValue, Nat.ofDigits_append, Nat.ofDigits_append, Nat.ofDigits_singleton,
      Nat.ofDigits_singleton]
    exact (hstart.mul_left _).add_left _
  calc (l.foldl hashRound (BitVec.ofNat w 5381)).toNat
      = (l.foldl hashRound (BitVec.ofNat w 5381)).toNat % 2 ^ w :=
        (Nat.mod_eq_of_lt (BitVec.isLt _)).symm
    _ = hashValue l % 2 ^ w := hloop.trans hvalue

/-! ### The text -/

/-- The digits that `security_hash` writes, where they have room. -/
def hashText (w maxLen : Nat) (l : List UInt8) : List UInt8 :=
  (paddedHex 16 (hashValue l % 2 ^ w)).take (maxLen - 1)

theorem length_hashText (w maxLen : Nat) (l : List UInt8) :
    (hashText w maxLen l).length = min (maxLen - 1) 16 := by
  rw [hashText, List.length_take, length_paddedHex]

theorem isXDigit_of_mem_hashText {maxLen : Nat} {l : List UInt8} {c : UInt8}
    (hc : c ∈ hashText w maxLen l) : isXDigit c = true :=
  isXDigit_of_mem_paddedHex (List.mem_of_mem_take hc)

theorem zero_notMem_hashText (w maxLen : Nat) (l : List UInt8) :
    (0 : UInt8) ∉ hashText w maxLen l := fun h => Bool.false_ne_true (isXDigit_of_mem_hashText h)

theorem securityHash_eq {s : CString} {out : List UInt8} {maxLen : Nat} (hpos : 0 < maxLen)
    (hlen : maxLen ≤ out.length) : securityHash w (some s) (some out) maxLen =
      some (0, some (hashText w maxLen s.bytes ++
        0 :: out.drop ((hashText w maxLen s.bytes).length + 1))) := by
  have hlength := length_hashText w maxLen s.bytes
  have hwrite := @writeAt_append _ [] out (hashText w maxLen s.bytes ++ [0]) 0 rfl
    (by rw [List.length_append, List.length_singleton]; omega)
  rw [List.nil_append, List.nil_append] at hwrite
  rw [hashText, ← toNat_hash] at hwrite
  rw [securityHash, if_neg (by omega)]
  dsimp only
  rw [hwrite, toNat_hash, ← hashText, List.length_append, List.append_assoc]
  rfl

/-- The digits that have room are those of a quotient. -/
theorem hashText_eq {maxLen : Nat} (hpos : 0 < maxLen) (l : List UInt8) : hashText w maxLen l =
    paddedHex (min (maxLen - 1) 16) (hashValue l % 2 ^ w / 16 ^ (17 - maxLen)) := by
  have hrest : 16 - min (maxLen - 1) 16 = 17 - maxLen := by omega
  rw [hashText, List.take_eq_take_min, length_paddedHex, take_paddedHex (Nat.min_le_right _ _),
    hrest]

/-- An `unsigned long` has at most 16 digits, so that none is lost on the left. -/
theorem xDigitsValue_hashText (hw : w ≤ 64) {maxLen : Nat} (hpos : 0 < maxLen) (l : List UInt8) :
    xDigitsValue (hashText w maxLen l) = hashValue l % 2 ^ w / 16 ^ (17 - maxLen) := by
  have hlt : hashValue l % 2 ^ w < 16 ^ 16 :=
    lt_of_lt_of_le (Nat.mod_lt _ (Nat.two_pow_pos w)) (Nat.pow_le_pow_right (by decide) hw)
  have hsplit : 16 ^ (17 - maxLen) * 16 ^ min (maxLen - 1) 16 = 16 ^ 16 := by
    rw [← Nat.pow_add]
    congr 1
    omega
  rw [hashText_eq hpos, xDigitsValue_paddedHex]
  exact Nat.mod_eq_of_lt (Nat.div_lt_of_lt_mul (by rwa [hsplit]))

/-- **Two texts have one hash** if and only if their values are the same, reduced and without the
digits that have no room. -/
theorem securityHash_eq_iff (hw : w ≤ 64) (s t : CString) {out : List UInt8} {maxLen : Nat}
    (hpos : 0 < maxLen) (hlen : maxLen ≤ out.length) :
    securityHash w (some s) (some out) maxLen = securityHash w (some t) (some out) maxLen ↔
      hashValue s.bytes % 2 ^ w / 16 ^ (17 - maxLen) =
        hashValue t.bytes % 2 ^ w / 16 ^ (17 - maxLen) := by
  rw [securityHash_eq hpos hlen, securityHash_eq hpos hlen]
  constructor
  · intro h
    simp only [Option.some.injEq, Prod.mk.injEq, true_and] at h
    -- the two texts are of one length, so the bytes behind them do not matter
    have htext := List.append_inj_left h (by rw [length_hashText, length_hashText])
    rw [← xDigitsValue_hashText hw hpos, ← xDigitsValue_hashText hw hpos, htext]
  · intro h
    have htext : hashText w maxLen s.bytes = hashText w maxLen t.bytes := by
      rw [hashText_eq hpos, hashText_eq hpos, h]
    rw [htext]

/-- Two texts of two letters that have one hash. -/
theorem securityHash_collision :
    securityHash 64 (some (cstr "Ez")) (some (List.replicate 17 1)) 17 =
      securityHash 64 (some (cstr "FY")) (some (List.replicate 17 1)) 17 :=
  (securityHash_eq_iff (le_refl 64) (cstr "Ez") (cstr "FY") (by decide) (by decide)).mpr (by decide)

/-! ### Tokens -/

theorem securityValidateToken_append {token : CString} {l : List UInt8}
    (h : token.bytes = ascii "admin_token_" ++ l) :
    securityValidateToken (some token) = true ↔ l ≠ [] ∧ ∀ c ∈ l, isXDigit c = true := by
  have hstart : (ascii "admin_token_").isPrefixOf token.bytes = true := by
    rw [h]
    exact List.isPrefixOf_iff_prefix.mpr (List.prefix_append _ _)
  have hlength : token.length = 12 + l.length := by
    rw [CString.length, h, List.length_append]
    rfl
  have hrest : token.bytes.drop 12 = l := by
    rw [h]
    rfl
  rw [securityValidateToken, hstart, hlength, hrest, Bool.true_and, Bool.and_eq_true,
    decide_eq_true_eq, List.all_eq_true, ← List.length_pos_iff]
  exact and_congr_left' (by omega)

/-- **The hash of any text makes a token** that is valid, if it has room for a digit. -/
theorem hash_makes_token (w : Nat) (s : CString) {out : List UInt8} {maxLen : Nat}
    (hpos : 0 < maxLen) (hlen : maxLen ≤ out.length) :
    ∃ text : CString, securityHash w (some s) (some out) maxLen =
        some (0, some (text.bytes ++ 0 :: out.drop (text.length + 1))) ∧
      ∀ token : CString, token.bytes = ascii "admin_token_" ++ text.bytes →
        (securityValidateToken (some token) = true ↔ 1 < maxLen) := by
  have hbytes := CString.bytes_ofBytes (zero_notMem_hashText w maxLen s.bytes)
  refine ⟨CString.ofBytes (hashText w maxLen s.bytes), ?_, ?_⟩
  · rw [CString.length, hbytes]
    exact securityHash_eq hpos hlen
  · intro token htoken
    rw [hbytes] at htoken
    have hlength := length_hashText w maxLen s.bytes
    rw [securityValidateToken_append htoken, and_iff_left fun c => isXDigit_of_mem_hashText,
      ← List.length_pos_iff, hlength]
    omega

/-- A letter, where one digit has room. -/
theorem hash_makes_token_letter :
    ∃ text : CString, securityHash 64 (some (cstr "a")) (some [1, 1]) 2 =
        some (0, some (text.bytes ++ 0 :: [1, 1].drop (text.length + 1))) ∧
      ∀ token : CString, token.bytes = ascii "admin_token_" ++ text.bytes →
        (securityValidateToken (some token) = true ↔ 1 < 2) :=
  hash_makes_token 64 (cstr "a") (by decide) (by decide)

end Luminix

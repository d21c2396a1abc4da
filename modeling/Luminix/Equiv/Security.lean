import Luminix.Security

/-!
# Encrypted texts

What `security_encrypt` makes of a text is decrypted to it, within the buffers
(`decrypt_encrypt`).  But `security_decrypt` takes any two characters that `%2X` reads for a byte, and
so more than what is encrypted (`decrypt_accepts_iff`).
-/

namespace Luminix

open CLib

/-! ### Encrypting -/

/-- The hexadecimal digits that a text is encrypted to. -/
def cipherText (l : List UInt8) : List UInt8 := l.flatMap fun c => hexByte (c ^^^ cipherKey)

theorem length_cipherText (l : List UInt8) : (cipherText l).length = l.length * 2 := by
  induction l with
  | nil => rfl
  | cons c l ih =>
    rw [cipherText, List.flatMap_cons, List.length_append, ← cipherText, ih, List.length_cons]
    show 2 + l.length * 2 = _
    omega

theorem isXDigit_of_mem_cipherText {l : List UInt8} {d : UInt8} (hd : d ∈ cipherText l) :
    isXDigit d = true := by
  obtain ⟨c, -, hd⟩ := List.mem_flatMap.mp hd
  have hlt := (c ^^^ cipherKey).toNat_lt
  simp only [hexByte, List.mem_cons, List.not_mem_nil, or_false] at hd
  rcases hd with rfl | rfl
  · exact isXDigit_upperXDigit (by omega)
  · exact isXDigit_upperXDigit (by omega)

theorem zero_notMem_cipherText (l : List UInt8) : (0 : UInt8) ∉ cipherText l :=
  fun h => Bool.false_ne_true (isXDigit_of_mem_cipherText h)

/-- The loop writes the digits behind those that are there. -/
theorem encryptLoop_eq (input : List UInt8) {a b : List UInt8} {i : Nat} (hi : a.length = i * 2)
    (hb : input.length * 2 < b.length) : ∃ b', encryptLoop (a ++ b) i input =
      some (a ++ cipherText input ++ b') ∧ b'.length = b.length - input.length * 2 := by
  induction input generalizing a b i with
  | nil => exact ⟨b, by simp [encryptLoop, cipherText], rfl⟩
  | cons c input ih =>
    rw [List.length_cons] at hb
    have hbyte : (hexByte (c ^^^ cipherKey)).length = 2 := rfl
    have hwrite := @writeAt_append _ a b (hexByte (c ^^^ cipherKey) ++ [0]) (i * 2) hi
      (by rw [List.length_append, hbyte, List.length_singleton]; omega)
    obtain ⟨b', hloop, hlength⟩ := @ih (a ++ hexByte (c ^^^ cipherKey)) (0 :: b.drop 3) (i + 1)
      (by rw [List.length_append, hbyte]; omega)
      (by rw [List.length_cons, List.length_drop]; omega)
    refine ⟨b', ?_, ?_⟩
    · rw [encryptLoop, hwrite]
      simp only [List.append_assoc, List.singleton_append] at hloop ⊢
      exact hloop
    · rw [hlength, List.length_cons, List.length_drop, List.length_cons]
      omega

theorem securityEncrypt_eq {s : CString} {out : List UInt8} (h : 2 * s.length < out.length) :
    ∃ e, securityEncrypt (some s) (some out) out.length = some (0, some e) ∧
      (CString.ofBytes e).bytes = cipherText s.bytes := by
  have hlength : s.bytes.length = s.length := rfl
  obtain ⟨b, hloop, hb⟩ := @encryptLoop_eq s.bytes [] out 0 rfl (by omega)
  rw [List.nil_append, List.nil_append] at hloop
  have hend := @writeAt_append _ (cipherText s.bytes) b [0] (s.length * 2)
    (length_cipherText s.bytes) (by rw [List.length_singleton]; omega)
  refine ⟨cipherText s.bytes ++ 0 :: b.drop 1, ?_,
    CString.ofBytes_append_zero (zero_notMem_cipherText _) _⟩
  rw [securityEncrypt, if_neg (by omega), if_neg (by omega), hloop]
  show (do let output ← writeAt (cipherText s.bytes ++ b) (s.length * 2) [0]; _) = _
  rw [hend]
  rfl

/-! ### Decrypting -/

/-- One round of the loop. -/
theorem decryptLoop_cons {a b : List UInt8} {i val : Nat} {c d : UInt8} {input : List UInt8}
    (hi : i = a.length * 2) (hb : 0 < b.length) (hval : scanHex 2 [c, d] = some val) :
    decryptLoop (a ++ b) i (c :: d :: input) =
      decryptLoop (a ++ [UInt8.ofNat (val ^^^ cipherKey.toNat)] ++ b.drop 1) (i + 2) input := by
  have hwrite := @writeAt_append _ a b [UInt8.ofNat (val ^^^ cipherKey.toNat)] (i / 2) (by omega) hb
  rw [decryptLoop, hval]
  dsimp only
  rw [hwrite, List.append_assoc]
  rfl

/-- A byte comes back. -/
theorem ofNat_xor_cipherKey (c : UInt8) :
    UInt8.ofNat ((c ^^^ cipherKey).toNat ^^^ cipherKey.toNat) = c := by
  rw [← UInt8.toNat_xor, UInt8.ofNat_toNat, UInt8.xor_assoc, UInt8.xor_self, UInt8.xor_zero]

theorem decryptLoop_cipherText (l : List UInt8) {a b : List UInt8} {i : Nat}
    (hi : i = a.length * 2) (hb : l.length ≤ b.length) :
    decryptLoop (a ++ b) i (cipherText l) = some (0, a ++ l ++ b.drop l.length) := by
  induction l generalizing a b i with
  | nil => simp [decryptLoop, cipherText]
  | cons c l ih =>
    rw [List.length_cons] at hb
    have hrest := @ih (a ++ [c]) (b.drop 1) (i + 2) (by simp; omega) (by simp; omega)
    have hround := @decryptLoop_cons a b i _ _ _ (cipherText l) hi (by omega)
      (scanHex_hexByte (c ^^^ cipherKey))
    rw [ofNat_xor_cipherKey, hrest] at hround
    rw [cipherText, List.flatMap_cons]
    refine hround.trans ?_
    rw [List.drop_drop, List.length_cons, Nat.add_comm 1, List.append_assoc a, List.singleton_append]

theorem securityDecrypt_cipherText {t s : CString} (ht : t.bytes = cipherText s.bytes)
    {out : List UInt8} (h : s.length < out.length) :
    ∃ d, securityDecrypt (some t) (some out) out.length = some (0, some d) ∧ CString.ofBytes d = s := by
  have hlength : t.length = s.length * 2 := by
    rw [CString.length, ht, length_cipherText]
    rfl
  have hs : s.bytes.length = s.length := rfl
  have hloop := @decryptLoop_cipherText s.bytes [] out 0 rfl (by omega)
  rw [List.nil_append, List.nil_append] at hloop
  have hend := @writeAt_append _ s.bytes (out.drop s.length) [0] (t.length / 2) (by omega)
    (by rw [List.length_singleton, List.length_drop]; omega)
  refine ⟨s.bytes ++ 0 :: (out.drop s.length).drop 1, ?_,
    CString.ext (CString.ofBytes_append_zero s.nulFree _)⟩
  rw [securityDecrypt, if_neg (by omega), if_neg (by omega), ht, hloop]
  show (do let output ← writeAt (s.bytes ++ out.drop s.length) (t.length / 2) [0]; _) = _
  rw [hend]
  rfl

/-- **What is encrypted is decrypted to the same text**, and nothing is written outside of the two
buffers. -/
theorem decrypt_encrypt (s : CString) (out out2 : List UInt8) (hout : 2 * s.length < out.length)
    (hout2 : s.length < out2.length) :
    ∃ e, securityEncrypt (some s) (some out) out.length = some (0, some e) ∧
      ∃ d, securityDecrypt (some (CString.ofBytes e)) (some out2) out2.length = some (0, some d) ∧
        CString.ofBytes d = s := by
  obtain ⟨e, hencrypt, htext⟩ := securityEncrypt_eq hout
  exact ⟨e, hencrypt, securityDecrypt_cipherText htext hout2⟩

/-- One letter, in the smallest buffers. -/
theorem decrypt_encrypt_letter :
    ∃ e, securityEncrypt (some (cstr "a")) (some [1, 1, 1]) 3 = some (0, some e) ∧
      ∃ d, securityDecrypt (some (CString.ofBytes e)) (some [1, 1]) 2 = some (0, some d) ∧
        CString.ofBytes d = cstr "a" :=
  decrypt_encrypt (cstr "a") [1, 1, 1] [1, 1] (by decide) (by decide)

/-! ### What is decrypted -/

/-- Any two characters that stand together are read by `%2X`. -/
def readsPairs : List UInt8 → Bool
  | a :: b :: l => readsHexPair a b && readsPairs l
  | _ => true

/-- The string is decrypted exactly if it has an even length and hexadecimal digits only; otherwise
the code is `-1`. -/
def AcceptsCipherText (h : CString) (out : List UInt8) : Prop :=
  ∃ code d, securityDecrypt (some h) (some out) out.length = some (code, d) ∧
    (code = 0 ∨ code = -1) ∧
    (code = 0 ↔ h.length % 2 = 0 ∧ ∀ c ∈ h.bytes, isXDigit c = true)

theorem readsPairs_of_forall {l : List UInt8} (h : ∀ c ∈ l, isXDigit c = true) :
    readsPairs l = true := by
  induction l using readsPairs.induct with
  | case1 a b l ih =>
    have ha := h a (by simp)
    have hb := h b (by simp)
    have hnot : (b == 120 || b == 88) = false := by
      rw [Bool.eq_false_iff]
      intro hx
      simp only [Bool.or_eq_true, beq_iff_eq] at hx
      rcases hx with rfl | rfl <;> cases hb
    rw [readsPairs, readsHexPair, ha, hnot, ih fun c hc => h c (by simp [hc])]
    simp
  | case2 l hl =>
    unfold readsPairs
    split
    case h_1 => exact absurd rfl (hl _ _ _)
    · rfl

/-- The loop goes through exactly if all pairs are read. -/
theorem decryptLoop_code (input : List UInt8) {a b : List UInt8} {i : Nat}
    (hi : i = a.length * 2) (hb : input.length / 2 ≤ b.length) :
    ∃ code out, decryptLoop (a ++ b) i input = some (code, out) ∧
      (code = 0 ∧ readsPairs input = true ∨ code = -1 ∧ readsPairs input = false) ∧
      out.length = a.length + b.length := by
  induction input using readsPairs.induct generalizing a b i with
  | case1 c d input ih =>
    rw [List.length_cons, List.length_cons] at hb
    have hpair := isSome_scanHex_pair c d
    cases hval : scanHex 2 [c, d] with
    | none =>
      rw [hval, Option.isSome_none] at hpair
      refine ⟨-1, a ++ b, ?_, .inr ⟨rfl, ?_⟩, List.length_append⟩
      · rw [decryptLoop, hval]
      · rw [readsPairs, ← hpair, Bool.false_and]
    | some val =>
      rw [hval, Option.isSome_some] at hpair
      obtain ⟨code, out, hloop, hcode, hlength⟩ :=
        @ih (a ++ [UInt8.ofNat (val ^^^ cipherKey.toNat)]) (b.drop 1) (i + 2)
          (by rw [List.length_append, List.length_singleton]; omega)
          (by rw [List.length_drop]; omega)
      rw [List.length_append, List.length_singleton, List.length_drop] at hlength
      refine ⟨code, out, (decryptLoop_cons hi (by omega) hval).trans hloop, ?_, by omega⟩
      rwa [readsPairs, ← hpair, Bool.true_and]
  | case2 l hl =>
    have hloop : decryptLoop (a ++ b) i l = some (0, a ++ b) := by
      unfold decryptLoop
      split
      case h_1 => exact absurd rfl (hl _ _ _)
      · rfl
    have hreads : readsPairs l = true := by
      unfold readsPairs
      split
      case h_1 => exact absurd rfl (hl _ _ _)
      · rfl
    exact ⟨0, a ++ b, hloop, .inl ⟨rfl, hreads⟩, List.length_append⟩

/-- What `security_decrypt` returns. -/
theorem securityDecrypt_code (h : CString) {out : List UInt8} (hout : h.length / 2 < out.length) :
    ∃ code d, securityDecrypt (some h) (some out) out.length = some (code, d) ∧
      (code = 0 ∨ code = -1) ∧ (code = 0 ↔ h.length % 2 = 0 ∧ readsPairs h.bytes = true) := by
  rw [securityDecrypt, if_neg (by omega)]
  by_cases heven : h.length % 2 = 0
  · rw [if_neg (by omega)]
    obtain ⟨code, d, hloop, hcode, hlength⟩ := @decryptLoop_code h.bytes [] out 0 rfl hout.le
    rw [List.nil_append] at hloop
    rw [List.length_nil, Nat.zero_add] at hlength
    rw [hloop]
    rcases hcode with ⟨rfl, hreads⟩ | ⟨rfl, hreads⟩
    · obtain ⟨d', hend⟩ := @exists_writeAt _ [0] d (h.length / 2)
        (by rw [List.length_singleton]; omega)
      refine ⟨0, some d', ?_, .inl rfl, by simp [heven, hreads]⟩
      show (do let output ← writeAt d (h.length / 2) [0]; _) = _
      rw [hend]
      rfl
    · exact ⟨-1, _, rfl, .inr rfl, by simp [hreads]⟩
  · rw [if_pos (.inl heven)]
    exact ⟨-1, _, rfl, .inr rfl, by simp [heven]⟩

/-- **Only encrypted texts are decrypted** exactly if the string has an odd length, or consists of
hexadecimal digits, or has two characters that `%2X` does not read. -/
theorem decrypt_accepts_iff (h : CString) (out : List UInt8) (hout : h.length / 2 < out.length) :
    AcceptsCipherText h out ↔
      (h.length % 2 = 0 → readsPairs h.bytes = true → ∀ c ∈ h.bytes, isXDigit c = true) := by
  obtain ⟨code, d, hcall, hcode, hreads⟩ := securityDecrypt_code h hout
  constructor
  · rintro ⟨code', d', hcall', -, hdigits⟩ heven hpairs
    obtain ⟨rfl, -⟩ := Prod.mk.inj (Option.some.inj (hcall.symm.trans hcall'))
    exact (hdigits.mp (hreads.mpr ⟨heven, hpairs⟩)).2
  · intro hdigits
    refine ⟨code, d, hcall, hcode, hreads.trans ⟨?_, ?_⟩⟩
    · exact fun ⟨heven, hpairs⟩ => ⟨heven, hdigits heven hpairs⟩
    · exact fun ⟨heven, hall⟩ => ⟨heven, readsPairs_of_forall hall⟩

/-- An encrypted letter. -/
theorem decrypt_accepts_letter : AcceptsCipherText (cstr "3B") [0, 0] :=
  (decrypt_accepts_iff (cstr "3B") [0, 0] (by decide +kernel)).mpr fun _ _ => by decide +kernel

/-- A blank and a digit are read as one byte. -/
theorem decrypt_accepts_blank : ¬∀ (h : CString) (out : List UInt8), h.length / 2 < out.length →
    AcceptsCipherText h out := by
  intro h
  obtain ⟨code, d, hcall, -, hdigits⟩ := h (cstr " 1") [0, 0] (by decide)
  have hblank : securityDecrypt (some (cstr " 1")) (some [0, 0]) 2 = some (0, some [91, 0]) := by
    decide
  obtain ⟨rfl, -⟩ := Prod.mk.inj (Option.some.inj (hcall.symm.trans hblank))
  exact absurd (hdigits.mp rfl).2 (by decide)

end Luminix

import Luminix.Equiv.Token
import Luminix.Json.Text

/-!
# The tokens of JSON

Which texts `json_parse_token` takes for a number, a string or a word, and that the scalars of JSON
are among them.  A number token may lack the digits that JSON asks for, before and behind the point
and in the exponent, and it may start with zeros; a string token may hold anything that does not end
it.
-/

namespace Luminix

open CLib TokenReader

/-! ### Numbers -/

/-- The exponent of a number token, if there is one. -/
def IsExponent (l : List UInt8) : Prop :=
  l = [] ∨ ∃ e ∈ ascii "eE", ∃ sign ∈ [[], ascii "+", ascii "-"], ∃ ds,
    (∀ c ∈ ds, isDigit c = true) ∧ l = e :: (sign ++ ds)

/-- The text of a number token: a minus sign or at least one digit, then what may follow. -/
def NumberText (n : List UInt8) : Prop :=
  ∃ minus ds frac exp, n = minus ++ (ds ++ (frac ++ exp)) ∧
    (minus = ascii "-" ∨ minus = [] ∧ ds ≠ []) ∧ (∀ c ∈ ds, isDigit c = true) ∧ IsDecimals frac ∧
    IsExponent exp

variable {ds frac exp r : List UInt8}

theorem skipMinus_of_digit {c : UInt8} (hc : isDigit c = true) (l : List UInt8) :
    skipMinus (c :: l) = c :: l := by
  apply skipMinus_of_ne
  rintro rfl
  exact absurd hc (by decide)

/-- Sign, digits and decimals are skipped one after another. -/
theorem skipNumber_parts {minus : List UInt8} (hminus : minus = ascii "-" ∨ minus = [] ∧ ds ≠ [])
    (hds : ∀ c ∈ ds, isDigit c = true) (hfrac : IsDecimals frac)
    (hr : ∀ c ∈ r.head?, isDigit c = false ∧ c ≠ 46) :
    skipNumber (minus ++ (ds ++ (frac ++ r))) = skipExponent r := by
  have hend : skipDecimals r = r := by
    cases r with
    | nil => rfl
    | cons c r => exact skipDecimals_of_ne (hr c rfl).2 r
  have hdigits : ∀ c ∈ r.head?, isDigit c = false := fun c hc => (hr c hc).1
  have hdecimals : skipDecimals (skipDigits (ds ++ (frac ++ r))) = r := by
    rcases hfrac with rfl | ⟨ds', hds', rfl⟩
    · rw [List.nil_append, skipDigits, dropWhile_isDigit hds hdigits, hend]
    · have hpoint : skipDigits (ds ++ (46 :: ds' ++ r)) = 46 :: (ds' ++ r) := by
        apply dropWhile_isDigit hds
        intro c hc
        obtain rfl : 46 = c := Option.some.inj hc
        rfl
      rw [hpoint]
      exact dropWhile_isDigit hds' hdigits
  have hskip : skipMinus (minus ++ (ds ++ (frac ++ r))) = ds ++ (frac ++ r) := by
    rcases hminus with rfl | ⟨rfl, hne⟩
    · rfl
    · obtain ⟨d, ds', rfl⟩ := List.exists_cons_of_ne_nil hne
      exact skipMinus_of_digit (hds d List.mem_cons_self) _
  rw [skipNumber, hskip, hdecimals]

/-- The mark of an exponent. -/
theorem of_mem_exponentMarks : ∀ e ∈ ascii "eE", isDigit e = false ∧ e ≠ 46 ∧ (e = 101 ∨ e = 69) :=
  List.forall_iff_forall_mem.mp (by decide)

/-- An exponent is skipped; behind one that lacks the digits of JSON no sign must follow. -/
theorem skipExponent_of_isExponent (hexp : IsExponent exp) (hr : EndsNumber r)
    (hsign : (exp = [] ∨ IsJsonExp exp) ∨ ∀ c ∈ r.head?, c ≠ 43 ∧ c ≠ 45) :
    skipExponent (exp ++ r) = r := by
  rcases hexp with rfl | ⟨e, he, sign, hsigns, ds, hds, rfl⟩
  · exact hr.skip_eq.2
  · have hskip : skipExponent (e :: (sign ++ ds) ++ r) =
        skipDigits (skipSign (sign ++ (ds ++ r))) := by
      rw [List.cons_append, List.append_assoc]
      rcases (of_mem_exponentMarks e he).2.2 with rfl | rfl <;> rfl
    have hdigits : skipDigits (ds ++ r) = r := dropWhile_isDigit hds hr.not_digit
    simp only [List.mem_cons, List.not_mem_nil, or_false] at hsigns
    rw [hskip]
    rcases hsigns with rfl | rfl | rfl
    · have hne : skipSign (ds ++ r) = ds ++ r := by
        cases ds with
        | nil =>
          cases r with
          | nil => rfl
          | cons c r =>
            rcases hsign with (hnil | ⟨e', -, sign, hsigns, ds, hds, heq⟩) | hsign
            · cases hnil
            · -- the exponent of JSON has digits
              obtain ⟨-, hnil⟩ := List.cons.inj heq
              exact absurd (List.append_eq_nil_iff.mp hnil.symm).2 hds.1
            · exact skipSign_of_ne (hsign c rfl).1 (hsign c rfl).2 r
        | cons d ds =>
          obtain hd := hds d List.mem_cons_self
          apply skipSign_of_ne
          · rintro rfl
            exact absurd hd (by decide)
          · rintro rfl
            exact absurd hd (by decide)
      rw [List.nil_append, hne, hdigits]
    · exact hdigits
    · exact hdigits

theorem head_exponent_append (hexp : IsExponent exp) (hr : EndsNumber r) :
    ∀ c ∈ (exp ++ r).head?, isDigit c = false ∧ c ≠ 46 := by
  intro c hc
  rcases hexp with rfl | ⟨e, he, sign, -, ds, -, rfl⟩
  · have hnumber := hr c hc
    simp only [isNumberByte, Bool.or_eq_false_iff, beq_eq_false_iff_ne] at hnumber
    exact ⟨hnumber.1.1.1, hnumber.1.1.2⟩
  · obtain rfl : e = c := Option.some.inj hc
    obtain ⟨hdigit, hpoint, -⟩ := of_mem_exponentMarks e he
    exact ⟨hdigit, hpoint⟩

/-- A number starts with a minus sign or a digit. -/
theorem NumberText.head {n : List UInt8} (h : NumberText n) :
    ∃ c l, n = c :: l ∧ (c = 45 ∨ isDigit c = true) := by
  obtain ⟨minus, ds, frac, exp, rfl, rfl | ⟨rfl, hne⟩, hds, -, -⟩ := h
  · exact ⟨45, _, rfl, Or.inl rfl⟩
  · obtain ⟨d, ds', rfl⟩ := List.exists_cons_of_ne_nil hne
    exact ⟨d, _, rfl, Or.inr (hds d List.mem_cons_self)⟩

theorem parseToken_of_skipNumber {n : List UInt8} (h : NumberText n)
    (hskip : skipNumber (n ++ r) = r) :
    jsonParseToken (n ++ r) = (.number (CString.ofBytes n), r) := by
  obtain ⟨c, l, rfl, hc⟩ := h.head
  rw [List.cons_append, parseToken_of_numberStart hc]
  exact scanNumber_of_skipNumber hskip

/-- **The text of a number token is read as one**, if what follows does not go on it. -/
theorem parseToken_numberText {n : List UInt8} (h : NumberText n) (hr : EndsNumber r)
    (hsign : ∀ c ∈ r.head?, c ≠ 43 ∧ c ≠ 45) :
    jsonParseToken (n ++ r) = (.number (CString.ofBytes n), r) := by
  apply parseToken_of_skipNumber h
  obtain ⟨minus, ds, frac, exp, rfl, hminus, hds, hfrac, hexp⟩ := h
  simp only [List.append_assoc]
  rw [skipNumber_parts hminus hds hfrac (head_exponent_append hexp hr),
    skipExponent_of_isExponent hexp hr (Or.inr hsign)]

/-- The parts of a number of JSON are those of a number token. -/
theorem JsonNumber.parts {n : List UInt8} (h : JsonNumber n) :
    ∃ minus ds frac exp, n = minus ++ (ds ++ (frac ++ exp)) ∧
      (minus = ascii "-" ∨ minus = [] ∧ ds ≠ []) ∧ (∀ c ∈ ds, isDigit c = true) ∧ IsDecimals frac ∧
      IsExponent exp ∧ (exp = [] ∨ IsJsonExp exp) := by
  obtain ⟨minus, int, frac, exp, rfl, hminus, hint, hfrac, hexp⟩ := h
  have hdigits : int ≠ [] ∧ ∀ c ∈ int, isDigit c = true := by
    rcases hint with rfl | ⟨hint, -⟩
    · exact ⟨by decide, List.forall_iff_forall_mem.mp (by decide)⟩
    · exact hint
  refine ⟨minus, int, frac, exp, rfl, ?_, hdigits.2, ?_, ?_, hexp⟩
  · rcases hminus with rfl | rfl
    · exact Or.inr ⟨rfl, hdigits.1⟩
    · exact Or.inl rfl
  · rcases hfrac with rfl | ⟨ds, hds, rfl⟩
    · exact Or.inl rfl
    · exact Or.inr ⟨ds, hds.2, rfl⟩
  · rcases hexp with rfl | ⟨e, he, sign, hsign, ds, hds, rfl⟩
    · exact Or.inl rfl
    · exact Or.inr ⟨e, he, sign, hsign, ds, hds.2, rfl⟩

theorem JsonNumber.numberText {n : List UInt8} (h : JsonNumber n) : NumberText n := by
  obtain ⟨minus, ds, frac, exp, hn, hminus, hds, hfrac, hexp, -⟩ := h.parts
  exact ⟨minus, ds, frac, exp, hn, hminus, hds, hfrac, hexp⟩

/-- **A number of JSON is read as one token.** -/
theorem parseToken_jsonNumber {n : List UInt8} (h : JsonNumber n) (hr : EndsNumber r) :
    jsonParseToken (n ++ r) = (.number (CString.ofBytes n), r) := by
  apply parseToken_of_skipNumber h.numberText
  obtain ⟨minus, ds, frac, exp, rfl, hminus, hds, hfrac, hexp, hdigits⟩ := h.parts
  simp only [List.append_assoc]
  rw [skipNumber_parts hminus hds hfrac (head_exponent_append hexp hr),
    skipExponent_of_isExponent hexp hr (Or.inl hdigits)]

/-! ### Strings -/

theorem ofNat_ne_of_lt {n m : Nat} (h : n ≠ m) (hn : n < 256) (hm : m < 256) :
    UInt8.ofNat n ≠ UInt8.ofNat m := by
  intro heq
  have htoNat := congrArg UInt8.toNat heq
  rw [UInt8.toNat_ofNat_of_lt' hn, UInt8.toNat_ofNat_of_lt' hm] at htoNat
  exact h htoNat

/-- No byte of the encoding of a character is a quote or a backslash, if the character is not. -/
theorem utf8EncodeChar_ne {c : Char} (hquote : c ≠ '"') (hescape : c ≠ '\\') :
    ∀ b ∈ String.utf8EncodeChar c, b ≠ 34 ∧ b ≠ 92 := by
  have hval (d : Char) (h : c ≠ d) : c.val.toNat ≠ d.val.toNat := fun heq =>
    h (Char.ext (UInt32.toNat_inj.mp heq))
  have hlarge (n : Nat) (hn : 128 ≤ n) (hn' : n < 256) : UInt8.ofNat n ≠ 34 ∧ UInt8.ofNat n ≠ 92 :=
    ⟨ofNat_ne_of_lt (m := 34) (by omega) hn' (by decide),
      ofNat_ne_of_lt (m := 92) (by omega) hn' (by decide)⟩
  intro b hb
  rw [String.utf8EncodeChar] at hb
  split_ifs at hb with h1 h2 h3
  · -- one byte is the character itself
    rw [List.mem_singleton] at hb
    subst hb
    exact ⟨ofNat_ne_of_lt (m := 34) (hval _ hquote) (by omega) (by decide),
      ofNat_ne_of_lt (m := 92) (hval _ hescape) (by omega) (by decide)⟩
  all_goals
    simp only [List.mem_cons, List.not_mem_nil, or_false] at hb
  · rcases hb with rfl | rfl <;> exact hlarge _ (by omega) (by omega)
  · rcases hb with rfl | rfl | rfl <;> exact hlarge _ (by omega) (by omega)
  · rcases hb with rfl | rfl | rfl | rfl <;> exact hlarge _ (by omega) (by omega)

/-- The characters of a string of JSON can stand between quotes. -/
theorem JsonChars.quotable {l : List UInt8} (h : JsonChars l) : quotable false l = true := by
  induction h with
  | nil => rfl
  | @unescaped c l _ hquote hescape _ ih =>
    have hbytes := utf8EncodeChar_ne hquote hescape
    generalize String.utf8EncodeChar c = bs at hbytes
    induction bs with
    | nil => exact ih
    | cons b bs ihbs =>
      obtain ⟨h34, h92⟩ := hbytes b List.mem_cons_self
      rw [List.cons_append, quotable_cons h34 h92]
      exact ihbs fun b hb => hbytes b (List.mem_cons_of_mem _ hb)
  | escaped hc _ ih => exact ih
  | @unicode hex l _ hhex _ ih =>
    have hquotable : Luminix.quotable false (hex ++ l) = true := by
      clear * - hhex ih
      induction hex with
      | nil => exact ih
      | cons c hex ihhex =>
        have hc := hhex c List.mem_cons_self
        have hall : ∀ c : UInt8, isHexDigit c = true → c ≠ 34 ∧ c ≠ 92 := by
          intro c hc
          constructor <;> (rintro rfl; exact absurd hc (by decide))
        rw [List.cons_append, quotable_cons (hall c hc).1 (hall c hc).2]
        exact ihhex fun c hc => hhex c (List.mem_cons_of_mem _ hc)
    exact hquotable

/-- Characters that need no escape stand for themselves in a string. -/
theorem jsonChars_of_chars {cs : List Char}
    (h : cs.Forall fun c => 32 ≤ c.toNat ∧ c ≠ '"' ∧ c ≠ '\\') :
    JsonChars (cs.flatMap String.utf8EncodeChar) := by
  induction cs with
  | nil => exact .nil
  | cons c cs ih =>
    rw [List.forall_cons] at h
    obtain ⟨⟨hcontrol, hquote, hescape⟩, hcs⟩ := h
    rw [List.flatMap_cons]
    exact .unescaped hcontrol hquote hescape (ih hcs)

/-! ### White space -/

theorem isSpace_of_blank {a : List UInt8} (ha : IsJsonBlank a) : ∀ c ∈ a, isSpace c = true := by
  intro c hc
  have hall : ∀ c ∈ ascii " \t\n\r", isSpace c = true := List.forall_iff_forall_mem.mp (by decide)
  exact hall c (ha c hc)

theorem parseToken_blank {a : List UInt8} (ha : ∀ c ∈ a, isSpace c = true) (r : List UInt8) :
    jsonParseToken (a ++ r) = jsonParseToken r := by
  have hskip : jsonSkipWhitespace (a ++ r) = jsonSkipWhitespace r := by
    rw [jsonSkipWhitespace, List.dropWhile_append_of_pos ha]
    rfl
  unfold jsonParseToken
  rw [hskip]

theorem endsNumber_blank {a : List UInt8} (ha : ∀ c ∈ a, isSpace c = true) {r : List UInt8}
    (hr : EndsNumber r) : EndsNumber (a ++ r) := by
  cases a with
  | nil => exact hr
  | cons c a =>
    intro d hd
    obtain rfl : c = d := Option.some.inj hd
    have hspace := ha c List.mem_cons_self
    have hall : ∀ c : UInt8, isSpace c = true → isNumberByte c = false := by
      intro c hc
      simp only [isSpace, isNumberByte, isDigit, Bool.or_eq_true, Bool.and_eq_true, beq_iff_eq,
        decide_eq_true_eq, Bool.or_eq_false_iff, Bool.and_eq_false_iff, beq_eq_false_iff_ne,
        decide_eq_false_iff_not, UInt8.le_iff_toNat_le, ← UInt8.toNat_inj, ne_eq,
        UInt8.reduceToNat] at *
      omega
    exact hall c hspace

/-- White space before a text is no token. -/
theorem Lexes.blank_append {v a : List UInt8} {ts : List JsonToken} {o : Bool} (h : Lexes v ts o)
    (ha : ∀ c ∈ a, isSpace c = true) : Lexes (a ++ v) ts o := by
  have hblank : Lexes a [] false := fun r _ => .done (parseToken_blank ha r)
  exact hblank.append h (by simp)

/-- White space behind a text does not close it. -/
theorem Lexes.concat_blank {v b : List UInt8} {ts : List JsonToken} {o : Bool} (h : Lexes v ts o)
    (hb : ∀ c ∈ b, isSpace c = true) : Lexes (v ++ b) ts o := by
  intro r hr
  have hreads := h (b ++ r) fun ho => endsNumber_blank hb (hr ho)
  have hblank : Reads jsonParseToken .none [] (b ++ r) r := .done (parseToken_blank hb r)
  have happend := hreads.append hblank
  rwa [List.append_nil, ← List.append_assoc] at happend

/-! ### Induction -/

/-- A property of texts that the rules of JSON pass on, from the parts of a value to the value. -/
structure JsonClosed (P : List UInt8 → Prop) : Prop where
  word : ∀ l ∈ [ascii "false", ascii "null", ascii "true"], P l
  number : ∀ l, JsonNumber l → P l
  string : ∀ l, JsonChars l → P (34 :: (l ++ [34]))
  emptyObject : ∀ a, IsJsonBlank a → P (123 :: (a ++ [125]))
  object : ∀ l, P l → P (123 :: (l ++ [125]))
  emptyArray : ∀ a, IsJsonBlank a → P (91 :: (a ++ [93]))
  array : ∀ l, P l → P (91 :: (l ++ [93]))
  member : ∀ a key b c v d, IsJsonBlank a → JsonChars key → IsJsonBlank b → IsJsonBlank c → P v →
    IsJsonBlank d → P (a ++ (34 :: (key ++ 34 :: (b ++ 58 :: (c ++ (v ++ d))))))
  element : ∀ a v b, IsJsonBlank a → P v → IsJsonBlank b → P (a ++ (v ++ b))
  append : ∀ l r, P l → P r → P (l ++ 44 :: r)

/-- **Induction over JSON.** -/
theorem JsonClosed.value {P : List UInt8 → Prop} (h : JsonClosed P) {v : List UInt8}
    (hv : JsonValue v) : P v :=
  @JsonValue.rec (fun l _ => P l) (fun l _ => P l) (fun l _ => P l) (fun l _ => P l)
    (fun l _ => P l) (fun hword => h.word _ hword) (fun hnumber => h.number _ hnumber)
    (fun hstring => h.string _ hstring) (fun _ ih => ih) (fun ha => h.emptyArray _ ha)
    (fun _ ih => h.array _ ih) (fun ha => h.emptyObject _ ha) (fun _ ih => h.object _ ih)
    (fun ha hkey hb hc _ hd ih => h.member _ _ _ _ _ _ ha hkey hb hc ih hd) (fun _ ih => ih)
    (fun _ _ ihm ihl => h.append _ _ ihm ihl) (fun ha _ hb ih => h.element _ _ _ ha ih hb)
    (fun {a v b l} ha _ hb _ ihv ihl => by
      have happend := h.append _ _ (h.element _ _ _ ha ihv hb) ihl
      rwa [List.append_assoc, List.append_assoc] at happend) v hv

end Luminix

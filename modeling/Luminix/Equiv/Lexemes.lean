import Luminix.Equiv.JsonTokens

/-!
# The texts of tokens

`json_parse_token` skips white space and then reads the text of one token (`Lexeme`), or finds the
end of the text, a string without an end, or a character that no token starts with (`Scanned`).  A
number is read as far as it goes (`length_skipNumber_le`).
-/

namespace Luminix

open CLib TokenReader

/-- What a token is written as, if white space is left out. -/
def JsonToken.text : JsonToken → List UInt8
  | .objectStart => ascii "\x7b"
  | .objectEnd => ascii "\x7d"
  | .arrayStart => ascii "["
  | .arrayEnd => ascii "]"
  | .colon => ascii ":"
  | .comma => ascii ","
  | .boolean true => ascii "true"
  | .boolean false => ascii "false"
  | .null => ascii "null"
  | .number v => v.bytes
  | .string v => 34 :: (v.bytes ++ [34])
  | .none | .eof => []

/-- The tokens with a fixed text. -/
def fixedTokens : List JsonToken :=
  [.objectStart, .objectEnd, .arrayStart, .arrayEnd, .colon, .comma, .boolean true, .boolean false,
    .null]

/-- The token is read off the text. -/
inductive Lexeme : JsonToken → List UInt8 → Prop
  | fixed {t : JsonToken} (ht : t ∈ fixedTokens) : Lexeme t t.text
  | number {n : List UInt8} (hn : NumberText n) : Lexeme (.number (CString.ofBytes n)) n
  | string {body : List UInt8} (hbody : quotable false body = true) :
      Lexeme (.string (CString.ofBytes body)) (34 :: (body ++ [34]))

/-- A text without a quote that would end a string. -/
def Unclosed (l : List UInt8) : Prop :=
  ¬∃ body r, quotable false body = true ∧ l = body ++ 34 :: r

/-! ### Parts of a number -/

theorem exists_minus (c : UInt8) (l : List UInt8) (hc : c = 45 ∨ isDigit c = true) :
    ∃ minus ds, c :: l = minus ++ (ds ++ skipDigits (skipMinus (c :: l))) ∧
      (minus = ascii "-" ∨ minus = [] ∧ ds ≠ []) ∧ ∀ d ∈ ds, isDigit d = true := by
  rcases hc with rfl | hc
  · refine ⟨ascii "-", l.takeWhile isDigit, ?_, Or.inl rfl, fun d => List.mem_takeWhile_imp⟩
    exact congrArg (45 :: ·) (List.takeWhile_append_dropWhile (p := isDigit)).symm
  · refine ⟨[], (c :: l).takeWhile isDigit, ?_, Or.inr ⟨rfl, ?_⟩, fun d => List.mem_takeWhile_imp⟩
    · rw [skipMinus_of_digit hc]
      exact (List.takeWhile_append_dropWhile (p := isDigit)).symm
    · rw [List.takeWhile_cons_of_pos hc]
      exact List.cons_ne_nil _ _

theorem exists_decimals (l : List UInt8) : ∃ frac, IsDecimals frac ∧ l = frac ++ skipDecimals l := by
  unfold skipDecimals
  split
  · next l =>
    refine ⟨46 :: l.takeWhile isDigit, Or.inr ⟨_, fun c => List.mem_takeWhile_imp, rfl⟩, ?_⟩
    exact congrArg (46 :: ·) (List.takeWhile_append_dropWhile (p := isDigit)).symm
  · exact ⟨[], Or.inl rfl, rfl⟩

theorem exists_sign (l : List UInt8) :
    ∃ sign ∈ [[], ascii "+", ascii "-"], l = sign ++ skipSign l := by
  unfold skipSign
  split
  · exact ⟨ascii "+", by simp, rfl⟩
  · exact ⟨ascii "-", by simp, rfl⟩
  · exact ⟨[], by simp, rfl⟩

theorem exists_exponent (l : List UInt8) : ∃ exp, IsExponent exp ∧ l = exp ++ skipExponent l := by
  have hexponent (e : UInt8) (he : e ∈ ascii "eE") (l : List UInt8) :
      ∃ exp, IsExponent exp ∧ e :: l = exp ++ skipDigits (skipSign l) := by
    obtain ⟨sign, hsign, hl⟩ := exists_sign l
    refine ⟨e :: (sign ++ (skipSign l).takeWhile isDigit),
      Or.inr ⟨e, he, sign, hsign, _, fun c => List.mem_takeWhile_imp, rfl⟩, ?_⟩
    calc e :: l = e :: (sign ++ skipSign l) := congrArg (e :: ·) hl
      _ = e :: (sign ++ ((skipSign l).takeWhile isDigit ++ skipDigits (skipSign l))) := by
        rw [skipDigits, List.takeWhile_append_dropWhile]
      _ = e :: (sign ++ (skipSign l).takeWhile isDigit) ++ skipDigits (skipSign l) := by simp
  unfold skipExponent
  split
  · exact hexponent 101 (by decide) _
  · exact hexponent 69 (by decide) _
  · exact ⟨[], Or.inl rfl, rfl⟩

/-- **What is skipped as a number is the text of a number token.** -/
theorem exists_numberText {c : UInt8} (hc : c = 45 ∨ isDigit c = true) (l : List UInt8) :
    ∃ n, NumberText n ∧ c :: l = n ++ skipNumber (c :: l) := by
  obtain ⟨minus, ds, hl, hminus, hds⟩ := exists_minus c l hc
  obtain ⟨frac, hfrac, hdecimals⟩ := exists_decimals (skipDigits (skipMinus (c :: l)))
  obtain ⟨exp, hexp, hexponent⟩ := exists_exponent (skipDecimals (skipDigits (skipMinus (c :: l))))
  refine ⟨minus ++ (ds ++ (frac ++ exp)), ⟨minus, ds, frac, exp, rfl, hminus, hds, hfrac, hexp⟩, ?_⟩
  calc c :: l = minus ++ (ds ++ (frac ++ (exp ++ skipNumber (c :: l)))) := by
        rw [skipNumber, ← hexponent, ← hdecimals, ← hl]
    _ = minus ++ (ds ++ (frac ++ exp)) ++ skipNumber (c :: l) := by simp

/-- The digits of an exponent are skipped, and maybe more. -/
theorem length_skipExponent_le {exp : List UInt8} (hexp : IsExponent exp) (r : List UInt8) :
    (skipExponent (skipDigits (exp ++ r))).length ≤ r.length ∧
      (skipExponent (skipDecimals (skipDigits (exp ++ r)))).length ≤ r.length := by
  rcases hexp with rfl | ⟨e, he, sign, hsign, ds, hds, rfl⟩
  · have hdigits := skipDigits_suffix r
    exact ⟨((skipExponent_suffix _).trans hdigits).length_le,
      ((skipExponent_suffix _).trans ((skipDecimals_suffix _).trans hdigits)).length_le⟩
  · obtain ⟨hdigit, hpoint, hcases⟩ := of_mem_exponentMarks e he
    have hstay : skipDigits (e :: (sign ++ ds) ++ r) = e :: (sign ++ (ds ++ r)) := by
      rw [List.cons_append, List.append_assoc]
      exact List.dropWhile_cons_of_neg (by simp [hdigit])
    have hskip : skipExponent (e :: (sign ++ (ds ++ r))) =
        skipDigits (skipSign (sign ++ (ds ++ r))) := by
      rcases hcases with rfl | rfl <;> rfl
    have hdigits : (skipDigits (ds ++ r)).length ≤ r.length := by
      have heq : skipDigits (ds ++ r) = skipDigits r := List.dropWhile_append_of_pos hds
      rw [heq]
      exact (skipDigits_suffix r).length_le
    have hlength : (skipDigits (skipSign (sign ++ (ds ++ r)))).length ≤ r.length := by
      simp only [List.mem_cons, List.not_mem_nil, or_false] at hsign
      rcases hsign with rfl | rfl | rfl
      · cases ds with
        | nil => exact ((skipDigits_suffix _).trans (skipSign_suffix r)).length_le
        | cons d ds =>
          have hd := hds d List.mem_cons_self
          have hne : skipSign ([] ++ (d :: ds ++ r)) = d :: ds ++ r := by
            apply skipSign_of_ne
            · rintro rfl
              exact absurd hd (by decide)
            · rintro rfl
              exact absurd hd (by decide)
          rwa [hne]
      · exact hdigits
      · exact hdigits
    rw [hstay, skipDecimals_of_ne hpoint, hskip]
    exact ⟨hlength, hlength⟩

/-- **A number is read as far as it goes**: to the end of any number that the text starts with. -/
theorem length_skipNumber_le {n : List UInt8} (h : NumberText n) (r : List UInt8) :
    (skipNumber (n ++ r)).length ≤ r.length := by
  obtain ⟨minus, ds, frac, exp, rfl, hminus, hds, hfrac, hexp⟩ := h
  obtain ⟨hexponent, hrest⟩ := length_skipExponent_le hexp r
  have hskip : skipMinus (minus ++ (ds ++ (frac ++ (exp ++ r)))) = ds ++ (frac ++ (exp ++ r)) := by
    rcases hminus with rfl | ⟨rfl, hne⟩
    · rfl
    · obtain ⟨d, ds', rfl⟩ := List.exists_cons_of_ne_nil hne
      exact skipMinus_of_digit (hds d List.mem_cons_self) _
  have hdigits : skipDigits (ds ++ (frac ++ (exp ++ r))) = skipDigits (frac ++ (exp ++ r)) :=
    List.dropWhile_append_of_pos hds
  simp only [List.append_assoc]
  rw [skipNumber, hskip, hdigits]
  rcases hfrac with rfl | ⟨ds', hds', rfl⟩
  · exact hrest
  · have hpoint : skipDecimals (skipDigits (46 :: ds' ++ (exp ++ r))) = skipDigits (exp ++ r) :=
      List.dropWhile_append_of_pos hds'
    rwa [hpoint]

theorem IsExponent.take {exp : List UInt8} (h : IsExponent exp) (m : Nat) :
    IsExponent (exp.take m) := by
  rcases h with rfl | ⟨e, he, sign, hsign, ds, hds, rfl⟩
  · exact .inl List.take_nil
  · cases m with
    | zero => exact .inl rfl
    | succ m =>
      have hsigns : sign.take m ∈ [[], ascii "+", ascii "-"] := by
        have hone : ∀ sign ∈ [[], ascii "+", ascii "-"], sign.length ≤ 1 := by decide
        cases m with
        | zero => exact List.mem_cons_self
        | succ m =>
          have hle := hone sign hsign
          rwa [List.take_of_length_le (by omega)]
      refine .inr ⟨e, he, sign.take m, hsigns, ds.take (m - sign.length),
        fun c hc => hds c (List.mem_of_mem_take hc), ?_⟩
      rw [List.take_succ_cons, List.take_append]

/-- A number that is cut off is still one. -/
theorem NumberText.take {n : List UInt8} (h : NumberText n) (m : Nat) :
    NumberText (n.take (m + 1)) := by
  obtain ⟨minus, ds, frac, exp, rfl, hminus, hds, hfrac, hexp⟩ := h
  refine ⟨minus.take (m + 1), ds.take (m + 1 - minus.length),
    frac.take (m + 1 - minus.length - ds.length),
    exp.take (m + 1 - minus.length - ds.length - frac.length), ?_, ?_,
    fun c hc => hds c (List.mem_of_mem_take hc), hfrac.take _, hexp.take _⟩
  · rw [List.take_append, List.take_append, List.take_append]
  · rcases hminus with rfl | ⟨rfl, hne⟩
    · have hone : (ascii "-").length ≤ 1 := by decide
      exact .inl (List.take_of_length_le (by omega))
    · exact .inr ⟨List.take_nil, by simpa using hne⟩

/-! ### Inversion -/

/-- A closed quotation is what the loop over a string reads. -/
theorem stringBody_eq {e : Bool} {l body rest : List UInt8} {q : UInt8}
    (h : stringBody e l = (body, q :: rest)) :
    quotable e body = true ∧ l = body ++ 34 :: rest := by
  induction l generalizing e body with
  | nil => cases e <;> cases h
  | cons c l ih =>
    cases e with
    | true =>
      rw [stringBody] at h
      obtain ⟨rfl, hrest⟩ := Prod.mk.inj h
      obtain ⟨hquotable, hl⟩ := ih (Prod.ext rfl hrest)
      exact ⟨hquotable, congrArg (c :: ·) hl⟩
    | false =>
      rw [stringBody] at h
      split_ifs at h with hc
      · obtain ⟨rfl, hrest⟩ := Prod.mk.inj h
        obtain ⟨-, rfl⟩ := List.cons.inj hrest
        exact ⟨rfl, congrArg (· :: l) hc⟩
      · obtain ⟨rfl, hrest⟩ := Prod.mk.inj h
        obtain ⟨hquotable, hl⟩ := ih (Prod.ext rfl hrest)
        refine ⟨?_, congrArg (c :: ·) hl⟩
        rw [quotable, hquotable, Bool.and_true, bne_iff_ne]
        exact hc

/-- What `json_parse_token` finds in a text. -/
inductive Scanned (l : List UInt8) : JsonToken × List UInt8 → Prop
  | eof (hl : ∀ c ∈ l, isSpace c = true) : Scanned l (.eof, [])
  | token {a v r : List UInt8} {t : JsonToken} (ha : ∀ c ∈ a, isSpace c = true) (hv : Lexeme t v)
      (hl : l = a ++ (v ++ r)) : Scanned l (t, r)
  | unclosed {a b : List UInt8} (ha : ∀ c ∈ a, isSpace c = true) (hb : Unclosed b)
      (hl : l = a ++ 34 :: b) : Scanned l (.none, [])
  | stuck {a r : List UInt8} {c : UInt8} (ha : ∀ c ∈ a, isSpace c = true)
      (hc : isSpace c = false) (hl : l = a ++ c :: r) : Scanned l (.none, c :: r)

/-- A string that is not read to an end has none. -/
theorem unclosed_iff (l : List UInt8) : Unclosed l ↔ (stringBody false l).2 = [] := by
  constructor
  · intro h
    rcases hbody : stringBody false l with ⟨body, _ | ⟨q, r⟩⟩
    · rfl
    · exact absurd ⟨body, r, stringBody_eq hbody⟩ h
  · rintro h ⟨body, r, hquotable, rfl⟩
    rw [stringBody_of_quotable hquotable] at h
    cases h

theorem parseToken_unclosed {b : List UInt8} (h : Unclosed b) :
    jsonParseToken (34 :: b) = (.none, []) := by
  have hbody := (unclosed_iff b).mp h
  show scanString b = _
  unfold scanString
  split
  · next heq =>
    rw [heq] at hbody
    cases hbody
  · rfl

/-- **One call of `json_parse_token`.** -/
theorem scanned (l : List UInt8) : Scanned l (jsonParseToken l) := by
  have ha : ∀ c ∈ l.takeWhile isSpace, isSpace c = true := fun c => List.mem_takeWhile_imp
  have hl : l = l.takeWhile isSpace ++ jsonSkipWhitespace l :=
    (List.takeWhile_append_dropWhile (p := isSpace)).symm
  have hfixed {t : JsonToken} {r : List UInt8} (ht : t ∈ fixedTokens)
      (hskip : jsonSkipWhitespace l = t.text ++ r) : Scanned l (t, r) :=
    .token ha (.fixed ht) (hskip ▸ hl)
  have hstuck {c : UInt8} {r : List UInt8} (hskip : jsonSkipWhitespace l = c :: r) :
      Scanned l (.none, c :: r) := by
    have hdrop : l.dropWhile isSpace = c :: r := hskip
    have hne : l.dropWhile isSpace ≠ [] := by
      rw [hdrop]
      exact List.cons_ne_nil c r
    have hhead := List.head_dropWhile_not isSpace hne
    simp only [hdrop, List.head_cons] at hhead
    exact .stuck ha hhead (hskip ▸ hl)
  have hword {c : UInt8} {r : List UInt8} {t : JsonToken} (ht : t ∈ fixedTokens)
      (hskip : jsonSkipWhitespace l = c :: r) : Scanned l (scanWord t.text t (c :: r)) := by
    unfold scanWord jsonMatchString
    by_cases hpre : t.text.isPrefixOf (c :: r) = true
    · obtain ⟨r', hr'⟩ := List.isPrefixOf_iff_prefix.mp hpre
      rw [if_pos hpre, ← hr', List.drop_left]
      exact hfixed ht (hskip.trans hr'.symm)
    · rw [if_neg hpre]
      exact hstuck hskip
  generalize hres : jsonParseToken l = res
  unfold jsonParseToken at hres
  split at hres
  case h_1 hskip =>
    subst hres
    exact .eof (List.dropWhile_eq_nil_iff.mp hskip)
  case h_8 r hskip =>
    subst hres
    unfold scanString
    split
    · next body q rest hbody =>
      obtain ⟨hquotable, rfl⟩ := stringBody_eq hbody
      refine .token ha (.string hquotable) ?_
      rw [List.cons_append, List.append_assoc, List.singleton_append, ← hskip]
      exact hl
    · next hbody => exact .unclosed ha ((unclosed_iff r).mpr (by rw [hbody])) (hskip ▸ hl)
  case h_9 hskip => exact hres ▸ hword (t := .boolean true) (by decide) hskip
  case h_10 hskip => exact hres ▸ hword (t := .boolean false) (by decide) hskip
  case h_11 hskip => exact hres ▸ hword (t := .null) (by decide) hskip
  case h_12 c r _ _ _ _ _ _ _ _ _ _ hskip =>
    subst hres
    split_ifs with hnumber
    · rw [Bool.or_eq_true, beq_iff_eq] at hnumber
      obtain ⟨n, hn, hr⟩ := exists_numberText hnumber r
      generalize hrest : skipNumber (c :: r) = rest at hr
      have hscan := scanNumber_of_skipNumber (n := n) (r := rest) (by rw [← hr, hrest])
      rw [hr, hscan]
      exact .token ha (.number hn) (hr ▸ hskip ▸ hl)
    · exact hstuck hskip
  all_goals
    next hskip =>
    subst hres
    exact hfixed (by decide) hskip

/-- The token of a text is neither the end of the text nor bad. -/
theorem Lexeme.proper {t : JsonToken} {v : List UInt8} (h : Lexeme t v) : t ≠ .none ∧ t ≠ .eof := by
  cases h with
  | fixed ht =>
    have hall : ∀ t ∈ fixedTokens, t ≠ .none ∧ t ≠ .eof := by decide
    exact hall t ht
  | number => exact ⟨by simp, by simp⟩
  | string => exact ⟨by simp, by simp⟩

/-- The end of the text is read where only white space is left. -/
theorem parseToken_eof_iff (l : List UInt8) :
    (jsonParseToken l).1 = .eof ↔ ∀ c ∈ l, isSpace c = true := by
  constructor
  · intro h
    have hscanned := scanned l
    generalize jsonParseToken l = res at hscanned h
    cases hscanned with
    | eof hl => exact hl
    | token _ hv => exact absurd h hv.proper.2
    | unclosed => cases h
    | stuck => cases h
  · intro h
    have hblank := parseToken_blank h []
    rw [List.append_nil] at hblank
    rw [hblank]
    rfl

/-! ### The text of a token -/

variable {t : JsonToken} {v r : List UInt8}

/-- The characters of a number. -/
theorem NumberText.mem {n : List UInt8} (h : NumberText n) {c : UInt8} (hc : c ∈ n) :
    isDigit c = true ∨ c ∈ ascii "-+.eE" := by
  have hsigns : ∀ l ∈ [[], ascii "+", ascii "-"], ∀ c ∈ l, c ∈ ascii "-+.eE" := by
    simp only [← List.forall_iff_forall_mem]
    decide
  have he : ∀ e ∈ ascii "eE", e ∈ ascii "-+.eE" := List.forall_iff_forall_mem.mp (by decide)
  obtain ⟨minus, ds, frac, exp, rfl, hminus, hds, hfrac, hexp⟩ := h
  simp only [List.mem_append] at hc
  rcases hc with hc | hc | hc | hc
  · rcases hminus with rfl | ⟨rfl, -⟩
    · exact Or.inr (hsigns _ (by simp) c hc)
    · exact absurd hc List.not_mem_nil
  · exact Or.inl (hds c hc)
  · rcases hfrac with rfl | ⟨ds', hds', rfl⟩
    · exact absurd hc List.not_mem_nil
    · rcases List.mem_cons.mp hc with rfl | hc
      · exact Or.inr (by decide)
      · exact Or.inl (hds' c hc)
  · rcases hexp with rfl | ⟨e, hemem, sign, hsign, ds', hds', rfl⟩
    · exact absurd hc List.not_mem_nil
    · rcases List.mem_cons.mp hc with rfl | hc
      · exact Or.inr (he c hemem)
      · rcases List.mem_append.mp hc with hc | hc
        · exact Or.inr (hsigns sign hsign c hc)
        · exact Or.inl (hds' c hc)

/-- They are no white space and no quotes. -/
theorem NumberText.notSpace {n : List UInt8} (h : NumberText n) :
    ∀ c ∈ n, isSpace c = false ∧ c ≠ 34 := by
  have hdigit (c : UInt8) (hc : isDigit c = true) : isSpace c = false ∧ c ≠ 34 := by
    refine ⟨isSpace_of_isDigit hc, ?_⟩
    rintro rfl
    exact absurd hc (by decide)
  have hmark : ∀ c ∈ ascii "-+.eE", isSpace c = false ∧ c ≠ 34 :=
    List.forall_iff_forall_mem.mp (by decide)
  intro c hc
  exact (h.mem hc).elim (hdigit c) (hmark c)

/-- Only a string has quotes or white space in its text. -/
theorem notSpace_of_fixed (ht : t ∈ fixedTokens) : ∀ c ∈ t.text, isSpace c = false ∧ c ≠ 34 := by
  have hall : ∀ t ∈ fixedTokens, ∀ c ∈ t.text, isSpace c = false ∧ c ≠ 34 := by
    simp only [← List.forall_iff_forall_mem]
    decide
  exact hall t ht

/-- A token without a NUL in its text is written as it was read. -/
theorem Lexeme.text_eq (h : Lexeme t v) (hzero : (0 : UInt8) ∉ v) : t.text = v := by
  cases h with
  | fixed => rfl
  | number => exact CString.bytes_ofBytes hzero
  | @string body _ =>
    have hbody : (0 : UInt8) ∉ body := fun hmem =>
      hzero (List.mem_cons_of_mem _ (List.mem_append_left _ hmem))
    rw [JsonToken.text, CString.bytes_ofBytes hbody]

theorem Lexeme.ne_nil (h : Lexeme t v) : v ≠ [] := by
  cases h with
  | fixed ht =>
    have hall : ∀ t ∈ fixedTokens, t.text ≠ [] := by decide
    exact hall t ht
  | number hn =>
    obtain ⟨c, l, rfl, -⟩ := hn.head
    exact List.cons_ne_nil c l
  | string => exact List.cons_ne_nil _ _

/-- The first character of a token is no white space. -/
theorem Lexeme.notSpace_head (h : Lexeme t v) : ∀ c ∈ v.head?, isSpace c = false := by
  intro c hc
  cases h with
  | fixed ht => exact (notSpace_of_fixed ht c (List.mem_of_mem_head? hc)).1
  | number hn => exact (hn.notSpace c (List.mem_of_mem_head? hc)).1
  | string =>
    obtain rfl : 34 = c := Option.some.inj hc
    rfl

/-- No longer number than `v` starts the text. -/
def Longest (v r : List UInt8) : Prop := ∀ c ∈ r.head?, NumberText v → ¬NumberText (v ++ [c])

theorem skipNumber_of_longest (hv : NumberText v) (h : Longest v r) : skipNumber (v ++ r) = r := by
  obtain ⟨c, l, hcons, hc⟩ := hv.head
  obtain ⟨n, hn, hnr⟩ := exists_numberText hc (l ++ r)
  rw [← List.cons_append, ← hcons] at hnr
  have hle := length_skipNumber_le hv r
  have hlength := congrArg List.length hnr
  rw [List.length_append, List.length_append] at hlength
  -- what is read starts with `v`, and would start with the next character behind it as well
  have hpre : v <+: n :=
    List.prefix_of_prefix_length_le ⟨r, rfl⟩ ⟨_, hnr.symm⟩ (by omega)
  obtain ⟨x, rfl⟩ := hpre
  rw [List.append_assoc] at hnr
  have hr := List.append_cancel_left hnr
  cases x with
  | nil => exact hr.symm
  | cons d x =>
    refine absurd ?_ (h d (by rw [hr]; rfl) hv)
    have htake := hn.take v.length
    rwa [List.take_append, List.take_of_length_le (by omega), Nat.add_sub_cancel_left] at htake

/-- **The text of a token is read as the token**, if no longer number starts with it. -/
theorem Lexeme.parseToken (h : Lexeme t v) (hr : Longest v r) :
    jsonParseToken (v ++ r) = (t, r) := by
  cases h with
  | fixed ht =>
    simp only [fixedTokens, List.mem_cons, List.not_mem_nil, or_false] at ht
    rcases ht with rfl | rfl | rfl | rfl | rfl | rfl | rfl | rfl | rfl <;> rfl
  | number hn => exact parseToken_of_skipNumber hn (skipNumber_of_longest hn hr)
  | string hbody =>
    rw [List.cons_append, List.append_assoc, List.singleton_append]
    exact parseToken_quoted hbody r

/-- The reader leaves no longer number. -/
theorem longest_of_parseToken (h : (jsonParseToken (v ++ r)).2 = r) : Longest v r := by
  intro c hc hv hlonger
  obtain ⟨d, l, hcons, hd⟩ := hv.head
  obtain ⟨r', rfl⟩ : ∃ r', r = c :: r' := by
    cases r with
    | nil => cases hc
    | cons d r' => exact ⟨r', by rw [Option.some.inj hc]⟩
  have hscan : (jsonParseToken (v ++ c :: r')).2 = skipNumber (v ++ c :: r') := by
    rw [hcons, List.cons_append, parseToken_of_numberStart hd]
    rfl
  have hle := length_skipNumber_le hlonger r'
  rw [List.append_assoc, List.singleton_append, ← hscan, h, List.length_cons] at hle
  omega

end Luminix
